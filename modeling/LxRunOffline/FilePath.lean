import LxRunOffline.Error
import LxRunOffline.PrefixMatcher

/-! The path classes of path.cpp. A wsl path keeps its `data` as the base directory and the
part behind it, so `base_len` is the length of the first; the code changes only the second.
The base of a linux path is empty. -/
namespace LxRunOffline

structure LinuxPath where
  data : Wstr
  skip : Bool
  matcher : PrefixMatcher

structure WslPath where
  base : Wstr
  rel : Wstr
  deriving DecidableEq, Repr

structure WslLegacyPath extends WslPath where
  matcher1 : PrefixMatcher
  matcher2 : PrefixMatcher

inductive FilePath where
  | linux (p : LinuxPath)
  | wslV1 (p : WslPath)
  | wslV2 (p : WslPath)
  | wslLegacy (p : WslLegacyPath)

namespace LinuxPath

def patterns : List Wstr := [wstr "rootfs/"]

def new : LinuxPath := ⟨[],false,PrefixMatcher.new patterns⟩

def rootPathSlash (rootPath : Wstr) : Wstr :=
  if rootPath.getLast? ≠ some slash then rootPath ++ [slash] else rootPath

/- `path.compare(0, prefix.size(), prefix)` with the root completed by one slash. -/
def stripRoot (path rootPath : Wstr) : Option Wstr :=
  if rootPath.isEmpty then some path
  else if path.take (rootPathSlash rootPath).length ≠ rootPathSlash rootPath then none
  else some (path.drop (rootPathSlash rootPath).length)

def sizeSub (a b : Nat) : Nat := if b ≤ a then a-b else a+0x10000000000000000-b

def rfind (data : Wstr) (c : WChar) (pos : Nat) : Option Nat :=
  ((data.take (pos+1)).reverse.idxOf? c).map fun k => (data.take (pos+1)).length - 1 - k

def parent (data : Wstr) : Wstr :=
  if data.isEmpty then data else
    match rfind data slash (sizeSub data.length 2) with
    | none => []
    | some sp => data.take (sp+1)

/- The loop over the name, with the units still to be skipped of a `pos += n`. -/
def scan : Nat → Bool → Wstr → Wstr → Wstr
  | _,_,data,[] => data
  | skipped+1,cb,data,_ :: rest => scan skipped cb data rest
  | 0,cb,data,c :: rest =>
    if cb && c == slash then scan 0 cb data rest
    else if cb && (c :: rest).take 2 == wstr "./" then scan 1 cb data rest
    else if cb && (c :: rest).take 3 == wstr "../" then scan 2 cb (parent data) rest
    else scan 0 (c == slash) (data ++ [c]) rest

def ofName (path rootPath : Wstr) : LinuxPath :=
  match stripRoot path rootPath with
  | none => {new with skip := true}
  | some rest =>
    let data := scan 0 true [] rest
    {new with data := data, skip := data.isEmpty}

def append (p : LinuxPath) (c : WChar) : Bool × LinuxPath :=
  match p.matcher.move c with
  | (.failed,m) => (false,{p with matcher := m})
  | (.succeeded,m) => (true,{p with matcher := m, data := []})
  | (.unknown,m) => (true,{p with matcher := m, data := if c ≠ 0 then p.data ++ [c] else p.data})

def reset (p : LinuxPath) : LinuxPath := {p with data := [], matcher := p.matcher.reset}

end LinuxPath

namespace WslPath

def isSpecialInput (c : WChar) : Bool :=
  (1 ≤ c && c ≤ 31) || (wstr "<>:\"\\|*?").contains c

def append (special : WChar → Bool) (appendSpecial : WChar → Wstr) (p : WslPath) (c : WChar) :
    WslPath :=
  if special c then {p with rel := p.rel ++ appendSpecial c}
  else if c == slash then {p with rel := p.rel ++ [backslash]}
  else if c ≠ 0 then {p with rel := p.rel ++ [c]}
  else p

def reset (p : WslPath) : WslPath := {p with rel := []}

end WslPath

namespace WslV1Path

def isSpecialInput (c : WChar) : Bool := WslPath.isSpecialInput c || c == hash
def isSpecialOutput (c : WChar) : Bool := c == hash

def hexDigit (n : Nat) : WChar := (if n < 10 then 48+n else 55+n).toUInt16

def appendSpecial (c : WChar) : Wstr :=
  [hash,hexDigit (c.toNat/4096),hexDigit (c.toNat/256%16),hexDigit (c.toNat/16%16),
    hexDigit (c.toNat%16)]

def append : WslPath → WChar → WslPath := WslPath.append isSpecialInput appendSpecial

def isSpace (c : WChar) : Bool := c == 32 || (9 ≤ c && c ≤ 13)

def hexValue (c : WChar) : Option Nat :=
  if 48 ≤ c && c ≤ 57 then some (c.toNat-48)
  else if 65 ≤ c && c ≤ 70 then some (c.toNat-55)
  else if 97 ≤ c && c ≤ 102 then some (c.toNat-87)
  else none

def hexRun (found : Bool) (value : Nat) : Wstr → Option Nat
  | [] => if found then some value else none
  | c :: rest => match hexValue c with
    | some d => hexRun true (value*16+d) rest
    | none => if found then some value else none

def hexPrefix (s : Wstr) : Wstr :=
  if (s.take 2 == wstr "0x" || s.take 2 == wstr "0X") && ((s.drop 2).head?.bind hexValue).isSome
  then s.drop 2 else s

/- `std::stoi` with base 16: white space, a sign, a prefix `0x`, then at least one digit. -/
def stoi (s : Wstr) : Option Int :=
  let s := s.dropWhile isSpace
  if s.head? = some 0x2d then (hexRun false 0 (hexPrefix (s.drop 1))).map fun n => -(n : Int)
  else if s.head? = some 0x2b then (hexRun false 0 (hexPrefix (s.drop 1))).map Int.ofNat
  else (hexRun false 0 (hexPrefix s)).map Int.ofNat

def convertSpecial (_ : WChar) (rest : Wstr) : Except Stop (WChar × Nat) :=
  match stoi (rest.take 4) with
  | none => .error .invalidArgument
  | some n => .ok ((n % 65536).toNat.toUInt16,4)

end WslV1Path

namespace WslV2Path

def isSpecialOutput (c : WChar) : Bool := WslPath.isSpecialInput (c ^^^ 0xf000)
def appendSpecial (c : WChar) : Wstr := [c ||| 0xf000]
def append : WslPath → WChar → WslPath := WslPath.append WslPath.isSpecialInput appendSpecial
def convertSpecial (c : WChar) (_ : Wstr) : Except Stop (WChar × Nat) := .ok (c ^^^ 0xf000,0)

end WslV2Path

namespace WslLegacyPath

def patterns1 : List Wstr :=
  [wstr "home/",wstr "root/",wstr "mnt/",wstr "home\x00",wstr "root\x00",wstr "mnt\x00"]
def patterns2 : List Wstr := [wstr "rootfs/home/",wstr "rootfs/root/",wstr "rootfs/mnt/"]

def new (base : Wstr) : WslLegacyPath :=
  ⟨⟨base,[]⟩,PrefixMatcher.new patterns1,PrefixMatcher.new patterns2⟩

def append (p : WslLegacyPath) (c : WChar) : Bool × WslLegacyPath :=
  let w := WslV1Path.append p.toWslPath c
  match p.matcher1.move c with
  | (.succeeded,m1) => (false,{p with toWslPath := w, matcher1 := m1})
  | (_,m1) => match p.matcher2.move c with
    | (.succeeded,m2) => (true,⟨{w with rel := w.rel.drop 7},m1,m2⟩)
    | (_,m2) => (true,⟨w,m1,m2⟩)

def reset (p : WslLegacyPath) : WslLegacyPath :=
  ⟨p.toWslPath.reset,p.matcher1.reset,p.matcher2.reset⟩

def shadowed (rel : Wstr) : Bool :=
  rel.take 12 == wstr "rootfs\\root\\" || rel.take 12 == wstr "rootfs\\home\\" ||
  rel.take 11 == wstr "rootfs\\mnt\\" || rel == wstr "rootfs\\root" ||
  rel == wstr "rootfs\\home" || rel == wstr "rootfs\\mnt"

def relocated (rel : Wstr) : Bool :=
  rel.take 5 == wstr "root\\" || rel.take 5 == wstr "home\\" || rel.take 4 == wstr "mnt\\"

end WslLegacyPath

namespace FilePath

def base : FilePath → Wstr
  | linux _ => []
  | wslV1 p => p.base
  | wslV2 p => p.base
  | wslLegacy p => p.base

def rel : FilePath → Wstr
  | linux p => p.data
  | wslV1 p => p.rel
  | wslV2 p => p.rel
  | wslLegacy p => p.rel

def data (p : FilePath) : Wstr := p.base ++ p.rel

def withRel : FilePath → Wstr → FilePath
  | linux p,rel => linux {p with data := rel}
  | wslV1 p,rel => wslV1 {p with rel := rel}
  | wslV2 p,rel => wslV2 {p with rel := rel}
  | wslLegacy p,rel => wslLegacy {p with rel := rel}

def append : FilePath → WChar → Bool × FilePath
  | linux p,c => ((p.append c).1,linux (p.append c).2)
  | wslV1 p,c => (true,wslV1 (WslV1Path.append p c))
  | wslV2 p,c => (true,wslV2 (WslV2Path.append p c))
  | wslLegacy p,c => ((p.append c).1,wslLegacy (p.append c).2)

def appendText (p : FilePath) : Wstr → Bool × FilePath
  | [] => (true,p)
  | c :: rest => match p.append c with
    | (true,next) => next.appendText rest
    | (false,next) => (false,next)

def reset : FilePath → FilePath
  | linux p => linux p.reset
  | wslV1 p => wslV1 p.reset
  | wslV2 p => wslV2 p.reset
  | wslLegacy p => wslLegacy p.reset

def put (c : WChar) : Program Stop FilePath Bool := fun out =>
  (.ok (out.append c).1,(out.append c).2)
def putText (s : Wstr) : Program Stop FilePath Bool := fun out =>
  (.ok (out.appendText s).1,(out.appendText s).2)

def linuxConvert (p : LinuxPath) : Program Stop FilePath Bool :=
  if p.skip then pure false else do
    Program.modify reset
    Program.both (putText (wstr "rootfs/")) (Program.both (putText p.data) (put 0))

/- The loop over the data, with the units still to be skipped of an `i += n`. -/
def realConvert (special : WChar → Bool)
    (convertSpecial : WChar → Wstr → Except Stop (WChar × Nat)) :
    Nat → Wstr → Program Stop FilePath Bool
  | _,[] => put 0
  | skipped+1,_ :: rest => realConvert special convertSpecial skipped rest
  | 0,c :: rest =>
    if special c then
      match convertSpecial c rest with
      | .error e => Program.raise e
      | .ok (unit,used) => Program.both (put unit) (realConvert special convertSpecial used rest)
    else Program.both (put (if c == backslash then slash else c))
      (realConvert special convertSpecial 0 rest)

def realConvertV1 (rel : Wstr) : Program Stop FilePath Bool :=
  realConvert WslV1Path.isSpecialOutput WslV1Path.convertSpecial 0 rel
def realConvertV2 (rel : Wstr) : Program Stop FilePath Bool :=
  realConvert WslV2Path.isSpecialOutput WslV2Path.convertSpecial 0 rel

def legacyConvert (rel : Wstr) : Program Stop FilePath Bool :=
  if WslLegacyPath.shadowed rel then pure false else do
    Program.modify reset
    if WslLegacyPath.relocated rel then
      Program.both (putText (wstr "rootfs/")) (realConvertV1 rel)
    else realConvertV1 rel

/- The output is the state, so it shows what a failed or aborted conversion leaves in it. -/
def convert : FilePath → Program Stop FilePath Bool
  | linux p => linuxConvert p
  | wslV1 p => do Program.modify reset; realConvertV1 p.rel
  | wslV2 p => do Program.modify reset; realConvertV2 p.rel
  | wslLegacy p => legacyConvert p.rel

end FilePath

inductive Format where
  | linux
  | v1
  | v2
  | legacy
  deriving DecidableEq, Repr

def Format.fresh : Format → Wstr → FilePath
  | .linux,_ => .linux LinuxPath.new
  | .v1,base => .wslV1 ⟨base,[]⟩
  | .v2,base => .wslV2 ⟨base,[]⟩
  | .legacy,base => .wslLegacy (WslLegacyPath.new base)

end LxRunOffline
