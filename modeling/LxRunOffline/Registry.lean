import LxRunOffline.Error
import LxRunOffline.FoldedTable

/-! The Lxss key of the registry and the accessors of reg.cpp. The environment decides how
every single call ends, in which order keys are listed, and what the system makes of a path.
A key is named by its path behind `reg_base_path`; the empty path is the Lxss key itself. -/
namespace LxRunOffline

inductive RegValue where
  | sz (text : Wstr)
  | multiSz (units : Wstr)
  | dword (n : UInt32)
  | other
  deriving DecidableEq, Repr

abbrev RegValues := Wstr → Option RegValue

/- Names of keys are compared without regard to case; `upcase` is the system's case table. -/
structure Registry (upcase : WChar → WChar) where
  values : RegValues
  subkeys : FoldedTable RegValues (List.map upcase)

namespace Registry
variable {upcase : WChar → WChar}

def put (name : Wstr) (value : Option RegValue) (values : RegValues) : RegValues :=
  fun n => if n = name then value else values n

def read (r : Registry upcase) (sub name : Wstr) : Option RegValue :=
  if sub = [] then r.values name else (r.subkeys.find sub).bind fun values => values name

/- `RegSetKeyValue` creates a key that is missing. -/
def write (r : Registry upcase) (sub name : Wstr) (value : RegValue) : Registry upcase :=
  if sub = [] then {r with values := put name (some value) r.values}
  else {r with subkeys := (r.subkeys.insert sub fun _ => none).alter sub (put name (some value))}

def create (r : Registry upcase) (sub : Wstr) : Registry upcase :=
  if sub = [] then r else {r with subkeys := r.subkeys.insert sub fun _ => none}

end Registry

inductive RegCall where
  | createKey (path : Wstr)
  | enumKey (path : Wstr)
  | getValue (path name : Wstr)
  | setValue (path name : Wstr)
  | deleteTree (path : Wstr)
  | deleteValue (path name : Wstr)
  deriving DecidableEq, Repr

/- A status of zero lets a call take its course. Calls are numbered in the order they are made. -/
structure RegEnv where
  status : Nat → RegCall → UInt32
  order : Nat → List Wstr → List Wstr
  orderPerm : ∀ time names, (order time names).Perm names
  guid : Nat → Except UInt32 Wstr
  fullPath : Nat → Wstr → Except UInt32 Wstr

structure RegState (upcase : WChar → WChar) where
  clock : Nat
  issued : Nat
  reg : Registry upcase

abbrev RegProgram (upcase : WChar → WChar) (α : Type) := Program Stop (RegState upcase) α

def errorFileNotFound : UInt32 := 2
def errorMoreData : UInt32 := 234
def errorNoMoreItems : UInt32 := 259
def errorUnsupportedType : UInt32 := 1630

def regBasePath : Wstr := wstr "Software\\Microsoft\\Windows\\CurrentVersion\\Lxss\\"

def vnDefaultDistro : Wstr := wstr "DefaultDistribution"
def vnDistroName : Wstr := wstr "DistributionName"
def vnDir : Wstr := wstr "BasePath"
def vnState : Wstr := wstr "State"
def vnVersion : Wstr := wstr "Version"
def vnEnv : Wstr := wstr "DefaultEnvironment"
def vnUid : Wstr := wstr "DefaultUid"
def vnKernelCmd : Wstr := wstr "KernelCommandLine"
def vnFlags : Wstr := wstr "Flags"

def guidLen : Nat := 38

def isHexDigit (c : WChar) : Bool :=
  (48 ≤ c && c ≤ 57) || (65 ≤ c && c ≤ 70) || (97 ≤ c && c ≤ 102)

def guidShape : List (WChar → Bool) :=
  [(· == 0x7b)] ++ List.replicate 8 isHexDigit ++ [(· == 0x2d)] ++
  List.replicate 4 isHexDigit ++ [(· == 0x2d)] ++ List.replicate 4 isHexDigit ++ [(· == 0x2d)] ++
  List.replicate 4 isHexDigit ++ [(· == 0x2d)] ++ List.replicate 12 isHexDigit ++ [(· == 0x7d)]

def isGuid (str : Wstr) : Bool :=
  str.length == guidShape.length && (List.zipWith (fun p c => p c) guidShape str).all id

def cstr (units : Wstr) : Wstr := units.takeWhile (· ≠ 0)

theorem cstrSame (text : CStr) : cstr text.units = text.units := by
  obtain ⟨units,noNul⟩ := text
  induction units with
  | nil => rfl
  | cons c units ih =>
    simp only [List.mem_cons,not_or] at noNul
    have tail : cstr units = units := ih noNul.2
    rw [cstr,List.takeWhile_cons_of_pos (by simpa using Ne.symm noNul.1),← cstr,tail]

def RegValue.asSz : RegValue → Option Wstr
  | sz text => some (cstr text)
  | _ => none

def RegValue.asDword : RegValue → Option UInt32
  | dword n => some n
  | _ => none

def multiBlock (value : List Wstr) : Wstr := value.flatMap (· ++ [0]) ++ [0]

def multiCount (value : List Wstr) : UInt32 :=
  value.foldl (fun cnt s => cnt+(s.length+1).toUInt32) 0+1

def MultiFits (value : List Wstr) : Prop :=
  multiCount value < 2147483648 ∧ (multiCount value).toNat = (multiBlock value).length

instance : DecidablePred MultiFits := fun _ => inferInstanceAs (Decidable (_ ∧ _))

theorem multiFits {value : List Wstr} :
    MultiFits value ↔ (multiBlock value).length < 2147483648 := by
  have sum (value : List Wstr) (cnt : UInt32) :
      (value.foldl (fun cnt s => cnt+(s.length+1).toUInt32) cnt).toNat =
        (cnt.toNat+(value.flatMap (· ++ [0])).length)%4294967296 := by
    induction value generalizing cnt with
    | nil => simp [Nat.mod_eq_of_lt cnt.toNat_lt]
    | cons text rest ih =>
      simp only [List.foldl_cons,ih,List.flatMap_cons,List.length_append,List.length_singleton,
        UInt32.toNat_add,Nat.toUInt32_eq,UInt32.toNat_ofNat']
      omega
  have count : (multiCount value).toNat = (multiBlock value).length%4294967296 := by
    rw [multiCount,UInt32.toNat_add,sum,multiBlock,List.length_append]
    simp
  have small : multiCount value < 2147483648 ↔ (multiCount value).toNat < 2147483648 :=
    UInt32.lt_iff_toNat_lt
  rw [MultiFits,small,count]
  omega

namespace Reg
variable {upcase : WChar → WChar} (env : RegEnv) {α : Type}

def ask (answer : Nat → α) : RegProgram upcase α := fun s =>
  (.ok (answer s.clock),{s with clock := s.clock+1})

def change (f : Registry upcase → Registry upcase) : RegProgram upcase Unit :=
  Program.modify fun s => {s with reg := f s.reg}

def throwWin32 (msg : ErrMsg) (args : List Wstr) (code : UInt32) : RegProgram upcase α :=
  Program.raise (.lro (.fromWin32 msg args code))

def getValue (pick : RegValue → Option α) (sub name : Wstr) : RegProgram upcase α := do
  let code ← ask fun time => env.status time (.getValue (regBasePath ++ sub) name)
  let s ← Program.get
  if code ≠ 0 then throwWin32 .errGetKeyValue [regBasePath ++ sub,name] code
  else match s.reg.read sub name with
    | none => throwWin32 .errGetKeyValue [regBasePath ++ sub,name] errorFileNotFound
    | some value => match pick value with
      | none => throwWin32 .errGetKeyValue [regBasePath ++ sub,name] errorUnsupportedType
      | some a => pure a

def getSz (sub name : Wstr) : RegProgram upcase Wstr := getValue env RegValue.asSz sub name
def getDword (sub name : Wstr) : RegProgram upcase UInt32 := getValue env RegValue.asDword sub name

def setValue (sub name : Wstr) (value : RegValue) : RegProgram upcase Unit := do
  let code ← ask fun time => env.status time (.setValue (regBasePath ++ sub) name)
  if code ≠ 0 then throwWin32 .errSetKeyValue [regBasePath ++ sub,name] code
  else change fun r => r.write sub name value

def setSz (sub name value : Wstr) : RegProgram upcase Unit := setValue env sub name (.sz value)
def setDword (sub name : Wstr) (value : UInt32) : RegProgram upcase Unit :=
  setValue env sub name (.dword value)

/- A negative count makes `new[]` throw. One that has wrapped around to a smaller number is where
the copy would leave the buffer; the run is not followed any further than that. -/
def setMultiSz (sub name : Wstr) (value : List Wstr) : RegProgram upcase Unit :=
  if MultiFits value then setValue env sub name (.multiSz (multiBlock value))
  else Program.raise .badArrayLength

def createKey (sub : Wstr) : RegProgram upcase Unit := do
  let code ← ask fun time => env.status time (.createKey (regBasePath ++ sub))
  if code ≠ 0 then throwWin32 .errOpenKey [regBasePath ++ sub] code
  else change fun r => r.create sub

def deleteTree (sub : Wstr) : RegProgram upcase Unit := do
  let status ← ask fun time => env.status time (.deleteTree (regBasePath ++ sub))
  let s ← Program.get
  let code := if status = 0 ∧ ¬ s.reg.subkeys.Has sub then errorFileNotFound else status
  if code ≠ 0 then throwWin32 .errDeleteKey [regBasePath ++ sub] code
  else change fun r => {r with subkeys := r.subkeys.erase sub}

def deleteValue (name : Wstr) : RegProgram upcase Unit := do
  let status ← ask fun time => env.status time (.deleteValue regBasePath name)
  let s ← Program.get
  let code := if status = 0 ∧ s.reg.values name = none then errorFileNotFound else status
  if code ≠ 0 then throwWin32 .errDeleteKeyValue [regBasePath,name] code
  else change fun r => {r with values := Registry.put name none r.values}

def newGuid : RegProgram upcase Wstr := do
  let s ← Program.get
  Program.modify fun s => {s with issued := s.issued+1}
  match env.guid s.issued with
  | .error hr => Program.raise (.lro (.fromHresult .errCreateGuid [] hr))
  | .ok id => pure id

def getFullPath (path : Wstr) : RegProgram upcase Wstr := do
  match ← ask fun time => env.fullPath time path with
  | .error code => throwWin32 .errTransformPath [path] code
  | .ok full => pure full

/- The loop over the index of `RegEnumKeyEx`. Past the last key a call only ends or fails. -/
def enumFrom : List Wstr → RegProgram upcase (List Wstr)
  | [] => do
    let code ← ask fun time => env.status time (.enumKey regBasePath)
    if code = 0 ∨ code = errorNoMoreItems ∨ code = errorMoreData then pure []
    else throwWin32 .errEnumKey [regBasePath] code
  | name :: rest => do
    let status ← ask fun time => env.status time (.enumKey regBasePath)
    let code := if status = 0 ∧ guidLen < name.length then errorMoreData else status
    if code = errorNoMoreItems then pure []
    else if code = errorMoreData then enumFrom rest
    else if code ≠ 0 then throwWin32 .errEnumKey [regBasePath] code
    else do
      let ids ← enumFrom rest
      pure (if isGuid name then name :: ids else ids)

def listDistroId : RegProgram upcase (List Wstr) := do
  createKey env []
  let s ← Program.get
  let names ← ask fun time => env.order time (s.reg.subkeys.entries.map Prod.fst)
  enumFrom env names

end Reg
end LxRunOffline
