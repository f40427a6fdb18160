import LxRunOffline.EnumDirectory
import LxRunOffline.Writer

/-! The readers of fs.cpp for an installed distribution. The source tree stands under the base
of the reader and does not change while it is read; a path names what its components lead to. -/
namespace LxRunOffline

/- The name of the source is `f2u`; the number is read as a signed one. -/
def timeF2u (ft : UInt64) : UnixTime :=
  let t : Int64 := ft.toInt64 - 116444736000000000
  ⟨(t/10000000).toUInt64,(t%10000000*100).toUInt64.toUInt32⟩

structure WslReader where
  format : Format
  base : Wstr
  tree : Tree

namespace WslReader
variable (r : WslReader) (env : FsEnv) (w : Format)

def pathAt (data : Wstr) : FilePath :=
  (r.format.fresh r.base).withRel (data.drop r.base.length)

def parts (data : Wstr) : List Wstr := (data.drop r.base.length).splitOn backslash

def dirAt (data : Wstr) : Option Tree :=
  if (r.parts data).getLast? = some [] then r.tree.descend (r.parts data).dropLast else none

def infoAt (data : Wstr) (dir : Bool) : Option NodeInfo :=
  if dir then
    if (r.parts data).getLast? = some [] then
      (r.tree.descend (r.parts data).dropLast.dropLast).bind fun parent =>
        ((r.parts data).dropLast.getLast?.bind parent.findDir).map Prod.fst
    else none
  else (r.tree.descend (r.parts data).dropLast).bind fun parent =>
    (r.parts data).getLast?.bind parent.findFile

def openNode (path : Wstr) (dir : Bool) : Copy NodeInfo := do
  Fs.openFile env path dir false
  match r.infoAt path dir with
  | none => Fs.throwWin32 (Fs.openError dir false) [path] errorFileMissing
  | some info => pure info

def openListed (path : Wstr) : Copy Unit :=
  if (r.dirAt path).isSome then Fs.openListed env path
  else Fs.throwWin32 .errOpenDir [path] errorPathMissing

def findFirst (path : Wstr) : Copy (List FindData) := do
  let code ← Fs.call env (.findFirst path)
  if code ≠ 0 then Fs.throwWin32 .errEnumDir [path] code
  else match r.dirAt path with
    | none => Fs.throwWin32 .errEnumDir [path] errorPathMissing
    | some t => pure (⟨dotName,true⟩ :: ⟨dotDotName,true⟩ :: t.entries)

def api : DirApi CopyState where
  data s := s.data
  setData d s := {s with data := d}
  dataSet _ _ := rfl
  setSet _ _ _ := rfl
  setSame _ := rfl
  openListed := r.openListed env
  findFirst := r.findFirst env
  findNext := Fs.findNext env

def orNull {α : Type} (path : Wstr) (x : Copy (Option α)) : Copy (Option α) :=
  catchLro x fun e =>
    if e.msgCode = .errInvalidEa then pure none else Program.raise (.lro (e.pushArg path))

def readAttrV1 (path : Wstr) (info : NodeInfo) : Copy (Option FileAttr) :=
  orNull path (do
    let ea ← Fs.getEa env path info.eas .lxattrb EaValue.asRecord
    let size ← Fs.getFileSize env path info.size
    pure (some ⟨ea.mode,ea.uid,ea.gid,size,⟨ea.atime,ea.atimeNsec⟩,⟨ea.mtime,ea.mtimeNsec⟩,
      ⟨ea.ctime,ea.ctimeNsec⟩,ea.rdev >>> 20,ea.rdev &&& 0xfffff,none⟩))

def readDev (path : Wstr) (info : NodeInfo) (attr : FileAttr) : Copy FileAttr :=
  if attr.type = aeIfchr ∨ attr.type = aeIfblk then do
    let dev ← Fs.getEa env path info.eas .lxdev EaValue.asQword
    pure {attr with devMajor := dev.toUInt32, devMinor := (dev >>> 32).toUInt32}
  else pure attr

/- Members that are not assigned keep what the allocation has found. -/
def readEas (path : Wstr) (info : NodeInfo) : Copy (Option FileAttr) := do
  let attr ← Fs.ask env.memory
  orNull path (do
    let uid ← Fs.getEa env path info.eas .lxuid EaValue.asDword
    let gid ← Fs.getEa env path info.eas .lxgid EaValue.asDword
    let mode ← Fs.getEa env path info.eas .lxmod EaValue.asDword
    let size ← Fs.getFileSize env path info.size
    let attr ← readDev env path info {attr with mode := mode, uid := uid, gid := gid, size := size}
    pure (some attr))

def readTimes (path : Wstr) (info : NodeInfo) (attr : FileAttr) : Copy FileAttr := do
  let code ← Fs.call env (.fileTimes path)
  if code ≠ 0 then Fs.throwWin32 .errGetFt [path] code
  else
    let timed := {attr with atime := timeF2u info.times.1, mtime := timeF2u info.times.2.1}
    pure {timed with ctime := timeF2u info.times.2.2}

def readAttrV2 (path : Wstr) (info : NodeInfo) : Copy (Option FileAttr) := do
  match ← readEas env path info with
  | none => pure none
  | some attr => do
    let attr ← readTimes env path info attr
    pure (some attr)

def readAttr (path : Wstr) (info : NodeInfo) : Copy (Option FileAttr) :=
  if r.format = .v2 then readAttrV2 env path info else readAttrV1 env path info

def cString (bytes : Bytes) : Bytes := bytes.takeWhile (· ≠ 0)

/- Past the last piece every read delivers nothing, so the loop goes on for ever. -/
def readTarget (path : Wstr) (size : Nat) (target : Bytes) : List Bytes → Copy Bytes
  | [] => if size ≤ target.length then pure target else Program.raise .outOfFuel
  | piece :: rest =>
    if size ≤ target.length then pure target else do
      let code ← Fs.call env (.readFile path)
      if code ≠ 0 then Fs.throwWin32 .errReadFile [path] code
      else readTarget path size (target ++ piece.take (size-target.length)) rest

def readSymlinkV1 (path : Wstr) (info : NodeInfo) : Copy (Option Bytes) := do
  let size ← Fs.withPath path (Fs.getFileSize env path info.size)
  if 65536 < size then Fs.throwOther .errSymlinkLength [path,wstr (toString size.toNat)]
  else do
    let target ← readTarget env path size.toNat [] info.reads
    pure (some (cString target))

def symlinkTarget (data : ReparseData) : Option Bytes :=
  if data.tag = tagLxSymlink ∧ 4 ≤ data.dataLength then
    some (cString ((data.data.drop 4).take (data.dataLength.toNat-4)))
  else none

/- The length less 4 is a signed number, and `new[]` and `memcpy` take it for an unsigned one. One
more than -1 is an array of no bytes, into which all of the memory is copied. -/
def allocateTarget (data : ReparseData) : Copy Unit :=
  if data.tag ≠ tagLxSymlink ∨ 4 ≤ data.dataLength then pure ()
  else if data.dataLength = 3 then Program.raise .crash
  else Program.raise .badArrayLength

def copyTarget : Option ReparseData → Copy (Option Bytes)
  | none => pure none
  | some data => do
    allocateTarget data
    pure (symlinkTarget data)

def readSymlinkV2 (path : Wstr) (info : NodeInfo) : Copy (Option Bytes) := do
  let code ← Fs.call env (.getReparse path)
  if code = 0 then copyTarget info.reparse
  else if code = errorNotAReparsePoint then pure none
  else Fs.throwWin32 .errGetReparse [path] code

def readSymlinkData (path : Wstr) (info : NodeInfo) : Copy (Option Bytes) :=
  if r.format = .v2 then readSymlinkV2 env path info else readSymlinkV1 env path info

def copyData (path : Wstr) : List Bytes → Copy Unit
  | [] => do
    let code ← Fs.call env (.readFile path)
    if code ≠ 0 then Fs.throwWin32 .errReadFile [path] code else FsWriter.writeFileData env w []
  | piece :: rest => do
    let code ← Fs.call env (.readFile path)
    if code ≠ 0 then Fs.throwWin32 .errReadFile [path] code
    else do
      FsWriter.writeFileData env w piece
      Program.when (piece ≠ []) (copyData path rest)

def storeFile (path : Wstr) (info : NodeInfo) (attr : Option FileAttr) : Copy Unit := do
  if ← FsWriter.writeNewFile env w attr then
    Program.when (typeOf attr = aeIfreg) (copyData env w path info.reads)
  else pure ()

def storeSymlink (path : Wstr) (info : NodeInfo) (attr : Option FileAttr) : Copy Unit := do
  match attr,← r.readSymlinkData env path info with
  | some a,some target => storeFile env w path info (some {a with symlink := some target})
  | _,_ => pure ()

def copyFile (path : Wstr) (info : NodeInfo) : Copy Unit := do
  let attr ← r.readAttr env path info
  if typeOf attr = aeIflnk then r.storeSymlink env w path info attr
  else storeFile env w path info attr

def convertPath (source : FilePath) : Copy Bool :=
  Program.zoom (fun s => s.path) (fun s p => {s with path := p}) source.convert

def convertTarget (source : FilePath) : Copy Bool :=
  Program.zoom (fun s => s.targetPath) (fun s p => {s with targetPath := p}) source.convert

def linkFile (first : FilePath) : Copy Unit := do
  if ← convertTarget first then FsWriter.writeHardLink env w else pure ()

def visitFile (path : Wstr) (info : NodeInfo) : Copy Unit := do
  let code ← Fs.call env (.fileInfo path)
  if code ≠ 0 then Fs.throwWin32 .errFileInfo [path] code
  else if 1 < info.links then do
    let s ← Program.get
    match s.idMap.lookup info.index with
    | some first => linkFile env w first
    | none => do
      Program.modify fun s => {s with idMap := (info.index,r.pathAt path) :: s.idMap}
      r.copyFile env w path info
  else r.copyFile env w path info

def visitDir (path : Wstr) (info : NodeInfo) : Copy Unit := do
  let attr ← r.readAttr env path info
  let _ ← FsWriter.writeNewFile env w attr
  pure ()

def visitNode (path : Wstr) (dir : Bool) : Copy Unit := do
  if ← convertPath (r.pathAt path) then do
    let info ← r.openNode env path dir
    if dir then r.visitDir env w path info else r.visitFile env w path info
  else pure ()

def visit (t : EnumDirType) : Copy Unit :=
  if t = .exit then pure () else do
    let s ← Program.get
    if t = .enter ∧ s.isRoot = true then Program.modify fun s => {s with isRoot := false}
    else r.visitNode env w s.data (t = .enter)

def run (fuel : Nat) : Copy Unit := do
  Program.modify fun s => {s with isRoot := true, idMap := []}
  (r.api env).enumDirectory (r.visit env w) fuel (r.format = .legacy)

def runChecked (fuel : Nat) : Copy Unit := do
  FsWriter.checkPath w r.base
  r.run env w fuel

end WslReader
end LxRunOffline
