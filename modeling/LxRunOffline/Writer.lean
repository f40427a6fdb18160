import LxRunOffline.FileSystem

/-! The writers of fs.cpp. A writer is known by the format of its paths; the linux format is
that of `archive_writer`. Everything a writer does to its target is kept in a log, in order. -/
namespace LxRunOffline

/- `accepted` stands for a `write_new_file` that has returned true. -/
inductive FsEvent where
  | createdDirectory (path : Wstr)
  | createdFile (path : Wstr)
  | ea (path : Wstr) (name : EaName) (value : EaValue)
  | reparse (path : Wstr) (data : ReparseData)
  | times (path : Wstr) (access write change : UInt64)
  | wrote (path : Wstr) (bytes : Bytes)
  | hardLink (path target : Wstr)
  | header (path : Wstr) (attr : FileAttr)
  | archiveData (bytes : Bytes)
  | accepted (path : Wstr)
  deriving DecidableEq, Repr

inductive ArchiveAnswer where
  | status (c : FsCall) (stat : ArchiveStatus)
  | data (size : Nat) (taken : DataAnswer)
  deriving DecidableEq, Repr

/- `data`, `isRoot` and `idMap` belong to the reader that drives the writer; the top of the
stack `dirAttr` comes first. `answers` are those of libarchive to an `archive_writer`. -/
structure CopyState where
  clock : Nat
  log : List FsEvent
  data : Wstr
  isRoot : Bool
  idMap : List (UInt64 × FilePath)
  path : FilePath
  targetPath : FilePath
  ignored : List Wstr
  hfData : Option Wstr
  dirAttr : List (Wstr × FileAttr)
  answers : List ArchiveAnswer

instance : Clocked CopyState where
  clock s := s.clock
  tick s := {s with clock := s.clock+1}

abbrev Copy (α : Type) := Program Stop CopyState α

namespace FsWriter

def note (e : FsEvent) : Copy Unit := Program.modify fun s => {s with log := s.log ++ [e]}
def ignorePath : Copy Unit := Program.modify fun s => {s with ignored := s.path.data :: s.ignored}

def supported (type : UInt32) (allowSock : Bool) : Bool :=
  [aeIfreg,aeIflnk,aeIfchr,aeIfblk,aeIfdir,aeIfifo].contains type ||
  (type == aeIfsock && allowSock)

def passes (attr : Option FileAttr) (allowNull allowSock : Bool) : Bool :=
  match attr with
  | some a => supported a.type allowSock
  | none => allowNull

def checkAttr (attr : Option FileAttr) (allowNull allowSock : Bool) : Copy Bool :=
  if passes attr allowNull allowSock then pure true else do
    ignorePath
    pure false

def checkTargetIgnored : Copy Bool := do
  let s ← Program.get
  if s.ignored.contains s.targetPath.data then do
    ignorePath
    pure false
  else pure true

variable (env : FsEnv)

def toUtf8 (text : Wstr) : Copy Unit := do
  let code ← Fs.call env (.toUtf8 text)
  if code ≠ 0 then Fs.throwWin32 .errConvertEncoding [] code else pure ()

def answer (a : ArchiveAnswer) : Copy Unit :=
  Program.modify fun s => {s with answers := s.answers ++ [a]}

def askLibrary (c : FsCall) : Copy ArchiveStatus := do
  let stat ← Fs.ask fun time => env.archive time c
  answer (.status c stat)
  pure stat

def writeHeader (path : Wstr) (e : FsEvent) : Copy Unit := do
  note e
  let stat ← askLibrary env (.writeHeader path)
  let _ ← Fs.checkArchive stat
  pure ()

def setEa (path : Wstr) (name : EaName) (value : EaValue) : Copy Unit := do
  let status ← Fs.call env (.setEa path name)
  if status ≠ 0 then Fs.throwNt .errSetEa [name.text] status else note (.ea path name value)

def writeData (hf : Option Wstr) (bytes : Bytes) : Copy Unit := do
  let s ← Program.get
  match hf with
  | none => Fs.throwWin32 .errWriteFile [s.path.data] errorInvalidHandle
  | some handle => do
    let code ← Fs.call env (.writeFile handle)
    if code ≠ 0 then Fs.throwWin32 .errWriteFile [s.path.data] code
    else note (.wrote handle bytes)

def strlen (attr : FileAttr) : Copy Unit := if attr.Whole then pure () else Program.raise .crash

end FsWriter

namespace ArchiveWriter
open FsWriter
variable (env : FsEnv)

def entryOf (attr : FileAttr) : FileAttr where
  mode := attr.mode &&& 0xffff
  uid := attr.uid
  gid := attr.gid
  size := attr.size
  atime := attr.atime
  mtime := attr.mtime
  ctime := attr.ctime
  devMajor := if attr.type = aeIfchr ∨ attr.type = aeIfblk then attr.devMajor else 0
  devMinor := if attr.type = aeIfchr ∨ attr.type = aeIfblk then attr.devMinor else 0
  symlink := if attr.type = aeIflnk then attr.symlink else none

def writeEntry (attr : FileAttr) : Copy Bool := do
  let s ← Program.get
  if s.path.data.isEmpty then pure false else do
    toUtf8 env s.path.data
    writeHeader env s.path.data (.header s.path.data (entryOf attr))
    note (.accepted s.path.data)
    pure true

def writeNewFile (attr : Option FileAttr) : Copy Bool := do
  let fine ← checkAttr attr false false
  match fine,attr with
  | true,some a => writeEntry env a
  | _,_ => pure false

/- A count that falls short is no failure, and what is left over is lost. -/
def writeFileData (bytes : Bytes) : Copy Unit :=
  if bytes.isEmpty then pure () else do
    let taken ← Fs.ask fun time => env.data time bytes
    answer (.data bytes.length taken)
    match taken with
    | .failed text => Fs.throwOther .errArchive [text]
    | .took count => note (.archiveData (bytes.take count))

def linkEntry : Copy Unit := do
  let s ← Program.get
  toUtf8 env s.path.data
  toUtf8 env s.targetPath.data
  writeHeader env s.path.data (.hardLink s.path.data s.targetPath.data)

def writeHardLink : Copy Unit := do
  if ← checkTargetIgnored then linkEntry env else pure ()

def openArchive (path : Wstr) : Copy Unit := do
  let format ← askLibrary env .setFormat
  let _ ← Fs.checkArchive format
  let filter ← askLibrary env .addFilter
  let _ ← Fs.checkArchive filter
  let created ← askLibrary env (.createArchive path)
  let _ ← Fs.checkArchive created
  pure ()

/- The deleter of the handle, which nobody asks how it went. -/
def destroy : Copy Unit := answer (.status .freeArchive env.flush)

end ArchiveWriter

/- The name `u2f` of the source; the result is the bit pattern of the signed number. -/
def timeU2f (ut : UnixTime) : UInt64 :=
  ut.sec*10000000 + (ut.nsec/100).toUInt64 + 116444736000000000

namespace WslV1Writer
open FsWriter
variable (env : FsEnv)

def record (attr : FileAttr) : LxAttrB where
  flags := 0
  ver := 1
  mode := attr.mode
  uid := attr.uid
  gid := attr.gid
  rdev := (attr.devMajor <<< 20) ||| (attr.devMinor &&& 0xfffff)
  atimeNsec := attr.atime.nsec
  mtimeNsec := attr.mtime.nsec
  ctimeNsec := attr.ctime.nsec
  atime := attr.atime.sec
  mtime := attr.mtime.sec
  ctime := attr.ctime.sec

/- The length of a link target is handed over in 32 bits. -/
def linkData (target : Bytes) : Bytes := target.take target.length.toUInt32.toNat

def writeAttr (path : Wstr) (attr : FileAttr) : Copy Unit := do
  Fs.withPath path (setEa env path .lxattrb (.record (record attr)))
  strlen attr
  Program.when (attr.type = aeIflnk) (writeData env (some path) (linkData (attr.symlink.getD [])))

end WslV1Writer

namespace WslV2Writer
open FsWriter
variable (env : FsEnv)

def reparseOf (attr : FileAttr) : Option ReparseData :=
  if attr.type = aeIflnk then
    let target := attr.symlink.getD []
    some ⟨tagLxSymlink,(target.length+4).toUInt16,[2,0,0,0] ++ target⟩
  else if attr.type = aeIfsock then some ⟨tagAfUnix,0,[]⟩
  else if attr.type = aeIfchr then some ⟨tagLxChr,0,[]⟩
  else if attr.type = aeIfblk then some ⟨tagLxBlk,0,[]⟩
  else if attr.type = aeIfifo then some ⟨tagLxFifo,0,[]⟩
  else none

def setReparse (path : Wstr) : Option ReparseData → Copy Unit
  | none => pure ()
  | some data => do
    let code ← Fs.call env (.setReparse path)
    if code ≠ 0 then Fs.throwWin32 .errSetReparse [path] code else note (.reparse path data)

def setTimes (path : Wstr) (attr : FileAttr) : Copy Unit := do
  let code ← Fs.call env (.setTimes path)
  if code ≠ 0 then Fs.throwWin32 .errSetFt [path] code
  else note (.times path (timeU2f attr.atime) (timeU2f attr.mtime) (timeU2f attr.ctime))

def setEas (path : Wstr) (attr : FileAttr) : Copy Unit := do
  setEa env path .lxuid (.dword attr.uid)
  setEa env path .lxgid (.dword attr.gid)
  setEa env path .lxmod (.dword attr.mode)
  Program.when (attr.type = aeIfchr ∨ attr.type = aeIfblk)
    (setEa env path .lxdev (.qword ((attr.devMinor.toUInt64 <<< 32) ||| attr.devMajor.toUInt64)))

def realWriteAttr (path : Wstr) (attr : FileAttr) : Copy Unit := do
  Fs.withPath path (setEas env path attr)
  strlen attr
  setReparse env path (reparseOf attr)
  setTimes env path attr

/- The same for what is not a link. Directories alone are put on the stack, so that is all that
the stack is ever emptied with. -/
def storeAttr (path : Wstr) (attr : FileAttr) : Copy Unit := do
  Fs.withPath path (setEas env path attr)
  setReparse env path (reparseOf attr)
  setTimes env path attr

theorem realWriteAttrWhole {attr : FileAttr} (whole : attr.Whole) (path : Wstr) :
    realWriteAttr env path attr = storeAttr env path attr := by
  rw [realWriteAttr,strlen,if_pos whole]
  rfl

theorem realWriteAttrTorn {attr : FileAttr} (torn : ¬ attr.Whole) (path : Wstr) :
    realWriteAttr env path attr = Fs.withPath path (setEas env path attr) >>= fun _ => Program.raise .crash := by
  rw [realWriteAttr,strlen,if_neg torn]
  rfl

theorem realWriteAttrReturned {attr : FileAttr} {path : Wstr} {s t : CopyState}
    (run : realWriteAttr env path attr s = (.ok (),t)) : storeAttr env path attr s = (.ok (),t) := by
  by_cases whole : attr.Whole
  · rwa [realWriteAttrWhole env whole] at run
  · rw [realWriteAttrTorn env whole] at run
    obtain ⟨_,u,-,torn⟩ := Program.bindOkSource run
    cases torn

def flush (path : Wstr) : List (Wstr × FileAttr) → Copy Unit
  | [] => pure ()
  | (dir,attr) :: rest =>
    if path.take dir.length = dir then pure () else do
      Program.modify fun s => {s with dirAttr := rest}
      Fs.openFile env dir true false
      storeAttr env dir attr
      flush path rest

def writeAttr (path : Wstr) (attr : FileAttr) : Copy Unit :=
  if attr.type = aeIfdir then do
    let s ← Program.get
    flush env path s.dirAttr
    Program.modify fun s => {s with dirAttr := (path,attr) :: s.dirAttr}
  else realWriteAttr env path attr

def drain : List (Wstr × FileAttr) → Copy Unit
  | [] => pure ()
  | (dir,attr) :: rest => do
    Program.modify fun s => {s with dirAttr := rest}
    Fs.openFile env dir true false
    storeAttr env dir attr
    drain rest

/- The destructor reports an exception and goes no further. -/
def destroy : Copy Unit := do
  let s ← Program.get
  Program.rescue (drain env s.dirAttr) fun e => if e.unwinds then pure () else Program.raise e

end WslV2Writer

namespace WslWriter
open FsWriter
variable (env : FsEnv) (format : Format)

def writeAttr (path : Wstr) : Option FileAttr → Copy Unit
  | none => pure ()
  | some attr => if format = .v2 then WslV2Writer.writeAttr env path attr
    else WslV1Writer.writeAttr env path attr

def createDirectory (path : Wstr) : Copy Unit := do
  let code ← Fs.call env (.createDirectory path)
  if code = 0 then note (.createdDirectory path)
  else if code = errorAlreadyExists then pure ()
  else Fs.throwWin32 .errCreateDir [path] code

def create (path : Wstr) (isDir : Bool) : Copy Unit :=
  if isDir then do
    createDirectory env path
    Fs.openFile env path true false
  else do
    Fs.openFile env path false true
    note (.createdFile path)

def finish (path : Wstr) (type : UInt32) : Copy Unit :=
  if type = aeIfreg then Program.modify fun s => {s with hfData := some path}
  else if type = aeIfdir then Fs.withPath path (Fs.setCsInfo env path)
  else pure ()

def writeFile (attr : Option FileAttr) : Copy Bool := do
  let s ← Program.get
  create env s.path.data (typeOf attr = aeIfdir)
  writeAttr env format s.path.data attr
  finish env s.path.data (typeOf attr)
  note (.accepted s.path.data)
  pure true

def writeNewFile (attr : Option FileAttr) : Copy Bool := do
  if ← checkAttr attr true true then writeFile env format attr else pure false

def writeFileData (bytes : Bytes) : Copy Unit :=
  if bytes.isEmpty then Program.modify fun s => {s with hfData := none} else do
    let s ← Program.get
    writeData env s.hfData bytes

def linkFile : Copy Unit := do
  let s ← Program.get
  note (.hardLink s.path.data s.targetPath.data)
  let code ← Fs.call env (.createHardLink s.path.data s.targetPath.data)
  if code ≠ 0 then Fs.throwWin32 .errHardLink [s.path.data,s.targetPath.data] code else pure ()

def writeHardLink : Copy Unit := do
  if ← checkTargetIgnored then linkFile env else pure ()

def toLower (c : WChar) : WChar := if 65 ≤ c ∧ c ≤ 90 then c+32 else c

def samePrefix (data : Wstr) (baseLen : Nat) (source : Wstr) : Bool :=
  data.take (min baseLen source.length) == source

def driveRoot (data : Wstr) : Bool :=
  let c := toLower ((data[4]?).getD 0)
  97 ≤ c && c ≤ 122 && data.drop 5 == wstr ":\\"

def checkPath (source : Wstr) : Copy Unit := do
  let s ← Program.get
  if samePrefix s.path.data s.path.base.length source then Fs.throwOther .errCopySubdir []
  else if driveRoot s.path.data then Fs.throwOther .errRootDir [s.path.data]
  else pure ()

end WslWriter

namespace FsWriter
variable (env : FsEnv) (format : Format)

def writeNewFile (attr : Option FileAttr) : Copy Bool :=
  if format = .linux then ArchiveWriter.writeNewFile env attr
  else WslWriter.writeNewFile env format attr

def writeFileData (bytes : Bytes) : Copy Unit :=
  if format = .linux then ArchiveWriter.writeFileData env bytes
  else WslWriter.writeFileData env bytes

def writeHardLink : Copy Unit :=
  if format = .linux then ArchiveWriter.writeHardLink env else WslWriter.writeHardLink env

def checkPath (source : Wstr) : Copy Unit :=
  if format = .linux then pure () else WslWriter.checkPath source

def destroy : Copy Unit :=
  if format = .v2 then WslV2Writer.destroy env
  else if format = .linux then ArchiveWriter.destroy env
  else pure ()

end FsWriter

def CopyState.new (format : Format) (base source : Wstr) : CopyState where
  clock := 0
  log := []
  data := source
  isRoot := true
  idMap := []
  path := format.fresh base
  targetPath := format.fresh base
  ignored := []
  hfData := none
  dirAttr := []
  answers := []

end LxRunOffline
