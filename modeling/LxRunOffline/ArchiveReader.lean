import LxRunOffline.WslReader

/-! `archive_reader` of fs.cpp. An archive is what libarchive delivers: a row of entries, each
with the status of its header and the blocks of its data, and a status at the end. A text that
is no valid UTF-8 carries the error of its conversion. -/
namespace LxRunOffline

structure ArchiveBlock where
  status : ArchiveStatus
  bytes : Bytes
  offset : Nat

/- The size of a block reaches the writer as a number of 32 bits; its offset does not. -/
def ArchiveBlock.written (block : ArchiveBlock) : Bytes :=
  block.bytes.take (block.bytes.length % 0x100000000)

structure ArchiveEntry where
  header : ArchiveStatus
  pathname : Option (Except UInt32 CStr)
  hardlink : Option (Except UInt32 CStr)
  mode : UInt32
  uid : UInt32
  gid : UInt32
  size : UInt64
  atime : Option UnixTime
  mtime : UnixTime
  ctime : Option UnixTime
  rdevMajor : UInt32
  rdevMinor : UInt32
  symlink : Except UInt32 Bytes
  blocks : List ArchiveBlock
  dataEnd : ArchiveStatus

structure ArchiveReader where
  archivePath : Wstr
  rootPath : Wstr
  entries : List ArchiveEntry
  ending : ArchiveStatus

namespace ArchiveReader
variable (r : ArchiveReader) (env : FsEnv) (w : Format)

def fromUtf8 {α : Type} : Except UInt32 α → Copy α
  | .error code => Fs.throwWin32 .errConvertEncoding [] code
  | .ok text => pure text

def entryName (pathname : Option (Except UInt32 CStr)) : Copy CStr :=
  match pathname with
  | none => Fs.throwOther .errConvertEncoding []
  | some text => fromUtf8 text

def pathOf (name : CStr) : FilePath := .linux (LinuxPath.ofName name.units r.rootPath)

def readSymlink (e : ArchiveEntry) : Copy (Option Bytes) :=
  if e.mode &&& aeIfmt = aeIflnk then do
    let target ← fromUtf8 e.symlink
    pure (some target)
  else pure none

/- In `struct stat` an owner is a short, and a mode an unsigned short. -/
def shortId (id : UInt32) : UInt32 := id.toUInt16.toInt16.toInt32.toUInt32
def shortMode (mode : UInt32) : UInt32 := mode.toUInt16.toUInt32

theorem shortModeBits (mode : UInt32) : shortMode mode = mode &&& 0xffff := by
  refine UInt32.toBitVec_inj.mp (BitVec.eq_of_toNat_eq ?_)
  simp [shortMode,Nat.and_two_pow_sub_one_eq_mod _ 16]

theorem shortModeType (mode : UInt32) : shortMode mode &&& aeIfmt = mode &&& aeIfmt := by
  rw [shortModeBits,UInt32.and_assoc]
  rfl

theorem shortIdSmall {id : UInt32} (small : id < 0x8000) : shortId id = id := by
  have bound : id.toNat < 0x8000 := UInt32.lt_iff_toNat_lt.mp small
  have positive : (id.toBitVec.setWidth 16).msb = false := by
    rw [BitVec.msb_eq_decide]
    simp
    omega
  refine UInt32.toBitVec_inj.mp (BitVec.eq_of_toNat_eq ?_)
  simp [shortId,BitVec.signExtend_eq_setWidth_of_msb_false positive]
  omega

def attrOf (e : ArchiveEntry) (symlink : Option Bytes) : FileAttr where
  mode := shortMode e.mode
  uid := shortId e.uid
  gid := shortId e.gid
  size := e.size
  atime := e.atime.getD e.mtime
  mtime := e.mtime
  ctime := e.ctime.getD e.mtime
  devMajor := e.rdevMajor
  devMinor := e.rdevMinor
  symlink := symlink

theorem attrOfType (e : ArchiveEntry) (symlink : Option Bytes) : (attrOf e symlink).type = e.mode &&& aeIfmt :=
  shortModeType e.mode

def readData (dataEnd : ArchiveStatus) : List ArchiveBlock → Copy Unit
  | [] => do
    let _ ← Fs.checkArchive dataEnd
    FsWriter.writeFileData env w []
  | block :: rest => do
    if ← Fs.checkArchive block.status then do
      FsWriter.writeFileData env w block.written
      readData dataEnd rest
    else FsWriter.writeFileData env w []

def storeEntry (e : ArchiveEntry) : Copy Unit := do
  let symlink ← readSymlink e
  if ← FsWriter.writeNewFile env w (some (attrOf e symlink)) then
    Program.when (e.mode &&& aeIfmt = aeIfreg) (readData env w e.dataEnd e.blocks)
  else pure ()

def linkEntry (link : Except UInt32 CStr) : Copy Unit := do
  let target ← fromUtf8 link
  if ← WslReader.convertTarget (r.pathOf target) then FsWriter.writeHardLink env w else pure ()

def extract (e : ArchiveEntry) : Copy Unit := do
  let name ← entryName e.pathname
  if ← WslReader.convertPath (r.pathOf name) then
    match e.hardlink with
    | some link => r.linkEntry env w link
    | none => storeEntry env w e
  else pure ()

def readEntries : List ArchiveEntry → Copy Unit
  | [] => do
    let _ ← Fs.checkArchive r.ending
    pure ()
  | e :: rest => do
    if ← Fs.checkArchive e.header then do
      r.extract env w e
      readEntries rest
    else pure ()

def openArchive : Copy Unit := do
  Fs.openFile env r.archivePath false false
  let _ ← Fs.getFileSize env r.archivePath 0
  let filter ← Fs.ask fun time => env.archive time .supportFilter
  let _ ← Fs.checkArchive filter
  let support ← Fs.ask fun time => env.archive time .supportFormat
  let _ ← Fs.checkArchive support
  let opened ← Fs.ask fun time => env.archive time (.openArchive r.archivePath)
  let _ ← Fs.checkArchive opened
  pure ()

def rootAttr : FileAttr := ⟨0x41ed,0,0,0,⟨0,0⟩,⟨0,0⟩,⟨0,0⟩,0,0,none⟩

def writeRoot : Copy Unit := do
  if ← WslReader.convertPath (.linux LinuxPath.new) then do
    let _ ← FsWriter.writeNewFile env w (some rootAttr)
    pure ()
  else pure ()

def run : Copy Unit := do
  r.openArchive env
  writeRoot env w
  r.readEntries env w r.entries

end ArchiveReader
end LxRunOffline
