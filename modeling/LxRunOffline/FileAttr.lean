import LxRunOffline.Units

/-! The attribute records of fs.h and what Windows keeps about a file: its extended attributes,
its reparse data and its contents. A value of an extended attribute is told apart by its size,
which is all the program checks. -/
namespace LxRunOffline

abbrev Bytes := List UInt8

structure UnixTime where
  sec : UInt64
  nsec : UInt32
  deriving DecidableEq, Repr

structure FileAttr where
  mode : UInt32
  uid : UInt32
  gid : UInt32
  size : UInt64
  atime : UnixTime
  mtime : UnixTime
  ctime : UnixTime
  devMajor : UInt32
  devMinor : UInt32
  symlink : Option Bytes
  deriving DecidableEq, Repr

def aeIfmt : UInt32 := 0xf000
def aeIfreg : UInt32 := 0x8000
def aeIflnk : UInt32 := 0xa000
def aeIfsock : UInt32 := 0xc000
def aeIfchr : UInt32 := 0x2000
def aeIfblk : UInt32 := 0x6000
def aeIfdir : UInt32 := 0x4000
def aeIfifo : UInt32 := 0x1000

def FileAttr.type (attr : FileAttr) : UInt32 := attr.mode &&& aeIfmt

/- The record of a link points at the text of its target. -/
def FileAttr.Whole (attr : FileAttr) : Prop := attr.type = aeIflnk → attr.symlink ≠ none

instance (attr : FileAttr) : Decidable attr.Whole := inferInstanceAs (Decidable (_ → _))

def typeOf (attr : Option FileAttr) : UInt32 := (attr.map FileAttr.type).getD aeIfreg

structure LxAttrB where
  flags : UInt16
  ver : UInt16
  mode : UInt32
  uid : UInt32
  gid : UInt32
  rdev : UInt32
  atimeNsec : UInt32
  mtimeNsec : UInt32
  ctimeNsec : UInt32
  atime : UInt64
  mtime : UInt64
  ctime : UInt64
  deriving DecidableEq, Repr

inductive EaName where
  | lxattrb
  | lxuid
  | lxgid
  | lxmod
  | lxdev
  deriving DecidableEq, Repr

def EaName.text : EaName → Wstr
  | lxattrb => wstr "LXATTRB"
  | lxuid => wstr "$LXUID"
  | lxgid => wstr "$LXGID"
  | lxmod => wstr "$LXMOD"
  | lxdev => wstr "$LXDEV"

inductive EaValue where
  | record (r : LxAttrB)
  | dword (n : UInt32)
  | qword (n : UInt64)
  | other (bytes : Bytes)
  deriving DecidableEq, Repr

namespace EaValue

def asRecord : EaValue → Option LxAttrB
  | record r => some r
  | _ => none

def asDword : EaValue → Option UInt32
  | dword n => some n
  | _ => none

def asQword : EaValue → Option UInt64
  | qword n => some n
  | _ => none

end EaValue

def tagLxSymlink : UInt32 := 0xa000001d
def tagAfUnix : UInt32 := 0x80000023
def tagLxFifo : UInt32 := 0x80000024
def tagLxChr : UInt32 := 0x80000025
def tagLxBlk : UInt32 := 0x80000026

/- `dataLength` is the length the buffer declares, `data` what was copied into it. -/
structure ReparseData where
  tag : UInt32
  dataLength : UInt16
  data : Bytes
  deriving DecidableEq, Repr

/- A file of the source. `reads` are the pieces successive calls of `ReadFile` deliver before
the end of the file, `times` the last access, last write and change times. -/
structure NodeInfo where
  eas : EaName → Option EaValue
  size : UInt64
  times : UInt64 × UInt64 × UInt64
  links : UInt32
  index : UInt64
  reparse : Option ReparseData
  reads : List Bytes

inductive Tree where
  | nil
  | file (name : Wstr) (info : NodeInfo) (rest : Tree)
  | dir (name : Wstr) (info : NodeInfo) (sub rest : Tree)

structure FindData where
  name : Wstr
  directory : Bool
  deriving DecidableEq, Repr

namespace Tree

def entries : Tree → List FindData
  | nil => []
  | file name _ rest => ⟨name,false⟩ :: rest.entries
  | dir name _ _ rest => ⟨name,true⟩ :: rest.entries

def findFile (wanted : Wstr) : Tree → Option NodeInfo
  | nil => none
  | file name info rest => if name = wanted then some info else rest.findFile wanted
  | dir _ _ _ rest => rest.findFile wanted

def findDir (wanted : Wstr) : Tree → Option (NodeInfo × Tree)
  | nil => none
  | file _ _ rest => rest.findDir wanted
  | dir name info sub rest => if name = wanted then some (info,sub) else rest.findDir wanted

def descend : Tree → List Wstr → Option Tree
  | t,[] => some t
  | t,name :: names => (t.findDir name).bind fun d => d.2.descend names

end Tree
end LxRunOffline
