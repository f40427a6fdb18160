import Mathlib.Data.List.Pairwise
import LxRunOffline.Contents
import LxRunOffline.DetectVersion
import LxRunOffline.Original

/-! What an archive holds, member by member, and what is to come of it when it is unpacked: every
member has a place in the target format or none, and a link stands for the file that it names. -/
namespace LxRunOffline

inductive Member where
  | file (path : Wstr) (attr : FileAttr) (data : Bytes)
  | link (path target : Wstr)
  deriving DecidableEq, Repr

def Member.path : Member → Wstr
  | .file path _ _ => path
  | .link path _ => path

namespace ArchiveReader

def Spells (text : Option (Except UInt32 CStr)) (path : Wstr) : Prop :=
  ∃ name : CStr, text = some (.ok name) ∧ name.units = path

/- What a file of the archive says of itself when it is read. Its blocks stand in the data at their
offsets; the writer appends them. -/
structure ReadsFile (path : Wstr) (attr : FileAttr) (data : Bytes) (e : ArchiveEntry) : Prop where
  header : Delivered e.header
  name : Spells e.pathname path
  plain : e.hardlink = none
  mode : e.mode = attr.mode
  uid : e.uid = attr.uid
  gid : e.gid = attr.gid
  device : attr.device → e.rdevMajor = attr.devMajor ∧ e.rdevMinor = attr.devMinor
  target : attr.type = aeIflnk → ∃ target, attr.symlink = some target ∧ e.symlink = .ok target ∧ 0 ∉ target
  delivered : attr.type = aeIfreg → ∀ block ∈ e.blocks, Delivered block.status
  contiguous : attr.type = aeIfreg → Contiguous e.blocks
  size : attr.type = aeIfreg → data.length = e.size.toNat ∧ Extent.finish 0 (extents e.blocks) = e.size.toNat
  data : attr.type = aeIfreg → Extent.Holds 0 data (extents e.blocks)
  ends : attr.type = aeIfreg → e.dataEnd = .eof

structure ReadsLink (path target : Wstr) (e : ArchiveEntry) : Prop where
  header : Delivered e.header
  name : Spells e.pathname path
  link : Spells e.hardlink target

def Reads : Member → ArchiveEntry → Prop
  | .file path attr data,e => ReadsFile path attr data e
  | .link path target,e => ReadsLink path target e

def landsAt (rootPath : Wstr) (w : Format) (base name : Wstr) : Option Wstr :=
  if (LinuxPath.ofName name rootPath).skip then none
  else (w.lands (wstr "rootfs/" ++ (LinuxPath.ofName name rootPath).data)).map (base ++ ·)

theorem reachesLands {rootPath base p : Wstr} {w : Format} (wsl : w ≠ .linux) (name : Wstr) :
    (FilePath.linux (LinuxPath.ofName name rootPath)).Reaches (w.fresh base) p ↔
      landsAt rootPath w base name = some p := by
  rw [landsAt]
  cases shown : (LinuxPath.ofName name rootPath).skip with
  | true =>
    refine iff_of_false ?_ (by simp)
    rintro ⟨out,run,-⟩
    rw [FilePath.convert,FilePath.linuxConvert,if_pos shown] at run
    cases run
  | false =>
    rw [FilePath.linuxReaches shown,Format.freshBase wsl]
    rw [if_neg Bool.false_ne_true,Option.map_eq_some_iff]
    exact exists_congr fun _ => and_congr_right fun _ => eq_comm

variable (rootPath : Wstr) (w : Format) (base : Wstr) (members : List Member)

def placeOf : Option Member → Option Wstr
  | none => some (base ++ wstr "rootfs\\")
  | some m => landsAt rootPath w base m.path

def fileAt (place : Option Wstr) : Member → Option (FileAttr × Bytes)
  | .file path attr data => if landsAt rootPath w base path = place then some (attr,data) else none
  | .link _ _ => none

def inStat (attr : FileAttr) : FileAttr :=
  {attr with mode := shortMode attr.mode, uid := shortId attr.uid, gid := shortId attr.gid}

theorem inStatType (attr : FileAttr) : (inStat attr).type = attr.type := shortModeType attr.mode

def heldBy : Option Member → Option (FileAttr × Bytes)
  | none => some (rootAttr,[])
  | some (.file _ attr data) => some (attr,data)
  | some (.link _ target) => members.findSome? (fileAt rootPath w base (landsAt rootPath w base target))

def objectOf : Option Member → Option Wstr
  | none => none
  | some (.file path attr _) => if attr.type = aeIfdir then none else landsAt rootPath w base path
  | some (.link path target) =>
    if (landsAt rootPath w base path).isSome then landsAt rootPath w base target else none

def original : Original (Option Member) where
  land := placeOf rootPath w base
  same i j := ∃ p, objectOf rootPath w base i = some p ∧ objectOf rootPath w base j = some p
  dir i := (heldBy rootPath w base members i).any fun held => held.1.type = aeIfdir
  content i := (heldBy rootPath w base members i).bind fun held =>
    if held.1.type = aeIfreg then some held.2 else none
  target i := (heldBy rootPath w base members i).bind fun held =>
    if held.1.type = aeIflnk then held.1.symlink else none
  owner i := (heldBy rootPath w base members i).map fun held => (inStat held.1).owner

/- Files of the types that a writer knows, every name once, every link behind the file that it
names. -/
structure Orderly : Prop where
  types : ∀ path attr data, .file path attr data ∈ members → FsWriter.supported attr.type true = true
  once : (none :: members.map some).Pairwise fun i j =>
    ∀ p, placeOf rootPath w base i = some p → placeOf rootPath w base j ≠ some p
  backed : ∀ before path target after, members = before ++ .link path target :: after →
    (landsAt rootPath w base path).isSome → ∃ first attr data p, .file first attr data ∈ before ∧
      attr.type ≠ aeIfdir ∧ landsAt rootPath w base first = some p ∧ landsAt rootPath w base target = some p

variable {rootPath} {w} {base} {members}

namespace Orderly
variable (orderly : Orderly rootPath w base members) {i j : Option Member} {p : Wstr}
include orderly

theorem one (mem : i ∈ none :: members.map some) (mem' : j ∈ none :: members.map some)
    (landed : placeOf rootPath w base i = some p) (landed' : placeOf rootPath w base j = some p) : i = j := by
  by_contra other
  have : Std.Symm fun i j => ∀ p, placeOf rootPath w base i = some p → placeOf rootPath w base j ≠ some p :=
    ⟨fun i j h p landed landed' => h p landed' landed⟩
  exact orderly.once.forall mem mem' other p landed landed'

theorem found {path target : Wstr} {attr : FileAttr} {data : Bytes} (mem : .file path attr data ∈ members)
    (landed : landsAt rootPath w base path = some p) (landed' : landsAt rootPath w base target = some p) (name : Wstr) :
    heldBy rootPath w base members (some (.link name target)) = some (attr,data) := by
  rw [heldBy,landed']
  cases first : members.findSome? (fileAt rootPath w base (some p)) with
  | none =>
    have none' := List.findSome?_eq_none_iff.mp first _ mem
    simp [fileAt,landed] at none'
  | some held =>
    obtain ⟨m,mem',is⟩ := List.exists_of_findSome?_eq_some first
    cases m with
    | link path target => cases is
    | file path' attr' data' =>
      obtain ⟨there,same⟩ := Option.ite_none_right_eq_some.mp is
      have own : some (Member.file path attr data) = some (.file path' attr' data') :=
        orderly.one (by simp [mem]) (by simp [mem']) landed there
      cases own
      exact same.symm

theorem heldObject {done rest : List (Option Member)} (all : none :: members.map some = done ++ rest) (mem : i ∈ done)
    (object : objectOf rootPath w base i = some p) : ∃ path attr data, some (.file path attr data) ∈ done ∧
      attr.type ≠ aeIfdir ∧ landsAt rootPath w base path = some p ∧
      heldBy rootPath w base members i = some (attr,data) := by
  cases i with
  | none => cases object
  | some m =>
    cases m with
    | file path attr data =>
      obtain ⟨file,landed⟩ := Option.ite_none_left_eq_some.mp object
      exact ⟨path,attr,data,mem,file,landed,rfl⟩
    | link path target =>
      obtain ⟨there,landed⟩ := Option.ite_none_right_eq_some.mp object
      obtain ⟨before,after,rfl⟩ := List.append_of_mem mem
      cases before with
      | nil => cases all
      | cons root before =>
        obtain ⟨rfl,behind⟩ := List.cons.inj (all.trans (List.append_assoc ..))
        obtain ⟨early,late,rfl,rfl,more⟩ := List.map_eq_append_iff.mp behind
        obtain ⟨own,late,rfl,same,-⟩ := List.map_eq_cons_iff.mp more
        obtain rfl : own = .link path target := Option.some.inj same
        obtain ⟨first,attr,data,q,earlier,file,landed',same⟩ := orderly.backed early path target late rfl there
        obtain rfl : q = p := Option.some.inj (same.symm.trans landed)
        exact ⟨first,attr,data,by simp [earlier],file,landed',orderly.found (by simp [earlier]) landed' landed path⟩

theorem sound {items : List (Option Member)} (part : ∀ i ∈ items, i ∈ none :: members.map some) :
    (original rootPath w base members).Sound items where
  one i mem j mem' p landed landed' := orderly.one (part i mem) (part j mem') landed landed'
  symm _ _ same := same.imp fun _ both => ⟨both.2,both.1⟩
  trans i j k same same' := by
    obtain ⟨p,own,other⟩ := same
    obtain ⟨q,other',last⟩ := same'
    obtain rfl : p = q := Option.some.inj (other.symm.trans other')
    exact ⟨p,own,last⟩
  files i mem j _ same := by
    obtain ⟨p,own,-⟩ := same
    obtain ⟨path,attr,data,-,file,-,held⟩ := orderly.heldObject (List.append_nil _).symm (part i mem) own
    simp [original,held,file]
  alike i mem j mem' same := by
    obtain ⟨p,own,other⟩ := same
    obtain ⟨path,attr,data,there,-,landed,held⟩ := orderly.heldObject (List.append_nil _).symm (part i mem) own
    obtain ⟨path',attr',data',there',-,landed',held'⟩ := orderly.heldObject (List.append_nil _).symm (part j mem') other
    have one : some (Member.file path attr data) = some (.file path' attr' data') :=
      orderly.one there there' landed landed'
    cases one
    simp [original,held,held']
  dirs i _ dir := by
    obtain ⟨held,own,isDir⟩ := (Option.any_eq_true _ _).mp dir
    have type : held.1.type = aeIfdir := of_decide_eq_true isDir
    have regular : aeIfdir ≠ aeIfreg := by decide
    have link : aeIfdir ≠ aeIflnk := by decide
    simp [original,own,type,regular,link]

end Orderly
end ArchiveReader
end LxRunOffline
