import LxRunOffline.ExportMembers

/-! A distribution that is exported and installed again. The archive library is trusted to give back
a member as it was put in; what the reader makes of its name, the first names of the files and the
attributes that are cut on the way are the program's own. -/
namespace LxRunOffline
open Grouping (valuesOf)
open Member (membersOf)
open ArchiveReader (Reads landsAt placeOf heldBy objectOf fileAt Orderly rootAttr inStat shortId shortMode
  shortIdSmall)

/- What comes back of an owner: 16 bits of the mode, and an id as a short. -/
def Owner.cut (owner : Owner) : Owner :=
  {owner with mode := owner.mode &&& 0xffff, uid := shortId owner.uid, gid := shortId owner.gid}

theorem Owner.cutSmall {owner : Owner} (mode : owner.mode &&& 0xffff = owner.mode) (uid : owner.uid < 0x8000)
    (gid : owner.gid < 0x8000) : owner.cut = owner := by
  rw [cut,mode,shortIdSmall uid,shortIdSmall gid]

/- The directory `rootfs` and what lies below it, as an archive of it is to be unpacked. -/
def WslReader.unpacked (r : WslReader) (w : Format) (base : Wstr) : Original (Option Visit) where
  land
    | none => some (base ++ wstr "rootfs\\")
    | some v => r.lands w base v
  same
    | some u,some v => u.SameFile v
    | _,_ => False
  dir v := v.all Visit.dir
  content v := v.bind (r.original w base).content
  target v := v.bind (r.original w base).target
  owner
    | none => some rootAttr.owner
    | some v => (r.format.ownerOf v.info.eas).map Owner.cut

/- What an archive can hold: a regular file has the size that it was given, a symbolic link its
target. -/
def Member.Whole : Member → Prop
  | .file _ attr data => (attr.type = aeIfreg → data.length = attr.size.toNat) ∧
    (attr.type = aeIflnk → ∃ target, attr.symlink = some target ∧ 0 ∉ target)
  | .link _ _ => True

def Delivers (m : Member) (e : ArchiveEntry) : Prop := m.Whole → Reads m e

def WslReader.SizesTrue (r : WslReader) : Prop := ∀ v ∈ r.visits, v.dir = false → r.typeIn v.info = aeIfreg →
  v.info.content.length = v.info.size.toNat

def WslReader.TakenWhole (r : WslReader) (env : FsEnv) : Prop := ∀ v ∈ r.visits, v.dir = false →
  r.typeIn v.info = aeIfreg → env.TakesWhole v.info.pieces

namespace ArchiveWriter

theorem entryOfType (a : FileAttr) : (entryOf a).type = a.type := by
  have kept : (0xffff : UInt32) &&& aeIfmt = aeIfmt := by decide
  rw [FileAttr.type,FileAttr.type,entryOf,UInt32.and_assoc,kept]

theorem entryOfOwner (a : FileAttr) : (inStat (entryOf a)).owner = a.owner.cut := by
  have types : (inStat (entryOf a)).type = a.type := (ArchiveReader.inStatType _).trans (entryOfType a)
  have same : (inStat (entryOf a)).device ↔ a.device := by
    unfold FileAttr.type at types
    simp only [FileAttr.device,WslReader.isDevice,types]
  have mode : (inStat (entryOf a)).mode = a.mode &&& 0xffff := by
    rw [inStat,entryOf,ArchiveReader.shortModeBits,UInt32.and_assoc,UInt32.and_self]
  rw [FileAttr.owner,FileAttr.owner,Owner.cut,mode]
  by_cases device : a.device
  · have type : a.type = aeIfchr ∨ a.type = aeIfblk := device
    rw [if_pos (same.mpr device),if_pos device]
    simp [inStat,entryOf,type]
  · rw [if_neg (mt same.mp device),if_neg device]
    rfl

theorem entryOfSymlink {a : FileAttr} (link : a.type = aeIflnk) : (entryOf a).symlink = a.symlink := if_pos link

end ArchiveWriter
namespace Format
variable {source w : Format} {s u rel : Wstr}

theorem landsRooted (wsl : w ≠ .linux) (text : Wstr) : ∃ rel, w.lands (wstr "rootfs/" ++ text) = some rel := by
  cases w with
  | linux => contradiction
  | v1 => exact ⟨_,rfl⟩
  | v2 => exact ⟨_,rfl⟩
  | legacy =>
    have apart : ∀ q ∈ WslLegacyPath.patterns1, q.length ≤ (wstr "rootfs/").length ∧ ¬ q <+: wstr "rootfs/" := by decide
    have taken : ¬ PrefixMatcher.Hits WslLegacyPath.patterns1 (wstr "rootfs/" ++ text ++ [0]) := by
      rintro ⟨q,mem,starts⟩
      obtain ⟨short,off⟩ := apart q mem
      rw [List.append_assoc] at starts
      exact off (List.prefix_of_prefix_length_le starts (List.prefix_append ..) short)
    rw [lands,if_neg taken]
    exact ⟨_,rfl⟩

end Format
namespace LinuxPath

theorem ofNamePlain (p : Parts slash) (proper : ∀ dir ∈ p.dirs, Proper dir) : ofName p.text [] = named p.text := by
  rw [ofNameResolves p rfl,resolve,foldSame proper,List.nil_append]
  rfl

end LinuxPath
namespace WslReader
variable {r : WslReader} {env : FsEnv} {w : Format} {base p path : Wstr} {u v o : Visit}

theorem entryParts {dirs : List Wstr} {name : Wstr} (dir : Bool) (above : Entries dirs) (own : LinuxEntry name) :
    ∃ p : Parts slash, p.text = entryText dirs name dir ∧ ∀ d ∈ p.dirs, LinuxPath.Proper d := by
  have proper : ∀ d ∈ dirs ++ [name], LinuxPath.Proper d := fun d mem => (List.mem_append.mp mem).elim
    (fun mem => (above d mem).proper) fun mem => List.mem_singleton.mp mem ▸ own.proper
  cases dir with
  | true =>
    exact ⟨⟨dirs ++ [name],[],fun d mem => (proper d mem).2.2.2,by simp⟩,by simp [Parts.text,entryTextDir],proper⟩
  | false =>
    exact ⟨⟨dirs,name,fun d mem => (above d mem).proper.2.2.2,own.proper.2.2.2⟩,by simp [Parts.text,entryText],
      fun d mem => (above d mem).proper⟩

theorem streamsParts {s : Wstr} {whole : Parts slash} (text : whole.text = s)
    (proper : ∀ d ∈ whole.dirs, LinuxPath.Proper d) (fed : r.format.streams s = some (wstr "rootfs/" ++ path)) :
    ∃ p : Parts slash, p.text = path ∧ ∀ d ∈ p.dirs, LinuxPath.Proper d := by
  have either : path = s ∨ wstr "rootfs/" ++ path = s := by
    cases format : r.format with
    | legacy =>
      rw [format,Format.streams] at fed
      split at fed
      · cases fed
      · split at fed
        · exact .inl (List.append_cancel_left (Option.some.inj fed)).symm
        · exact .inr (Option.some.inj fed).symm
    | linux =>
      rw [format] at fed
      exact .inr (Option.some.inj fed).symm
    | v1 =>
      rw [format] at fed
      exact .inr (Option.some.inj fed).symm
    | v2 =>
      rw [format] at fed
      exact .inr (Option.some.inj fed).symm
  rcases either with rfl | under
  · exact ⟨whole,text,proper⟩
  · obtain ⟨p,rfl⟩ := Parts.everyText slash path
    have clear : ∀ d ∈ wstr "rootfs" :: p.dirs, slash ∉ d := fun d mem => (List.mem_cons.mp mem).elim
      (fun same => same ▸ by decide) (p.dirsClear d)
    have both : (⟨wstr "rootfs" :: p.dirs,p.last,clear,p.lastClear⟩ : Parts slash).text = whole.text := by
      rw [text,← under,Parts.text,joinDirsCons,List.append_assoc,List.cons_append]
      rfl
    obtain ⟨dirs,-⟩ := Components.textInjective both
    exact ⟨p,rfl,fun d mem => proper d (dirs ▸ List.mem_cons_of_mem _ mem)⟩

theorem firstNameSame (same : u.SameFile v) : r.firstName u = r.firstName v := by
  obtain ⟨index,own,other⟩ := same
  obtain ⟨file,rfl⟩ := Visit.fileIndexSome own
  obtain ⟨file',index⟩ := Visit.fileIndexSome other
  simp [firstName,file,file',index]

theorem firstNameVisit (file : v.dir = false) (first : r.firstName v = some path) :
    ∃ o ∈ r.visits, o.SameFile v ∧ r.lands .linux [] o = some path := by
  rw [firstName,if_neg (by simp [file])] at first
  obtain ⟨o,mem,own,landed⟩ := (Grouping.memValuesOf _ _).mp (List.mem_of_head? first)
  exact ⟨o,mem,⟨_,own,Visit.fileIndexFile file⟩,landed⟩

theorem Archives.content {attr : FileAttr} {data : Bytes} (own : r.Archives env v (.file path attr data))
    (whole : r.TakenWhole env) (visited : v ∈ r.visits) :
    data = if v.dir = false ∧ r.typeIn v.info = aeIfreg then v.info.content else [] := by
  obtain ⟨-,-,-,taken,takes,rfl⟩ := own
  by_cases plain : v.dir = false ∧ r.typeIn v.info = aeIfreg
  · rw [if_pos plain] at takes ⊢
    rw [takes.whole (whole v visited plain.1 plain.2),NodeInfo.content]
  · rw [if_neg plain] at takes ⊢
    cases takes
    rfl

theorem Archives.lands {m : Member} (own : r.Archives env v m) : r.lands .linux [] v = some m.path := by
  cases m with
  | file path attr data => exact own.1
  | link path target => exact own.1

theorem listedLands (mem : v ∈ r.visits.filter r.Listed) :
    v ∈ r.visits ∧ ∃ path, r.lands .linux [] v = some path ∧ path ≠ [] := by
  obtain ⟨mem,listed⟩ := List.mem_filter.mp mem
  obtain ⟨path,landed,named⟩ := (Option.any_eq_true _ _).mp listed
  exact ⟨mem,path,landed,of_decide_eq_true named⟩

theorem archivedType {attr : FileAttr} {data : Bytes} (own : r.Archives env v (.file path attr data)) :
    attr.type = r.typeIn v.info := by
  obtain ⟨-,-,⟨a,shown,-,rfl⟩,-⟩ := own
  exact (ArchiveWriter.entryOfType a).trans shown.type

theorem visitsNodup (proper : r.walked.Proper) : r.visits.Nodup := by
  have ordered (l : List Visit) (once : ∀ done v rest, l = done ++ v :: rest → v ∉ done) : l.Nodup := by
    induction l using List.reverseRecOn with
    | nil => exact List.nodup_nil
    | append_singleton init v ih =>
      have early := ih fun done u rest all => once done u (rest ++ [v]) (by simp [all])
      have last : v ∉ init := once init v [] rfl
      rw [List.nodup_append]
      exact ⟨early,List.nodup_singleton v,fun u mem x own same => last (List.mem_singleton.mp own ▸ same ▸ mem)⟩
  exact ordered _ fun done v rest all before => visitedOnce proper all before rfl

variable (base)
theorem exportedLands (encoded : r.tree.Encoded r.format) (reader : r.format ≠ .linux) (unmistaken : r.Unmistaken w)
    (wsl : w ≠ .linux) (visited : v ∈ r.visits) (landed : r.lands .linux [] v = some path) (some' : path ≠ []) :
    landsAt [] w base path = r.lands w base v ∧ ∃ rel, w.lands (wstr "rootfs/" ++ path) = some rel ∧
      r.lands w base v = some (base ++ rel) ∧ 0 ∉ wstr "rootfs/" ++ path ∧ w.Plain (wstr "rootfs/" ++ path) := by
  obtain ⟨texts,text,spelled,noNul,plain⟩ := visitText encoded unmistaken visited
  rw [spelled.lands reader] at landed
  obtain ⟨rel,target,is⟩ := Option.map_eq_some_iff.mp landed
  obtain rfl : rel = path := is
  obtain ⟨fed,streamed,lands⟩ := Option.bind_eq_some_iff.mp target
  obtain ⟨clear,plainFed⟩ := Format.streamsClear noNul plain streamed
  obtain rfl := Format.linuxUnder clear lands
  have entries : Entries texts := fun t mem => (spelled.reads t mem).entry
  obtain ⟨whole,is,proper⟩ := entryParts v.dir entries spelled.own.entry
  obtain ⟨p,rfl,proper'⟩ := streamsParts is proper streamed
  have shown : (LinuxPath.named p.text).skip = false := by simpa [LinuxPath.named] using some'
  obtain ⟨last,there⟩ := Format.landsRooted wsl p.text
  have own : r.lands w base v = some (base ++ last) := by
    rw [spelled.lands reader,Format.target,streamed,Option.bind_some,there,Format.freshBase wsl]
    rfl
  refine ⟨?_,last,there,own,clear,plainFed⟩
  rw [landsAt,LinuxPath.ofNamePlain p proper',if_neg (by simp [shown]),own,
    show (LinuxPath.named p.text).data = p.text from rfl,
    there]
  rfl

theorem partVisit {m : Member} {parts : List (Visit × Member)} (names : parts.map Prod.fst = r.visits.filter r.Listed)
    (all : ∀ v m, (v,m) ∈ parts → r.Archives env v m) (mem : (v,m) ∈ parts) :
    v ∈ r.visits ∧ r.lands .linux [] v = some m.path ∧ m.path ≠ [] := by
  have listed : v ∈ r.visits.filter r.Listed := names ▸ List.mem_map.mpr ⟨_,mem,rfl⟩
  obtain ⟨visited,path,landed,named⟩ := listedLands listed
  have own := (all v m mem).lands
  obtain rfl := Option.some.inj (own.symm.trans landed)
  exact ⟨visited,own,named⟩

def pairsOf (parts : List (Visit × Member)) : List (Option Member × Option Visit) :=
  (none,none) :: parts.map fun part => (some part.2,some part.1)

theorem memPairs {parts : List (Visit × Member)} {i : Option Member} {k : Option Visit} (mem : (i,k) ∈ pairsOf parts) :
    (i = none ∧ k = none) ∨ ∃ v m, (v,m) ∈ parts ∧ i = some m ∧ k = some v := by
  rcases List.mem_cons.mp mem with root | part
  · exact .inl (Prod.mk.inj root)
  · obtain ⟨⟨v,m⟩,held,same⟩ := List.mem_map.mp part
    cases same
    exact .inr ⟨v,m,held,rfl,rfl⟩

section Trip
variable (copyable : r.Copyable env .linux [])
include copyable

theorem Copyable.dirType (mem : v ∈ r.visits) : r.typeIn v.info = aeIfdir ↔ v.dir = true := by
  have regular : aeIfreg ≠ aeIfdir := by decide
  rw [copyable.shaped v mem,typeIn]
  cases r.modeOf v.info with
  | none => simp [regular]
  | some mode => simp

theorem firstLands (unmistaken : r.Unmistaken w) (wsl : w ≠ .linux) (file : v.dir = false)
    (first : r.firstName v = some path) :
    ∃ o ∈ r.visits, o.SameFile v ∧ landsAt [] w base path = r.lands w base o ∧ ∃ p, r.lands w base o = some p := by
  obtain ⟨o,visited,same,landed⟩ := firstNameVisit file first
  have some' : path ≠ [] := fun none' =>
    fileNamed copyable.encoded copyable.reader visited same.files.1 (none' ▸ landed)
  obtain ⟨here,rel,-,there,-⟩ := exportedLands base copyable.encoded copyable.reader unmistaken wsl visited
    landed some'
  exact ⟨o,visited,same,here,_,there⟩

variable {parts before after : List (Visit × Member)} (names : parts.map Prod.fst = r.visits.filter r.Listed)
  (all : ∀ v m, (v,m) ∈ parts → r.Archives env v m)
include names all

theorem firstMember (split : parts = before ++ (v,.link path p) :: after) :
    ∃ o attr data, (o,.file p attr data) ∈ before ∧ o.SameFile v := by
  subst split
  obtain ⟨landed,file,first,other⟩ := all v (.link path p) (by simp)
  rw [List.map_append,List.map_cons] at names
  obtain ⟨done,rest,visits,done',rest'⟩ := List.filter_eq_append_iff.mp names.symm
  obtain ⟨skipped,late,rfl,off,-,-⟩ := List.filter_eq_cons_iff.mp rest'
  have split : r.visits = (done ++ skipped) ++ v :: late := by simp [visits]
  have own := firstNameOf split file landed
  rw [first] at own
  cases early : (valuesOf Visit.fileIndex (r.lands .linux []) v.info.index (done ++ skipped)).head? with
  | none =>
    rw [early] at own
    exact absurd (Option.some.inj own) other
  | some q =>
    rw [early] at own
    obtain rfl : p = q := Option.some.inj own
    obtain ⟨o,mem,same,landed'⟩ := firstVisit file early
    have some' : p ≠ [] := fun none' => by
      have visited : o ∈ r.visits := by
        rw [split]
        exact List.mem_append_left _ mem
      exact fileNamed copyable.encoded copyable.reader visited same.files.1 (none' ▸ landed')
    have listed : r.Listed o = true := by simp [Listed,landed',some']
    have inside : o ∈ before.map Prod.fst := by
      rw [← done']
      rcases List.mem_append.mp mem with old | passed
      · exact List.mem_filter.mpr ⟨old,listed⟩
      · exact absurd listed (off o passed)
    obtain ⟨⟨o,m⟩,held,rfl⟩ := List.mem_map.mp inside
    have archives := all o m (List.mem_append_left _ held)
    cases m with
    | file path attr data =>
      obtain rfl := Option.some.inj (archives.1.symm.trans landed')
      exact ⟨o,attr,data,held,same⟩
    | link path target =>
      obtain ⟨own,-,first',other'⟩ := archives
      have one := (firstNameSame same).trans first
      exact absurd (Option.some.inj (first'.symm.trans one)) (Option.some.inj (own.symm.trans landed') ▸ other')

theorem partsWhole (whole : r.TakenWhole env) (sizes : r.SizesTrue) : ∀ m ∈ parts.map Prod.snd, m.Whole := by
  intro m mem
  obtain ⟨⟨v,m⟩,held,rfl⟩ := List.mem_map.mp mem
  cases m with
  | link path target => trivial
  | file path attr data =>
    have visited := (partVisit names all held).1
    have is := (all v (.file path attr data) held).content whole visited
    obtain ⟨-,-,⟨a,shown,-,rfl⟩,-⟩ := all v (.file path attr data) held
    have type := (ArchiveWriter.entryOfType a).trans shown.type
    refine ⟨fun regular => ?_,fun link => ?_⟩
    · have own := type.symm.trans regular
      have file : v.dir = false := Bool.eq_false_iff.mpr fun dir => by
        have both := own.symm.trans ((copyable.dirType visited).mpr dir)
        exact absurd both (by decide)
      rw [is,if_pos ⟨file,own⟩,sizes v visited file own]
      exact congrArg UInt64.toNat (shown.size a rfl).symm
    · have isLink : a.type = aeIflnk := (ArchiveWriter.entryOfType a).symm.trans link
      obtain ⟨target,held,symlink⟩ := shown.target isLink
      exact ⟨target,(ArchiveWriter.entryOfSymlink isLink).trans symlink,targetClear held⟩

variable (unmistaken : r.Unmistaken w) (wsl : w ≠ .linux)
include unmistaken wsl

theorem partLands {m : Member} (mem : (v,m) ∈ parts) : landsAt [] w base m.path = r.lands w base v ∧
    ∃ rel, w.lands (wstr "rootfs/" ++ m.path) = some rel ∧ r.lands w base v = some (base ++ rel) ∧
      0 ∉ wstr "rootfs/" ++ m.path ∧ w.Plain (wstr "rootfs/" ++ m.path) := by
  obtain ⟨visited,landed,named⟩ := partVisit names all mem
  exact exportedLands base copyable.encoded copyable.reader unmistaken wsl visited landed named

theorem exportedOrderly : Orderly [] w base (parts.map Prod.snd) where
  types path attr data mem := by
    obtain ⟨⟨v,m⟩,held,rfl⟩ := List.mem_map.mp mem
    obtain ⟨-,-,⟨a,-,passes,rfl⟩,-⟩ := all v (.file path attr data) held
    rw [ArchiveWriter.entryOfType]
    simp only [FsWriter.passes,FsWriter.supported,Bool.or_eq_true,Bool.and_false,or_false,Bool.false_eq_true] at passes
    rw [FsWriter.supported,passes]
    rfl
  once := by
    rw [List.pairwise_cons,List.map_map,List.pairwise_map]
    constructor
    · intro i mem p root landed
      obtain ⟨⟨v,m⟩,held,rfl⟩ := List.mem_map.mp mem
      obtain ⟨own,rel,lands,there,clear,plain⟩ := partLands base copyable names all unmistaken wsl held
      have same : base ++ rel = base ++ wstr "rootfs\\" :=
        Option.some.inj ((there.symm.trans own.symm).trans (landed.trans root.symm))
      obtain rfl := List.append_cancel_left same
      have plainRoot : w.Plain (wstr "rootfs/") := fun _ => everyUnit (by decide)
      have whole := Format.landsOnce ⟨by decide,plainRoot⟩ ⟨clear,plain⟩ (Format.landsRoot wsl) lands
      exact (partVisit names all held).2.2 (List.self_eq_append_right.mp whole)
    · have apart : (parts.map Prod.fst).Nodup :=
        names ▸ (visitsNodup (walkedEncoded copyable.encoded).proper).filter _
      refine (List.pairwise_map.mp apart).imp_of_mem fun {x y} mem mem' other p landed landed' => ?_
      have own := (partLands base copyable names all unmistaken wsl mem).1.symm.trans landed
      have own' := (partLands base copyable names all unmistaken wsl mem').1.symm.trans landed'
      exact other (oneVisit copyable.encoded copyable.reader unmistaken (partVisit names all mem).1
        (partVisit names all mem').1 own own')
  backed before path target after split _ := by
    obtain ⟨early,late,rfl,rfl,more⟩ := List.map_eq_append_iff.mp split
    obtain ⟨⟨v,m⟩,late,rfl,own,rfl⟩ := List.map_eq_cons_iff.mp more
    obtain rfl : m = .link path target := own
    obtain ⟨o,attr,data,mem,same⟩ := firstMember copyable names all rfl
    have inside : (o,Member.file target attr data) ∈ early ++ (v,.link path target) :: late :=
      List.mem_append_left _ mem
    obtain ⟨here,rel,-,there,-⟩ := partLands base copyable names all unmistaken wsl inside
    have landed := here.trans there
    refine ⟨target,attr,data,_,List.mem_map.mpr ⟨_,mem,rfl⟩,fun dir => ?_,landed,landed⟩
    have type := (archivedType (all o _ inside)).symm.trans dir
    have isDir := (copyable.dirType (partVisit names all inside).1).mp type
    exact absurd (same.files.1.symm.trans isDir) Bool.false_ne_true

theorem heldShown (whole : r.TakenWhole env) {m : Member} (mem : (v,m) ∈ parts) : ∃ a data,
    heldBy [] w base (parts.map Prod.snd) (some m) = some (ArchiveWriter.entryOf a,data) ∧ r.Shown v.info (some a) ∧
    data = if v.dir = false ∧ r.typeIn v.info = aeIfreg then v.info.content else [] := by
  cases m with
  | file path attr data =>
    have is := (all v (.file path attr data) mem).content whole (partVisit names all mem).1
    obtain ⟨-,-,⟨a,shown,-,rfl⟩,-⟩ := all v (.file path attr data) mem
    exact ⟨a,data,rfl,shown,is⟩
  | link path target =>
    obtain ⟨early,late,split⟩ := List.append_of_mem mem
    obtain ⟨o,attr,data,before,same⟩ := firstMember copyable names all split
    have inside : (o,Member.file target attr data) ∈ parts := split ▸ List.mem_append_left _ before
    have is := (all o (.file target attr data) inside).content whole (partVisit names all inside).1
    obtain ⟨-,-,⟨a,shown,-,rfl⟩,-⟩ := all o (.file target attr data) inside
    have info := copyable.oneFile o (partVisit names all inside).1 v (partVisit names all mem).1 same
    obtain ⟨here,rel,-,there,-⟩ := partLands base copyable names all unmistaken wsl inside
    have orderly := exportedOrderly base copyable names all unmistaken wsl
    refine ⟨a,data,orderly.found (List.mem_map.mpr ⟨_,inside,rfl⟩) (here.trans there) (here.trans there) path,
      info ▸ shown,?_⟩
    rw [is,info,same.files.1,same.files.2]

theorem objectIs {m : Member} (mem : (v,m) ∈ parts) : objectOf [] w base (some m) =
    if v.dir then none else (r.firstName v).bind (landsAt [] w base) := by
  cases m with
  | file path attr data =>
    have own := all v (.file path attr data) mem
    have dir := (archivedType own).symm ▸ copyable.dirType (partVisit names all mem).1
    rw [objectOf,own.2.1]
    by_cases isDir : v.dir = true
    · rw [if_pos (dir.mpr isDir),if_pos isDir]
    · rw [if_neg (mt dir.mp isDir),if_neg isDir]
      rfl
  | link path target =>
    obtain ⟨landed,file,first,-⟩ := all v (.link path target) mem
    obtain ⟨here,rel,-,there,-⟩ := partLands base copyable names all unmistaken wsl mem
    have lands : landsAt [] w base path = some (base ++ rel) := here.trans there
    rw [objectOf,lands,first,file]
    rfl

theorem objectShared {m n : Member} (mem : (u,m) ∈ parts) (mem' : (v,n) ∈ parts) :
    (∃ p, objectOf [] w base (some m) = some p ∧ objectOf [] w base (some n) = some p) ↔ u.SameFile v := by
  have visited := (partVisit names all mem).1
  have visited' := (partVisit names all mem').1
  rw [objectIs base copyable names all unmistaken wsl mem,objectIs base copyable names all unmistaken wsl mem']
  constructor
  · rintro ⟨p,own,other⟩
    obtain ⟨file,own⟩ := Option.ite_none_left_eq_some.mp own
    obtain ⟨file',other⟩ := Option.ite_none_left_eq_some.mp other
    obtain ⟨first,named,lands⟩ := Option.bind_eq_some_iff.mp own
    obtain ⟨first',named',lands'⟩ := Option.bind_eq_some_iff.mp other
    obtain ⟨o,memO,same,here,-⟩ := firstLands base copyable unmistaken wsl
      (Bool.eq_false_iff.mpr file) named
    obtain ⟨o',memO',same',here',-⟩ := firstLands base copyable unmistaken wsl
      (Bool.eq_false_iff.mpr file') named'
    obtain rfl := oneVisit copyable.encoded copyable.reader unmistaken memO memO' (here.symm.trans lands)
      (here'.symm.trans lands')
    exact same.symm.trans same'
  · intro same
    have first : ∃ t, r.firstName u = some t := by
      cases m with
      | file path attr data => exact ⟨_,(all u (.file path attr data) mem).2.1⟩
      | link path target => exact ⟨_,(all u (.link path target) mem).2.2.1⟩
    obtain ⟨t,named⟩ := first
    obtain ⟨o,-,-,here,p,there⟩ := firstLands base copyable unmistaken wsl same.files.1 named
    rw [← firstNameSame same,named,same.files.1,same.files.2]
    exact ⟨p,here.trans there,here.trans there⟩

theorem unpackedShown (whole : r.TakenWhole env) {disk : Disk}
    (shows : (ArchiveReader.original [] w base (parts.map Prod.snd)).Shows w
      (none :: (parts.map Prod.snd).map some) disk) :
    (r.unpacked w base).Shows w (none :: (r.visits.filter r.Listed).map some) disk := by
  have left : none :: (parts.map Prod.snd).map some = (pairsOf parts).map Prod.fst := by
    simp [pairsOf,Function.comp_def]
  have right : none :: (r.visits.filter r.Listed).map some = (pairsOf parts).map Prod.snd := by
    rw [← names]
    simp [pairsOf,Function.comp_def]
  rw [left] at shows
  rw [right]
  refine LinkedStore.Pictures.along shows (fun i k mem => ?_) (fun i k mem j l mem' _ _ _ _ => ?_)
    fun i k mem p node _ fine => ?_
  · rcases memPairs mem with ⟨rfl,rfl⟩ | ⟨v,m,held,rfl,rfl⟩
    · rfl
    · exact (partLands base copyable names all unmistaken wsl held).1.symm
  · rcases memPairs mem with ⟨rfl,rfl⟩ | ⟨u,m,held,rfl,rfl⟩
    · exact iff_of_false (fun ⟨_,own,_⟩ => by cases own) id
    · rcases memPairs mem' with ⟨rfl,rfl⟩ | ⟨v,n,held',rfl,rfl⟩
      · exact iff_of_false (fun ⟨_,_,own⟩ => by cases own) id
      · exact objectShared base copyable names all unmistaken wsl held held'
  · rcases memPairs mem with ⟨rfl,rfl⟩ | ⟨v,m,held,rfl,rfl⟩
    · exact ⟨⟨fine.1.kind,nofun,nofun⟩,fine.2⟩
    · obtain ⟨a,data,own,shown,is⟩ := heldShown base copyable names all unmistaken wsl whole held
      have visited := (partVisit names all held).1
      have type := (ArchiveWriter.entryOfType a).trans shown.type
      have owner : (r.unpacked w base).owner (some v) =
          (ArchiveReader.original [] w base (parts.map Prod.snd)).owner (some m) := by
        have known := shown.owner.symm
        simp only [Option.map_some] at known
        simp only [unpacked,ArchiveReader.original,own,known,Option.map_some,ArchiveWriter.entryOfOwner]
      refine ⟨⟨fine.1.kind.trans ?_,fun bytes whole => fine.1.content bytes ?_,
        fun target found => fine.1.target target ?_⟩,fun fits => ?_⟩
      · have dir := copyable.dirType visited
        simp only [unpacked,ArchiveReader.original,own,Option.any_some,Option.all_some,type]
        exact Bool.eq_iff_iff.mpr (decide_eq_true_iff.trans dir)
      · obtain ⟨regular,same⟩ := Option.ite_none_right_eq_some.mp whole
        rw [if_pos regular] at is
        simp only [ArchiveReader.original,own,Option.bind_some,type]
        rw [if_pos regular.2,is,same]
      · obtain ⟨link,same⟩ := Option.ite_none_right_eq_some.mp found
        obtain ⟨target',held',symlink⟩ := shown.target (shown.type.trans link.2)
        simp only [ArchiveReader.original,own,Option.bind_some,type]
        have isLink : a.type = aeIflnk := shown.type.trans link.2
        rw [if_pos link.2,ArchiveWriter.entryOfSymlink isLink]
        exact symlink.trans (held'.symm.trans same)
      · rw [owner] at fits ⊢
        exact fine.2 fits

end Trip

theorem tripRead (clock : Nat) (answers : List ArchiveAnswer) {a : ArchiveReader} {fuel : Nat} {s : CopyState}
    (copyable : r.Copyable env .linux []) (unmistaken : r.Unmistaken w) (wsl : w ≠ .linux) (whole : r.TakenWhole env)
    (sizes : r.SizesTrue) (exported : r.run env .linux fuel (.newAt clock answers .linux [] r.base) = (.ok (),s))
    (root : a.rootPath = [])
    (kept : List.Forall₂ Delivers (membersOf s.log) a.entries) :
    ∃ members, Orderly a.rootPath w base members ∧ List.Forall₂ Reads members a.entries ∧ ∀ disk,
      (ArchiveReader.original a.rootPath w base members).Shows w (none :: members.map some) disk →
        (r.unpacked w base).Shows w (none :: (r.visits.filter r.Listed).map some) disk := by
  obtain ⟨parts,names,stored,all⟩ := exportedRun copyable clock answers fuel exported
  refine ⟨parts.map Prod.snd,root ▸ exportedOrderly base copyable names all unmistaken wsl,?_,fun disk shows => ?_⟩
  · rw [← stored] at kept
    have both := (List.forall₂_and_left _ _).mpr ⟨partsWhole copyable names all whole sizes,kept⟩
    exact both.imp fun m e h => h.2 h.1
  · rw [root] at shows
    exact unpackedShown base copyable names all unmistaken wsl whole shows

/- A tree that is exported and installed from the archive again, in any format of a disk: the
disk shows every entry below the root, with its contents, link target and owner, and the names
that were one file are one file. -/
theorem archiveTrip {a : ArchiveReader} {other : FsEnv} {fuel : Nat} {s : CopyState}
    (copyable : r.Copyable env .linux []) (unmistaken : r.Unmistaken w) (wsl : w ≠ .linux) (whole : r.TakenWhole env)
    (sizes : r.SizesTrue) (exported : r.run env .linux fuel (.new .linux [] r.base) = (.ok (),s))
    (root : a.rootPath = []) (kept : List.Forall₂ Delivers (membersOf s.log) a.entries) (ending : a.ending = .eof)
    (fresh : other.Fresh) : (∀ t, a.run other w (.new w base []) = (.ok (),t) → Emptied other t →
      ∃ disk, Disk.image (FsWriter.destroy other w t).2.log = some disk ∧
        (r.unpacked w base).Shows w (none :: (r.visits.filter r.Listed).map some) disk) ∧
    (other.Works → ∃ t, a.run other w (.new w base []) = (.ok (),t) ∧ Emptied other t) ∧
    (∀ v owner, r.format.ownerOf v.info.eas = some owner → owner.mode &&& 0xffff = owner.mode → owner.uid < 0x8000 →
      owner.gid < 0x8000 → (r.unpacked w base).owner (some v) = some owner) := by
  obtain ⟨members,orderly,reads,shown⟩ :=
    tripRead base 0 [] copyable unmistaken wsl whole sizes exported root kept
  refine ⟨fun t run emptied => ?_,fun works => ArchiveReader.runWorks works 0 [] wsl ending reads orderly.types,
    fun v owner owned mode uid gid => ?_⟩
  · obtain ⟨disk,image,shows⟩ := ArchiveReader.unpackedRun wsl fresh orderly reads ending run emptied
    exact ⟨disk,image,shown disk shows⟩
  · have cut : (r.unpacked w base).owner (some v) = (r.format.ownerOf v.info.eas).map Owner.cut := rfl
    rw [cut,owned,Option.map_some,Owner.cutSmall mode uid gid]

end WslReader

theorem firstNoNul : 0 ∉ wstr "f" := by decide
theorem furtherNoNul : 0 ∉ wstr "g" := by decide

def rootedArchive : ArchiveReader where
  archivePath := wstr "a.tar"
  rootPath := []
  entries := [{packedEntry ⟨wstr "f",firstNoNul⟩ with mode := 0x81a4},
    {packedEntry ⟨wstr "g",furtherNoNul⟩ with hardlink := some (.ok ⟨wstr "f",firstNoNul⟩)}]
  ending := .eof

def rootedExport : CopyState := (rootedTwice.run plainFs .linux 4 (.new .linux [] rootedTwice.base)).2

theorem rootedRun : rootedTwice.run plainFs .linux 4 (.new .linux [] rootedTwice.base) = (.ok (),rootedExport) := by
  rw [rootedExport]
  exact Program.returnedPair (by decide +kernel)

theorem rootedDelivers : List.Forall₂ Delivers [.file (wstr "f") {rootAttr with mode := 0x81a4} [],
    .link (wstr "g") (wstr "f")] rootedArchive.entries := by
  refine .cons (fun _ => ?_) (.cons (fun _ => ⟨.inl rfl,⟨_,rfl,rfl⟩,_,rfl,rfl⟩) .nil)
  exact ⟨.inl rfl,⟨_,rfl,rfl⟩,rfl,rfl,rfl,rfl,fun _ => ⟨rfl,rfl⟩,fun link => absurd link (by decide),
    fun _ _ none' => (by cases none'),fun _ => ⟨trivial,by nofun,.nil⟩,fun _ => ⟨rfl,rfl⟩,
    fun _ => ⟨by nofun,fun _ before => by obtain ⟨_,none',_⟩ := before; cases none'⟩,fun _ => rfl⟩

theorem rootedMembers : membersOf rootedExport.log = [.file (wstr "f") {rootAttr with mode := 0x81a4} [],
    .link (wstr "g") (wstr "f")] := by decide +kernel

theorem rootedUnmistaken : rootedTwice.Unmistaken .v2 := by
  intro _ _ v visited c mem
  have plain : v.path.all fun c => !WslPath.isSpecialInput (c ^^^ 0xf000) := by
    rw [rootedVisits] at visited
    simp only [List.mem_cons,List.not_mem_nil,or_false] at visited
    rcases visited with rfl | rfl | rfl <;> decide
  simpa using List.all_eq_true.mp plain c mem

theorem plainTakes (pieces : List Bytes) : plainFs.TakesWhole pieces :=
  fun _ _ _ _ took => (DataAnswer.took.inj took).symm

theorem rootedSizes : rootedTwice.SizesTrue := fun v visited file _ => by
  rw [rootedFiles visited file]
  rfl

theorem archiveTripRooted :
    (∀ t, rootedArchive.run plainFs .v2 (.new .v2 targetBase []) = (.ok (),t) → WslReader.Emptied plainFs t →
      ∃ disk, Disk.image (FsWriter.destroy plainFs .v2 t).2.log = some disk ∧
        (rootedTwice.unpacked .v2 targetBase).Shows .v2
          (none :: (rootedTwice.visits.filter rootedTwice.Listed).map some) disk) ∧
    (plainFs.Works → ∃ t, rootedArchive.run plainFs .v2 (.new .v2 targetBase []) = (.ok (),t) ∧
      WslReader.Emptied plainFs t) := by
  obtain ⟨shown,works,-⟩ := WslReader.archiveTrip targetBase rootedCopyable rootedUnmistaken (by decide)
    (fun _ _ _ _ => plainTakes _) rootedSizes rootedRun rfl (rootedMembers ▸ rootedDelivers) rfl plainFresh
  exact ⟨shown,works⟩

end LxRunOffline
