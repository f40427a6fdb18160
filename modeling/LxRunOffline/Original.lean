import LxRunOffline.CopyEffects
import LxRunOffline.Picture

/-! What is to be copied, whatever it is read from, and the disk on which the copy is seen. The
writer is told of one entry after the other; a directory may have to wait for its attributes. -/
namespace LxRunOffline
open WslV2Writer (stores storesAll)

namespace FileNode
variable {w : Format} {path : Wstr} {attr : FileAttr} {node : FileNode}

theorem wrotePieces (node : FileNode) (path : Wstr) (pieces : List Bytes) :
    node.afterAll (pieces.map (.wrote path)) = {node with bytes := node.bytes ++ pieces.flatten} := by
  induction pieces generalizing node with
  | nil => simp [afterAll]
  | cons piece rest ih =>
    have next := ih (node.after (.wrote path piece))
    simpa [afterAll,after] using next

theorem storedV2 (node : FileNode) (path : Wstr) (attr : FileAttr) :
    (node.afterAll (stores path attr)).bytes = node.bytes ∧
    (node.afterAll (stores path attr)).reparse = (WslV2Writer.reparseOf attr).or node.reparse := by
  by_cases device : attr.type = aeIfchr ∨ attr.type = aeIfblk <;>
    cases reparse : WslV2Writer.reparseOf attr <;> simp [stores,afterAll,after,device,reparse]

theorem storedV1 (node : FileNode) (path : Wstr) (attr : FileAttr) :
    (node.afterAll (WslV1Writer.stores path attr)).bytes = node.bytes ++
      if attr.type = aeIflnk then WslV1Writer.linkData (attr.symlink.getD []) else [] := by
  by_cases link : attr.type = aeIflnk <;> simp [WslV1Writer.stores,afterAll,after,link]

theorem storedOwner (node : FileNode) (path : Wstr) (fits : attr.owner.Fits w) :
    w.ownerOf (node.afterAll (WslWriter.storedAs w path attr)).eas = some attr.owner := by
  by_cases v2 : w = .v2
  · have same : attr.device ↔ attr.type = aeIfchr ∨ attr.type = aeIfblk := .rfl
    have numbers := attr.packedBack
    rw [FileAttr.packed] at numbers
    rw [WslWriter.storedAs,if_pos v2,Format.ownerOf,if_pos v2,FileAttr.owner]
    by_cases device : attr.device
    · have mode : WslReader.isDevice attr.mode := device
      cases reparse : WslV2Writer.reparseOf attr <;>
        simp [stores,afterAll,after,same.mp device,reparse,EaValue.asDword,EaValue.asQword,mode,numbers,device]
    · have mode : ¬ WslReader.isDevice attr.mode := device
      have other := mt same.mpr device
      cases reparse : WslV2Writer.reparseOf attr <;>
        simp [stores,afterAll,after,other,reparse,EaValue.asDword,mode,device]
  · have held : (node.afterAll (WslV1Writer.stores path attr)).eas .lxattrb =
        some (.record (WslV1Writer.record attr)) := by
      by_cases link : attr.type = aeIflnk <;> simp [WslV1Writer.stores,afterAll,after,link]
    rw [WslWriter.storedAs,if_neg v2,Format.ownerOf,if_neg v2,held,FileAttr.owner]
    simp only [Option.bind_some,EaValue.asRecord,Option.map_some]
    by_cases device : attr.device
    · have mode : WslReader.isDevice (WslV1Writer.record attr).mode := device
      have narrow : attr.Narrow := fits v2 (attr.devMajor,attr.devMinor) (if_pos device)
      rw [if_pos mode,if_pos device,(FileAttr.narrowPacked narrow).1,(FileAttr.narrowPacked narrow).2]
      rfl
    · have mode : ¬ WslReader.isDevice (WslV1Writer.record attr).mode := device
      rw [if_neg mode,if_neg device]
      rfl

end FileNode

theorem storesTouch (path : Wstr) (attr : FileAttr) : ∀ e ∈ stores path attr, Disk.Touches path e := by
  intro e inside
  unfold stores at inside
  simp only [List.mem_append,List.mem_cons,List.not_mem_nil,or_false,List.mem_map] at inside
  refine .inl ?_
  rcases inside with ((rfl | rfl | rfl) | device) | ⟨data,-,rfl⟩ | rfl
  · rfl
  · rfl
  · rfl
  · split at device
    · exact List.mem_singleton.mp device ▸ rfl
    · cases device
  · rfl
  · rfl

theorem storesOfTouch (w : Format) (path : Wstr) (attr : Option FileAttr) :
    ∀ e ∈ WslWriter.storesOf w path attr, Disk.Touches path e := by
  intro e inside
  cases attr with
  | none => cases inside
  | some attr =>
    have own : e ∈ WslWriter.storedAs w path attr := inside
    rw [WslWriter.storedAs] at own
    split at own
    · exact storesTouch path attr e own
    · rcases List.mem_cons.mp own with rfl | link
      · exact .inl rfl
      · split at link
        · exact List.mem_singleton.mp link ▸ .inl rfl
        · cases link

theorem Disk.stepAccepted {disk : Disk} {p : Wstr} (there : disk.value p ≠ none) :
    disk.step (.accepted p) = some disk := if_pos (Option.isSome_iff_ne_none.mpr there)

theorem Disk.replayMade {disk : Disk} {p : Wstr} {dir : Bool} {made : FsEvent} {events : List FsEvent}
    (fresh : disk.value p = none) (creates : disk.step made = disk.create p (.new dir))
    (own : ∀ e ∈ events, Touches p e) : ∃ next, replay disk (made :: events) = some next ∧
      disk.Created p ((FileNode.new dir).afterAll events) next := by
  obtain ⟨middle,first,created⟩ := LinkedStore.createFresh (a := FileNode.new dir) fresh
  have there : middle.value p ≠ none := by simp [created.value]
  obtain ⟨next,others,altered⟩ := replayTouches own there
  refine ⟨next,?_,created.altered fresh altered⟩
  rw [replay,List.foldlM_cons,creates,first]
  exact others

def CopyState.newAt (clock : Nat) (answers : List ArchiveAnswer) (format : Format) (base source : Wstr) :
    CopyState := {CopyState.new format base source with clock := clock, answers := answers}

/- Entries with the path that each of them has in the target, if any, the names that two of them
are of one file, and what is to be seen of them there. -/
structure Original (ι : Type) where
  land : ι → Option Wstr
  same : ι → ι → Prop
  dir : ι → Bool
  content : ι → Option Bytes
  target : ι → Option Bytes
  owner : ι → Option Owner

namespace Original
variable {ι : Type} (S : Original ι) (w : Format)

structure Mirrors (i : ι) (node : FileNode) : Prop where
  kind : node.dir = S.dir i
  content : ∀ bytes, S.content i = some bytes → node.bytes = bytes
  target : ∀ target, S.target i = some target → target.length ≤ 65531 → w.targetIn node = some target

def Belongs (i : ι) (node : FileNode) : Prop :=
  (∀ owner, S.owner i = some owner → owner.Fits w) → w.ownerOf node.eas = S.owner i

def Shows (items : List ι) (disk : Disk) : Prop :=
  disk.Pictures S.land S.same (fun i _ node => S.Mirrors w i node ∧ S.Belongs w i node) items

/- What has become of the disk, when these attributes still wait to be stored. -/
structure Imaged (items : List ι) (waiting : List (Wstr × FileAttr)) (disk : Disk) : Prop where
  pictured : disk.Pictures S.land S.same
    (fun i p node => S.Mirrors w i node ∧ (S.Belongs w i node ∨ ∃ attr, (p,attr) ∈ waiting)) items
  waits : ∀ p attr, (p,attr) ∈ waiting → w = .v2 ∧ ∃ d ∈ items, S.dir d = true ∧ S.land d = some p ∧
    S.owner d = some attr.owner

structure Sound (items : List ι) : Prop where
  one : ∀ i ∈ items, ∀ j ∈ items, ∀ p, S.land i = some p → S.land j = some p → i = j
  symm : ∀ i j, S.same i j → S.same j i
  trans : ∀ i j k, S.same i j → S.same j k → S.same i k
  files : ∀ i ∈ items, ∀ j ∈ items, S.same i j → S.dir i = false
  alike : ∀ i ∈ items, ∀ j ∈ items, S.same i j →
    S.content i = S.content j ∧ S.target i = S.target j ∧ S.owner i = S.owner j
  dirs : ∀ i ∈ items, S.dir i = true → S.content i = none ∧ S.target i = none

structure Given (i : ι) (attr : Option FileAttr) (pieces : List Bytes) : Prop where
  file : S.dir i = false
  owner : attr.map FileAttr.owner = S.owner i
  content : ∀ bytes, S.content i = some bytes → typeOf attr = aeIfreg ∧ pieces.flatten = bytes
  target : ∀ target, S.target i = some target →
    typeOf attr = aeIflnk ∧ attr.bind FileAttr.symlink = some target ∧ 0 ∉ target

variable {S w} {items : List ι} {waiting : List (Wstr × FileAttr)} {disk next : Disk} {i j : ι}
  {p target : Wstr} {node : FileNode} {attr : Option FileAttr} {pieces : List Bytes} {s t : CopyState}

theorem Given.mirrors (given : S.Given i attr pieces) (p : Wstr) :
    S.Mirrors w i ((FileNode.new false).afterAll (WslWriter.storesOf w p attr ++ .accepted p ::
      if typeOf attr = aeIfreg then pieces.map (.wrote p) else [])) ∧
    S.Belongs w i ((FileNode.new false).afterAll (WslWriter.storesOf w p attr ++ .accepted p ::
      if typeOf attr = aeIfreg then pieces.map (.wrote p) else [])) := by
  have split (node : FileNode) (events : List FsEvent) :
      node.afterAll (.accepted p :: events) = node.afterAll events := rfl
  rw [FileNode.afterAllMore,split]
  refine ⟨⟨?_,fun bytes whole => ?_,fun target found short => ?_⟩,fun fits => ?_⟩
  · rw [FileNode.afterAllDir,FileNode.afterAllDir,given.file]
    rfl
  · obtain ⟨regular,rfl⟩ := given.content bytes whole
    rw [if_pos regular,FileNode.wrotePieces]
    have before : ((FileNode.new false).afterAll (WslWriter.storesOf w p attr)).bytes = [] := by
      cases attr with
      | none => rfl
      | some a =>
        have plain : a.type ≠ aeIflnk := fun link => by
          have both : aeIflnk = aeIfreg := link.symm.trans regular
          exact absurd both (by decide)
        have own : WslWriter.storesOf w p (some a) = WslWriter.storedAs w p a := rfl
        rw [own,WslWriter.storedAs]
        split
        · exact (FileNode.storedV2 ..).1
        · rw [FileNode.storedV1,if_neg plain]
          rfl
    exact congrArg (· ++ pieces.flatten) before
  · obtain ⟨link,held,clear⟩ := given.target target found
    obtain ⟨a,rfl,symlink⟩ := Option.bind_eq_some_iff.mp held
    have isLink : a.type = aeIflnk := link
    have own : WslWriter.storesOf w p (some a) = WslWriter.storedAs w p a := rfl
    have other : typeOf (some a) ≠ aeIfreg := fun regular => by
      have both : aeIflnk = aeIfreg := isLink.symm.trans regular
      exact absurd both (by decide)
    rw [if_neg other,own,FileNode.afterAll,List.foldl_nil,WslWriter.storedAs,Format.targetIn]
    split
    · rw [(FileNode.storedV2 ..).2,linkReparse isLink symlink,Option.some_or,Option.bind_some]
      exact targetBack short clear
    · rw [FileNode.storedV1,if_pos isLink,symlink]
      have whole : WslV1Writer.linkData target = target := by
        have fits : target.length.toUInt32.toNat = target.length := by
          simp only [Nat.toUInt32_eq,UInt32.toNat_ofNat']
          omega
        rw [WslV1Writer.linkData,fits,List.take_length]
      rw [FileNode.new,List.nil_append,Option.getD_some,whole,cStringWhole clear]
  · have kept : ∀ node : FileNode, (node.afterAll
        (if typeOf attr = aeIfreg then pieces.map (.wrote p) else [])).eas = node.eas := by
      intro node
      split
      · rw [FileNode.wrotePieces]
      · rfl
    rw [kept]
    cases attr with
    | none =>
      have none' : S.owner i = none := given.owner.symm
      rw [none',Format.ownerOf]
      split <;> rfl
    | some a =>
      have owner : S.owner i = some a.owner := given.owner.symm
      rw [owner]
      exact FileNode.storedOwner _ p (fits _ owner)

namespace Imaged

theorem skipped (h : S.Imaged w items waiting disk) (away : S.land i = none) :
    S.Imaged w (items ++ [i]) waiting disk := by
  refine ⟨h.pictured.skipped away,fun p attr mem => ?_⟩
  obtain ⟨v2,d,old,all⟩ := h.waits p attr mem
  exact ⟨v2,d,List.mem_append_left _ old,all⟩

theorem unused (h : S.Imaged w items waiting disk) (new : ∀ j ∈ items, S.land j ≠ some p) :
    disk.value p = none := by
  by_contra there
  obtain ⟨j,mem,landed⟩ := (h.pictured.names p).mp there
  exact new j mem landed

theorem made {more : List (Wstr × FileAttr)} (h : S.Imaged w items waiting disk) (sound : S.Sound (items ++ [i]))
    (new : ∀ j ∈ items, S.land j ≠ some p) (landed : S.land i = some p) (created : disk.Created p node next)
    (alone : ∀ j ∈ items, S.same j i → S.land j = none) (mirrors : S.Mirrors w i node)
    (own : S.Belongs w i node ∨ ∃ attr, (p,attr) ∈ more) (kept : ∀ e ∈ waiting, e ∈ more)
    (waits : ∀ q attr, (q,attr) ∈ more → (q,attr) ∈ waiting ∨
      w = .v2 ∧ S.dir i = true ∧ q = p ∧ S.owner i = some attr.owner) :
    S.Imaged w (items ++ [i]) more next := by
  refine ⟨?_,fun q attr mem => ?_⟩
  · refine LinkedStore.Pictures.made (h.pictured.refit ?_) (h.unused new) created landed ?_ ⟨mirrors,own⟩
    · rintro j - q node - ⟨like,owned⟩
      exact ⟨like,owned.imp_right fun ⟨attr,mem⟩ => ⟨attr,kept _ mem⟩⟩
    · exact fun j mem either => alone j mem (either.elim id (sound.symm i j))
  · rcases waits q attr mem with old | ⟨v2,dir,rfl,owner⟩
    · obtain ⟨v2,d,before,facts⟩ := h.waits q attr old
      exact ⟨v2,d,List.mem_append_left _ before,facts⟩
    · exact ⟨v2,i,by simp,dir,landed,owner⟩

theorem linked (h : S.Imaged w items waiting disk) (sound : S.Sound (items ++ [i]))
    (new : ∀ j ∈ items, S.land j ≠ some p) (landed : S.land i = some p) (before : j ∈ items)
    (same : S.same j i) (first : S.land j = some target) (link : disk.Linked p target next) :
    S.Imaged w (items ++ [i]) waiting next := by
  have inside {x : ι} (mem : x ∈ items) : x ∈ items ++ [i] := List.mem_append_left _ mem
  have file := sound.files j (inside before) i (by simp) same
  have file' := sound.files i (by simp) j (inside before) (sound.symm j i same)
  obtain ⟨content,found,owner⟩ := sound.alike j (inside before) i (by simp) same
  refine ⟨h.pictured.linked sound.symm (h.unused new) link landed before first (fun x mem q there => ?_) ?_,
    fun q attr mem => ?_⟩
  · refine ⟨fun either => either.elim (fun is => ?_) fun other => sound.trans i j x (sound.symm j i same) other,
      fun other => .inr (sound.trans j i x same other)⟩
    obtain rfl := sound.one j (inside before) x (inside mem) target first (is ▸ there)
    exact sound.symm j i same
  · rintro node ⟨like,owned⟩
    refine ⟨⟨like.kind.trans (file.trans file'.symm),content ▸ like.content,found ▸ like.target⟩,.inl ?_⟩
    rcases owned with owned | ⟨attr,waits⟩
    · exact fun fits => (owned (owner ▸ fits)).trans owner
    · obtain ⟨-,d,mem,dir,landed',-⟩ := h.waits target attr waits
      obtain rfl := sound.one d (inside mem) j (inside before) target landed' first
      rw [dir] at file
      cases file
  · obtain ⟨v2,d,old,facts⟩ := h.waits q attr mem
    exact ⟨v2,d,inside old,facts⟩

theorem stored {q : Wstr} {before after : List (Wstr × FileAttr)} {attr : FileAttr}
    (h : S.Imaged w items (before ++ (q,attr) :: after) disk) (sound : S.Sound items) :
    ∃ next, Disk.replay disk (stores q attr) = some next ∧ S.Imaged w items (before ++ after) next := by
  obtain ⟨v2,d,mem,dir,landed,owner⟩ := h.waits q attr (by simp)
  obtain ⟨next,run,altered⟩ := Disk.replayTouches (storesTouch q attr) ((h.pictured.names q).mpr ⟨d,mem,landed⟩)
  have only {x : ι} {p : Wstr} (old : x ∈ items) (land : S.land x = some p) : disk.Shares q p ↔ p = q := by
    rw [h.pictured.shares d mem x old q p landed land]
    refine ⟨fun either => either.elim Eq.symm fun same => ?_,fun is => .inl is.symm⟩
    simp [sound.files d mem x old same] at dir
  refine ⟨next,run,h.pictured.altered altered (fun x old p node land shares fine => ?_)
    fun x old p node land apart fine => ?_,fun p a waits => ?_⟩
  · obtain rfl := (only old land).mp shares
    obtain rfl := sound.one x old d mem p land landed
    obtain ⟨noContent,noTarget⟩ := sound.dirs x old dir
    refine ⟨⟨(FileNode.afterAllDir _ _).trans fine.1.kind,fun bytes whole => ?_,fun target found => ?_⟩,
      .inl fun fits => ?_⟩
    · simp [noContent] at whole
    · simp [noTarget] at found
    · have kept := node.storedOwner p (fits attr.owner owner)
      rw [WslWriter.storedAs,if_pos v2] at kept
      exact kept.trans owner.symm
  · refine ⟨fine.1,fine.2.imp_right (Exists.imp fun a waits => ?_)⟩
    simpa [mt (only old land).mpr apart] using waits
  · exact h.waits p a (by simp only [List.mem_append,List.mem_cons] at waits ⊢; tauto)

theorem storedAll {front popped rest : List (Wstr × FileAttr)} (sound : S.Sound items)
    (h : S.Imaged w items (front ++ popped ++ rest) disk) :
    ∃ next, Disk.replay disk (storesAll popped) = some next ∧ S.Imaged w items (front ++ rest) next := by
  induction popped generalizing disk with
  | nil => exact ⟨disk,rfl,by simpa using h⟩
  | cons top popped ih =>
    obtain ⟨q,attr⟩ := top
    rw [List.append_assoc,List.cons_append] at h
    obtain ⟨middle,first,h'⟩ := h.stored sound
    rw [← List.append_assoc] at h'
    obtain ⟨next,others,last⟩ := ih h'
    refine ⟨next,?_,last⟩
    rw [storesAll,List.flatMap_cons,Disk.replayMore,first]
    exact others

end Imaged

def Depicted (S : Original ι) (w : Format) (items : List ι) (s : CopyState) : Prop :=
  ∃ disk, Disk.image s.log = some disk ∧ S.Imaged w items s.dirAttr disk

namespace Depicted

theorem empty (log : s.log = []) (stack : s.dirAttr = []) : S.Depicted w [] s :=
  ⟨.empty,by rw [log]; rfl,.empty,by simp [stack]⟩

theorem silent (h : S.Depicted w items s) (log : t.log = s.log) (stack : t.dirAttr = s.dirAttr) :
    S.Depicted w items t := by
  obtain ⟨disk,here,imaged⟩ := h
  exact ⟨disk,log ▸ here,stack ▸ imaged⟩

theorem quiet (h : S.Depicted w items s) (still : Puts [] s t) : S.Depicted w items t :=
  h.silent (still.log.trans (List.append_nil _)) still.stack

theorem skipped (h : S.Depicted w items s) (away : S.land i = none) : S.Depicted w (items ++ [i]) s :=
  h.imp fun _ both => ⟨both.1,both.2.skipped away⟩

theorem file (sound : S.Sound (items ++ [i])) (h : S.Depicted w items s) (new : ∀ j ∈ items, S.land j ≠ some p)
    (landed : S.land i = some p) (alone : ∀ j ∈ items, S.same j i → S.land j = none) (given : S.Given i attr pieces)
    (puts : Puts (FsWriter.fileEvents w p attr pieces) s t) : S.Depicted w (items ++ [i]) t := by
  obtain ⟨disk,here,imaged⟩ := h
  obtain ⟨mirrors,belongs⟩ := given.mirrors (w := w) p
  have own : ∀ e ∈ WslWriter.storesOf w p attr ++ .accepted p ::
      (if typeOf attr = aeIfreg then pieces.map (.wrote p) else []), Disk.Touches p e := by
    intro e inside
    rcases List.mem_append.mp inside with stored | later
    · exact storesOfTouch w p attr e stored
    · rcases List.mem_cons.mp later with rfl | data
      · exact .inr rfl
      · split at data
        · obtain ⟨bytes,-,rfl⟩ := List.mem_map.mp data
          exact .inl rfl
        · cases data
  have creates : disk.step (.createdFile p) = disk.create p (.new false) := rfl
  obtain ⟨next,run,created⟩ := Disk.replayMade (imaged.unused new) creates own
  refine ⟨next,puts.log ▸ Disk.imageMore here run,?_⟩
  exact imaged.made sound new landed created alone mirrors (.inl belongs)
    (fun _ mem => puts.stack ▸ mem) fun q a mem => .inl (puts.stack ▸ mem)

theorem link (sound : S.Sound (items ++ [i])) (h : S.Depicted w items s) (new : ∀ j ∈ items, S.land j ≠ some p)
    (landed : S.land i = some p) (before : j ∈ items) (same : S.same j i) (first : S.land j = some target)
    (puts : Puts [.hardLink p target] s t) : S.Depicted w (items ++ [i]) t := by
  obtain ⟨disk,here,imaged⟩ := h
  obtain ⟨node,held,like,-⟩ := imaged.pictured.objects j before target first
  obtain ⟨next,made,linked⟩ := LinkedStore.linkFresh (imaged.unused new) (by simp [held] : disk.value target ≠ none)
  have step : Disk.replay disk [.hardLink p target] = some next := by
    have plain : (disk.value target).any FileNode.dir = false := by
      simp [held,like.kind.trans (sound.files j (by simp [before]) i (by simp) same)]
    rw [Disk.replay,List.foldlM_cons,Disk.step,plain,if_neg Bool.false_ne_true,made]
    rfl
  refine ⟨next,puts.log ▸ Disk.imageMore here step,?_⟩
  rw [puts.stack]
  exact imaged.linked sound new landed before same first linked

theorem dir {env : FsEnv} {a : FileAttr} {stored : Bool} (sound : S.Sound (items ++ [i])) (fresh : env.Fresh)
    (h : S.Depicted w items s) (new : ∀ j ∈ items, S.land j ≠ some s.path.data)
    (landed : S.land i = some s.path.data) (isDir : S.dir i = true) (isMode : a.type = aeIfdir)
    (owner : S.owner i = some a.owner) (run : WslWriter.writeFile env w (some a) s = (.ok stored,t)) :
    S.Depicted w (items ++ [i]) t := by
  obtain ⟨disk,here,imaged⟩ := h
  have alone : ∀ j ∈ items, S.same j i → S.land j = none := fun j before same => by
    simp [sound.files i (by simp) j (by simp [before]) (sound.symm j i same)] at isDir
  obtain ⟨noContent,noTarget⟩ := sound.dirs i (by simp) isDir
  have mirrors {node : FileNode} (kind : node.dir = true) : S.Mirrors w i node :=
    ⟨kind.trans isDir.symm,fun _ whole => by simp [noContent] at whole,fun _ found => by simp [noTarget] at found⟩
  have creates (disk : Disk) (p : Wstr) : disk.step (.createdDirectory p) = disk.create p (.new true) := rfl
  -- A v2 writer stores what has waited for other directories, and puts this one off.
  by_cases v2 : w = .v2
  · subst v2
    obtain ⟨popped,left,split,-,stack,log⟩ := WslV2Writer.dirPuts fresh isMode run
    have nothing : ∀ e ∈ ([] : List FsEvent), Disk.Touches s.path.data e := nofun
    obtain ⟨middle,first,created⟩ := Disk.replayMade (imaged.unused new) (creates disk _) nothing
    have begun : S.Imaged .v2 (items ++ [i]) ((s.path.data,a) :: s.dirAttr) middle :=
      imaged.made sound new landed created alone (mirrors rfl) (.inr ⟨a,List.mem_cons_self⟩)
        (fun e mem => List.mem_cons_of_mem _ mem) fun q b mem => by
          rcases List.mem_cons.mp mem with same | old
          · obtain ⟨rfl,rfl⟩ := Prod.mk.inj same
            exact .inr ⟨rfl,isDir,rfl,owner⟩
          · exact .inl old
    have stacked : S.Imaged .v2 (items ++ [i]) ([(s.path.data,a)] ++ popped ++ left) middle := by
      rw [List.append_assoc,← split]
      exact begun
    obtain ⟨next,flushed,ready⟩ := stacked.storedAll sound
    have there : next.value s.path.data ≠ none := (ready.pictured.names _).mpr ⟨i,by simp,landed⟩
    refine ⟨next,?_,by rw [stack]; exact ready⟩
    rw [log]
    refine Disk.imageMore here ?_
    have regroup : FsEvent.createdDirectory s.path.data :: storesAll popped ++ [.accepted s.path.data] =
        [.createdDirectory s.path.data] ++ storesAll popped ++ [.accepted s.path.data] := rfl
    rw [regroup,Disk.replayMore,Disk.replayMore,first,Option.bind_some,flushed,Option.bind_some,Disk.replay,
      List.foldlM_cons,Disk.stepAccepted there]
    rfl
  · have puts : Puts (.createdDirectory s.path.data :: WslWriter.storesOf w s.path.data (some a) ++
        [.accepted s.path.data]) s t := WslWriter.dirPuts fresh isMode v2 run
    have own : ∀ e ∈ WslWriter.storesOf w s.path.data (some a) ++ [.accepted s.path.data],
        Disk.Touches s.path.data e := by
      intro e mem
      rcases List.mem_append.mp mem with stored | last
      · exact storesOfTouch w _ _ e stored
      · exact .inr (List.mem_singleton.mp last)
    obtain ⟨next,run,created⟩ := Disk.replayMade (imaged.unused new) (creates disk _) own
    have belongs : S.Belongs w i ((FileNode.new true).afterAll
        (WslWriter.storesOf w s.path.data (some a) ++ [.accepted s.path.data])) := fun fits => by
      rw [FileNode.afterAllMore,owner]
      exact FileNode.storedOwner _ _ (fits _ owner)
    refine ⟨next,puts.log ▸ Disk.imageMore here run,?_⟩
    exact imaged.made sound new landed created alone (mirrors (FileNode.afterAllDir _ _)) (.inl belongs)
      (fun _ mem => puts.stack ▸ mem) fun q b mem => .inl (puts.stack ▸ mem)

theorem destroyed {env : FsEnv} (sound : S.Sound items) (writer : w ≠ .linux) (h : S.Depicted w items s)
    (emptied : (WslV2Writer.drain env s.dirAttr s).1 = .ok ()) :
    ∃ disk, Disk.image (FsWriter.destroy env w s).2.log = some disk ∧ S.Shows w items disk := by
  obtain ⟨disk,here,imaged⟩ := h
  have all : S.Imaged w items ([] ++ s.dirAttr ++ []) disk := by simpa using imaged
  obtain ⟨next,run,last⟩ := all.storedAll sound
  have log : (FsWriter.destroy env w s).2.log = s.log ++ storesAll s.dirAttr := by
    rw [FsWriter.destroy]
    by_cases v2 : w = .v2
    · cases drained : WslV2Writer.drain env s.dirAttr s with
      | mk outcome u =>
        rw [drained] at emptied
        dsimp only at emptied
        subst emptied
        rw [if_pos v2,WslV2Writer.destroy,Program.bindRun,Program.getRun]
        dsimp only
        rw [Program.rescueOk drained,WslV2Writer.drainPuts drained]
    · have none' : s.dirAttr = [] := List.eq_nil_iff_forall_not_mem.mpr fun e mem =>
        v2 (imaged.waits e.1 e.2 mem).1
      rw [if_neg v2,if_neg writer,none']
      exact (List.append_nil _).symm
  refine ⟨next,log ▸ Disk.imageMore here run,last.pictured.refit fun i mem p node landed fine => ?_⟩
  exact ⟨fine.1,fine.2.resolve_right (by simp)⟩

end Depicted
end Original
end LxRunOffline
