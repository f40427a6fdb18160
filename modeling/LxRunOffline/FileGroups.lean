import LxRunOffline.CopyReturns
import LxRunOffline.Grouping
import LxRunOffline.VisitTargets

/-! What becomes of the names of one file. The first of them that can be converted is written, and
every other one is linked to it, wherever the walk comes upon them. -/
namespace LxRunOffline
open Grouping (shared valuesOf Follows)

abbrev Emission := Wstr × Option Wstr

def FsEvent.emission : FsEvent → Option Emission
  | .accepted path => some (path,none)
  | .hardLink path target => some (path,some target)
  | _ => none

def emissions (log : List FsEvent) : List Emission := log.filterMap FsEvent.emission

theorem emissionsMore (log more : List FsEvent) : emissions (log ++ more) = emissions log ++ emissions more :=
  List.filterMap_append

theorem silentEmissions {more : List FsEvent} (silent : ∀ e ∈ more, e.emission = none) :
    emissions more = [] := List.filterMap_eq_nil_iff.mpr silent

theorem fileEventSilent {path : Wstr} {e : FsEvent} (h : FileEvent path e) : e.emission = none := by
  cases h with
  | attr h => cases h <;> rfl
  | wrote => rfl
  | createdDirectory => rfl
  | createdFile => rfl
  | header => rfl

theorem dataEventSilent {e : FsEvent} (h : DataEvent e) : e.emission = none := by
  cases h <;> rfl

structure Issued (out : List Emission) (s t : CopyState) : Prop where
  path : t.path = s.path
  targetPath : t.targetPath = s.targetPath
  ignored : t.ignored = s.ignored
  idMap : t.idMap = s.idMap
  log : emissions t.log = emissions s.log ++ out

namespace Issued
variable {out more : List Emission} {s t u : CopyState} {kind : FsEvent → Prop} {α : Type} {x : Copy α} {a : α}

theorem trans (h : Issued out s t) (h' : Issued more t u) : Issued (out ++ more) s u :=
  ⟨h'.path.trans h.path,h'.targetPath.trans h.targetPath,h'.ignored.trans h.ignored,
    h'.idMap.trans h.idMap,by rw [h'.log,h.log,List.append_assoc]⟩

theorem within (h : Within kind s t) (silent : ∀ e, kind e → e.emission = none) : Issued [] s t := by
  obtain ⟨more,log,all⟩ := h.log
  refine ⟨h.path,h.targetPath,h.ignored,h.idMap,?_⟩
  rw [log,emissionsMore,silentEmissions fun e mem => silent e (all e mem)]

theorem quiet (h : Emits (fun _ => False) x) (run : x s = (.ok a,t)) : Issued [] s t :=
  within (h.returned run) fun _ => False.elim

end Issued

def Format.accepts (w : Format) (attr : Option FileAttr) : Bool :=
  if w = .linux then FsWriter.passes attr false false else FsWriter.passes attr true true

namespace FsWriter
variable {env : FsEnv} {w : Format} {attr : Option FileAttr} {s t : CopyState} {stored : Bool}

theorem wslFileStores (run : WslWriter.writeFile env w attr s = (.ok stored,t)) : stored = true := by
  obtain ⟨_,_,-,run⟩ := Program.bindOkSource run
  obtain ⟨_,_,-,run⟩ := Program.bindOkSource run
  obtain ⟨_,_,-,run⟩ := Program.bindOkSource run
  obtain ⟨_,_,-,run⟩ := Program.bindOkSource run
  obtain ⟨_,_,-,run⟩ := Program.bindOkSource run
  cases run
  rfl

theorem entryStores {a : FileAttr} (named : s.path.data ≠ [])
    (run : ArchiveWriter.writeEntry env a s = (.ok stored,t)) : stored = true := by
  rw [ArchiveWriter.writeEntry,Program.bindRun,Program.getRun] at run
  dsimp only at run
  rw [if_neg (by simpa using named)] at run
  obtain ⟨_,_,-,run⟩ := Program.bindOkSource run
  obtain ⟨_,_,-,run⟩ := Program.bindOkSource run
  obtain ⟨_,_,-,run⟩ := Program.bindOkSource run
  cases run
  rfl

theorem storedIssues (h : Stored w s (.ok true,t)) : Issued [(s.path.data,none)] s t := by
  obtain ⟨u,within,rfl⟩ := h
  have before := Issued.within within fun e => fileEventSilent
  refine ⟨before.path,before.targetPath,before.ignored,before.idMap,?_⟩
  rw [emissionsMore,before.log,List.append_nil]
  rfl

theorem acceptedIssues (accepts : w.accepts attr = true) (named : ¬ Nameless w s)
    (run : writeNewFile env w attr s = (.ok stored,t)) : Issued [(s.path.data,none)] s t := by
  have done := writeNewFileStored env w attr s
  rw [run] at done
  suffices yes : stored = true by
    subst yes
    exact storedIssues done
  rw [Format.accepts] at accepts
  by_cases linux : w = .linux
  · subst linux
    rw [if_pos rfl] at accepts
    cases attr with
    | none => cases accepts
    | some a =>
      rw [archiveAccepts env accepts] at run
      exact entryStores (fun empty => named ⟨rfl,empty⟩) run
  · rw [if_neg linux] at accepts
    rw [wslAccepts env linux accepts] at run
    exact wslFileStores run

theorem linkIssues (free : s.targetPath.data ∉ s.ignored) (run : writeHardLink env w s = (.ok (),t)) :
    Issued [(s.path.data,some s.targetPath.data)] s t := by
  have check : checkTargetIgnored s = (.ok true,s) := by
    simp [checkTargetIgnored,Program.bindRun,free]
  have linked {u : CopyState} (before : Issued [] s u)
      (after : Issued [] {u with log := u.log ++ [.hardLink s.path.data s.targetPath.data]} t) :
      Issued [(s.path.data,some s.targetPath.data)] s t := by
    refine ⟨after.path.trans before.path,after.targetPath.trans before.targetPath,
      after.ignored.trans before.ignored,after.idMap.trans before.idMap,?_⟩
    rw [after.log,List.append_nil,emissionsMore,before.log,List.append_nil]
    rfl
  rw [writeHardLink] at run
  split at run
  · rw [ArchiveWriter.writeHardLink,Program.bindOk check,if_pos rfl] at run
    obtain ⟨_,_,got,run⟩ := Program.bindOkSource run
    cases got
    obtain ⟨_,u,first,run⟩ := Program.bindOkSource run
    obtain ⟨_,v,second,run⟩ := Program.bindOkSource run
    obtain ⟨_,x,noted,run⟩ := Program.bindOkSource run
    cases noted
    have rest : Emits (fun _ => False) (do
        let stat ← askLibrary env (.writeHeader s.path.data)
        let _ ← Fs.checkArchive stat
        pure ()) := .bind (.askLibrary ..) fun _ => .bind (.checkArchive _) fun _ => .pure ()
    exact linked ((Issued.quiet (toUtf8Emits env _) first).trans (Issued.quiet (toUtf8Emits env _) second))
      (Issued.quiet rest run)
  · rw [WslWriter.writeHardLink,Program.bindOk check,if_pos rfl] at run
    obtain ⟨_,_,got,run⟩ := Program.bindOkSource run
    cases got
    obtain ⟨_,x,noted,run⟩ := Program.bindOkSource run
    cases noted
    have rest : Emits (fun _ => False) (do
        let code ← Fs.call env (.createHardLink s.path.data s.targetPath.data)
        if code ≠ 0 then Fs.throwWin32 .errHardLink [s.path.data,s.targetPath.data] code
        else pure ()) := .status fun _ => .ite (fun _ => .raise _) fun _ => .pure ()
    exact linked ⟨rfl,rfl,rfl,rfl,by simp⟩ (Issued.quiet rest run)

end FsWriter
namespace WslReader
variable {r : WslReader} {env : FsEnv} {w : Format} {s t : CopyState} {path : Wstr} {info : NodeInfo}

theorem storeFileIssues {attr : Option FileAttr} (accepts : w.accepts attr = true) (named : ¬ Nameless w s)
    (run : storeFile env w path info attr s = (.ok (),t)) : Issued [(s.path.data,none)] s t := by
  obtain ⟨stored,u,wrote,run⟩ := Program.bindOkSource run
  have copied : Emits DataEvent (if stored = true then
      Program.when (typeOf attr = aeIfreg) (copyData env w path info.reads) else pure ()) :=
    .ite (fun _ => .when fun _ => copyDataEmits ..) fun _ => .pure ()
  have first := FsWriter.acceptedIssues accepts named wrote
  exact first.trans (Issued.within (copied.returned run) fun e => dataEventSilent)

theorem copyFileIssues (taken : ∀ s attr t, r.readAttr env path info s = (.ok attr,t) → w.accepts attr = true)
    (valid : ¬ r.BadSymlink env path info) (named : ¬ Nameless w s)
    (run : r.copyFile env w path info s = (.ok (),t)) : Issued [(s.path.data,none)] s t := by
  obtain ⟨attr,u,read,run⟩ := Program.bindOkSource run
  have still : Issued [] s u := .quiet (r.readAttrEmits env path info) read
  have accepts := taken s attr u read
  have renamed {v : CopyState} (same : v.path = s.path) : ¬ Nameless w v := by
    rwa [Nameless,same]
  split at run
  · rename_i link
    obtain ⟨target,v,found,run⟩ := Program.bindOkSource run
    have quiet : Issued [] u v := .quiet (r.readSymlinkDataEmits env path info) found
    have same := (still.trans quiet).path
    cases attr with
    | none => exact absurd link (by decide)
    | some a =>
      cases target with
      | none =>
        obtain ⟨v2,lost⟩ := r.readSymlinkNone env found
        exact absurd ⟨v2,⟨a.mode,r.readAttrMode env v2 read,link⟩,lost⟩ valid
      | some target =>
        have issued := @storeFileIssues env w v t path info (some {a with symlink := some target})
          accepts (renamed same) run
        rw [same] at issued
        exact (still.trans quiet).trans issued
  · have issued := storeFileIssues accepts (renamed still.path) run
    rw [still.path] at issued
    exact still.trans issued

end WslReader

def Visit.fileIndex (v : Visit) : Option UInt64 := if v.dir then none else some v.info.index

theorem Visit.fileIndexSome {v : Visit} {index : UInt64} (h : v.fileIndex = some index) :
    v.dir = false ∧ v.info.index = index := by
  rw [fileIndex] at h
  split at h
  · cases h
  · rename_i file
    exact ⟨Bool.eq_false_iff.mpr file,Option.some.inj h⟩

theorem Visit.fileIndexFile {v : Visit} (file : v.dir = false) : v.fileIndex = some v.info.index := by
  rw [fileIndex,if_neg (by simp [file])]

namespace WslReader
variable (r : WslReader) (env : FsEnv) (w : Format) (base : Wstr)

/- No name of a file is left uncounted, no file whose name can be converted is refused, and no
symbolic link is broken. -/
structure Shareable : Prop where
  counted : ∀ v ∈ r.visits, v.dir = false →
    (r.visits.filter fun u => u.fileIndex = v.fileIndex).length ≤ v.info.links.toNat
  taken : ∀ v ∈ r.visits, v.dir = false → (r.lands w base v).isSome → ∀ s attr t,
    r.readAttr env (r.base ++ v.path) v.info s = (.ok attr,t) → w.accepts attr = true
  valid : ∀ v ∈ r.visits, v.dir = false → (r.lands w base v).isSome →
    ¬ r.BadSymlink env (r.base ++ v.path) v.info

structure Copies (fuel : Nat) : Prop where
  works : env.Works
  enough : r.tree.depth < fuel
  rooted : r.format = .legacy → (r.tree.findDir rootfsName).isSome
  readable : ∀ v ∈ r.visits, v.dir = false → (r.lands w base v).isSome → ∀ mode,
    r.modeOf v.info = some mode → mode &&& aeIfmt = aeIflnk → r.LinkReadable v.info
  unlinked : w ≠ .linux → ∀ v ∈ r.visits, v.dir = true → (r.lands w base v).isSome → r.Unlinked v.info

abbrev Cut := List (Visit × List Emission)

def DirsIssued (cut : Cut) : Prop := ∀ v out, (v,out) ∈ cut → v.dir = true →
  out = [] ∨ ∃ p, r.lands w base v = some p ∧ out = [(p,none)]

structure Sharing (done : List Visit) (s : CopyState) : Prop where
  path : s.path.reset = w.fresh base
  targetPath : s.targetPath.reset = w.fresh base
  ignored : ∀ p ∈ s.ignored, ∃ v ∈ r.visits, v.dir = true ∧ r.lands w base v = some p
  known : ∀ index first, s.idMap.lookup index = some first →
    ∃ p, (valuesOf Visit.fileIndex (r.lands w base) index done).head? = some p ∧
      first.Reaches (w.fresh base) p
  unknown : ∀ index, s.idMap.lookup index = none → ∀ v ∈ done, v.fileIndex = some index →
    (r.lands w base v).isSome → ¬ 1 < v.info.links
  issued : ∃ cut : Cut, cut.map Prod.fst = done ∧ cut.flatMap Prod.snd = emissions s.log ∧
    r.DirsIssued w base cut ∧ Follows Visit.fileIndex (r.lands w base) cut

variable {r} {env} {w} {base} {done rest : List Visit} {v : Visit} {s t : CopyState} {p : Wstr}

theorem Shareable.several (shareable : r.Shareable env w base) (all : r.visits = done ++ v :: rest)
    {u : Visit} (before : u ∈ done) (same : u.fileIndex = v.fileIndex) (file : v.dir = false) :
    1 < u.info.links ∧ 1 < v.info.links := by
  have both : u.dir = false := by
    rw [Visit.fileIndexFile file] at same
    exact (Visit.fileIndexSome same).1
  have two : 2 ≤ (r.visits.filter fun o => o.fileIndex = v.fileIndex).length := by
    have early : 1 ≤ (done.filter fun o => o.fileIndex = v.fileIndex).length :=
      List.length_pos_of_mem (List.mem_filter.mpr ⟨before,decide_eq_true same⟩)
    simp only [all,List.filter_append,List.length_append,List.filter_cons,decide_true,if_true,
      List.length_cons]
    omega
  have own := shareable.counted v (by simp [all]) file
  have other := shareable.counted u (by simp [all,before]) both
  rw [same] at other
  exact ⟨UInt32.lt_iff_toNat_lt.mpr (Nat.lt_of_lt_of_le two other),
    UInt32.lt_iff_toNat_lt.mpr (Nat.lt_of_lt_of_le two own)⟩

namespace Sharing

theorem quiet (h : r.Sharing w base done s) (later : Issued [] s t) : r.Sharing w base done t where
  path := later.path ▸ h.path
  targetPath := later.targetPath ▸ h.targetPath
  ignored := later.ignored ▸ h.ignored
  known := later.idMap ▸ h.known
  unknown := later.idMap ▸ h.unknown
  issued := by
    rw [later.log,List.append_nil]
    exact h.issued

theorem converted (h : r.Sharing w base done s) (src : FilePath) :
    r.Sharing w base done (convertPath src s).2 :=
  ⟨(FilePath.convertReset src s.path).trans h.path,h.targetPath,h.ignored,h.known,h.unknown,h.issued⟩

theorem retargeted (h : r.Sharing w base done s) (src : FilePath) :
    r.Sharing w base done (convertTarget src s).2 :=
  ⟨h.path,(FilePath.convertReset src s.targetPath).trans h.targetPath,h.ignored,h.known,h.unknown,h.issued⟩

theorem firstStays {index : UInt64} (v : Visit)
    (first : (valuesOf Visit.fileIndex (r.lands w base) index done).head? = some p) :
    (valuesOf Visit.fileIndex (r.lands w base) index (done ++ [v])).head? = some p := by
  rw [Grouping.valuesOfSnoc,List.head?_append,first,Option.some_or]

theorem cutSnoc {out : List Emission} (h : r.Sharing w base done s)
    (log : emissions t.log = emissions s.log ++ out)
    (dirs : v.dir = true → out = [] ∨ ∃ p, r.lands w base v = some p ∧ out = [(p,none)])
    (files : ∀ index, v.fileIndex = some index → out = (r.lands w base v).toList.map fun p =>
      (p,(valuesOf Visit.fileIndex (r.lands w base) index done).head?)) :
    ∃ cut : Cut, cut.map Prod.fst = done ++ [v] ∧ cut.flatMap Prod.snd = emissions t.log ∧
      r.DirsIssued w base cut ∧ Follows Visit.fileIndex (r.lands w base) cut := by
  obtain ⟨cut,own,all,dirs',follows⟩ := h.issued
  refine ⟨cut ++ [(v,out)],by simp [own],by simp [all,log],fun u out' mem dir => ?_,follows.snoc (own ▸ files)⟩
  rcases List.mem_append.mp mem with before | last
  · exact dirs' u out' before dir
  · cases List.mem_singleton.mp last
    exact dirs dir

theorem snoc {out : List Emission} (h : r.Sharing w base done s) (path : t.path.reset = w.fresh base)
    (targetPath : t.targetPath.reset = w.fresh base) (idMap : t.idMap = s.idMap)
    (ignored : ∀ p ∈ t.ignored, ∃ v ∈ r.visits, v.dir = true ∧ r.lands w base v = some p)
    (log : emissions t.log = emissions s.log ++ out)
    (dirs : v.dir = true → out = [] ∨ ∃ p, r.lands w base v = some p ∧ out = [(p,none)])
    (files : ∀ index, v.fileIndex = some index → out = (r.lands w base v).toList.map fun p =>
      (p,(valuesOf Visit.fileIndex (r.lands w base) index done).head?))
    (few : ∀ index, v.fileIndex = some index → (r.lands w base v).isSome →
      s.idMap.lookup index = none → ¬ 1 < v.info.links) : r.Sharing w base (done ++ [v]) t where
  path := path
  targetPath := targetPath
  ignored := ignored
  known index first found := by
    obtain ⟨p,head,reaches⟩ := h.known index first (idMap ▸ found)
    exact ⟨p,firstStays v head,reaches⟩
  unknown index missing u mem own landed := by
    rw [idMap] at missing
    rcases List.mem_append.mp mem with before | last
    · exact h.unknown index missing u before own landed
    · obtain rfl := List.mem_singleton.mp last
      exact few index own landed missing
  issued := h.cutSnoc log dirs files

theorem begin (h : r.Sharing w base done s) (file : v.dir = false) (landed : r.lands w base v = some p)
    (first : valuesOf Visit.fileIndex (r.lands w base) v.info.index done = [])
    (issued : Issued [(p,none)] {s with idMap := (v.info.index,r.pathAt (r.base ++ v.path)) :: s.idMap} t) :
    r.Sharing w base (done ++ [v]) t where
  path := issued.path ▸ h.path
  targetPath := issued.targetPath ▸ h.targetPath
  ignored := issued.ignored ▸ h.ignored
  known index src found := by
    rw [issued.idMap,List.lookup_cons] at found
    split at found
    · rename_i own
      obtain rfl : index = v.info.index := by simpa using own
      cases found
      refine ⟨p,?_,landsReaches.mp landed⟩
      rw [Grouping.valuesOfSnoc,first,if_pos (Visit.fileIndexFile file),landed]
      rfl
    · obtain ⟨q,head,reaches⟩ := h.known index src found
      exact ⟨q,firstStays v head,reaches⟩
  unknown index missing u mem own there := by
    rw [issued.idMap,List.lookup_cons] at missing
    split at missing
    · cases missing
    · rename_i other
      rcases List.mem_append.mp mem with before | last
      · exact h.unknown index missing u before own there
      · obtain rfl := List.mem_singleton.mp last
        have same : u.info.index = index := (Visit.fileIndexSome own).2
        simp [same] at other
  issued := by
    refine h.cutSnoc issued.log (fun dir => by simp [file] at dir) fun index own => ?_
    obtain ⟨-,rfl⟩ := Visit.fileIndexSome own
    rw [landed,first]
    rfl

theorem firstOf (h : r.Sharing w base done s) (shareable : r.Shareable env w base)
    (all : r.visits = done ++ v :: rest) (file : v.dir = false)
    (alone : 1 < v.info.links → s.idMap.lookup v.info.index = none) :
    valuesOf Visit.fileIndex (r.lands w base) v.info.index done = [] := by
  refine List.eq_nil_iff_forall_not_mem.mpr fun a mem => ?_
  obtain ⟨u,before,own,landed⟩ := (Grouping.memValuesOf Visit.fileIndex (r.lands w base)).mp mem
  obtain ⟨several,several'⟩ := shareable.several all before (own.trans (Visit.fileIndexFile file).symm) file
  exact h.unknown _ (alone several') u before own (by simp [landed]) several

theorem visitedDir (h : r.Sharing w base done s) (all : r.visits = done ++ v :: rest) (dir : v.dir = true)
    (landed : r.lands w base v = some s.path.data) {path : Wstr} {info : NodeInfo}
    (run : r.visitDir env w path info s = (.ok (),t)) : r.Sharing w base (done ++ [v]) t := by
  obtain ⟨attr,u,read,run⟩ := Program.bindOkSource run
  have still : Issued [] s u := .quiet (r.readAttrEmits env path info) read
  obtain ⟨stored,x,wrote,run⟩ := Program.bindOkSource run
  obtain rfl : x = t := (Prod.mk.inj run).2
  have done' := FsWriter.writeNewFileStored env w attr u
  rw [wrote] at done'
  have noFile (index : UInt64) : v.fileIndex ≠ some index := fun own => by
    simp [(Visit.fileIndexSome own).1] at dir
  have hu := h.quiet still
  have here : u.path.data = s.path.data := by rw [still.path]
  have nothing (ignored : List Wstr) (known : ∀ p ∈ ignored, ∃ v ∈ r.visits, v.dir = true ∧
      r.lands w base v = some p) : r.Sharing w base (done ++ [v]) {u with ignored := ignored} :=
    hu.snoc hu.path hu.targetPath rfl known (List.append_nil _).symm (fun _ => .inl rfl)
      (fun index own => absurd own (noFile index)) fun index own => absurd own (noFile index)
  match stored,done' with
  | true,done' =>
    have issued := FsWriter.storedIssues done'
    refine hu.snoc (issued.path ▸ hu.path) (issued.targetPath ▸ hu.targetPath) issued.idMap
      (issued.ignored ▸ hu.ignored) issued.log (fun _ => .inr ⟨_,landed,by rw [here]⟩)
      (fun index own => absurd own (noFile index)) fun index own => absurd own (noFile index)
  | false,.inl same =>
    subst same
    refine nothing _ fun p mem => ?_
    rcases List.mem_cons.mp mem with rfl | before
    · exact ⟨v,by simp [all],dir,here ▸ landed⟩
    · exact hu.ignored p before
  | false,.inr ⟨_,_,same⟩ =>
    subst same
    exact nothing _ hu.ignored

theorem visitedFile (h : r.Sharing w base done s) (shareable : r.Shareable env w base)
    (encoded : r.tree.Encoded r.format) (reader : r.format ≠ .linux)
    (all : r.visits = done ++ v :: rest) (file : v.dir = false)
    (landed : r.lands w base v = some s.path.data)
    (run : r.visitFile env w (r.base ++ v.path) v.info s = (.ok (),t)) :
    r.Sharing w base (done ++ [v]) t := by
  have mem : v ∈ r.visits := by simp [all]
  have there : (r.lands w base v).isSome := by simp [landed]
  have named (u : CopyState) (same : u.path = s.path) : ¬ Nameless w u := by
    rintro ⟨-,empty⟩
    rw [same] at empty
    exact fileNamed encoded reader mem file (empty ▸ landed)
  have copies {u : CopyState} (same : u.path = s.path)
      (run : r.copyFile env w (r.base ++ v.path) v.info u = (.ok (),t)) :
      Issued [(s.path.data,none)] u t :=
    same ▸ copyFileIssues (shareable.taken v mem file there) (shareable.valid v mem file there)
      (named u same) run
  obtain ⟨code,u,asked,run⟩ := Program.bindOkSource run
  have still : Issued [] s u := .quiet (.ask _) asked
  have hu := h.quiet still
  split at run
  · cases run
  split at run
  · rename_i several
    rw [Program.bindRun,Program.getRun] at run
    dsimp only at run
    cases known : u.idMap.lookup v.info.index with
    | none =>
      rw [known] at run
      dsimp only at run
      rw [Program.bindRun,Program.modifyRun] at run
      exact hu.begin file landed (hu.firstOf shareable all file fun _ => known)
        (@copies {u with idMap := (v.info.index,r.pathAt (r.base ++ v.path)) :: u.idMap} still.path run)
    -- The first name has been written already, so the link leads to what it was converted to.
    | some first =>
      rw [known] at run
      obtain ⟨p,head,reaches⟩ := hu.known _ first known
      obtain ⟨yes,x,converted,run⟩ := Program.bindOkSource run
      have hx := hu.retargeted first
      rw [converted] at hx
      have fine : (first.convert u.targetPath).1 = .ok true :=
        FilePath.convertedReaches (hu.targetPath.symm ▸ reaches)
      obtain rfl : true = yes := Except.ok.inj (fine.symm.trans (Prod.mk.inj converted).1)
      have target : x.targetPath.data = p :=
        FilePath.reachesOnce (convertTargetReaches hu.targetPath converted) reaches
      have kept : x.path = s.path := (congrArg CopyState.path (Prod.mk.inj converted).2).symm.trans still.path
      -- Only paths of directories are refused, and no file lands on one of those.
      have free : x.targetPath.data ∉ x.ignored := by
        intro refused
        obtain ⟨u',visited,dir,landed'⟩ := hx.ignored _ refused
        obtain ⟨o,before,own,landed''⟩ := (Grouping.memValuesOf Visit.fileIndex (r.lands w base)).mp
          (List.mem_of_head? head)
        refine landsApart encoded reader visited dir (by simp [all,before]) (Visit.fileIndexSome own).1
          landed' ?_
        rw [target,landed'']
      have issued := FsWriter.linkIssues free run
      rw [kept,target] at issued
      have same : x.idMap = u.idMap := (congrArg CopyState.idMap (Prod.mk.inj converted).2).symm
      refine hx.snoc (issued.path ▸ hx.path) (issued.targetPath ▸ hx.targetPath) issued.idMap
        (issued.ignored ▸ hx.ignored) issued.log (fun dir => by simp [file] at dir) (fun index own => ?_)
        fun index own _ missing => ?_
      · obtain ⟨-,rfl⟩ := Visit.fileIndexSome own
        rw [landed,head]
        rfl
      · obtain ⟨-,rfl⟩ := Visit.fileIndexSome own
        rw [same,known] at missing
        cases missing
  · rename_i single
    have issued := copies still.path run
    refine hu.snoc (issued.path ▸ hu.path) (issued.targetPath ▸ hu.targetPath) issued.idMap
      (issued.ignored ▸ hu.ignored) issued.log (fun dir => by simp [file] at dir) (fun index own => ?_)
      fun index own _ _ => single
    obtain ⟨-,rfl⟩ := Visit.fileIndexSome own
    rw [landed,hu.firstOf shareable all file fun several => absurd several single]
    rfl

theorem convertedAt (h : r.Sharing w base done s) (encoded : r.tree.Encoded r.format)
    (reader : r.format ≠ .linux) (visited : v ∈ r.visits) : ∃ u,
    convertPath (r.pathAt (r.base ++ v.path)) s = (.ok (r.lands w base v).isSome,u) ∧
      r.Sharing w base done u ∧ u.log = s.log ∧ ∀ p, r.lands w base v = some p → u.path.data = p := by
  obtain ⟨held,run,reset,data⟩ := visitConverts encoded visited reader h.path
  exact ⟨_,run,⟨reset,h.targetPath,h.ignored,h.known,h.unknown,h.issued⟩,rfl,data⟩

theorem visited (h : r.Sharing w base done s) (shareable : r.Shareable env w base)
    (encoded : r.tree.Encoded r.format) (reader : r.format ≠ .linux)
    (all : r.visits = done ++ v :: rest) (there : r.infoAt (r.base ++ v.path) v.dir = some v.info)
    (run : r.visitNode env w (r.base ++ v.path) v.dir s = (.ok (),t)) :
    r.Sharing w base (done ++ [v]) t := by
  have mem : v ∈ r.visits := by simp [all]
  obtain ⟨u,converted,hu,log,path⟩ := h.convertedAt encoded reader mem
  rw [visitNode,Program.bindOk converted] at run
  cases landed : r.lands w base v with
  | none =>
    rw [landed] at run
    obtain rfl : u = t := (Prod.mk.inj run).2
    refine hu.snoc hu.path hu.targetPath rfl hu.ignored (List.append_nil _).symm (fun _ => .inl rfl)
      (fun index own => by simp [landed]) fun index own some' => by simp [landed] at some'
  | some p =>
    rw [landed] at run
    obtain rfl := path p landed
    obtain ⟨info,x,opened,run⟩ := Program.bindOkSource run
    obtain rfl : v.info = info := Option.some.inj (there.symm.trans (r.openNodeSource env opened))
    have still : Issued [] u x := .quiet (r.openNodeEmits env _ _) opened
    rw [← still.path] at landed
    split at run
    · rename_i dir
      exact (hu.quiet still).visitedDir all dir landed run
    · rename_i file
      exact (hu.quiet still).visitedFile shareable encoded reader all (Bool.eq_false_iff.mpr file) landed run

theorem returns (h : r.Sharing w base done s) {fuel : Nat} (copies : r.Copies env w base fuel)
    (encoded : r.tree.Encoded r.format) (reader : r.format ≠ .linux) (visited : v ∈ r.visits)
    (there : r.infoAt (r.base ++ v.path) v.dir = some v.info) :
    ∃ t, r.visitNode env w (r.base ++ v.path) v.dir s = (.ok (),t) := by
  obtain ⟨u,converted,hu,-⟩ := h.convertedAt encoded reader visited
  rw [visitNode,Program.bindOk converted]
  cases landed : r.lands w base v with
  | none => exact ⟨u,rfl⟩
  | some p =>
    have works := copies.works
    rw [Option.isSome_some,if_pos rfl,Program.bindOk (openNodeWorks works there u)]
    split
    · rename_i dir
      obtain ⟨_,t,run⟩ := (visitDirReturns works (r.base ++ v.path) fun wsl =>
        copies.unlinked wsl v visited dir (by simp [landed])).ends (Clocked.tick u)
      exact ⟨t,run⟩
    · rename_i file
      have copied : Returns (r.copyFile env w (r.base ++ v.path) v.info) := copyFileReturns works
        (copies.readable v visited (Bool.eq_false_iff.mpr file) (by simp [landed])) _
      rw [visitFile,Program.bindOk (callWorks works _ _)]
      simp only [ne_eq,not_true_eq_false,↓reduceIte]
      split
      · rw [Program.bindRun,Program.getRun]
        dsimp only
        cases known : (Clocked.tick (Clocked.tick u)).idMap.lookup v.info.index with
        | none =>
          dsimp only
          obtain ⟨_,t,run⟩ := (Returns.bind (Returns.modify _) fun _ => copied).ends _
          exact ⟨t,run⟩
        | some first =>
          obtain ⟨p,-,reaches⟩ := hu.known _ first known
          have fine : (first.convert u.targetPath).1 = .ok true :=
            FilePath.convertedReaches (hu.targetPath.symm ▸ reaches)
          have yes : convertTarget first (Clocked.tick (Clocked.tick u)) =
            (.ok true,(convertTarget first (Clocked.tick (Clocked.tick u))).2) := Prod.ext fine rfl
          dsimp only
          rw [linkFile,Program.bindOk yes,if_pos rfl]
          obtain ⟨_,t,run⟩ := (FsWriter.writeHardLinkReturns works w).ends _
          exact ⟨t,run⟩
      · obtain ⟨_,t,run⟩ := copied.ends (Clocked.tick (Clocked.tick u))
        exact ⟨t,run⟩

theorem sequence (shareable : r.Shareable env w base) (encoded : r.tree.Encoded r.format)
    (reader : r.format ≠ .linux) (lists : env.Lists) (fuel : Nat) :
    r.Sequence env w (r.Sharing w base) fun _ _ => ¬ r.Copies env w base fuel where
  moved _ _ _ h := ⟨h.path,h.targetPath,h.ignored,h.known,h.unknown,h.issued⟩
  calls := by
    by_cases works : env.Works
    · exact .inl works
    · exact .inr fun _ _ _ _ copies => works copies.works
  lists := lists
  visit {done v rest} all there := by
    intro s h
    cases run : r.visitNode env w (r.base ++ v.path) v.dir s with
    | mk outcome t =>
      cases outcome with
      | ok _ => exact h.visited shareable encoded reader all there run
      | error e =>
        intro copies
        obtain ⟨t',run'⟩ := h.returns copies encoded reader (by simp [all]) there
        rw [run] at run'
        cases run'

theorem new (r : WslReader) (w : Format) (base : Wstr) : r.Sharing w base [] (.new w base r.base) where
  path := FilePath.servedReset .fresh
  targetPath := FilePath.servedReset .fresh
  ignored p mem := absurd mem List.not_mem_nil
  known index first found := by cases found
  unknown index _ v mem := absurd mem List.not_mem_nil
  issued := by
    refine ⟨[],rfl,rfl,fun v out mem => absurd mem List.not_mem_nil,fun before v out after k same => ?_⟩
    simp at same

end Sharing

/- What a copy makes of the names of files. For the names with one index the first that can be
converted is written and the others are hard links to it; every name is issued once. -/
structure GroupsKept (land : Visit → Option Wstr) (cut : Cut) : Prop where
  dirs : ∀ v out, (v,out) ∈ cut → v.dir = true → out = [] ∨ ∃ p, land v = some p ∧ out = [(p,none)]
  once : ∀ v out, (v,out) ∈ cut → v.dir = false → out.map Prod.fst = (land v).toList
  groups : ∀ index, (cut.filter fun entry => entry.1.fileIndex = some index).flatMap Prod.snd =
    shared (valuesOf Visit.fileIndex land index (cut.map Prod.fst))

theorem Sharing.kept {done : List Visit} {s : CopyState} (h : r.Sharing w base done s) :
    ∃ cut : Cut, cut.map Prod.fst = done ∧ cut.flatMap Prod.snd = emissions s.log ∧
      GroupsKept (r.lands w base) cut := by
  obtain ⟨cut,own,all,dirs,follows⟩ := h.issued
  refine ⟨cut,own,all,dirs,fun v out mem file => ?_,follows.grouped⟩
  obtain ⟨before,after,same⟩ := List.append_of_mem mem
  rw [follows before v out after _ same (Visit.fileIndexFile file),List.map_map]
  exact List.map_id _

end WslReader

def threeNames : NodeInfo := {twoNames 0x81a4 with links := 3}

def refusedFirst : WslReader := ⟨.v1,sourceBase,.dir (wstr "home") (twoNames 0x41ed)
  (.file (wstr "x") threeNames .nil) (.file (wstr "a") threeNames (.file (wstr "b") threeNames .nil))⟩

theorem producedWord {name : Wstr} (entry : LinuxEntry name) (same : name = WslV1Path.code.encode name) :
    Format.v1.Produces name := ⟨name,entry,same⟩

theorem refusedFirstEncoded : refusedFirst.tree.Encoded .v1 :=
  ⟨producedWord ⟨by decide,by decide⟩ (by decide),by decide,
    ⟨producedWord ⟨by decide,by decide⟩ (by decide),by decide,trivial⟩,
    producedWord ⟨by decide,by decide⟩ (by decide),by decide,
    producedWord ⟨by decide,by decide⟩ (by decide),by decide,trivial⟩

theorem refusedFirstFiles {v : Visit} (visited : v ∈ refusedFirst.visits) (file : v.dir = false) :
    v.info = threeNames := by
  have all : refusedFirst.visits = [⟨[],wstr "home",true,twoNames 0x41ed⟩,
    ⟨[wstr "home"],wstr "x",false,threeNames⟩,⟨[],wstr "a",false,threeNames⟩,
    ⟨[],wstr "b",false,threeNames⟩] := rfl
  rw [all] at visited
  simp only [List.mem_cons,List.not_mem_nil,or_false] at visited
  rcases visited with rfl | rfl | rfl | rfl
  · cases file
  all_goals rfl

theorem refusedFirstShareable : refusedFirst.Shareable plainFs .legacy targetBase where
  counted v visited file := by
    rw [Visit.fileIndexFile file,refusedFirstFiles visited file]
    decide
  taken v visited file _ s attr t read := by
    obtain ⟨attr',t',read',mode⟩ := refusedFirst.readAttrWorks plainWorks
      (refusedFirst.base ++ v.path) v.info s
    obtain rfl : attr' = attr := Except.ok.inj (Prod.mk.inj (read'.symm.trans read)).1
    rw [refusedFirstFiles visited file] at mode
    cases attr' with
    | none => rfl
    | some a =>
      have regular : a.mode = 0x81a4 := Option.some.inj mode
      rw [Format.accepts,if_neg (by decide),FsWriter.passes,FileAttr.type,regular]
      decide
  valid v _ _ _ bad := absurd bad.1 (by decide)

example : emissions (refusedFirst.run plainFs .legacy 3
    (.new .legacy targetBase refusedFirst.base)).2.log =
      [(targetBase ++ wstr "a",none),(targetBase ++ wstr "b",some (targetBase ++ wstr "a"))] := by
  decide +kernel

end LxRunOffline
