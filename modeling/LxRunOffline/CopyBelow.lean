import LxRunOffline.BaseDir
import LxRunOffline.Moves
import LxRunOffline.Shape

/-! Where a copy between two directories writes. Everything it makes lies below the base of the
writer, so it stays out of the source as long as neither base encloses the other. -/
namespace LxRunOffline

def FsEvent.made : FsEvent → Option Wstr
  | .createdDirectory path => some path
  | .createdFile path => some path
  | .hardLink path _ => some path
  | _ => none

def FsEvent.Reports (e : FsEvent) (path : Wstr) : Prop := e.made = some path ∨ e = .accepted path

structure Making (s t : CopyState) : Prop where
  path : t.path = s.path
  log : ∃ more, t.log = s.log ++ more ∧ ∀ e ∈ more, ∀ p, e.Reports p → p = s.path.data

namespace Making
variable {s t u : CopyState} {kind : FsEvent → Prop}

theorem refl (s : CopyState) : Making s s := ⟨rfl,[],by simp,by simp⟩

theorem trans (h : Making s t) (h' : Making t u) : Making s u := by
  obtain ⟨more,log,all⟩ := h.log
  obtain ⟨more',log',all'⟩ := h'.log
  refine ⟨h'.path.trans h.path,more ++ more',by rw [log',log,List.append_assoc],fun e mem p made => ?_⟩
  rcases List.mem_append.mp mem with old | new
  · exact all e old p made
  · exact h.path ▸ all' e new p made

theorem within (h : Within kind s t) (fine : ∀ e, kind e → ∀ p, e.Reports p → p = s.path.data) :
    Making s t := by
  obtain ⟨more,log,all⟩ := h.log
  exact ⟨h.path,more,log,fun e mem => fine e (all e mem)⟩

theorem fileReports {path p : Wstr} {e : FsEvent} (h : FileEvent path e) (made : e.Reports p) :
    p = path := by
  rcases made with made | rfl
  · rcases h with attr | _ | _ | _ | _
    · cases attr <;> cases made
    all_goals cases made <;> rfl
  · rcases h with attr | _
    cases attr

theorem dataReports {p : Wstr} {e : FsEvent} (h : DataEvent e) : ¬ e.Reports p := by
  rintro (made | rfl)
  · cases h <;> cases made
  · cases h

end Making

instance : IsPreorder CopyState Making where
  refl := Making.refl
  trans _ _ _ := Making.trans

abbrev Makes {α : Type} (x : Copy α) : Prop := Program.Moves Making x

namespace Makes
variable {α : Type} {x : Copy α}

theorem quiet (h : Emits (fun _ => False) x) : Makes x :=
  ⟨fun s => .within (h.final s) fun _ => False.elim⟩

theorem data (h : Emits DataEvent x) : Makes x :=
  ⟨fun s => .within (h.final s) fun _ k _ made => absurd made (Making.dataReports k)⟩

variable (env : FsEnv) (w : Format)

theorem writeNewFile (attr : Option FileAttr) : Makes (FsWriter.writeNewFile env w attr) := by
  refine ⟨fun s => ?_⟩
  have stored := FsWriter.writeNewFileStored env w attr s
  cases run : FsWriter.writeNewFile env w attr s with
  | mk outcome t =>
    rw [run] at stored
    match outcome,stored with
    | .ok true,⟨u,within,same⟩ =>
      subst same
      have before : Making s u := .within within fun e k p made => Making.fileReports k made
      refine before.trans ⟨rfl,[.accepted s.path.data],rfl,fun e mem p made => ?_⟩
      cases List.mem_singleton.mp mem
      rcases made with made | same
      · cases made
      · cases same
        exact congrArg FilePath.data before.path.symm
    | .ok false,.inl same =>
      subst same
      exact ⟨rfl,[],by simp,by simp⟩
    | .ok false,.inr ⟨_,_,same⟩ =>
      subst same
      exact .refl _
    | .error _,within => exact .within within fun e k p made => Making.fileReports k made

theorem writeHardLink : Makes (FsWriter.writeHardLink env w) := by
  refine ⟨fun s => ?_⟩
  by_cases refused : s.targetPath.data ∈ s.ignored
  · rw [FsWriter.refusedLink env w refused]
    exact ⟨rfl,[],by simp,by simp⟩
  · refine .within (FsWriter.emittedLink env w refused) fun e k p made => ?_
    subst k
    rcases made with made | same
    · exact (Option.some.inj made).symm
    · cases same

theorem convertTarget (src : FilePath) : Makes (WslReader.convertTarget src) :=
  ⟨fun _ => ⟨rfl,[],(List.append_nil _).symm,by simp⟩⟩

end Makes
namespace WslReader
variable (r : WslReader) (env : FsEnv) (w : Format)

theorem storeFileMakes (path : Wstr) (info : NodeInfo) (attr : Option FileAttr) :
    Makes (storeFile env w path info attr) :=
  .bind (Makes.writeNewFile env w attr) fun _ => .ite
    (fun _ => .ite (fun _ => Makes.data (copyDataEmits ..)) fun _ => .pure ()) fun _ => .pure ()

theorem copyFileMakes (path : Wstr) (info : NodeInfo) : Makes (r.copyFile env w path info) := by
  refine .bind (Makes.quiet (r.readAttrEmits env path info)) fun attr => .ite (fun _ => ?_)
    (fun _ => storeFileMakes env w path info attr)
  refine .bind (Makes.quiet (r.readSymlinkDataEmits env path info)) fun target => ?_
  cases attr with
  | none => exact .pure ()
  | some a => cases target with
    | none => exact .pure ()
    | some target => exact storeFileMakes env w path info _

theorem visitFileMakes (path : Wstr) (info : NodeInfo) : Makes (r.visitFile env w path info) := by
  refine .bind (Makes.quiet (.ask _)) fun code => .ite (fun _ => .raise _) fun _ =>
    .ite (fun _ => .get fun s => ?_) (fun _ => r.copyFileMakes env w path info)
  cases s.idMap.lookup info.index with
  | none => exact .bind ⟨fun _ => ⟨rfl,[],by simp,by simp⟩⟩ fun _ => r.copyFileMakes env w path info
  | some first =>
    exact .bind (Makes.convertTarget first) fun _ => .ite (fun _ => Makes.writeHardLink env w) fun _ => .pure ()

theorem visitDirMakes (path : Wstr) (info : NodeInfo) : Makes (r.visitDir env w path info) :=
  .bind (Makes.quiet (r.readAttrEmits env path info)) fun attr =>
    .bind (Makes.writeNewFile env w attr) fun _ => .pure ()

end WslReader

structure Below (start : FilePath) (before : List FsEvent) (s : CopyState) : Prop where
  path : s.path.reset = start
  made : ∀ e ∈ s.log, ∀ p, e.made = some p → start.base <+: p
  log : before <+: s.log

namespace Below
open Program (Keeps)
variable {start : FilePath} {before : List FsEvent} {s t : CopyState} {kind : FsEvent → Prop} {α : Type} {x : Copy α}

theorem here (h : Below start before s) : start.base <+: s.path.data := by
  have same : s.path.base = start.base := by
    rw [← h.path]
    cases s.path <;> rfl
  rw [FilePath.data,same]
  exact List.prefix_append _ _

theorem making (h : Below start before s) (later : Making s t) : Below start before t := by
  obtain ⟨more,log,all⟩ := later.log
  refine ⟨later.path ▸ h.path,fun e mem p made => ?_,log ▸ h.log.trans (List.prefix_append _ _)⟩
  rw [log,List.mem_append] at mem
  rcases mem with old | new
  · exact h.made e old p made
  · exact all e new p (.inl made) ▸ h.here

theorem ofMakes (h : Makes x) : Keeps (Below start before) x := Keeps.ofFinal fun s hs => hs.making (h.final s)

theorem converting (src : FilePath) : Keeps (Below start before) (WslReader.convertPath src) :=
  Keeps.ofFinal fun s h => ⟨(FilePath.convertReset src s.path).trans h.path,h.made,h.log⟩

end Below
namespace WslReader
open Program (Triple Keeps)
variable (r : WslReader) (env : FsEnv) (w : Format) {start : FilePath} {before : List FsEvent}

theorem visitNodeBelow (path : Wstr) (dir : Bool) :
    Keeps (Below start before) (r.visitNode env w path dir) := by
  refine Triple.bind (Below.converting _) fun _ => Triple.ite (fun _ => ?_) (fun _ _ h => h)
  exact Triple.bind (Below.ofMakes (Makes.quiet (r.openNodeEmits env path dir))) fun info =>
    Triple.ite (fun _ => Below.ofMakes (r.visitDirMakes env w path info))
      (fun _ => Below.ofMakes (r.visitFileMakes env w path info))

theorem visitBelow (t : EnumDirType) : Keeps (Below start before) (r.visit env w t) := by
  refine Triple.ite (fun _ _ h => h) fun _ => Triple.get fun s h => ?_
  refine Triple.ite (fun _ _ same => same ▸ ⟨h.path,h.made,h.log⟩) fun _ u same => ?_
  exact r.visitNodeBelow env w s.data (t = .enter) u (same ▸ h)

theorem walkBelow : (r.api env).Steady (r.visit env w) (Below start before) (fun _ => Below start before) where
  fuel _ h := h
  set _ _ h := ⟨h.path,h.made,h.log⟩
  opened path := Below.ofMakes (Makes.quiet (r.openListedEmits env path))
  first path := Below.ofMakes (Makes.quiet (r.findFirstEmits env path))
  next path := Below.ofMakes (Makes.quiet (.findNext env path))
  acts t := r.visitBelow env w t

theorem runBelow (fuel : Nat) : Keeps (Below start before) (r.run env w fuel) := by
  have begun : Keeps (Below start before)
      (Program.modify fun s => {s with isRoot := true, idMap := []} : Copy Unit) := fun _ h => ⟨h.path,h.made,h.log⟩
  exact Triple.bind begun fun _ => (r.walkBelow env w).walk fuel _

end WslReader
end LxRunOffline
