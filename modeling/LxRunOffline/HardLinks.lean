import LxRunOffline.WriterEffects
import LxRunOffline.EntryName

/-! Where the target of a hard link comes from. Converting a source path again gives the path it
was converted to before, so a target is settled once its first name has been made or has been
left out and remembered. -/
namespace LxRunOffline

namespace FilePath

theorem convertReset (src out : FilePath) : (src.convert out).2.reset = out.reset := by
  have kept := convertKeeps src out.reset out rfl
  revert kept
  cases src.convert out with
  | mk outcome t => cases outcome <;> exact id

theorem convertServed {src out : FilePath}
    (done : (src.convert out).1 = .ok true ∨ (src.convert out.reset).1 = .ok true) :
    src.convert out = src.convert out.reset := by
  have again := resetReset out
  cases src with
  | linux p =>
    simp only [convert,linuxConvert] at done ⊢
    cases skip : p.skip with
    | true => simp [skip] at done
    | false => simp only [Bool.false_eq_true,↓reduceIte,Program.bindRun,Program.modifyRun,again]
  | wslV1 p => simp only [convert,Program.bindRun,Program.modifyRun,again]
  | wslV2 p => simp only [convert,Program.bindRun,Program.modifyRun,again]
  | wslLegacy p =>
    simp only [convert,legacyConvert] at done ⊢
    cases hidden : WslLegacyPath.shadowed p.rel with
    | true => simp [hidden] at done
    | false => simp only [Bool.false_eq_true,↓reduceIte,Program.bindRun,Program.modifyRun,again]

def Reaches (src start : FilePath) (data : Wstr) : Prop :=
  ∃ out, src.convert start = (.ok true,out) ∧ out.data = data

theorem reachesConverted {src out : FilePath} (done : (src.convert out).1 = .ok true) :
    src.Reaches out.reset (src.convert out).2.data := by
  rw [Reaches,← convertServed (.inl done)]
  exact ⟨_,Prod.ext done rfl,rfl⟩

theorem convertedReaches {src out : FilePath} {data : Wstr} (h : src.Reaches out.reset data) :
    (src.convert out).1 = .ok true := by
  obtain ⟨out',run,-⟩ := h
  rw [convertServed (.inr (congrArg Prod.fst run)),run]

theorem reachesOnce {src start : FilePath} {data data' : Wstr} (h : src.Reaches start data)
    (h' : src.Reaches start data') : data = data' := by
  obtain ⟨out,run,rfl⟩ := h
  obtain ⟨out',run',rfl⟩ := h'
  rw [run] at run'
  cases run'
  rfl

end FilePath

def Made (log : List FsEvent) (path : Wstr) : Prop :=
  .accepted path ∈ log ∨ ∃ target, .hardLink path target ∈ log

/- Every hard link in the log leads to a path that had been made before it. -/
def NoDangling (log : List FsEvent) : Prop :=
  ∀ before path target after, log = before ++ .hardLink path target :: after → Made before target

theorem Made.more {log : List FsEvent} {path : Wstr} (h : Made log path) (more : List FsEvent) :
    Made (log ++ more) path := by
  rcases h with h | ⟨target,h⟩
  · exact .inl (by simp [h])
  · exact .inr ⟨target,by simp [h]⟩

theorem NoDangling.more {log more : List FsEvent} (h : NoDangling log)
    (backed : ∀ path target, .hardLink path target ∈ more → Made log target) :
    NoDangling (log ++ more) := by
  intro before path target after same
  rcases List.append_eq_append_iff.mp same with ⟨mid,rfl,tail⟩ | ⟨mid,rfl,tail⟩
  · exact (backed path target (by simp [tail])).more mid
  · cases mid with
    | nil =>
      rw [List.nil_append] at tail
      simpa using backed path target (tail ▸ List.mem_cons_self)
    | cons e mid =>
      obtain ⟨rfl,-⟩ := List.cons.inj tail
      exact h before path target mid rfl

/- The writer remembers that it has left the path out, or it has made it. -/
def Settled (s : CopyState) (path : Wstr) : Prop := path ∈ s.ignored ∨ Made s.log path

structure Advanced (s t : CopyState) : Prop where
  path : t.path = s.path
  targetPath : t.targetPath = s.targetPath
  idMap : t.idMap = s.idMap
  ignored : ∀ p ∈ s.ignored, p ∈ t.ignored
  log : ∃ more, t.log = s.log ++ more ∧ ∀ path target, .hardLink path target ∉ more

namespace Advanced
variable {s t u : CopyState}

theorem refl (s : CopyState) : Advanced s s := ⟨rfl,rfl,rfl,fun _ h => h,[],by simp,by simp⟩

theorem trans (h : Advanced s t) (h' : Advanced t u) : Advanced s u := by
  obtain ⟨more,log,none⟩ := h.log
  obtain ⟨more',log',none'⟩ := h'.log
  refine ⟨h'.path.trans h.path,h'.targetPath.trans h.targetPath,h'.idMap.trans h.idMap,
    fun p mem => h'.ignored p (h.ignored p mem),more ++ more',by rw [log',log,List.append_assoc],?_⟩
  intro path target mem
  exact (List.mem_append.mp mem).elim (none path target) (none' path target)

theorem settled (h : Advanced s t) {path : Wstr} (before : Settled s path) : Settled t path := by
  obtain ⟨more,log,_⟩ := h.log
  exact before.imp (h.ignored path) fun made => log ▸ made.more more

theorem safe (h : Advanced s t) (before : NoDangling s.log) : NoDangling t.log := by
  obtain ⟨more,log,none⟩ := h.log
  exact log ▸ before.more fun path target mem => absurd mem (none path target)

end Advanced

theorem Within.advanced {kind : FsEvent → Prop} {s t : CopyState} (h : Within kind s t)
    (noLink : ∀ path target, ¬ kind (.hardLink path target)) : Advanced s t := by
  obtain ⟨more,log,all⟩ := h.log
  exact ⟨h.path,h.targetPath,h.idMap,fun p mem => h.ignored ▸ mem,more,log,
    fun path target mem => noLink path target (all _ mem)⟩

theorem fileEventNoLink (p path target : Wstr) : ¬ FileEvent p (.hardLink path target) := by
  rintro (⟨⟨⟩⟩)

theorem dataEventNoLink (path target : Wstr) : ¬ DataEvent (.hardLink path target) := by
  rintro ⟨⟩

theorem quietAdvanced {α : Type} {x : Copy α} (h : Emits (fun _ => False) x) (s : CopyState) :
    Advanced s (x s).2 := (h.final s).advanced fun _ _ => id

def Settles {α : Type} (excuse : Prop) (s : CopyState) : Except Stop α × CopyState → Prop :=
  Program.Ends (fun _ t => Advanced s t ∧ (excuse ∨ Settled t s.path.data)) (fun _ t => Advanced s t)

namespace Settles
variable {α β : Type} {excuse excuse' : Prop} {s : CopyState} {x : Copy α} {f : α → Copy β}

theorem excused {outcome : Except Stop α × CopyState} (h : Settles excuse s outcome)
    (wider : excuse → excuse') : Settles excuse' s outcome := by
  cases outcome with
  | mk result t => cases result with
    | ok a => exact ⟨h.1,h.2.imp_left wider⟩
    | error e => exact h

theorem bindQuiet (h : Settles excuse s (x s)) (quiet : ∀ a t, Advanced t (f a t).2) :
    Settles excuse s ((x >>= f) s) := by
  rw [Program.bindRun]
  cases run : x s with
  | mk result t =>
    rw [run] at h
    cases result with
    | ok a =>
      have later := quiet a t
      unfold Settles
      dsimp only
      cases rest : f a t with
      | mk result u =>
        rw [rest] at later
        cases result with
        | ok b => exact ⟨h.1.trans later,h.2.imp_right later.settled⟩
        | error e => exact h.1.trans later
    | error e => exact h

theorem after (quiet : Advanced s (x s).2) (h : ∀ a t, x s = (.ok a,t) → Advanced s t →
    Settles excuse t (f a t)) : Settles excuse s ((x >>= f) s) := by
  rw [Program.bindRun]
  cases run : x s with
  | mk result t =>
    rw [run] at quiet
    cases result with
    | ok a =>
      have rest := h a t run quiet
      unfold Settles at rest ⊢
      dsimp only
      cases result : f a t with
      | mk outcome u =>
        rw [result] at rest
        cases outcome with
        | ok b => exact ⟨quiet.trans rest.1,by rw [← quiet.path]; exact rest.2⟩
        | error e => exact quiet.trans rest
    | error e => exact quiet

end Settles

def Nameless (w : Format) (s : CopyState) : Prop := w = .linux ∧ s.path.data = []

namespace FsWriter
variable (env : FsEnv) (w : Format)

theorem writeNewFileSettles (attr : Option FileAttr) (s : CopyState) :
    Settles (Nameless w s) s (writeNewFile env w attr s) := by
  have stored := writeNewFileStored env w attr s
  unfold Settles
  cases run : writeNewFile env w attr s with
  | mk outcome t =>
    rw [run] at stored
    match outcome,stored with
    | .ok true,⟨u,within,same⟩ =>
      subst same
      obtain ⟨path,targetPath,idMap,ignored,more,log,none⟩ := within.advanced (fileEventNoLink _)
      refine ⟨⟨path,targetPath,idMap,ignored,more ++ [.accepted s.path.data],by simp [log],?_⟩,
        .inr (.inr (.inl (by simp)))⟩
      simpa using none
    | .ok false,.inl same =>
      subst same
      exact ⟨⟨rfl,rfl,rfl,fun p mem => by simp [mem],[],by simp,by simp⟩,.inr (.inl (by simp))⟩
    | .ok false,.inr ⟨linux,empty,same⟩ =>
      subst same
      exact ⟨.refl _,.inl ⟨linux,empty⟩⟩
    | .error _,within => exact within.advanced (fileEventNoLink _)

theorem writeHardLinkSafe {s : CopyState} (settled : Settled s s.targetPath.data)
    (safe : NoDangling s.log) : NoDangling (writeHardLink env w s).2.log := by
  by_cases known : s.targetPath.data ∈ s.ignored
  · rwa [refusedLink env w known]
  · obtain ⟨more,log,all⟩ := (emittedLink env w known).log
    have made := settled.resolve_left known
    rw [log]
    refine safe.more fun path target mem => ?_
    cases all _ mem
    exact made

end FsWriter
end LxRunOffline
