import LxRunOffline.CopyImage

/-! What one visit of a copy can do, if it returns, and from it what holds at the end of a walk. -/
namespace LxRunOffline.WslReader
open Grouping (valuesOf)
variable {r : WslReader} {env : FsEnv} {w : Format} {base : Wstr} {done rest : List Visit} {v : Visit}
  {s t : CopyState}

structure Silent (s t : CopyState) : Prop where
  log : t.log = s.log
  stack : t.dirAttr = s.dirAttr

inductive Does (r : WslReader) (env : FsEnv) (w : Format) (base : Wstr) (done : List Visit) (v : Visit)
    (s t : CopyState) : Prop
  | skipped (away : r.lands w base v = none) (silent : Silent s t)
  | dir {u : CopyState} (silent : Silent s u) (landed : r.lands w base v = some u.path.data) (isDir : v.dir = true)
      (run : r.visitDir env w (r.base ++ v.path) v.info u = (.ok (),t))
  | file {u : CopyState} (silent : Silent s u) (landed : r.lands w base v = some u.path.data) (file : v.dir = false)
      (first : valuesOf Visit.fileIndex (r.lands w base) v.info.index done = [])
      (run : r.copyFile env w (r.base ++ v.path) v.info u = (.ok (),t))
  | link {u : CopyState} (silent : Silent s u) (landed : r.lands w base v = some u.path.data) (file : v.dir = false)
      (head : (valuesOf Visit.fileIndex (r.lands w base) v.info.index done).head? = some u.targetPath.data)
      (free : u.targetPath.data ∉ u.ignored) (run : FsWriter.writeHardLink env w u = (.ok (),t))

theorem firstVisit {target : Wstr} (file : v.dir = false)
    (head : (valuesOf Visit.fileIndex (r.lands w base) v.info.index done).head? = some target) :
    ∃ o ∈ done, o.SameFile v ∧ r.lands w base o = some target := by
  obtain ⟨o,before,own,landed⟩ := (Grouping.memValuesOf _ _).mp (List.mem_of_head? head)
  exact ⟨o,before,⟨_,own,Visit.fileIndexFile file⟩,landed⟩

variable (copyable : r.Copyable env w base)
include copyable

theorem visitedFile (sharing : r.Sharing w base done s) (all : r.visits = done ++ v :: rest) (file : v.dir = false)
    (landed : r.lands w base v = some s.path.data)
    (run : r.visitFile env w (r.base ++ v.path) v.info s = (.ok (),t)) : r.Does env w base done v s t := by
  obtain ⟨code,u,asked,run⟩ := Program.bindOkSource run
  cases asked
  have still : Issued [] s (Clocked.tick s) := ⟨rfl,rfl,rfl,rfl,(List.append_nil _).symm⟩
  have hu := sharing.quiet still
  split at run
  · cases run
  split at run
  · rw [Program.bindRun,Program.getRun] at run
    dsimp only at run
    cases known : (Clocked.tick s).idMap.lookup v.info.index with
    | none =>
      rw [known] at run
      have first := hu.firstOf copyable.shareable all file fun _ => known
      exact .file (u := {Clocked.tick s with
        idMap := (v.info.index,r.pathAt (r.base ++ v.path)) :: (Clocked.tick s).idMap}) ⟨rfl,rfl⟩ landed file
        first run
    | some first =>
      rw [known] at run
      obtain ⟨p,head,reaches⟩ := hu.known _ first known
      obtain ⟨yes,x,converted,run⟩ := Program.bindOkSource run
      have hx := hu.retargeted first
      rw [converted] at hx
      have fine : (first.convert (Clocked.tick s).targetPath).1 = .ok true :=
        FilePath.convertedReaches (hu.targetPath.symm ▸ reaches)
      obtain rfl : true = yes := Except.ok.inj (fine.symm.trans (Prod.mk.inj converted).1)
      have target : x.targetPath.data = p :=
        FilePath.reachesOnce (convertTargetReaches hu.targetPath converted) reaches
      obtain ⟨o,before,own,landed'⟩ := (Grouping.memValuesOf Visit.fileIndex (r.lands w base)).mp
        (List.mem_of_head? head)
      have free : x.targetPath.data ∉ x.ignored := by
        intro refused
        obtain ⟨d,visited,dir,there⟩ := hx.ignored _ refused
        refine landsApart copyable.encoded copyable.reader visited dir (by simp [all,before])
          (Visit.fileIndexSome own).1 there ?_
        rw [target,landed']
      obtain ⟨-,rfl⟩ := Prod.mk.inj converted
      exact .link (u := {Clocked.tick s with targetPath := (first.convert (Clocked.tick s).targetPath).2})
        ⟨rfl,rfl⟩ landed file (head.trans (congrArg some target.symm)) free run
  · rename_i single
    have first := hu.firstOf copyable.shareable all file fun several => absurd several single
    exact .file (u := Clocked.tick s) ⟨rfl,rfl⟩ landed file first run

theorem visitedNode (sharing : r.Sharing w base done s) (all : r.visits = done ++ v :: rest)
    (there : r.infoAt (r.base ++ v.path) v.dir = some v.info)
    (run : r.visitNode env w (r.base ++ v.path) v.dir s = (.ok (),t)) : r.Does env w base done v s t := by
  have mem : v ∈ r.visits := by simp [all]
  obtain ⟨u,converted,hu,log,path⟩ := sharing.convertedAt copyable.encoded copyable.reader mem
  have silent : Silent s u := ⟨log,(congrArg CopyState.dirAttr (Prod.mk.inj converted).2).symm⟩
  rw [visitNode,Program.bindOk converted] at run
  cases landed : r.lands w base v with
  | none =>
    rw [landed] at run
    obtain rfl : u = t := (Prod.mk.inj run).2
    exact .skipped landed silent
  | some p =>
    rw [landed] at run
    obtain rfl := path p landed
    obtain ⟨info,x,opened,run⟩ := Program.bindOkSource run
    obtain rfl : v.info = info := Option.some.inj (there.symm.trans (r.openNodeSource env opened))
    obtain ⟨clock,same⟩ := (r.openNodeTicked env (r.base ++ v.path) v.dir).final u
    rw [opened] at same
    dsimp only at same
    subst same
    have on {x : CopyState} (h : Silent {u with clock := clock} x) : Silent s x :=
      ⟨h.log.trans silent.log,h.stack.trans silent.stack⟩
    split at run
    · rename_i dir
      exact .dir (u := {u with clock := clock}) ⟨silent.log,silent.stack⟩ landed dir run
    · rename_i file
      have still : Issued [] u {u with clock := clock} := ⟨rfl,rfl,rfl,rfl,(List.append_nil _).symm⟩
      cases visitedFile copyable (hu.quiet still) all (Bool.eq_false_iff.mpr file) landed run with
      | skipped away quiet => exact .skipped away (on quiet)
      | dir quiet landed isDir run => exact .dir (on quiet) landed isDir run
      | file quiet landed file first run => exact .file (on quiet) landed file first run
      | link quiet landed file head free run => exact .link (on quiet) landed file head free run

theorem runVisited {clock : Nat} {answers : List ArchiveAnswer} (P : List Visit → CopyState → Prop)
    (new : P [] (.newAt clock answers w base r.base))
    (silent : ∀ done s t, P done s → Silent s t → P done t)
    (step : ∀ done v rest s t, r.visits = done ++ v :: rest → P done s → r.Does env w base done v s t →
      P (done ++ [v]) t) (fuel : Nat) :
    (∀ t, r.run env w fuel (.newAt clock answers w base r.base) = (.ok (),t) → P r.visits t) ∧
    (r.Copies env w base fuel → ∃ t, r.run env w fuel (.newAt clock answers w base r.base) = (.ok (),t)) := by
  have fails (wrong : ¬ r.Copies env w base fuel) : ∀ (done : List Visit) (s : CopyState) (_ : Stop),
      r.Sharing w base done s ∧ P done s → ¬ r.Copies env w base fuel := fun _ _ _ _ => wrong
  have sequence : r.Sequence env w (fun done s => r.Sharing w base done s ∧ P done s)
      fun _ _ => ¬ r.Copies env w base fuel := {
    moved := fun clock data root h => ⟨⟨h.1.path,h.1.targetPath,h.1.ignored,h.1.known,h.1.unknown,h.1.issued⟩,
      silent _ _ _ h.2 ⟨rfl,rfl⟩⟩
    calls := by
      by_cases works : env.Works
      · exact .inl works
      · exact .inr fun _ _ _ _ copies => works copies.works
    lists := copyable.lists
    visit := by
      intro done v rest all there s h
      cases run : r.visitNode env w (r.base ++ v.path) v.dir s with
      | mk outcome t =>
        cases outcome with
        | ok _ =>
          exact ⟨h.1.visited copyable.shareable copyable.encoded copyable.reader all there run,
            step done v rest s t all h.2 (visitedNode copyable h.1 all there run)⟩
        | error e =>
          intro copies
          obtain ⟨t',run'⟩ := h.1.returns copies copyable.encoded copyable.reader (by simp [all]) there
          rw [run] at run'
          cases run' }
  have enough := (em (r.Copies env w base fuel)).imp (fun copies => copies.enough) fails
  have rooted (legacy : r.format = .legacy) := (em (r.Copies env w base fuel)).imp
    (fun copies => copies.rooted legacy) fails
  have begun := Sharing.new r w base
  have ends := sequence.runs copyable.encoded.proper enough rooted (.newAt clock answers w base r.base)
    ⟨rfl,⟨begun.path,begun.targetPath,begun.ignored,begun.known,begun.unknown,begun.issued⟩,new⟩
  cases run : r.run env w fuel (.newAt clock answers w base r.base) with
  | mk outcome t =>
    rw [run] at ends
    cases outcome with
    | ok _ =>
      refine ⟨fun t' same => ?_,fun _ => ⟨t,rfl⟩⟩
      cases same
      exact ends.2
    | error e => exact ⟨fun t' same => (by cases same),fun copies => absurd copies ends⟩

end LxRunOffline.WslReader
