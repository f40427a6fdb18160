import LxRunOffline.VisitSteps

/-! Whole copies and the disk that they leave, from the first visit to the end of the writer. -/
namespace LxRunOffline
namespace WslReader
variable {r : WslReader} {env : FsEnv} {w : Format} {base : Wstr} {done rest : List Visit} {v : Visit}
  {s t : CopyState}

def Emptied (env : FsEnv) (t : CopyState) : Prop := (WslV2Writer.drain env t.dirAttr t).1 = .ok ()

theorem emptiedWorks (works : env.Works) (t : CopyState) : Emptied env t := by
  obtain ⟨clock,drained⟩ := WslV2Writer.drainTells works.tolerated t.dirAttr t
  rw [Emptied,drained]

theorem depictedVisit (copyable : r.Copyable env w base) (writer : w ≠ .linux) (fresh : env.Fresh)
    (all : r.visits = done ++ v :: rest) (h : (r.original w base).Depicted w done s)
    (visited : r.Does env w base done v s t) : (r.original w base).Depicted w (done ++ [v]) t := by
  cases visited with
  | skipped away silent => exact (h.silent silent.log silent.stack).skipped away
  | dir silent landed isDir run =>
    exact depictedDir copyable writer fresh all (h.silent silent.log silent.stack) isDir landed run
  | file silent landed file first run =>
    exact depictedCopy copyable writer all (h.silent silent.log silent.stack) file landed (valuesAlone first) run
  | link silent landed file head free run =>
    obtain ⟨o,before,same,first⟩ := firstVisit file head
    exact (h.silent silent.log silent.stack).link (copyable.sound fun u mem => by rw [all]; simp at mem ⊢; tauto)
      (copyable.unused all landed) landed before same first (FsWriter.linkPuts writer free run)

theorem imageRun (copyable : r.Copyable env w base) (writer : w ≠ .linux) (fresh : env.Fresh) (clock fuel : Nat) :
    (∀ t, r.run env w fuel (.newAt clock [] w base r.base) = (.ok (),t) → Emptied env t →
      ∃ disk, Disk.image (FsWriter.destroy env w t).2.log = some disk ∧
        (r.original w base).Shows w r.visits disk) ∧
    (r.Copies env w base fuel →
      ∃ t, r.run env w fuel (.newAt clock [] w base r.base) = (.ok (),t) ∧ Emptied env t) := by
  obtain ⟨ends,returns⟩ := runVisited copyable ((r.original w base).Depicted w) (.empty rfl rfl)
    (fun _ _ _ h silent => h.silent silent.log silent.stack)
    (fun _ _ _ _ _ all h visited => depictedVisit copyable writer fresh all h visited) fuel
  refine ⟨fun t run emptied => ?_,fun copies => ?_⟩
  · exact (ends t run).destroyed (copyable.sound fun _ mem => mem) writer emptied
  · obtain ⟨t,run⟩ := returns copies
    exact ⟨t,run,emptiedWorks copies.works t⟩

/- Every tree, every pair of formats: whatever the system answers, a copy that comes to its end
and whose writer stores what it has put off leaves the source on the disk; and where every call
succeeds it does come to its end. -/
theorem copyShown (copyable : r.Copyable env w base) (writer : w ≠ .linux) (fresh : env.Fresh) (fuel : Nat) :
    (∀ t, r.run env w fuel (.new w base r.base) = (.ok (),t) → Emptied env t →
      ∃ disk, Disk.image (FsWriter.destroy env w t).2.log = some disk ∧
        (r.original w base).Shows w r.visits disk) ∧
    (r.Copies env w base fuel → ∃ t, r.run env w fuel (.new w base r.base) = (.ok (),t) ∧ Emptied env t) :=
  imageRun copyable writer fresh 0 fuel

end WslReader

theorem refusedFirstCopyable : refusedFirst.Copyable plainFs .legacy targetBase where
  reader := by decide
  encoded := refusedFirstEncoded
  unmistaken v2 := absurd v2 (by decide)
  shaped v visited := by
    have all : refusedFirst.visits = [⟨[],wstr "home",true,twoNames 0x41ed⟩,
      ⟨[wstr "home"],wstr "x",false,threeNames⟩,⟨[],wstr "a",false,threeNames⟩,
      ⟨[],wstr "b",false,threeNames⟩] := rfl
    rw [all] at visited
    simp only [List.mem_cons,List.not_mem_nil,or_false] at visited
    have regular : refusedFirst.modeOf threeNames = some 0x81a4 := rfl
    have directory : refusedFirst.modeOf (twoNames 0x41ed) = some 0x41ed := rfl
    rcases visited with rfl | rfl | rfl | rfl <;> simp only [regular,directory] <;> decide
  oneFile u visited v visited' same := by
    rw [refusedFirstFiles visited same.files.1,refusedFirstFiles visited' same.files.2]
  shareable := refusedFirstShareable
  lists := plainWorks.lists

theorem plainFresh : plainFs.Fresh := fun _ _ => show (0 : UInt32) ≠ errorAlreadyExists by decide

theorem copyShownRefused :
    (∀ t, refusedFirst.run plainFs .legacy 3 (.new .legacy targetBase refusedFirst.base) = (.ok (),t) →
      WslReader.Emptied plainFs t →
      ∃ disk, Disk.image (FsWriter.destroy plainFs .legacy t).2.log = some disk ∧
        (refusedFirst.original .legacy targetBase).Shows .legacy refusedFirst.visits disk) ∧
    (refusedFirst.Copies plainFs .legacy targetBase 3 →
      ∃ t, refusedFirst.run plainFs .legacy 3 (.new .legacy targetBase refusedFirst.base) = (.ok (),t) ∧
        WslReader.Emptied plainFs t) :=
  WslReader.copyShown refusedFirstCopyable (by decide) plainFresh 3

end LxRunOffline
