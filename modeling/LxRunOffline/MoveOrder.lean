import LxRunOffline.MoveStores
import LxRunOffline.Reconfigure

/-! When a move by copying deletes its source. The order is that of the block in which the writer
lives: the deletion comes after the copy, and what the writer has put off comes after the deletion. -/
namespace LxRunOffline
open Program (Triple)

/- Everything that the writer has accepted is stored with its attributes, and nothing waits. -/
structure Secured (r : WslReader) (env : FsEnv) (w : Format) (old : List FsEvent) (s : CopyState) : Prop where
  waits : s.dirAttr = []
  stored : ∃ cut : List (Visit × List FsEvent), cut.map Prod.fst = r.visits ∧
    s.log = old ++ cut.flatMap Prod.snd ∧ ∀ x ∈ cut, r.Complete env w (r.base ++ x.1.path) x.1.info x.2

namespace Command
variable {upcase : WChar → WChar} {W : World} {version : UInt32} {source dir : Wstr} {s start t : Session upcase}
  {format : Format} {r : WslReader}

structure Deletes (W : World) (version : UInt32) (source dir : Wstr) (s start t : Session upcase)
    (format : Format) (r : WslReader) : Prop where
  selected : ∃ u, selectWriter W version dir s = (.ok format,u) ∧ selectReader W version source u = (.ok r,start)
  copied : runChecked W r format start = (.ok (),t)

theorem normalizeLeaves (W : World) (path : Wstr) :
    Program.Leaves (fun s : Session upcase => s.copy) (normalizePath W path) := by
  have asked : Program.Leaves (fun s : Session upcase => s.copy) (onReg (Reg.getFullPath W.reg path)) :=
    fun _ => rfl
  exact .bind (.bind asked fun full => .ite (.bind asked fun _ => .pure _) (.pure _)) fun _ => .pure _

theorem selectWriterSource (run : selectWriter W version dir s = (.ok format,t)) :
    format ≠ .linux ∧ (∃ base, t.copy.path = format.fresh base) ∧ t.copy.dirAttr = [] := by
  rw [selectWriter] at run
  cases known : Format.ofVersion version with
  | none =>
    rw [known] at run
    cases run
  | some found =>
    rw [known] at run
    dsimp only at run
    obtain ⟨base,_,-,run⟩ := Program.bindOkSource run
    obtain ⟨target,_,-,run⟩ := Program.bindOkSource run
    obtain ⟨_,x,-,run⟩ := Program.bindOkSource run
    obtain ⟨_,y,built,run⟩ := Program.bindOkSource run
    cases run
    cases built
    refine ⟨fun linux => ?_,⟨base,rfl⟩,rfl⟩
    subst linux
    unfold Format.ofVersion at known
    split at known
    · cases known
    split at known
    · cases known
    split at known <;> cases known

theorem selectReaderSource (run : selectReader W version source s = (.ok r,t)) :
    t.copy.path = s.copy.path ∧ t.copy.dirAttr = s.copy.dirAttr ∧ t.copy.data = r.base ∧
      ∃ time, r.tree = W.tree time r.base := by
  rw [selectReader] at run
  cases known : Format.ofVersion version with
  | none =>
    rw [known] at run
    cases run
  | some found =>
    rw [known] at run
    dsimp only at run
    obtain ⟨base,u,normal,run⟩ := Program.bindOkSource run
    obtain ⟨tree,x,asked,run⟩ := Program.bindOkSource run
    obtain ⟨_,y,begun,run⟩ := Program.bindOkSource run
    have same := normalizeLeaves W source s
    rw [normal] at same
    dsimp only at same
    cases run
    cases begun
    cases asked
    rw [← same]
    exact ⟨rfl,rfl,rfl,_,rfl⟩

namespace Deletes

theorem deletes (h : Deletes W version source dir s start t format r) : moveByCopy W version source dir s =
    withWriter W format (deleteDirectory W source) t := by
  obtain ⟨u,writer,reader⟩ := h.selected
  have body : (do
      let r ← selectReader W version source
      runChecked W r format
      deleteDirectory W source : Command upcase Unit) u = deleteDirectory W source t := by
    rw [Program.bindOk reader,Program.bindOk h.copied]
  rw [moveByCopy,Program.bindOk writer,withWriter,withWriter,Program.ensuring,Program.ensuring,body]

theorem writes (h : Deletes W version source dir s start t format r) :
    format ≠ .linux ∧ start.copy.path.reset = format.fresh start.copy.path.base ∧ start.copy.dirAttr = [] ∧
      start.copy.data = r.base := by
  obtain ⟨u,writer,reader⟩ := h.selected
  obtain ⟨wsl,⟨base,path⟩,stack⟩ := selectWriterSource writer
  obtain ⟨path',stack',data,-⟩ := selectReaderSource reader
  refine ⟨wsl,?_,stack'.trans stack,data⟩
  have fresh : (format.fresh base).reset = format.fresh base := FilePath.servedReset .fresh
  have own : (format.fresh base).base = base := by
    cases format with
    | linux => contradiction
    | v1 => rfl
    | v2 => rfl
    | legacy => rfl
  rw [path',path,fresh,own]

theorem moving (h : Deletes W version source dir s start t format r) (lists : W.fs.Lists) (proper : r.tree.Proper) :
    r.Moving W.fs format start.copy.path.base start.copy.log r.visits t.copy := by
  obtain ⟨wsl,fresh,stack,data⟩ := h.writes
  have copied : r.runChecked W.fs format W.fuel start.copy = (.ok (),t.copy) := by
    have whole := h.copied
    have outcome := congrArg Prod.fst whole
    have after := congrArg (fun x => x.2.copy) whole
    exact Prod.ext outcome after
  obtain ⟨_,u,checked,run⟩ := Program.bindOkSource copied
  have same : u = start.copy := by
    rw [FsWriter.checkPath,if_neg wsl] at checked
    obtain ⟨_,x,got,checked⟩ := Program.bindOkSource checked
    cases got
    split at checked
    · cases checked
    split at checked
    · cases checked
    · cases checked
      rfl
  subst same
  have ends := @WslReader.Sequence.runs r W.fs format _ _
    (@WslReader.Moving.sequence r W.fs format start.copy.path.base start.copy.log wsl lists) proper W.fuel
    (.inr fun _ _ _ _ => trivial) (fun _ => .inr fun _ _ _ _ => trivial) start.copy
    ⟨data,fresh,fun _ => by simp,fun _ => ⟨stack,[],rfl,by simp,by simp⟩,fun never => ?_⟩
  · rw [run] at ends
    exact ends
  · exact absurd (fun before v after split => by simp at split) never

end Deletes

/- The copy branch of `move` begins its deletion when everything is in place if and only if no
entry has attributes that the writer puts off. -/
theorem movedFirst (lists : W.fs.Lists) (deletes : Deletes W version source dir s start t format r)
    (proper : r.tree.Proper) :
    moveByCopy W version source dir s = withWriter W format (deleteDirectory W source) t ∧
      (Secured r W.fs format start.copy.log t.copy ↔
        r.AllPrompt format start.copy.path.base r.visits) := by
  have moving := deletes.moving lists proper
  refine ⟨deletes.deletes,fun secured => ?_,fun prompt => ?_⟩
  · by_contra waits
    exact moving.waits waits secured.waits
  · obtain ⟨stack,stored⟩ := moving.prompt prompt
    exact ⟨stack,stored⟩

end Command

def rootfsWorld : World := {plainWorld bareConfig with
  tree := fun _ _ => .dir rootfsName (twoNames 0x41ed) .nil .nil
  fuel := 3}

theorem rootfsProper : (Tree.dir rootfsName (twoNames 0x41ed) .nil .nil).Proper :=
  ⟨⟨by decide,by decide,by decide⟩,by decide,trivial,trivial⟩

def copyPart (W : World) (version : UInt32) (source dir : Wstr) : Command asciiUpcase Unit := do
  let format ← Command.selectWriter W version dir
  let r ← Command.selectReader W version source
  Command.runChecked W r format

theorem copyPartDeletes {W : World} {version : UInt32} {source dir : Wstr} {s t : Session asciiUpcase}
    (run : copyPart W version source dir s = (.ok (),t)) :
    ∃ start format r, Command.Deletes W version source dir s start t format r := by
  obtain ⟨format,u,writer,run⟩ := Program.bindOkSource run
  obtain ⟨r,start,reader,run⟩ := Program.bindOkSource run
  exact ⟨start,format,r,⟨u,writer,reader⟩,run⟩

theorem rootfsCopied : (copyPart rootfsWorld 2 (wstr "C:\\s") (wstr "D:\\t") oneWsl2).1 = .ok () := by
  decide +kernel

theorem movedFirstRootfs : ∃ (start t : Session asciiUpcase) (format : Format) (r : WslReader),
    Command.moveByCopy rootfsWorld 2 (wstr "C:\\s") (wstr "D:\\t") oneWsl2 =
        Command.withWriter rootfsWorld format (Command.deleteDirectory rootfsWorld (wstr "C:\\s")) t ∧
      (Secured r rootfsWorld.fs format start.copy.log t.copy ↔
        r.AllPrompt format start.copy.path.base r.visits) := by
  obtain ⟨start,format,r,deletes⟩ := copyPartDeletes (Program.returnedPair rootfsCopied)
  obtain ⟨u,-,reader⟩ := deletes.selected
  obtain ⟨-,-,-,time,tree⟩ := Command.selectReaderSource reader
  exact ⟨start,_,format,r,Command.movedFirst plainWorks.lists deletes (tree ▸ rootfsProper)⟩

/- The attributes of the directory are still on the stack when the deletion begins. -/
theorem rootfsWaits : ¬ ∀ (W : World) (version : UInt32) (source dir : Wstr) (s start t : Session asciiUpcase)
    (format : Format) (r : WslReader), W.fs.Lists → r.tree.Proper →
    Command.Deletes W version source dir s start t format r → Secured r W.fs format start.copy.log t.copy := by
  intro always
  obtain ⟨start,format,r,deletes⟩ := copyPartDeletes (Program.returnedPair rootfsCopied)
  obtain ⟨u,-,reader⟩ := deletes.selected
  obtain ⟨-,-,-,time,tree⟩ := Command.selectReaderSource reader
  have secured := always _ _ _ _ _ _ _ _ _ plainWorks.lists (tree ▸ rootfsProper) deletes
  have waits : (copyPart rootfsWorld 2 (wstr "C:\\s") (wstr "D:\\t") oneWsl2).2.copy.dirAttr.isEmpty = false := by
    decide +kernel
  rw [secured.waits] at waits
  cases waits

end LxRunOffline
