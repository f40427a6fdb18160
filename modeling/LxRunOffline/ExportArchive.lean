import LxRunOffline.Advances
import LxRunOffline.Immediate
import LxRunOffline.Reconfigure
import LxRunOffline.Walk

/-! What libarchive has answered by the time an export is over. Every call that writes the archive
is checked for a failure, but for the one with which its handle is freed; how many bytes it has
taken nobody asks. -/
namespace LxRunOffline
open Program (Triple Moves Leaves)

def ArchiveStatus.Succeeds (stat : ArchiveStatus) : Prop := ∀ text, stat ≠ .failed text

def ArchiveAnswer.Succeeds : ArchiveAnswer → Prop
  | .status _ stat => stat.Succeeds
  | .data _ taken => ∀ text, taken ≠ .failed text

/- All that was handed over has been written. -/
def ArchiveAnswer.Written : ArchiveAnswer → Prop
  | .status _ stat => stat.Succeeds
  | .data size taken => taken = .took size

def Unfailed (answers : List ArchiveAnswer) : Prop := ∀ a ∈ answers, a.Succeeds

theorem Unfailed.snoc {answers : List ArchiveAnswer} {a : ArchiveAnswer} (before : Unfailed answers)
    (last : a.Succeeds) : Unfailed (answers ++ [a]) := by
  intro b mem
  rcases List.mem_append.mp mem with early | late
  · exact before b early
  · exact List.mem_singleton.mp late ▸ last

theorem ArchiveAnswer.writtenFull {a : ArchiveAnswer} (fine : a.Succeeds) :
    a.Written ↔ ∀ size count, a = .data size (.took count) → count = size := by
  cases a with
  | status c stat => exact iff_of_true fine nofun
  | data size taken =>
    cases taken with
    | failed text => exact absurd rfl (fine text)
    | took count =>
      simp only [Written,DataAnswer.took.injEq,ArchiveAnswer.data.injEq]
      exact ⟨fun full _ _ same => by obtain ⟨rfl,rfl⟩ := same; exact full,fun full => full _ _ ⟨rfl,rfl⟩⟩

def Checked {α : Type} (x : Copy α) : Prop :=
  Triple (fun s => Unfailed s.answers) x (fun _ s => Unfailed s.answers) fun _ _ => True

namespace Checked
variable {α β : Type} {x : Copy α} {env : FsEnv}

theorem pure (a : α) : Checked (Pure.pure a : Copy α) := fun _ h => h

theorem raise (e : Stop) : Checked (Program.raise e : Copy α) := fun _ _ => trivial

theorem bind {f : α → Copy β} (hx : Checked x) (hf : ∀ a, Checked (f a)) : Checked (x >>= f) :=
  Triple.bind hx hf

theorem get {f : CopyState → Copy α} (h : ∀ s, Checked (f s)) : Checked (Program.get >>= f) :=
  Triple.get fun s hs => (h s).weaken (fun _ same => same ▸ hs) (fun _ _ h => h) fun _ _ h => h

theorem ite {c : Prop} [Decidable c] {y : Copy α} (hx : Checked x) (hy : Checked y) :
    Checked (if c then x else y) := Triple.ite (fun _ => hx) fun _ => hy

theorem when {c : Prop} [Decidable c] {x : Copy Unit} (h : Checked x) : Checked (Program.when c x) :=
  ite h (pure ())

theorem silent (h : ∀ s, (x s).2.answers = s.answers) : Checked x := by
  intro s written
  have same := h s
  cases run : x s with
  | mk outcome t =>
    rw [run] at same
    cases outcome with
    | ok a =>
      dsimp only at same
      exact show Unfailed t.answers from same ▸ written
    | error e => trivial

theorem ticked (h : Moves Ticked x) : Checked x := by
  refine silent fun s => ?_
  obtain ⟨clock,same⟩ := h.final s
  rw [same]

theorem status {c : FsCall} {f : UInt32 → Copy α} (h : ∀ code, Checked (f code)) :
    Checked (Fs.call env c >>= f) := bind (silent fun _ => rfl) h

theorem note (e : FsEvent) : Checked (FsWriter.note e) := silent fun _ => rfl

theorem answered {c : ArchiveAnswer} {x : Copy α} (throws : ¬ c.Succeeds → ∀ s, ∃ e t, x s = (.error e,t))
    (rest : c.Succeeds → Checked x) : Checked (FsWriter.answer c >>= fun _ => x) := by
  intro s written
  have noted : FsWriter.answer c s = (.ok (),{s with answers := s.answers ++ [c]}) := rfl
  rw [Program.bindOk noted]
  by_cases fine : c.Succeeds
  · exact rest fine _ (written.snoc fine)
  · obtain ⟨e,t,run⟩ := throws fine {s with answers := s.answers ++ [c]}
    rw [run]
    trivial

theorem failure {stat : ArchiveStatus} (fails : ¬ stat.Succeeds) : ∃ text, stat = .failed text := by
  simpa [ArchiveStatus.Succeeds] using fails

theorem checked {c : FsCall} {f : Bool → Copy α} (rest : ∀ more, Checked (f more)) :
    Checked (FsWriter.askLibrary env c >>= fun stat => Fs.checkArchive stat >>= f) := by
  have looked (stat : ArchiveStatus) : Checked (FsWriter.answer (.status c stat) >>= fun _ =>
      Fs.checkArchive stat >>= f) := by
    refine answered (fun fails s => ?_) fun _ => bind (silent fun s => ?_) rest
    · obtain ⟨text,rfl⟩ := failure fails
      exact ⟨_,_,rfl⟩
    · cases stat <;> rfl
  have asked : Checked (Fs.ask fun time => env.archive time c) := silent fun _ => rfl
  exact asked.bind looked

theorem ticks (h : Fs.Ticks x) : Checked x :=
  (h.keeps (fun s => Unfailed s.answers) fun _ h => h).weaken (fun _ h => h) (fun _ _ h => h)
    fun _ _ _ => trivial

end Checked
namespace ArchiveWriter
variable (env : FsEnv)

theorem openArchiveChecked (path : Wstr) : Checked (openArchive env path) :=
  .checked fun _ => .checked fun _ => .checked fun _ => .pure ()

theorem toUtf8Checked (text : Wstr) : Checked (FsWriter.toUtf8 env text) :=
  .status fun _ => .ite (.raise _) (.pure ())

theorem writeHeaderChecked (path : Wstr) (e : FsEvent) : Checked (FsWriter.writeHeader env path e) :=
  .bind (.note e) fun _ => .checked fun _ => .pure ()

theorem writeNewFileChecked (attr : Option FileAttr) : Checked (writeNewFile env attr) := by
  have entry (a : FileAttr) : Checked (writeEntry env a) :=
    .get fun s => .ite (.pure false) <| .bind (toUtf8Checked env _) fun _ =>
      .bind (writeHeaderChecked env _ _) fun _ => .bind (.note _) fun _ => .pure true
  have check : Checked (FsWriter.checkAttr attr false false) :=
    .ite (.pure true) <| .bind (.silent fun _ => rfl) fun _ => .pure false
  refine .bind check fun fine => ?_
  split
  · exact entry _
  · exact .pure false

theorem writeFileDataChecked (bytes : Bytes) : Checked (writeFileData env bytes) := by
  refine .ite (.pure ()) <| .bind (.silent fun _ => rfl) fun taken => .answered (fun fails s => ?_) fun _ => ?_
  · cases taken with
    | failed text => exact ⟨_,_,rfl⟩
    | took count => exact absurd (fun _ => nofun) fails
  · cases taken with
    | failed text => exact .raise _
    | took count => exact .note _

theorem writeHardLinkChecked : Checked (writeHardLink env) := by
  have check : Checked FsWriter.checkTargetIgnored :=
    .get fun s => .ite (.bind (.silent fun _ => rfl) fun _ => .pure false) (.pure true)
  have linked : Checked (linkEntry env) :=
    .get fun s => .bind (toUtf8Checked env _) fun _ => .bind (toUtf8Checked env _) fun _ =>
      writeHeaderChecked env _ _
  exact .bind check fun _ => .ite linked (.pure ())

end ArchiveWriter
namespace WslReader
variable (r : WslReader) (env : FsEnv)

theorem copyDataChecked (path : Wstr) (reads : List Bytes) :
    Checked (copyData env .linux path reads) := by
  induction reads with
  | nil =>
    exact .status fun _ => .ite (.raise _) (ArchiveWriter.writeFileDataChecked env [])
  | cons piece rest ih =>
    exact .status fun _ => .ite (.raise _) <|
      .bind (ArchiveWriter.writeFileDataChecked env piece) fun _ => .when ih

theorem storeFileChecked (path : Wstr) (info : NodeInfo) (attr : Option FileAttr) :
    Checked (storeFile env .linux path info attr) :=
  .bind (ArchiveWriter.writeNewFileChecked env attr) fun _ =>
    .ite (.when (copyDataChecked env path info.reads)) (.pure ())

theorem copyFileChecked (path : Wstr) (info : NodeInfo) : Checked (r.copyFile env .linux path info) := by
  refine .bind (.ticked (r.readAttrTicked env path info)) fun attr =>
    .ite (.bind (.ticked (r.readSymlinkTicked env path info)) fun target => ?_)
      (storeFileChecked env path info attr)
  split
  · exact storeFileChecked env path info _
  · exact .pure ()

theorem visitFileChecked (path : Wstr) (info : NodeInfo) : Checked (r.visitFile env .linux path info) := by
  have linked (first : FilePath) : Checked (linkFile env .linux first) :=
    .bind (.silent fun _ => rfl) fun _ => .ite (ArchiveWriter.writeHardLinkChecked env) (.pure ())
  refine .status fun _ => .ite (.raise _) <| .ite (.get fun s => ?_) (r.copyFileChecked env path info)
  split
  · exact linked _
  · exact .bind (.silent fun _ => rfl) fun _ => r.copyFileChecked env path info

theorem visitDirChecked (path : Wstr) (info : NodeInfo) : Checked (r.visitDir env .linux path info) :=
  .bind (.ticked (r.readAttrTicked env path info)) fun attr =>
    .bind (ArchiveWriter.writeNewFileChecked env attr) fun _ => .pure ()

theorem visitChecked (t : EnumDirType) : Checked (r.visit env .linux t) := by
  have node (path : Wstr) (dir : Bool) : Checked (r.visitNode env .linux path dir) :=
    .bind (.silent fun _ => rfl) fun _ => .ite (.bind (.ticked (r.openNodeTicked env path dir)) fun info =>
      .ite (r.visitDirChecked env path info) (r.visitFileChecked env path info)) (.pure ())
  exact .ite (.pure ()) <| .get fun s => .ite (.silent fun _ => rfl) (node _ _)

theorem walkChecked : (r.api env).Steady (r.visit env .linux) (fun s => Unfailed s.answers)
    fun _ _ => True where
  fuel _ _ := trivial
  set _ _ h := h
  opened path := Checked.ticks (r.openListedTicks env path)
  first path := Checked.ticks (r.findFirstTicks env path)
  next path := Checked.ticks (Fs.Ticks.findNext env path)
  acts t := r.visitChecked env t

theorem runChecks (fuel : Nat) : Checked (r.run env .linux fuel) :=
  .bind (.silent fun _ => rfl) fun _ => (r.walkChecked env).walk fuel _

end WslReader
namespace Command
variable {upcase : WChar → WChar} {W : World} {α β : Type}

def Checked (x : Command upcase α) : Prop :=
  Triple (fun s => Unfailed s.copy.answers) x (fun _ s => Unfailed s.copy.answers) fun _ _ => True

theorem onCopyChecked {x : Copy α} (h : LxRunOffline.Checked x) :
    Checked (onCopy x : Command upcase α) :=
  Triple.zoom fun _ unfailed => h.weaken (fun _ same => same ▸ unfailed) (fun _ _ h => h) fun _ _ h => h

theorem asideChecked {x : Command upcase α} (h : Leaves (fun s => s.copy.answers) x) : Checked x :=
  (h.keeps Unfailed).weaken (fun _ h => h) (fun _ _ h => h) fun _ _ _ => trivial

theorem onRegChecked (x : RegProgram upcase α) : Checked (onReg x : Command upcase α) :=
  asideChecked fun _ => rfl

theorem selectReaderChecked (version : UInt32) (path : Wstr) :
    Checked (selectReader W version path : Command upcase WslReader) := by
  have long : Checked (longPath W path : Command upcase Wstr) :=
    Triple.bind (onRegChecked _) fun _ => Triple.ite
      (fun _ => Triple.bind (onRegChecked _) fun _ _ h => h) fun _ _ h => h
  have base : Checked (normalizePath W path : Command upcase Wstr) :=
    Triple.bind long fun _ _ h => h
  have told (base : Wstr) : Checked (onCopy (Program.modify fun s => {s with data := base}) :
      Command upcase Unit) := onCopyChecked (.silent fun _ => rfl)
  unfold selectReader
  split
  · exact fun _ _ => trivial
  · exact Triple.bind base fun _ => Triple.bind (asideChecked fun _ => rfl) fun _ =>
      Triple.bind (told _) fun _ _ h => h

theorem saveFileChecked (conf : RegConfig) (path : Wstr) :
    Checked (saveFile W conf path : Command upcase ConfigElement) := by
  refine Triple.bind (asideChecked fun _ => rfl) fun _ => Triple.bind (asideChecked fun _ => rfl)
    fun _ => asideChecked fun s => ?_
  cases conf.saveFile W.reread path _ _ <;> rfl

theorem exportChecked (conf : RegConfig) (name file : Wstr) : Checked ((do
    onCopy (ArchiveWriter.openArchive W.fs file)
    let version ← onReg (Reg.getDistroVersion W.reg name)
    let source ← onReg (Reg.getDistroDir W.reg name)
    let r ← selectReader W version source
    onCopy (r.run W.fs .linux W.fuel)
    let _ ← saveFile W conf (file ++ wstr ".xml")
    pure ()) : Command upcase Unit) :=
  Triple.bind (onCopyChecked (ArchiveWriter.openArchiveChecked W.fs file)) fun _ =>
    Triple.bind (onRegChecked _) fun _ => Triple.bind (onRegChecked _) fun _ =>
      Triple.bind (selectReaderChecked _ _) fun r =>
        Triple.bind (onCopyChecked (r.runChecks W.fs W.fuel)) fun _ =>
          Triple.bind (saveFileChecked conf _) fun _ _ h => h

theorem destroyedAnswers {x : Command upcase Unit} (checked : Checked x) {s t : Session upcase}
    (fresh : s.copy.answers = []) (run : withWriter W .linux x s = (.ok (),t)) :
    ∃ before, Unfailed before ∧ t.copy.answers = before ++ [.status .freeArchive W.fs.flush] := by
  have empty : Unfailed s.copy.answers := by
    rw [fresh]
    exact fun _ mem => absurd mem List.not_mem_nil
  have unfailed := checked s empty
  obtain ⟨u,first,rfl⟩ := Program.ensuringSource run
  rw [first] at unfailed
  exact ⟨u.copy.answers,unfailed,rfl⟩

end Command

/- An export that ends well has written everything if every call for data has taken all of them and
the last call has succeeded. -/
theorem exportWritten {upcase : WChar → WChar} {W : World} {name file : Wstr} {s t : Session upcase}
    (run : Command.exportDistro W name file s = (.ok (),t)) :
    (∀ a ∈ t.copy.answers, a.Written) ↔
      (∀ size count, .data size (.took count) ∈ t.copy.answers → count = size) ∧ W.fs.flush.Succeeds := by
  obtain ⟨conf,u,loaded,run⟩ := Program.bindOkSource run
  split at run
  · cases run
  · obtain ⟨_,v,built,run⟩ := Program.bindOkSource run
    cases built
    obtain ⟨before,unfailed,answers⟩ :=
      Command.destroyedAnswers (Command.exportChecked conf name file) rfl run
    rw [answers]
    constructor
    · intro all
      refine ⟨fun size count mem => ?_,all (.status .freeArchive W.fs.flush) (by simp)⟩
      exact DataAnswer.took.inj (all _ mem)
    · rintro ⟨full,last⟩ a mem
      have fine := unfailed.snoc (a := .status .freeArchive W.fs.flush) last
      exact (ArchiveAnswer.writtenFull (fine a mem)).mpr fun size count same => full size count (same ▸ mem)

def wsl1Ubuntu : RegValues :=
  Registry.put vnFlags (some (.dword 7)) (Registry.put vnVersion (some (.dword 2))
    (Registry.put vnDir (some (.sz (wstr "C:\\u"))) wsl2Ubuntu))
def oneWsl1 : Session asciiUpcase := {oneWsl2 with
  reg := ⟨0,0,⟨fun _ => none,
    FoldedTable.empty.insert (wstr "\x7b00000000-0000-0000-0000-000000000000\x7d") wsl1Ubuntu⟩⟩}

def flushWorld (stat : ArchiveStatus) : World := {plainWorld bareConfig with
  fs := {plainFs with flush := stat}
  tree := fun _ _ => .dir (wstr "rootfs") (twoNames 0x41ed) (.file (wstr "f") (twoNames 0x81a4) .nil) .nil
  fuel := 4}

def exportRun (stat : ArchiveStatus) : Session asciiUpcase :=
  (Command.exportDistro (flushWorld stat) ubuntu.units (wstr "u.tar.gz") oneWsl1).2

theorem exportWrittenOk :
    (∀ a ∈ (exportRun .ok).copy.answers, a.Written) ↔
      (∀ size count, .data size (.took count) ∈ (exportRun .ok).copy.answers → count = size) ∧
        (flushWorld .ok).fs.flush.Succeeds :=
  @exportWritten _ _ ubuntu.units (wstr "u.tar.gz") oneWsl1 _
    (Program.returnedPair (by decide +kernel))

/- An archive whose end could not be written is reported as good. -/
theorem truncatedExport : ¬ ∀ (W : World) (name file : Wstr) (s t : Session asciiUpcase),
    Command.exportDistro W name file s = (.ok (),t) → ∀ a ∈ t.copy.answers, a.Written := by
  intro always
  have all := always (flushWorld (.failed [])) ubuntu.units (wstr "u.tar.gz") oneWsl1
    (exportRun (.failed [])) (Program.returnedPair (by decide +kernel))
  have last : .status .freeArchive (.failed []) ∈ (exportRun (.failed [])).copy.answers := by
    decide +kernel
  exact all _ last [] rfl

end LxRunOffline
