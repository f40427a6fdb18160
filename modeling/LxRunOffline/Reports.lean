import LxRunOffline.CommandErrors
import LxRunOffline.RejectedRuns

/-! The errors that the program reports. Whoever reports one formats it, and outside of the try block
of `wmain` nobody catches what the format throws. -/
namespace LxRunOffline
variable {upcase : WChar → WChar}

/- The errors that are only logged. Each is thrown by a block whose handler formats it, and the block
may be run in any state. -/
inductive Logged (upcase : WChar → WChar) (W : World) : LroError → Prop
  | config {conf : RegConfig} {path : Wstr} {s : Session upcase} {l : LroError}
      (thrown : (Command.loadFile W conf path s).1 = .error (.lro l)) : Logged upcase W l
  | default {s : RegState upcase} {l : LroError}
      (thrown : (Reg.getDefaultDistro W.reg s).1 = .error (.lro l)) : Logged upcase W l
  | setDefault {name : Wstr} {s : RegState upcase} {l : LroError}
      (thrown : (Reg.setDefaultDistro W.reg name s).1 = .error (.lro l)) : Logged upcase W l
  | chosen {s : RegState upcase} {l : LroError} (thrown : ((do
      let ids ← Reg.listDistroId W.reg
      match ids with
      | [] => Reg.deleteValue W.reg vnDefaultDistro
      | id :: _ => Reg.setSz W.reg [] vnDefaultDistro id : RegProgram upcase Unit) s).1 =
        .error (.lro l)) : Logged upcase W l
  | directory (path : Wstr) : Logged upcase W (.fromWin32 .errCreateDir [path] errorAlreadyExists)
  | drained {dirs : List (Wstr × FileAttr)} {s : CopyState} {l : LroError}
      (thrown : (WslV2Writer.drain W.fs dirs s).1 = .error (.lro l)) : Logged upcase W l

def Reported (W : World) (action : Action) (s : Session upcase) (l : LroError) : Prop :=
  (Command.wmain W action s).1 = .error (.lro l) ∨ Logged upcase W l

/- The calls succeed whose errors lack an argument: `GetVersionEx`, `NtQueryEaFile` in a reader and
for the `rootfs` of a directory that is registered, and `GetFileSizeEx` for an archive. -/
def Action.Answered (W : World) (action : Action) : Prop :=
  W.fs.Grants .getVersion ∧ match action with
    | .install _ _ file _ _ _ _ => W.fs.Grants (.fileSize file)
    | .register .. => ∀ base name, W.fs.Grants (.queryEa (base ++ wstr "rootfs\\") name)
    | .move .. => ∀ path name, W.fs.Grants (.queryEa path name)
    | .duplicate .. => ∀ path name, W.fs.Grants (.queryEa path name)
    | .exportDistro .. => ∀ path name, W.fs.Grants (.queryEa path name)
    | _ => True

/- The run is one of a system in which these calls succeed: only the calls that are made count. -/
def Action.Spared (W : World) (action : Action) (s : Session upcase) : Prop :=
  ∃ fs, action.Answered {W with fs := fs} ∧ Command.wmain {W with fs := fs} action s = Command.wmain W action s

namespace Command
variable (W : World)

theorem installRaises (version : W.fs.Grants .getVersion) {file : Wstr}
    (sized : W.fs.Grants (.fileSize file)) (name dir root confPath : Wstr) (ver : Option UInt32)
    (shortcut : Bool) : Raises reportedErrors
      (installLatest W name dir file root confPath ver shortcut : Command upcase Unit) := by
  have unpacked (format : Format) : Raises reportedErrors (withWriter W format (do
      extract W file root format
      Program.when (shortcut = true) (desktopShortcut W name)) : Command upcase Unit) :=
    .ensuring (.bind (unpackRaises W sized root format) fun _ => .when fun _ =>
      desktopShortcutRaises W (reportedMem rfl) (reportedMem rfl) name)
  exact .bind (Fs.getWinBuildRaises W.fs (.inr version)) fun _ =>
    .bind (installConfigRaises W file confPath) fun conf => .bind (registerRaises W name dir _) fun _ =>
      .bind (configureRaises W conf name _) fun _ => .bind (selectWriterRaises W _ dir) unpacked

theorem registerActionRaises
    (queried : ∀ base name, W.fs.Grants (.queryEa (base ++ wstr "rootfs\\") name))
    (name dir confPath : Wstr) :
    Raises reportedErrors (register W name dir confPath : Command upcase Unit) := by
  have wsl2 : Raises reportedErrors (detectWsl2 W dir : Command upcase Bool) :=
    .bind (normalRaises W dir) fun _ => .catchLro (.bind (Fs.openFileRaises W.fs (reportedMem rfl) _)
      fun _ => .pure _) fun e listed => .ite (fun _ => .pure _) fun _ => .lro e listed
  have detected : Raises reportedErrors (detectVersion W dir : Command upcase UInt32) :=
    .bind (normalRaises W dir) fun p1 => .bind (normalRaises W dir) fun p2 => .bind (.ask _) fun disk =>
      Fs.probeVersionRaises W.fs disk dir _ (queried p1)
  have stored (isWsl2 : Bool) (conf : RegConfig) : Raises reportedErrors (do
      let version ← if isWsl2 then pure 2 else detectVersion W dir
      onReg (Reg.registerDistro W.reg name dir version)
      onReg (Reg.configureDistro W.reg conf name configAll) : Command upcase Unit) := by
    have known (version : UInt32) : Raises reportedErrors (do
        onReg (Reg.registerDistro W.reg name dir version)
        onReg (Reg.configureDistro W.reg conf name configAll) : Command upcase Unit) :=
      .bind (registerRaises W name dir version) fun _ => configureRaises W conf name _
    exact .ite (fun _ => .bind (.pure 2) known) fun _ => .bind detected known
  exact .bind wsl2 fun isWsl2 => .ite (fun _ => .bind (loadFileRaises W _ _) (stored isWsl2))
    fun _ => .bind (.pure _) (stored isWsl2)

theorem moveRaises (version : W.fs.Grants .getVersion)
    (queried : ∀ path name, W.fs.Grants (.queryEa path name)) (name dir : Wstr) :
    Raises reportedErrors (move W name dir : Command upcase Unit) := by
  have copied (ver : UInt32) (source : Wstr) :
      Raises reportedErrors (moveByCopy W ver source dir : Command upcase Unit) :=
    .bind (selectWriterRaises W ver dir) fun format => .ensuring
      (.bind (selectReaderRaises W ver source) fun r =>
        .bind (copyRaises W version queried r format).2 fun _ => deleteRaises W version source)
  have set : Raises reportedErrors (onReg (Reg.setDistroDir W.reg name dir) : Command upcase Unit) :=
    onRegRaises (Reg.setDistroDirRaises W.reg name dir)
  exact .bind (checkRunningRaises W name) fun _ => .bind (dirRaises W name) fun source =>
    .bind (.ask _) fun _ => .ite (fun _ => set) fun _ => .bind (versionRaises W name) fun ver =>
      .bind (copied ver source) fun _ => set

theorem duplicateRaises (version : W.fs.Grants .getVersion)
    (queried : ∀ path name, W.fs.Grants (.queryEa path name))
    (name newName dir confPath : Wstr) (ver : UInt32) :
    Raises reportedErrors (duplicate W name newName dir confPath ver : Command upcase Unit) := by
  have config : Raises reportedErrors
      (copiedConfig W name confPath : Command upcase (RegConfig × Bool)) :=
    .bind (getConfigRaises W name _) fun conf => .ite
      (fun _ => .bind (loadFileRaises W conf confPath) fun _ => .pure _)
      fun _ => .bind (.pure conf) fun _ => .pure _
  refine .bind config fun got => .ite (fun _ => .lro _ (reportedMem rfl)) fun _ =>
    .bind (versionRaises W name) fun old => .bind (registerRaises W newName dir _) fun _ =>
      .bind (configureRaises W got.1 newName _) fun _ => .bind (selectWriterRaises W _ dir) fun format => ?_
  exact .ensuring (.bind (dirRaises W name) fun source => .bind (selectReaderRaises W old source)
    fun r => (copyRaises W version queried r format).2)

theorem exportRaises (version : W.fs.Grants .getVersion)
    (queried : ∀ path name, W.fs.Grants (.queryEa path name)) (name file : Wstr) :
    Raises reportedErrors (exportDistro W name file : Command upcase Unit) := by
  have checked (stat : ArchiveStatus) : Raises reportedErrors (Fs.checkArchive stat : Copy Bool) :=
    Fs.checkArchiveRaises (reportedMem rfl) stat
  have opened : Raises reportedErrors (ArchiveWriter.openArchive W.fs file) :=
    .bind (FsWriter.askLibraryRaises W.fs _) fun _ => .bind (checked _) fun _ =>
      .bind (FsWriter.askLibraryRaises W.fs _) fun _ => .bind (checked _) fun _ =>
        .bind (FsWriter.askLibraryRaises W.fs _) fun _ => .bind (checked _) fun _ => .pure ()
  refine .bind (getConfigRaises W name _) fun conf => .ite (fun _ => .lro _ (reportedMem rfl)) fun _ =>
    .bind (.zoom (.modify _)) fun _ => .ensuring (.bind (.zoom opened) fun _ =>
      .bind (versionRaises W name) fun ver => .bind (dirRaises W name) fun source => ?_)
  exact .bind (selectReaderRaises W ver source) fun r =>
    .bind (copyRaises W version queried r .linux).1 fun _ => .bind (saveFileRaises W conf _) fun _ => .pure ()

theorem addEnvRaises (name env : Wstr) (force : Bool) :
    Raises reportedErrors (addEnv W name env force : Command upcase Unit) := by
  unfold addEnv
  split
  · exact .lro _ (reportedMem rfl)
  · refine .bind (getConfigRaises W name configEnv) fun conf => ?_
    split
    · exact configureRaises W _ name _
    · exact .ite (fun _ => configureRaises W _ name _) fun _ => .lro _ (reportedMem rfl)

theorem removeEnvRaises (name envName : Wstr) :
    Raises reportedErrors (removeEnv W name envName : Command upcase Unit) :=
  .bind (getConfigRaises W name configEnv) fun _ => .ite (fun _ => configureRaises W _ name _)
    fun _ => .lro _ (reportedMem rfl)

theorem setFlagsRaises (name : Wstr) (flags : UInt32) :
    Raises reportedErrors (setFlags W name flags : Command upcase Unit) := by
  refine .bind (getConfigRaises W name configFlags) fun _ => ?_
  rw [RegConfig.setFlags]
  split
  · rename_i e failed
    split at failed
    · cases failed
      exact .lro _ (reportedMem rfl)
    · cases failed
  · exact configureRaises W _ name _

theorem performRaises {action : Action} (answered : action.Answered W) :
    Raises reportedErrors (perform W action : Command upcase Unit) := by
  obtain ⟨version,answered⟩ := answered
  cases action with
  | none => exact .lro _ (reportedMem rfl)
  | invalid action => exact .lro _ (reportedMem rfl)
  | unparsed installing => exact .when fun _ => printRaises (Fs.getWinBuildRaises W.fs (.inr version))
  | version => exact .pure ()
  | list => exact printRaises (onRegRaises (Reg.listDistrosRaises W.reg))
  | getDefault => exact printRaises (onRegRaises (Reg.getDefaultDistroRaises W.reg))
  | setDefault name => exact onRegRaises (Reg.setDefaultDistroRaises W.reg name)
  | install name dir file root confPath ver shortcut =>
    exact installRaises W version answered name dir root confPath ver shortcut
  | uninstall name =>
    exact .bind (checkRunningRaises W name) fun _ => .bind (dirRaises W name) fun dir =>
      .bind (onRegRaises (Reg.unregisterDistroRaises W.reg name)) fun _ => deleteRaises W version dir
  | register name dir confPath => exact registerActionRaises W answered name dir confPath
  | unregister name => exact onRegRaises (Reg.unregisterDistroRaises W.reg name)
  | move name dir => exact moveRaises W version answered name dir
  | duplicate name newName dir confPath ver =>
    exact duplicateRaises W version answered name newName dir confPath ver
  | exportDistro name file => exact exportRaises W version answered name file
  | run name =>
    exact .bind (.ask _) fun _ => .ite (fun _ => .lro _ (reportedMem rfl)) fun _ => .bind (.ask _)
      fun _ => .ite (fun _ => .lro _ (reportedMem rfl)) fun _ => .pure ()
  | getDir name => exact printRaises (dirRaises W name)
  | getVersion name => exact printRaises (versionRaises W name)
  | getEnv name => exact printRaises (getConfigRaises W name _)
  | setEnv name env => exact configureRaises W _ name _
  | addEnv name env force => exact addEnvRaises W name env force
  | removeEnv name envName => exact removeEnvRaises W name envName
  | getUid name => exact printRaises (getConfigRaises W name _)
  | setUid name uid => exact configureRaises W _ name _
  | getKernelCmd name => exact printRaises (getConfigRaises W name _)
  | setKernelCmd name cmd => exact configureRaises W _ name _
  | getFlags name => exact printRaises (getConfigRaises W name _)
  | setFlags name flags => exact setFlagsRaises W name flags
  | shortcut filePath iconPath =>
    exact createShortcutRaises W (reportedMem rfl) (reportedMem rfl) filePath iconPath
  | exportConfig name file =>
    exact .bind (getConfigRaises W name _) fun conf => printRaises (saveFileRaises W conf file)
  | importConfig name file =>
    exact .bind (loadFileRaises W _ file) fun conf => configureRaises W conf name _
  | summary name =>
    exact .bind (getConfigRaises W name _) fun _ => .bind (printRaises (versionRaises W name)) fun _ =>
      printRaises (dirRaises W name)

theorem wmainRaises {action : Action} (answered : action.Answered W) :
    Raises reportedErrors (wmain W action : Command upcase Unit) :=
  .bind (Fs.getWinBuildRaises W.fs (.inr answered.1)) fun _ =>
    .ite (fun _ => .lro _ (reportedMem rfl)) fun _ => performRaises W answered

end Command

theorem Logged.listed {W : World} {l : LroError} (logged : Logged upcase W l) :
    (l.msgCode,l.msgArgs.length) ∈ reportedErrors := by
  cases logged with
  | config thrown => exact (Command.loadFileRaises W _ _).listed thrown
  | default thrown => exact (Reg.getDefaultDistroRaises W.reg).listed thrown
  | setDefault thrown => exact (Reg.setDefaultDistroRaises W.reg _).listed thrown
  | chosen thrown => exact (Reg.chooseDefaultRaises W.reg).listed thrown
  | directory path => exact reportedMem rfl
  | drained thrown => exact (WslV2Writer.drainRaises W.fs writerReported _).listed thrown

theorem Reported.listed {W : World} {action : Action} {s : Session upcase} (spared : action.Spared W s) {l : LroError}
    (reported : Reported W action s l) : (l.msgCode,l.msgArgs.length) ∈ reportedErrors := by
  obtain ⟨fs,answered,same⟩ := spared
  rcases reported with caught | logged
  · exact (Command.wmainRaises {W with fs := fs} answered).listed (same ▸ caught)
  · exact logged.listed

/- An error that is reported can be formatted, for it has an argument for every placeholder. Only the
message about `GetVersionEx` never has its argument, and no action comes before that call. -/
theorem reportedFormats {W : World} {action : Action} {s : Session upcase} :
    (action.Spared W s → ∀ l, Reported W action s l →
      l.msgArgs.length = l.msgCode.placeholders ∧ l.Formats) ∧
    (W.fs.status s.copy.clock .getVersion ≠ 0 → ∃ l, Reported W action s l ∧ ¬ l.Formats) := by
  refine ⟨fun spared l reported => ?_,fun failed => ⟨.fromOther .errGetVersion [],.inl ?_,fun formats => ?_⟩⟩
  · have counted := reportedPlaceholders _ (reported.listed spared)
    exact ⟨counted,LroError.formatsIff.mpr counted⟩
  · simp only [Command.wmain,Fs.getWinBuild,Fs.call,Fs.ask,Program.bindRun]
    rw [if_pos (show W.fs.status (Clocked.clock s) .getVersion ≠ 0 from failed)]
    rfl
  · have one : 1 = ErrMsg.errGetVersion.placeholders := ErrMsg.placeholdersOf (by decide)
    cases (LroError.formatsIff.mp formats).trans one.symm

def failingWorld (c : FsCall) (code : UInt32) : World := {plainWorld bareConfig with
  fs := {plainFs with status := fun _ call => if call = c then code
    else if call = .openFile (wstr "\\\\?\\C:\\u\\ext4.vhdx") false false then errorFileMissing else 0}}

def registerAction : Action := .register ubuntu.units (wstr "C:\\u") []

theorem reportedFormatsUbuntu :
    (LroError.fromOther .errFsDetect [wstr "C:\\u"]).Formats ∧
      ∃ l, Reported (failingWorld .getVersion 1) registerAction emptySession l ∧ ¬ l.Formats := by
  have spared : registerAction.Spared (failingWorld .freeArchive 0) emptySession :=
    ⟨_,⟨fun _ => rfl,fun _ _ _ => rfl⟩,rfl⟩
  have formatted := (@reportedFormats asciiUpcase _ _ _).1 spared (.fromOther .errFsDetect [wstr "C:\\u"])
    (.inl (by decide +kernel))
  exact ⟨formatted.2,reportedFormats.2 (by decide)⟩

/- The `rootfs` of the directory has no extended attributes at all. -/
theorem missingEaUnformattable : ¬ ∀ (W : World) (action : Action) (s : Session asciiUpcase)
    (l : LroError), Reported W action s l → l.msgArgs.length = l.msgCode.placeholders := by
  intro always
  have counted := always
    (failingWorld (.queryEa (wstr "\\\\?\\C:\\u\\rootfs\\") .lxuid) 0xc0000052) registerAction
    emptySession (.fromNt .errGetEa [] 0xc0000052) (.inl (by decide +kernel))
  have two : 2 = ErrMsg.errGetEa.placeholders := ErrMsg.placeholdersOf (by decide)
  cases counted.trans two.symm

end LxRunOffline
