import LxRunOffline.Messages
import LxRunOffline.RegErrors
import LxRunOffline.Wmain

/-! The errors of the actions. Each of them has as many arguments as its message asks for, as long as
the calls succeed whose errors are thrown without the arguments. -/
namespace LxRunOffline
variable {upcase : WChar → WChar}

def reportedErrors : List (ErrMsg × Nat) :=
  [(.errOpenFile,1),(.errOpenDir,1),(.errCreateFile,1),(.errCreateDir,1),(.errDeleteFile,1),
    (.errDeleteDir,1),(.errEnumDir,1),(.errFileInfo,1),(.errFileSize,1),(.errSetEa,2),(.errSetCs,1),
    (.errGetFt,1),(.errSetFt,1),(.errGetReparse,1),(.errSetReparse,1),(.errSymlinkLength,2),
    (.errHardLink,2),(.errReadFile,1),(.errWriteFile,1),(.errTransformPath,1),
    (.errConvertEncoding,0),(.errArchive,1),(.errVersionOld,2),(.errOpenKey,1),(.errDeleteKey,1),
    (.errEnumKey,1),(.errGetKeyValue,2),(.errSetKeyValue,2),(.errDeleteKeyValue,2),
    (.errCreateGuid,0),(.errDistroNotFound,1),(.errDistroExists,1),(.errDistroRunning,1),
    (.errNoDefaultDistro,0),(.errNoAction,0),(.errInvalidAction,1),(.errNoWslapi,0),
    (.errLaunchDistro,1),(.errCreateShortcut,0),(.errInvalidEnv,1),(.errEnvExists,1),
    (.errEnvNotFound,1),(.errConfigFile,1),(.errFsVersion,1),(.errFsDetect,1),(.errRootDir,1),
    (.errInvalidFlags,0),(.errWsl2Unsupported,1),(.errCopySubdir,0)]

theorem reportedPlaceholders : ∀ k ∈ reportedErrors, k.2 = k.1.placeholders := by
  repeat refine List.forall_mem_cons.mpr ⟨ErrMsg.placeholdersOf (by decide),?_⟩
  exact fun _ mem => absurd mem List.not_mem_nil

theorem reportedMem {k : ErrMsg × Nat} (listed : reportedErrors.contains k = true) :
    k ∈ reportedErrors := by simpa using listed

theorem registryReported : ∀ k ∈ registryErrors, k ∈ reportedErrors := by decide
theorem writerReported : ∀ k ∈ writerErrors, k ∈ reportedErrors := by decide

def Faults {α : Type} (kinds : List (ErrMsg × Nat)) (x : Except LroError α) : Prop :=
  ∀ e, x = .error e → (e.msgCode,e.msgArgs.length) ∈ kinds

namespace Faults
variable {α β : Type} {kinds : List (ErrMsg × Nat)} {x : Except LroError α}

theorem ok (a : α) : Faults kinds (.ok a) := fun _ same => by cases same

theorem error {e : LroError} (listed : (e.msgCode,e.msgArgs.length) ∈ kinds) :
    Faults kinds (.error e : Except LroError α) := by
  intro e' same
  cases same
  exact listed

theorem bind {f : α → Except LroError β} (hx : Faults kinds x) (hf : ∀ a, Faults kinds (f a)) :
    Faults kinds (x >>= f) := by
  cases x with
  | error e => exact error (hx e rfl)
  | ok a => exact hf a

end Faults
namespace RegConfig

def fileErrors : List (ErrMsg × Nat) :=
  [(.errOpenFile,1),(.errCreateFile,1),(.errConfigFile,1),(.errConvertEncoding,0)]

theorem fileReported : ∀ k ∈ fileErrors, k ∈ reportedErrors := by decide

theorem readFaults (text : XmlText) : Faults fileErrors text.read := by
  rcases text with _ | code | text
  · exact .error (by decide)
  · exact .error (by simp [fileErrors,LroError.fromWin32,LroError.fromHresult])
  · exact .ok _

theorem readAllFaults (texts : List XmlText) : Faults fileErrors (XmlText.readAll texts) := by
  induction texts with
  | nil => exact .ok _
  | cons text rest ih => exact .bind (readFaults text) fun _ => .bind ih fun _ => .ok _

theorem loadNumberFaults (old : UInt32) (number : Option (Except Wstr UInt32)) :
    Faults fileErrors (loadNumber old number) := by
  rcases number with _ | name | n
  · exact .ok _
  · exact .error (by simp [fileErrors,errorXml,LroError.fromOther,LroError.fromHresult])
  · exact .ok _

theorem loadFileFaults (conf : RegConfig) (path : Wstr) (file : ConfigFile) :
    Faults fileErrors (conf.loadFile path file) := by
  have envs (conf : RegConfig) (texts : Option (List XmlText)) : Faults fileErrors (conf.loadEnvs texts) := by
    cases texts with
    | none => exact .ok _
    | some texts => exact .bind (readAllFaults texts) fun _ => .ok _
  have cmd (conf : RegConfig) (text : Option XmlText) : Faults fileErrors (conf.loadKernelCmd text) := by
    cases text with
    | none => exact .ok _
    | some text => exact .bind (readFaults text) fun _ => .ok _
  cases file with
  | missing code => exact .error (by simp [fileErrors,LroError.fromWin32,LroError.fromHresult])
  | malformed error => exact .error (by simp [fileErrors,errorXml,LroError.fromOther,LroError.fromHresult])
  | rootless => exact .error (by simp [fileErrors,LroError.fromOther,LroError.fromHresult])
  | config root =>
    exact .bind (envs _ _) fun _ => .bind (loadNumberFaults _ _) fun _ => .bind (cmd _ _) fun _ =>
      .bind (loadNumberFaults _ _) fun _ => .ok _

theorem saveFileFaults (reread : Bytes → Option Bytes) (conf : RegConfig) (path : Wstr) (opened : UInt32)
    (saved : Option Wstr) : Faults fileErrors (conf.saveFile reread path opened saved) := by
  have text (s : Wstr) : Faults fileErrors (setText reread s) := by
    unfold setText
    split
    · exact .error (by simp [fileErrors,LroError.fromWin32,LroError.fromHresult])
    · exact .ok _
  have texts (all : List Wstr) : Faults fileErrors (setTexts reread all) := by
    induction all with
    | nil => exact .ok _
    | cons s rest ih => exact .bind (text s) fun _ => .bind ih fun _ => .ok _
  unfold saveFile
  split
  · exact .error (by simp [fileErrors,LroError.fromWin32,LroError.fromHresult])
  · refine .bind (texts _) fun _ => .bind (text _) fun _ => ?_
    split
    · exact .error (by simp [fileErrors,errorXml,LroError.fromOther,LroError.fromHresult])
    · exact .ok _

end RegConfig
namespace Reg
variable {α : Type} (env : RegEnv)

theorem distroNamesRaises (ids : List Wstr) :
    Raises reportedErrors (distroNames env ids : RegProgram upcase (List Wstr)) := by
  induction ids with
  | nil => exact .pure _
  | cons id rest ih =>
    exact .bind (getValueRaises env registryReported _ _ _) fun _ => .bind ih fun _ => .pure _

theorem listDistrosRaises : Raises reportedErrors (listDistros env : RegProgram upcase (List Wstr)) :=
  .bind (listDistroIdRaises env registryReported) (distroNamesRaises env)

theorem getDefaultDistroRaises :
    Raises reportedErrors (getDefaultDistro env : RegProgram upcase Wstr) :=
  .catchLro (.bind (getValueRaises env registryReported _ _ _) fun _ =>
    getValueRaises env registryReported _ _ _) fun e listed =>
      .ite (fun _ => .lro _ (reportedMem rfl)) fun _ => .lro e listed

theorem setDefaultDistroRaises (name : Wstr) :
    Raises reportedErrors (setDefaultDistro env name : RegProgram upcase Unit) :=
  .bind (getDistroIdRaises env registryReported name) fun _ => setValueRaises env registryReported _ _ _

theorem registerDistroRaises (name path : Wstr) (version : UInt32) :
    Raises reportedErrors (registerDistro env name path version : RegProgram upcase Unit) := by
  have guid : Raises reportedErrors (newGuid env : RegProgram upcase Wstr) := by
    refine .get fun s => .bind (.modify _) fun _ => ?_
    split
    · exact .lro _ (reportedMem rfl)
    · exact .pure _
  have key : Raises reportedErrors (newDistroKey env name : RegProgram upcase Wstr) :=
    .bind (listDistrosRaises env) fun _ => .ite (fun _ => .lro _ (reportedMem rfl)) fun _ =>
      .bind guid fun _ => .bind (createKeyRaises env registryReported _) fun _ => .pure _
  rw [registerParts]
  exact .bind key fun id => fillKeyRaises env registryReported id name path version

theorem chooseDefaultRaises : Raises reportedErrors (do
    let ids ← listDistroId env
    match ids with
    | [] => deleteValue env vnDefaultDistro
    | id :: _ => setSz env [] vnDefaultDistro id : RegProgram upcase Unit) := by
  refine .bind (listDistroIdRaises env registryReported) fun ids => ?_
  cases ids with
  | nil =>
    exact .bind (fun _ _ => trivial) fun _ => .get fun _ =>
      .ite (fun _ => .lro _ (reportedMem rfl)) fun _ => .modify _
  | cons id rest => exact setValueRaises env registryReported _ _ _

theorem unregisterDistroRaises (name : Wstr) :
    Raises reportedErrors (unregisterDistro env name : RegProgram upcase Unit) := by
  have deleted (id : Wstr) : Raises reportedErrors (deleteTree env id : RegProgram upcase Unit) :=
    .bind (fun _ _ => trivial) fun _ => .get fun _ =>
      .ite (fun _ => .lro _ (reportedMem rfl)) fun _ => .modify _
  refine .bind (getDefaultDistroRaises env) fun _ =>
    .bind (getDistroIdRaises env registryReported name) fun id => .bind (deleted id) fun _ => .when fun _ => ?_
  exact .catchLro (chooseDefaultRaises env) fun _ _ => .pure ()

theorem setDistroDirRaises (name value : Wstr) :
    Raises reportedErrors (setDistroDir env name value : RegProgram upcase Unit) :=
  .bind (getDistroIdRaises env registryReported name) fun _ =>
    .bind (getFullPathRaises env (reportedMem rfl) value) fun _ => setValueRaises env registryReported _ _ _

theorem getDistroVersionRaises (name : Wstr) :
    Raises reportedErrors (getDistroVersion env name : RegProgram upcase UInt32) :=
  .bind (getDistroIdRaises env registryReported name) fun _ => getValueRaises env registryReported _ _ _

theorem loadDistroRaises (conf : RegConfig) (name : Wstr) (desired : UInt32) :
    Raises reportedErrors (loadDistro env conf name desired : RegProgram upcase RegConfig) := by
  have item {α : Type} (wanted : Prop) [Decidable wanted] (pick : RegValue → Option α)
      (sub name : Wstr) (value : α) :
      Raises reportedErrors (loadItem env wanted pick sub name value : RegProgram upcase α) :=
    .ite (fun _ => .catchLro (getValueRaises env registryReported pick sub name) fun e listed =>
      .ite (fun _ => .lro e listed) fun _ => .pure _) fun _ => .pure _
  exact .bind (getDistroIdRaises env registryReported name) fun id => .bind (item _ _ _ _ _) fun _ =>
    .bind (item _ _ _ _ _) fun _ => .bind (item _ _ _ _ _) fun _ => .bind (item _ _ _ _ _) fun _ =>
      .pure _

end Reg
namespace Fs
variable {σ : Type} [Clocked σ] (env : FsEnv)

theorem hasEaRaises {α : Type} (disk : Wstr → EaName → Option EaValue) (path : Wstr) (name : EaName)
    (pick : EaValue → Option α) {ignoreError : Bool}
    (queried : ignoreError = true ∨ env.Grants (.queryEa path name)) :
    Raises reportedErrors (hasEa env disk path name pick ignoreError : Program Stop σ Bool) := by
  let inner : List (ErrMsg × Nat) := [(.errOpenDir,1),(.errInvalidEa,1)] ++
    if ignoreError = true then [(.errGetEa,0)] else []
  have opened : Raises inner (openFile env path true false : Program Stop σ Unit) :=
    openFileRaises env (by simp [inner,openError]) path
  have got : Raises inner (getEa env path (disk path) name pick : Program Stop σ α) :=
    getEaRaises env (queried.imp_left fun ignored => by simp [inner,ignored]) (by simp [inner]) _ pick
  refine .catchLro (.bind opened fun _ => .bind got fun _ => .pure _) fun e known =>
    .ite (fun _ => .pure _) fun thrown => .lro e ?_
  rw [not_or] at thrown
  simp only [inner,if_neg thrown.2,List.append_nil,List.mem_cons,Prod.mk.injEq,List.not_mem_nil,
    or_false] at known
  rcases known with ⟨code,length⟩ | ⟨code,-⟩
  · rw [code,length]
    exact reportedMem rfl
  · exact absurd code thrown.1

theorem probeVersionRaises (disk : Wstr → EaName → Option EaValue) (path : Wstr) {p1 : Wstr}
    (p2 : Wstr) (queried : ∀ name, env.Grants (.queryEa p1 name)) :
    Raises reportedErrors (probeVersion env disk path p1 p2 : Program Stop σ UInt32) :=
  .bind (hasEaRaises env disk p1 _ _ (.inr (queried _))) fun _ => .ite (fun _ => .pure _) fun _ =>
    .bind (hasEaRaises env disk p2 _ _ (.inl rfl)) fun _ => .ite (fun _ => .pure _) fun _ =>
      .bind (hasEaRaises env disk p1 _ _ (.inr (queried _))) fun _ => .ite (fun _ => .pure _) fun _ =>
        .lro _ (reportedMem rfl)

end Fs
namespace DeleteRoot
variable (t : DeleteRoot) {env : FsEnv} (version : env.Grants .getVersion)
include version

theorem deleteDirectoryRaises (fuel : Nat) : Raises reportedErrors (t.deleteDirectory env fuel) := by
  have opened (path : Wstr) : Raises reportedErrors (t.openListed env path) :=
    .get fun _ => .ite (fun _ => Fs.openListedRaises env (reportedMem rfl) (.inr version)
      (reportedMem rfl) path) fun _ => .lro _ (reportedMem rfl)
  have first (path : Wstr) : Raises reportedErrors (t.findFirst env path) := by
    refine .status fun _ => .ite (fun _ => .lro _ (reportedMem rfl)) fun _ => .get fun _ => ?_
    split
    · exact .lro _ (reportedMem rfl)
    · exact .pure _
  have next (path : Wstr) : Raises reportedErrors (Fs.findNext env path : Delete Bool) :=
    .status fun _ => .ite (fun _ => .pure _) fun _ => .ite (fun _ => .pure _) fun _ =>
      .lro _ (reportedMem rfl)
  have failed (dir : Bool) (path : Wstr) (code : UInt32) : Raises reportedErrors
      (Fs.throwWin32 (if dir then .errDeleteDir else .errDeleteFile) [path] code : Delete Unit) := by
    cases dir <;> exact .lro _ (reportedMem rfl)
  have removed (dir : Bool) : Raises reportedErrors (t.remove env dir) := by
    refine .get fun s => .status fun code => .ite (fun _ => failed dir _ code) fun _ => ?_
    split
    · exact failed dir _ _
    · exact .modify _
  have steady : (t.api env).Steady (t.action env) (fun _ => True)
      (fun e _ => Listed reportedErrors e) :=
    ⟨fun _ _ _ => nofun,fun _ _ _ => trivial,opened,first,next,
      fun type => Raises.ite (fun _ => .pure ()) fun _ => removed _⟩
  exact steady.walk fuel false

end DeleteRoot
namespace Command
variable {α : Type} (W : World)

theorem printRaises {x : Command upcase α} (h : Raises reportedErrors x) :
    Raises reportedErrors (print x) := .bind h fun _ => .pure ()

theorem onRegRaises {x : RegProgram upcase α} (h : Raises reportedErrors x) :
    Raises reportedErrors (onReg x) := .zoom h

theorem normalRaises (path : Wstr) :
    Raises reportedErrors (normalizePath W path : Command upcase Wstr) :=
  normalizePathRaises W (reportedMem rfl) path

theorem loadFileRaises (conf : RegConfig) (path : Wstr) :
    Raises reportedErrors (loadFile W conf path : Command upcase RegConfig) := by
  refine .bind (.ask _) fun file => ?_
  split
  · rename_i e failed
    exact .lro e (RegConfig.fileReported _ (RegConfig.loadFileFaults conf path file e failed))
  · exact .pure _

theorem saveFileRaises (conf : RegConfig) (path : Wstr) :
    Raises reportedErrors (saveFile W conf path : Command upcase ConfigElement) := by
  refine .bind (.ask _) fun _ => .bind (.ask _) fun _ => ?_
  split
  · rename_i e failed
    exact .lro e (RegConfig.fileReported _ (RegConfig.saveFileFaults W.reread conf path _ _ e failed))
  · exact .pure _

theorem getConfigRaises (name : Wstr) (desired : UInt32) :
    Raises reportedErrors (getConfig W name desired : Command upcase RegConfig) :=
  onRegRaises (Reg.loadDistroRaises W.reg _ name desired)

theorem configureRaises (conf : RegConfig) (name : Wstr) (desired : UInt32) :
    Raises reportedErrors (onReg (Reg.configureDistro W.reg conf name desired) : Command upcase Unit) :=
  onRegRaises (Reg.configureDistroRaises W.reg registryReported conf name desired)

theorem dirRaises (name : Wstr) :
    Raises reportedErrors (onReg (Reg.getDistroDir W.reg name) : Command upcase Wstr) :=
  onRegRaises (Reg.getDistroDirRaises W.reg registryReported name)

theorem versionRaises (name : Wstr) :
    Raises reportedErrors (onReg (Reg.getDistroVersion W.reg name) : Command upcase UInt32) :=
  onRegRaises (Reg.getDistroVersionRaises W.reg name)

theorem registerRaises (name path : Wstr) (version : UInt32) :
    Raises reportedErrors (onReg (Reg.registerDistro W.reg name path version) : Command upcase Unit) :=
  onRegRaises (Reg.registerDistroRaises W.reg name path version)

theorem selectWriterRaises (version : UInt32) (path : Wstr) :
    Raises reportedErrors (selectWriter W version path : Command upcase Format) := by
  unfold selectWriter
  split
  · exact .lro _ (reportedMem rfl)
  · exact .bind (normalRaises W path) fun base => .bind (normalRaises W path) fun _ =>
      .bind (createRecursiveRaises W (reportedMem rfl) base) fun _ => .bind (.zoom (.modify _))
        fun _ => .pure _

theorem selectReaderRaises (version : UInt32) (path : Wstr) :
    Raises reportedErrors (selectReader W version path : Command upcase WslReader) := by
  unfold selectReader
  split
  · exact .lro _ (reportedMem rfl)
  · exact .bind (normalRaises W path) fun _ => .bind (.ask _) fun _ => .bind (.zoom (.modify _))
      fun _ => .pure _

theorem checkRunningRaises (name : Wstr) :
    Raises reportedErrors (checkRunning W name : Command upcase Unit) := by
  have used (path : Wstr) : Raises reportedErrors (checkInUse W path : Command upcase Bool) :=
    .catchLro (.bind (Fs.openFileRaises W.fs (reportedMem rfl) path) fun _ => .pure _) fun _ _ => .pure _
  exact .bind (dirRaises W name) fun _ => .bind (used _) fun _ =>
    .ite (fun _ => .lro _ (reportedMem rfl)) fun _ => .bind (used _) fun _ =>
      .ite (fun _ => .lro _ (reportedMem rfl)) fun _ => .pure ()

theorem installConfigRaises (file confPath : Wstr) :
    Raises reportedErrors (installConfig W file confPath : Command upcase RegConfig) :=
  .ite (fun _ => loadFileRaises W _ _) fun _ => .catchLro (loadFileRaises W _ _) fun e listed =>
    .ite (fun _ => .pure _) fun _ => .lro e listed

theorem deleteRaises (version : W.fs.Grants .getVersion) (path : Wstr) :
    Raises reportedErrors (deleteDirectory W path : Command upcase Unit) :=
  .bind (normalRaises W path) fun _ => .bind (.ask _) fun _ =>
    .zoom (DeleteRoot.deleteDirectoryRaises _ version W.fuel)

theorem copyRaises (version : W.fs.Grants .getVersion)
    (queried : ∀ path name, W.fs.Grants (.queryEa path name)) (r : WslReader) (format : Format) :
    Raises reportedErrors (onCopy (r.run W.fs format W.fuel) : Command upcase Unit) ∧
      Raises reportedErrors (runChecked W r format : Command upcase Unit) := by
  have reads : ∀ k ∈ wslReaderErrors, k ∈ reportedErrors ∨ W.fs.Spares k := by
    have split : ∀ k ∈ wslReaderErrors, k ∈ reportedErrors ∨ k = (.errGetVersion,0) ∨
      k = (.errGetEa,1) := by decide
    intro k mem
    rcases split k mem with listed | rfl | rfl
    · exact .inl listed
    · exact .inr version
    · exact .inr queried
  have copied : Raises reportedErrors (r.run W.fs format W.fuel) :=
    r.runRaises W.fs format reads writerReported W.fuel
  have checked : Raises reportedErrors (FsWriter.checkPath format r.base) :=
    .ite (fun _ => .pure ()) fun _ => .get fun _ => .ite (fun _ => .lro _ (reportedMem rfl)) fun _ =>
      .ite (fun _ => .lro _ (reportedMem rfl)) fun _ => .pure ()
  unfold runChecked
  exact ⟨.zoom copied,.zoom (.bind checked fun _ => copied)⟩

theorem unpackRaises {file : Wstr} (sized : W.fs.Grants (.fileSize file)) (root : Wstr)
    (format : Format) : Raises reportedErrors (extract W file root format : Command upcase Unit) := by
  have archives (r : ArchiveReader) (same : r.archivePath = file) :
      ∀ k ∈ archiveErrors, k ∈ reportedErrors ∨ r.Spares W.fs k := by
    have split : ∀ k ∈ archiveErrors, k ∈ reportedErrors ∨ k = (.errFileSize,0) := by decide
    intro k mem
    rcases split k mem with listed | rfl
    · exact .inl listed
    · subst same
      exact .inr sized
  refine .bind (.ask _) fun found => .zoom ?_
  exact .bind (ArchiveReader.openArchiveRaises _ W.fs (archives _ rfl)
    (Fs.openFileRaises W.fs (reportedMem rfl) file)) fun _ =>
      ArchiveReader.unpackRaises _ W.fs format (archives _ rfl) writerReported

end Command
end LxRunOffline
