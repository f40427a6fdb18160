import LxRunOffline.ArchiveReader
import LxRunOffline.Config
import LxRunOffline.DeleteDirectory
import LxRunOffline.SaveConfig

/-! The commands of main.cpp, once their arguments have been parsed. A command works on the
registry and on the disk; what it leaves in either place stays there when it ends in an error. -/
namespace LxRunOffline

/- What the commands find: the answers of the registry and the file system, and what lies on the
disk under a path at the time it is looked at. `shortcut` is how the calls of the shell end,
`reread`, `opened` and `saved` are what the XML library and `_wfopen` do with a config file, `wslapi`
and `launched` how wslapi.dll is loaded and how its launcher ends. -/
structure World where
  reg : RegEnv
  fs : FsEnv
  config : Nat → Wstr → ConfigFile
  archive : Nat → Wstr → List ArchiveEntry × ArchiveStatus
  tree : Nat → Wstr → Tree
  volume : Nat → Wstr → Nat × Volume
  moves : Nat → Wstr → Wstr → Bool
  eas : Nat → Wstr → EaName → Option EaValue
  shortcut : Nat → UInt32
  desktop : Wstr
  reread : Bytes → Option Bytes
  opened : Nat → Wstr → UInt32
  saved : Nat → Wstr → Option Wstr
  wslapi : Nat → UInt32
  launched : Nat → UInt32
  fuel : Nat

/- `copy` belongs to the writer of the running command; its clock numbers every call that is not
one of the registry. -/
structure Session (upcase : WChar → WChar) where
  reg : RegState upcase
  copy : CopyState
  removed : List Removed

variable {upcase : WChar → WChar} {α : Type}

instance : Clocked (Session upcase) where
  clock s := s.copy.clock
  tick s := {s with copy := Clocked.tick s.copy}

abbrev Command (upcase : WChar → WChar) (α : Type) := Program Stop (Session upcase) α

def errorSharingViolation : UInt32 := 32

def Format.ofVersion (version : UInt32) : Option Format :=
  if version = 0 then some .legacy
  else if version = 1 then some .v1
  else if version = 2 then some .v2
  else none

namespace Command

def onReg (x : RegProgram upcase α) : Command upcase α :=
  Program.zoom (fun s => s.reg) (fun s r => {s with reg := r}) x
def onCopy (x : Copy α) : Command upcase α :=
  Program.zoom (fun s => s.copy) (fun s c => {s with copy := c}) x

variable (W : World)

def loadFile (conf : RegConfig) (path : Wstr) : Command upcase RegConfig := do
  let file ← Fs.ask fun time => W.config time path
  match conf.loadFile path file with
  | .error e => Program.raise (.lro e)
  | .ok conf => pure conf

/- The constructor of `wsl_path` asks twice for the full path. -/
def longPath (path : Wstr) : Command upcase Wstr := do
  let full ← onReg (Reg.getFullPath W.reg path)
  if full.take 4 ≠ wstr "\\\\?\\" then do
    let again ← onReg (Reg.getFullPath W.reg path)
    pure (wstr "\\\\?\\" ++ again)
  else pure full

def normalizePath (path : Wstr) : Command upcase Wstr := do
  let long ← longPath W path
  pure (if long.getLast? ≠ some backslash then long ++ [backslash] else long)

def parents (path : Wstr) : List Wstr :=
  ((List.range path.length).filter fun i => 7 ≤ i ∧ path[i]? = some backslash).map path.take

def createParent (path : Wstr) : Command upcase Unit := do
  let code ← Fs.call W.fs (.createDirectory path)
  if code ≠ 0 ∧ code ≠ errorAlreadyExists then Fs.throwWin32 .errCreateDir [path] code
  else pure ()

def createRecursive (path : Wstr) : Command upcase Unit :=
  Program.forEach (createParent W) (parents path)

def throwVersion (version : UInt32) : Command upcase α :=
  Fs.throwOther .errFsVersion [wstr (toString version.toNat)]

def selectWriter (version : UInt32) (path : Wstr) : Command upcase Format :=
  match Format.ofVersion version with
  | none => throwVersion version
  | some format => do
    let base ← normalizePath W path
    let target ← normalizePath W path
    createRecursive W base
    onCopy (Program.modify fun s => {CopyState.new format base s.data with
      clock := s.clock, log := s.log, targetPath := format.fresh target})
    pure format

def selectReader (version : UInt32) (path : Wstr) : Command upcase WslReader :=
  match Format.ofVersion version with
  | none => throwVersion version
  | some format => do
    let base ← normalizePath W path
    let tree ← Fs.ask fun time => W.tree time base
    onCopy (Program.modify fun s => {s with data := base})
    pure ⟨format,base,tree⟩

def withWriter (format : Format) (x : Command upcase α) : Command upcase α :=
  Program.ensuring Stop.unwinds x (onCopy (FsWriter.destroy W.fs format))

def runChecked (r : WslReader) (format : Format) : Command upcase Unit :=
  onCopy (r.runChecked W.fs format W.fuel)

def deleteDirectory (path : Wstr) : Command upcase Unit := do
  let base ← normalizePath W path
  let found ← Fs.ask fun time => W.volume time base
  Program.zoom (fun s => ⟨s.copy.clock,base,found.2,[]⟩)
    (fun s d => {s with copy := {s.copy with clock := d.clock}, removed := s.removed ++ d.removed})
    ((DeleteRoot.mk base found.1).deleteDirectory W.fs W.fuel)

def moveDirectory (source target : Wstr) : Command upcase Bool :=
  Fs.ask fun time => W.moves time source target

def checkInUse (path : Wstr) : Command upcase Bool :=
  catchLro (do
    Fs.openFile W.fs path false false
    pure false) fun e =>
      pure (e.msgCode = .errOpenFile ∧ e.errCode = hresultFromWin32 errorSharingViolation)

def checkRunning (name : Wstr) : Command upcase Unit := do
  let p ← onReg (Reg.getDistroDir W.reg name)
  if ← checkInUse W (p ++ wstr "\\rootfs\\init") then
    Fs.throwOther .errDistroRunning [name]
  else if ← checkInUse W (p ++ wstr "\\ext4.vhdx") then Fs.throwOther .errDistroRunning [name]
  else pure ()

def shellCall : Command upcase Unit := do
  let hr ← Fs.ask W.shortcut
  if 0x80000000 ≤ hr then Program.raise (.lro (.fromHresult .errCreateShortcut [] hr)) else pure ()

def createShortcut (filePath iconPath : Wstr) : Command upcase Unit := do
  shellCall W
  shellCall W
  let code ← Fs.ask W.shortcut
  if code ≠ 0 then Fs.throwWin32 .errCreateShortcut [] code else do
    Program.when (iconPath ≠ []) (do
      let _ ← onReg (Reg.getFullPath W.reg iconPath)
      pure ())
    shellCall W
    let _ ← onReg (Reg.getFullPath W.reg filePath)
    shellCall W

def desktopShortcut (name : Wstr) : Command upcase Unit := do
  shellCall W
  createShortcut W (W.desktop ++ [backslash] ++ name ++ wstr ".lnk") []

def installConfig (file confPath : Wstr) : Command upcase RegConfig :=
  if confPath ≠ [] then loadFile W (.new false) confPath
  else catchLro (loadFile W (.new false) (file ++ wstr ".xml")) fun e =>
    if e.msgCode = .errOpenFile then pure (.new false) else Program.raise (.lro e)

def extract (file root : Wstr) (format : Format) : Command upcase Unit := do
  let found ← Fs.ask fun time => W.archive time file
  onCopy ((ArchiveReader.mk file root found.1 found.2).run W.fs format)

def install (name dir file root confPath : Wstr) (version : UInt32) (shortcut : Bool) :
    Command upcase Unit := do
  let conf ← installConfig W file confPath
  onReg (Reg.registerDistro W.reg name dir version)
  onReg (Reg.configureDistro W.reg conf name configAll)
  let format ← selectWriter W version dir
  withWriter W format (do
    extract W file root format
    Program.when (shortcut = true) (desktopShortcut W name))

def saveFile (conf : RegConfig) (path : Wstr) : Command upcase ConfigElement := do
  let opened ← Fs.ask fun time => W.opened time path
  let saved ← Fs.ask fun time => W.saved time path
  match conf.saveFile W.reread path opened saved with
  | .error e => Program.raise (.lro e)
  | .ok element => pure element

/- The handle of an `archive_writer` is freed even when its constructor throws. Which of the two
arguments of `select_wsl_reader` is computed first is left open by the language. -/
def exportDistro (name file : Wstr) : Command upcase Unit := do
  let conf ← onReg (Reg.loadDistro W.reg (.new false) name configAll)
  if conf.isWsl2 then Fs.throwOther .errWsl2Unsupported [wstr "export"] else do
    onCopy (Program.modify fun s => {CopyState.new .linux [] s.data with
      clock := s.clock, log := s.log})
    withWriter W .linux (do
      onCopy (ArchiveWriter.openArchive W.fs file)
      let version ← onReg (Reg.getDistroVersion W.reg name)
      let source ← onReg (Reg.getDistroDir W.reg name)
      let r ← selectReader W version source
      onCopy (r.run W.fs .linux W.fuel)
      let _ ← saveFile W conf (file ++ wstr ".xml")
      pure ())

def moveByCopy (version : UInt32) (source dir : Wstr) : Command upcase Unit := do
  let format ← selectWriter W version dir
  withWriter W format (do
    let r ← selectReader W version source
    runChecked W r format
    deleteDirectory W source)

def move (name dir : Wstr) : Command upcase Unit := do
  checkRunning W name
  let source ← onReg (Reg.getDistroDir W.reg name)
  if ← moveDirectory W source dir then pure () else do
    let version ← onReg (Reg.getDistroVersion W.reg name)
    moveByCopy W version source dir
  onReg (Reg.setDistroDir W.reg name dir)

def copiedConfig (name confPath : Wstr) : Command upcase (RegConfig × Bool) := do
  let conf ← onReg (Reg.loadDistro W.reg (.new false) name configAll)
  let loaded ← if confPath ≠ [] then loadFile W conf confPath else pure conf
  pure (loaded,conf.isWsl2 || loaded.isWsl2)

/- A version of all ones stands for the option that was not given. -/
def duplicate (name newName dir confPath : Wstr) (version : UInt32) : Command upcase Unit := do
  let (conf,isWsl2) ← copiedConfig W name confPath
  if isWsl2 = true ∧ version ≠ 0xffffffff then Fs.throwOther .errWsl2Unsupported [wstr "-v"] else do
    let old ← onReg (Reg.getDistroVersion W.reg name)
    let new := if version ≠ 0xffffffff then version else old
    onReg (Reg.registerDistro W.reg newName dir new)
    onReg (Reg.configureDistro W.reg conf newName configAll)
    let format ← selectWriter W new dir
    withWriter W format (do
      let source ← onReg (Reg.getDistroDir W.reg name)
      let r ← selectReader W old source
      runChecked W r format)

def setDefault (name : Wstr) : Command upcase Unit := onReg (Reg.setDefaultDistro W.reg name)

def setEnv (name : Wstr) (env : List Wstr) : Command upcase Unit :=
  onReg (Reg.configureDistro W.reg {RegConfig.new false with env := env} name configEnv)

def envName (env : Wstr) : Option Wstr :=
  (env.idxOf? 0x3d).map fun p => env.take (p+1)

def addEnv (name env : Wstr) (force : Bool) : Command upcase Unit :=
  match envName env with
  | none => Fs.throwOther .errInvalidEnv [env]
  | some envName => do
    let conf ← onReg (Reg.loadDistro W.reg (.new false) name configEnv)
    let store (kept : List Wstr) : Command upcase Unit :=
      onReg (Reg.configureDistro W.reg {conf with env := kept ++ [env]} name configEnv)
    match conf.env.find? fun s => s.take envName.length = envName with
    | none => store conf.env
    | some found =>
      if force then store (conf.env.eraseP fun s => s.take envName.length = envName)
      else Fs.throwOther .errEnvExists [found]

def removeEnv (name envName : Wstr) : Command upcase Unit := do
  let conf ← onReg (Reg.loadDistro W.reg (.new false) name configEnv)
  let named (s : Wstr) : Bool := s.take (envName.length+1) = envName ++ wstr "="
  if conf.env.any named then
    onReg (Reg.configureDistro W.reg {conf with env := conf.env.eraseP named} name configEnv)
  else Fs.throwOther .errEnvNotFound [envName]

def setUid (name : Wstr) (uid : UInt32) : Command upcase Unit :=
  onReg (Reg.configureDistro W.reg {RegConfig.new false with uid := uid} name configUid)

def setKernelCmd (name cmd : Wstr) : Command upcase Unit :=
  onReg (Reg.configureDistro W.reg {RegConfig.new false with kernelCmd := cmd} name configKernelCmd)

def setFlags (name : Wstr) (flags : UInt32) : Command upcase Unit := do
  let conf ← onReg (Reg.loadDistro W.reg (.new false) name configFlags)
  match conf.setFlags flags with
  | .error e => Program.raise (.lro e)
  | .ok conf => onReg (Reg.configureDistro W.reg conf name configFlags)

def importConfig (name file : Wstr) : Command upcase Unit := do
  let conf ← loadFile W (.new false) file
  onReg (Reg.configureDistro W.reg conf name configAll)

end Command
end LxRunOffline
