import LxRunOffline.DetectVersion

/-! The try block of `wmain`: the actions of the command line, and what each of them does once its
arguments have been parsed. What an action prints is left out. -/
namespace LxRunOffline

/- `unparsed` is an action whose arguments the option parser has turned down. The version of `install`
is none when it is not given; that of `duplicate` is all ones then. -/
inductive Action where
  | none
  | invalid (action : Wstr)
  | unparsed (installing : Bool)
  | version
  | list
  | getDefault
  | setDefault (name : Wstr)
  | install (name dir file root confPath : Wstr) (version : Option UInt32) (shortcut : Bool)
  | uninstall (name : Wstr)
  | register (name dir confPath : Wstr)
  | unregister (name : Wstr)
  | move (name dir : Wstr)
  | duplicate (name newName dir confPath : Wstr) (version : UInt32)
  | exportDistro (name file : Wstr)
  | run (name : Wstr)
  | getDir (name : Wstr)
  | getVersion (name : Wstr)
  | getEnv (name : Wstr)
  | setEnv (name : Wstr) (env : List Wstr)
  | addEnv (name env : Wstr) (force : Bool)
  | removeEnv (name envName : Wstr)
  | getUid (name : Wstr)
  | setUid (name : Wstr) (uid : UInt32)
  | getKernelCmd (name : Wstr)
  | setKernelCmd (name cmd : Wstr)
  | getFlags (name : Wstr)
  | setFlags (name : Wstr) (flags : UInt32)
  | shortcut (filePath iconPath : Wstr)
  | exportConfig (name file : Wstr)
  | importConfig (name file : Wstr)
  | summary (name : Wstr)

namespace Command
variable {upcase : WChar → WChar} {α : Type} (W : World)

def print (x : Command upcase α) : Command upcase Unit := do
  let _ ← x
  pure ()

def detectVersion (path : Wstr) : Command upcase UInt32 := do
  let p1 ← normalizePath W path
  let p2 ← normalizePath W path
  let disk ← Fs.ask W.eas
  Fs.probeVersion W.fs disk path (p1 ++ wstr "rootfs\\") (p2 ++ wstr "home\\")

def detectWsl2 (path : Wstr) : Command upcase Bool := do
  let p ← normalizePath W path
  catchLro (do
    Fs.openFile W.fs (p ++ wstr "ext4.vhdx") false false
    pure true) fun e =>
      if e.msgCode = .errOpenFile ∧ e.errCode = hresultFromWin32 errorFileMissing then pure false
      else Program.raise (.lro e)

def register (name dir confPath : Wstr) : Command upcase Unit := do
  let isWsl2 ← detectWsl2 W dir
  let conf ← if confPath ≠ [] then loadFile W (.new isWsl2) confPath else pure (.new isWsl2)
  let version ← if isWsl2 then pure 2 else detectVersion W dir
  onReg (Reg.registerDistro W.reg name dir version)
  onReg (Reg.configureDistro W.reg conf name configAll)

def uninstall (name : Wstr) : Command upcase Unit := do
  checkRunning W name
  let dir ← onReg (Reg.getDistroDir W.reg name)
  onReg (Reg.unregisterDistro W.reg name)
  deleteDirectory W dir

/- The default of the version is looked for whether or not one is given. -/
def installLatest (name dir file root confPath : Wstr) (version : Option UInt32) (shortcut : Bool) :
    Command upcase Unit := do
  let build ← Fs.getWinBuild W.fs
  install W name dir file root confPath (version.getD (if 17763 ≤ build then 2 else 1)) shortcut

def runDistro (name : Wstr) : Command upcase Unit := do
  let code ← Fs.ask W.wslapi
  if code ≠ 0 then Fs.throwWin32 .errNoWslapi [] code else do
    let hr ← Fs.ask W.launched
    if 0x80000000 ≤ hr then Program.raise (.lro (.fromHresult .errLaunchDistro [name] hr)) else pure ()

def getConfig (name : Wstr) (desired : UInt32) : Command upcase RegConfig :=
  onReg (Reg.loadDistro W.reg (.new false) name desired)

def exportConfig (name file : Wstr) : Command upcase Unit := do
  let conf ← getConfig W name configAll
  print (saveFile W conf file)

def summary (name : Wstr) : Command upcase Unit := do
  let _ ← getConfig W name configAll
  print (onReg (Reg.getDistroVersion W.reg name))
  print (onReg (Reg.getDistroDir W.reg name))

def perform : Action → Command upcase Unit
  | .none => Fs.throwOther .errNoAction []
  | .invalid action => Fs.throwOther .errInvalidAction [action]
  | .unparsed installing => Program.when (installing = true) (print (Fs.getWinBuild W.fs))
  | .version => pure ()
  | .list => print (onReg (Reg.listDistros W.reg))
  | .getDefault => print (onReg (Reg.getDefaultDistro W.reg))
  | .setDefault name => setDefault W name
  | .install name dir file root confPath version shortcut =>
    installLatest W name dir file root confPath version shortcut
  | .uninstall name => uninstall W name
  | .register name dir confPath => register W name dir confPath
  | .unregister name => onReg (Reg.unregisterDistro W.reg name)
  | .move name dir => move W name dir
  | .duplicate name newName dir confPath version => duplicate W name newName dir confPath version
  | .exportDistro name file => exportDistro W name file
  | .run name => runDistro W name
  | .getDir name => print (onReg (Reg.getDistroDir W.reg name))
  | .getVersion name => print (onReg (Reg.getDistroVersion W.reg name))
  | .getEnv name => print (getConfig W name configEnv)
  | .setEnv name env => setEnv W name env
  | .addEnv name env force => addEnv W name env force
  | .removeEnv name envName => removeEnv W name envName
  | .getUid name => print (getConfig W name configUid)
  | .setUid name uid => setUid W name uid
  | .getKernelCmd name => print (getConfig W name configKernelCmd)
  | .setKernelCmd name cmd => setKernelCmd W name cmd
  | .getFlags name => print (getConfig W name configFlags)
  | .setFlags name flags => setFlags W name flags
  | .shortcut filePath iconPath => createShortcut W filePath iconPath
  | .exportConfig name file => exportConfig W name file
  | .importConfig name file => importConfig W name file
  | .summary name => summary W name

def wmain (action : Action) : Command upcase Unit := do
  let build ← Fs.getWinBuild W.fs
  if build < 17134 then Fs.throwOther .errVersionOld [wstr "1803",wstr "17134"] else perform W action

end Command
end LxRunOffline
