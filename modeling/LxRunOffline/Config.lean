import LxRunOffline.Distro

/-! `reg_config` of reg.cpp: what a config file or the registry says about a distribution. An
item that its source does not mention stays as it was in the object that is loaded into. -/
namespace LxRunOffline

/- What tinyxml2 gives for an element: no text node, or a text, which need not be valid UTF-8. -/
abbrev XmlText := Option (Except UInt32 CStr)

/- The elements that are looked for; a number that cannot be read carries the name of the error. -/
structure ConfigElement where
  envs : Option (List XmlText)
  uid : Option (Except Wstr UInt32)
  kernelCmd : Option XmlText
  flags : Option (Except Wstr UInt32)

inductive ConfigFile where
  | missing (code : UInt32)
  | malformed (error : Wstr)
  | rootless
  | config (root : ConfigElement)

def errorXml (name : Wstr) : LroError := .fromOther .errConfigFile [name]
def xmlNoTextNode : Wstr := wstr "XML_NO_TEXT_NODE"

namespace XmlText

def read : XmlText → Except LroError Wstr
  | none => .error (errorXml xmlNoTextNode)
  | some (.error code) => .error (.fromWin32 .errConvertEncoding [] code)
  | some (.ok text) => .ok text.units

def readAll : List XmlText → Except LroError (List Wstr)
  | [] => .ok []
  | text :: rest => do
    let first ← read text
    let more ← readAll rest
    .ok (first :: more)

end XmlText
namespace RegConfig

def flagsMask : UInt32 := 7
def flagWsl2 : UInt32 := 8

def new (isWsl2 : Bool) : RegConfig where
  env := [wstr "HOSTTYPE=x86_64",wstr "LANG=en_US.UTF-8",
    wstr ("PATH=/usr/local/sbin:/usr/local/bin:/usr/sbin:/usr/bin:/sbin:/bin:/usr/games:" ++
      "/usr/local/games"),wstr "TERM=xterm-256color"]
  kernelCmd := wstr "BOOT_IMAGE=/kernel init=/init ro"
  uid := 0
  flags := if isWsl2 then 7 ||| flagWsl2 else 7

def getFlags (conf : RegConfig) : UInt32 := conf.flags &&& flagsMask
def isWsl2 (conf : RegConfig) : Bool := conf.flags &&& flagWsl2 != 0

def setFlags (conf : RegConfig) (value : UInt32) : Except LroError RegConfig :=
  if value &&& ~~~flagsMask ≠ 0 then .error (.fromOther .errInvalidFlags [])
  else .ok {conf with flags := (conf.flags &&& flagWsl2) ||| (value &&& flagsMask)}

def loadEnvs (conf : RegConfig) : Option (List XmlText) → Except LroError RegConfig
  | none => .ok conf
  | some texts => do
    let env ← XmlText.readAll texts
    .ok {conf with env := env}

def loadKernelCmd (conf : RegConfig) : Option XmlText → Except LroError RegConfig
  | none => .ok conf
  | some text => do
    let cmd ← text.read
    .ok {conf with kernelCmd := cmd}

def loadNumber (old : UInt32) : Option (Except Wstr UInt32) → Except LroError UInt32
  | none => .ok old
  | some (.error name) => .error (errorXml name)
  | some (.ok n) => .ok n

def loadElement (conf : RegConfig) (root : ConfigElement) : Except LroError RegConfig := do
  let conf ← conf.loadEnvs root.envs
  let uid ← loadNumber conf.uid root.uid
  let conf ← {conf with uid := uid}.loadKernelCmd root.kernelCmd
  let flags ← loadNumber conf.flags root.flags
  .ok {conf with flags := flags}

/- The items that come before an error are lost with it: nothing reads the object again, but for
`err_open_file`, which comes before all of them. -/
def loadFile (conf : RegConfig) (path : Wstr) : ConfigFile → Except LroError RegConfig
  | .missing code => .error (.fromWin32 .errOpenFile [path] code)
  | .malformed error => .error (errorXml error)
  | .rootless => .error (.fromOther .errConfigFile [wstr "Root element \"config\" not found."])
  | .config root => conf.loadElement root

end RegConfig

/- The strings in front of the empty one; `current` is the part of the string being read. -/
def multiStrings (current : Wstr) : Wstr → List Wstr
  | [] => if current = [] then [] else [current]
  | c :: rest =>
    if c ≠ 0 then multiStrings (current ++ [c]) rest
    else if current = [] then [] else current :: multiStrings [] rest

def RegValue.asMultiSz : RegValue → Option (List Wstr)
  | multiSz units => some (multiStrings [] units)
  | _ => none

namespace Reg
variable {upcase : WChar → WChar} (env : RegEnv) {α : Type}

def getDistroDir (name : Wstr) : RegProgram upcase Wstr := do
  let id ← getDistroId env name
  getSz env id vnDir

def getDistroVersion (name : Wstr) : RegProgram upcase UInt32 := do
  let id ← getDistroId env name
  getDword env id vnVersion

def tryGetValue (pick : RegValue → Option α) (sub name : Wstr) (value : α) :
    RegProgram upcase α :=
  catchLro (getValue env pick sub name) fun e =>
    if e.msgCode ≠ .errGetKeyValue ∨ e.errCode ≠ hresultFromWin32 errorFileNotFound then
      Program.raise (.lro e)
    else pure value

def loadItem (wanted : Prop) [Decidable wanted] (pick : RegValue → Option α) (sub name : Wstr)
    (value : α) : RegProgram upcase α :=
  if wanted then tryGetValue env pick sub name value else pure value

def loadDistro (conf : RegConfig) (name : Wstr) (desired : UInt32) :
    RegProgram upcase RegConfig := do
  let id ← getDistroId env name
  let envs ← loadItem env (desired &&& configEnv ≠ 0) RegValue.asMultiSz id vnEnv conf.env
  let uid ← loadItem env (desired &&& configUid ≠ 0) RegValue.asDword id vnUid conf.uid
  let cmd ← loadItem env (desired &&& configKernelCmd ≠ 0) RegValue.asSz id vnKernelCmd conf.kernelCmd
  let flags ← loadItem env (desired &&& configFlags ≠ 0) RegValue.asDword id vnFlags conf.flags
  pure ⟨envs,cmd,uid,flags⟩

end Reg
def configAll : UInt32 := 15

end LxRunOffline
