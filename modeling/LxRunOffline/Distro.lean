import LxRunOffline.Registry

/-! The operations of reg.cpp on distributions. A warning that is only logged leaves no trace
here, and a handler for `lro_error` keeps what was written before the exception. -/
namespace LxRunOffline

structure RegConfig where
  env : List Wstr
  kernelCmd : Wstr
  uid : UInt32
  flags : UInt32

def configEnv : UInt32 := 1
def configUid : UInt32 := 2
def configKernelCmd : UInt32 := 4
def configFlags : UInt32 := 8

namespace Reg
variable {upcase : WChar → WChar} (env : RegEnv)

def distroName (id : Wstr) : RegProgram upcase Wstr := getSz env id vnDistroName

def distroNames : List Wstr → RegProgram upcase (List Wstr)
  | [] => pure []
  | id :: rest => do
    let name ← distroName env id
    let names ← distroNames rest
    pure (name :: names)

def listDistros : RegProgram upcase (List Wstr) := do
  let ids ← listDistroId env
  distroNames env ids

def findDistro (name : Wstr) : List Wstr → RegProgram upcase Wstr
  | [] => Program.raise (.lro (.fromOther .errDistroNotFound [name]))
  | id :: rest => do
    let current ← distroName env id
    if name = current then pure id else findDistro name rest

def getDistroId (name : Wstr) : RegProgram upcase Wstr := do
  let ids ← listDistroId env
  findDistro env name ids

def getDefaultDistro : RegProgram upcase Wstr :=
  catchLro (do
    let id ← getSz env [] vnDefaultDistro
    distroName env id) fun e =>
      if e.msgCode = .errGetKeyValue ∧ e.errCode = hresultFromWin32 errorFileNotFound then
        Program.raise (.lro (.fromOther .errNoDefaultDistro []))
      else Program.raise (.lro e)

def setDefaultDistro (name : Wstr) : RegProgram upcase Unit := do
  let id ← getDistroId env name
  setSz env [] vnDefaultDistro id

def newDistroKey (name : Wstr) : RegProgram upcase Wstr := do
  let names ← listDistros env
  if name ∈ names then Program.raise (.lro (.fromOther .errDistroExists [name]))
  else do
    let id ← newGuid env
    createKey env id
    pure id

def ensureDefault (name : Wstr) : RegProgram upcase Unit :=
  catchLro (do
    let _ ← getDefaultDistro env
    pure ()) fun e =>
      if e.msgCode = .errNoDefaultDistro then
        catchLro (setDefaultDistro env name) fun _ => pure ()
      else pure ()

def registerDistro (name path : Wstr) (version : UInt32) : RegProgram upcase Unit := do
  let id ← newDistroKey env name
  setSz env id vnDistroName name
  let full ← getFullPath env path
  setSz env id vnDir full
  setDword env id vnState 1
  setDword env id vnVersion version
  ensureDefault env name

def replaceDefault : RegProgram upcase Unit :=
  catchLro (do
    let ids ← listDistroId env
    match ids with
    | [] => deleteValue env vnDefaultDistro
    | id :: _ => setSz env [] vnDefaultDistro id) fun _ => pure ()

def unregisterDistro (name : Wstr) : RegProgram upcase Unit := do
  let current ← getDefaultDistro env
  let id ← getDistroId env name
  deleteTree env id
  Program.when (current = name) (replaceDefault env)

def setDistroDir (name value : Wstr) : RegProgram upcase Unit := do
  let id ← getDistroId env name
  let full ← getFullPath env value
  setSz env id vnDir full

def configureDistro (conf : RegConfig) (name : Wstr) (desired : UInt32) :
    RegProgram upcase Unit := do
  let id ← getDistroId env name
  Program.when (desired &&& configEnv ≠ 0) (setMultiSz env id vnEnv conf.env)
  Program.when (desired &&& configUid ≠ 0) (setDword env id vnUid conf.uid)
  Program.when (desired &&& configKernelCmd ≠ 0) (setSz env id vnKernelCmd conf.kernelCmd)
  Program.when (desired &&& configFlags ≠ 0) (setDword env id vnFlags conf.flags)

end Reg
end LxRunOffline
