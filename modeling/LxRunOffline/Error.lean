import LxRunOffline.Program
import LxRunOffline.Units

/-! `lro_error` of error.cpp, and everything else that can end a computation of the program. -/
namespace LxRunOffline

inductive ErrMsg where
  | errTest
  | errOpenFile
  | errOpenDir
  | errCreateFile
  | errCreateDir
  | errDeleteFile
  | errDeleteDir
  | errEnumDir
  | errFileInfo
  | errFileSize
  | errGetEa
  | errSetEa
  | errInvalidEa
  | errSetCs
  | errGetFt
  | errSetFt
  | errGetReparse
  | errSetReparse
  | errSymlinkLength
  | errHardLink
  | errReadFile
  | errWriteFile
  | errTransformPath
  | errConvertEncoding
  | errArchive
  | errGetVersion
  | errVersionOld
  | errOpenKey
  | errDeleteKey
  | errEnumKey
  | errGetKeyValue
  | errSetKeyValue
  | errDeleteKeyValue
  | errCreateGuid
  | errConvertGuid
  | errDistroNotFound
  | errDistroExists
  | errDistroRunning
  | errNoDefaultDistro
  | errNoAction
  | errInvalidAction
  | errNoWslapi
  | errLaunchDistro
  | errCreateShortcut
  | errInvalidEnv
  | errEnvExists
  | errEnvNotFound
  | errConfigFile
  | errFsVersion
  | errFsDetect
  | errRootDir
  | errInvalidFlags
  | errWsl2Unsupported
  | errCopySubdir
  deriving DecidableEq, Repr

structure LroError where
  msgCode : ErrMsg
  msgArgs : List Wstr
  errCode : UInt32
  deriving DecidableEq, Repr

/- A non-positive code of the signed HRESULT type is taken as it is. -/
def hresultFromWin32 (code : UInt32) : UInt32 :=
  if code = 0 ∨ 0x80000000 ≤ code then code else (code &&& 0xffff) ||| 0x80070000

def hresultFromNt (status : UInt32) : UInt32 := status ||| 0x10000000

namespace LroError

def fromHresult (msgCode : ErrMsg) (msgArgs : List Wstr) (errCode : UInt32) : LroError :=
  ⟨msgCode,msgArgs,errCode⟩
def fromWin32 (msgCode : ErrMsg) (msgArgs : List Wstr) (errCode : UInt32) : LroError :=
  fromHresult msgCode msgArgs (hresultFromWin32 errCode)
def fromNt (msgCode : ErrMsg) (msgArgs : List Wstr) (status : UInt32) : LroError :=
  fromHresult msgCode msgArgs (hresultFromNt status)
def fromOther (msgCode : ErrMsg) (msgArgs : List Wstr) : LroError :=
  fromHresult msgCode msgArgs 0

def pushArg (e : LroError) (arg : Wstr) : LroError := {e with msgArgs := e.msgArgs ++ [arg]}

end LroError

/- `invalidArgument` is the exception of `std::stoi` and `badArrayLength` the one of `new[]`, which
no handler of the program for `lro_error` catches. `crash` is an access to memory that nobody has,
`outOfFuel` a recursion that has not ended yet; nothing catches these. -/
inductive Stop where
  | lro (e : LroError)
  | invalidArgument
  | badArrayLength
  | crash
  | outOfFuel
  deriving DecidableEq, Repr

/- Destructors run behind an exception, and not in a process that is gone. -/
def Stop.unwinds : Stop → Bool
  | lro _ => true
  | invalidArgument => true
  | badArrayLength => true
  | crash => false
  | outOfFuel => false

def catchLro {σ α : Type} (x : Program Stop σ α) (handler : LroError → Program Stop σ α) :
    Program Stop σ α :=
  Program.rescue x fun
    | .lro e => handler e
    | other => Program.raise other

end LxRunOffline
