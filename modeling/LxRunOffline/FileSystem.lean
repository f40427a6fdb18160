import LxRunOffline.FileAttr
import LxRunOffline.FilePath

/-! The calls of Win32, NT and libarchive that fs.cpp makes, and its helpers around them. The
environment decides how every single call ends; a call is numbered by the clock of the state it
is made in. A handle is known by the path it was opened for. -/
namespace LxRunOffline

inductive FsCall where
  | getVersion
  | openFile (path : Wstr) (isDir create : Bool)
  | queryCs (path : Wstr)
  | setCs (path : Wstr)
  | findFirst (path : Wstr)
  | findNext (path : Wstr)
  | fileInfo (path : Wstr)
  | fileSize (path : Wstr)
  | fileTimes (path : Wstr)
  | queryEa (path : Wstr) (name : EaName)
  | setEa (path : Wstr) (name : EaName)
  | getReparse (path : Wstr)
  | setReparse (path : Wstr)
  | setTimes (path : Wstr)
  | readFile (path : Wstr)
  | writeFile (path : Wstr)
  | createDirectory (path : Wstr)
  | removeDirectory (path : Wstr)
  | deleteFile (path : Wstr)
  | createHardLink (path target : Wstr)
  | toUtf8 (text : Wstr)
  | writeHeader (path : Wstr)
  | supportFilter
  | supportFormat
  | openArchive (path : Wstr)
  | setFormat
  | addFilter
  | createArchive (path : Wstr)
  | freeArchive
  deriving DecidableEq, Repr

inductive ArchiveStatus where
  | ok
  | eof
  | warn
  | failed (text : Wstr)
  deriving DecidableEq, Repr

/- `archive_write_data` returns the number of the bytes it has taken, or a negative status. -/
inductive DataAnswer where
  | took (count : Nat)
  | failed (text : Wstr)
  deriving DecidableEq, Repr

/- A status of zero is a success. `queryCs` succeeds for a directory that is case sensitive
already. `memory` is what an allocation of a `file_attr` finds in its place, `flush` the status
of `archive_write_free`, of which a command makes one call at most. -/
structure FsEnv where
  status : Nat → FsCall → UInt32
  archive : Nat → FsCall → ArchiveStatus
  data : Nat → Bytes → DataAnswer
  build : UInt32
  memory : Nat → FileAttr
  flush : ArchiveStatus

def errorFileMissing : UInt32 := 2
def errorPathMissing : UInt32 := 3
def errorAccessDenied : UInt32 := 5
def errorInvalidHandle : UInt32 := 6
def errorNoMoreFiles : UInt32 := 18
def errorDirNotEmpty : UInt32 := 145
def errorAlreadyExists : UInt32 := 183
def errorDirectory : UInt32 := 267
def errorNotAReparsePoint : UInt32 := 4390
def statusAccessDenied : UInt32 := 0xc0000022

class Clocked (σ : Type) where
  clock : σ → Nat
  tick : σ → σ

namespace Fs
variable {σ α : Type}

def ask [Clocked σ] (answer : Nat → α) : Program Stop σ α := fun s =>
  (.ok (answer (Clocked.clock s)),Clocked.tick s)

def throwWin32 (msg : ErrMsg) (args : List Wstr) (code : UInt32) : Program Stop σ α :=
  Program.raise (.lro (.fromWin32 msg args code))

def throwNt (msg : ErrMsg) (args : List Wstr) (status : UInt32) : Program Stop σ α :=
  Program.raise (.lro (.fromNt msg args status))

def throwOther (msg : ErrMsg) (args : List Wstr) : Program Stop σ α :=
  Program.raise (.lro (.fromOther msg args))

def withPath (path : Wstr) (x : Program Stop σ α) : Program Stop σ α :=
  catchLro x fun e => Program.raise (.lro (e.pushArg path))

variable [Clocked σ] (env : FsEnv)

def call (c : FsCall) : Program Stop σ UInt32 := ask fun time => env.status time c

def checkArchive (status : ArchiveStatus) : Program Stop σ Bool :=
  match status with
  | .ok => pure true
  | .eof => pure false
  | .warn => pure true
  | .failed text => throwOther .errArchive [text]

def openError (isDir create : Bool) : ErrMsg :=
  if isDir then .errOpenDir else if create then .errCreateFile else .errOpenFile

def openFile (path : Wstr) (isDir create : Bool) : Program Stop σ Unit := do
  let code ← call env (.openFile path isDir create)
  if code ≠ 0 then throwWin32 (openError isDir create) [path] code else pure ()

def getWinBuild : Program Stop σ UInt32 := do
  let code ← call env .getVersion
  if code ≠ 0 then throwOther .errGetVersion [] else pure env.build

/- `grant_delete_child` reports nothing, so only the second attempt behind it shows. -/
def setCsInfo (path : Wstr) : Program Stop σ Unit := do
  let sensitive ← call env (.queryCs path)
  if sensitive = 0 then pure () else do
    let status ← call env (.setCs path)
    if status = statusAccessDenied then do
      let again ← call env (.setCs path)
      if again ≠ 0 then throwNt .errSetCs [] again else pure ()
    else if status ≠ 0 then throwNt .errSetCs [] status else pure ()

def openListed (path : Wstr) : Program Stop σ Unit :=
  catchLro (do
    openFile env path true false
    let build ← getWinBuild env
    if build ≤ 20206 then setCsInfo env path else pure ()) fun e =>
      if e.msgCode = .errSetCs then Program.raise (.lro (e.pushArg path))
      else Program.raise (.lro e)

def getFileSize (path : Wstr) (size : UInt64) : Program Stop σ UInt64 := do
  let code ← call env (.fileSize path)
  if code ≠ 0 then throwWin32 .errFileSize [] code else pure size

/- The template parameter is the `pick` that a value of its size gets past. -/
def getEa (path : Wstr) (eas : EaName → Option EaValue) (name : EaName)
    (pick : EaValue → Option α) : Program Stop σ α := do
  let status ← call env (.queryEa path name)
  if status ≠ 0 then throwNt .errGetEa [] status
  else match (eas name).bind pick with
    | none => throwOther .errInvalidEa [name.text]
    | some a => pure a

def findNext (path : Wstr) : Program Stop σ Bool := do
  let code ← call env (.findNext path)
  if code = 0 then pure true
  else if code = errorNoMoreFiles then pure false
  else throwWin32 .errEnumDir [path] code

structure Ticks (x : Program Stop σ α) : Prop where
  keeps : ∀ inv : σ → Prop, (∀ s, inv s → inv (Clocked.tick s)) →
    Program.Triple inv x (fun _ => inv) (fun e s => inv s ∧ e ≠ .outOfFuel)

namespace Ticks
variable {β : Type} {x : Program Stop σ α}

theorem pure (a : α) : Ticks (Pure.pure a : Program Stop σ α) := ⟨fun _ _ _ h => h⟩

theorem raise (e : LroError) : Ticks (Program.raise (.lro e) : Program Stop σ α) :=
  ⟨fun _ _ _ h => ⟨h,nofun⟩⟩

theorem ask (answer : Nat → α) : Ticks (ask answer : Program Stop σ α) :=
  ⟨fun _ tick s h => tick s h⟩

theorem bind {f : α → Program Stop σ β} (hx : Ticks x) (hf : ∀ a, Ticks (f a)) :
    Ticks (x >>= f) :=
  ⟨fun inv tick => Program.Triple.bind (hx.keeps inv tick) fun a => (hf a).keeps inv tick⟩

theorem status {c : FsCall} {f : UInt32 → Program Stop σ α} (h : ∀ code, Ticks (f code)) :
    Ticks (call env c >>= f) := bind (ask _) h

theorem ite {c : Prop} [Decidable c] {x y : Program Stop σ α} (hx : c → Ticks x)
    (hy : ¬ c → Ticks y) : Ticks (if c then x else y) := by
  split
  · exact hx (by assumption)
  · exact hy (by assumption)

theorem catchLro {handler : LroError → Program Stop σ α} (hx : Ticks x)
    (hh : ∀ e, Ticks (handler e)) : Ticks (LxRunOffline.catchLro x handler) := by
  refine ⟨fun inv tick => Program.Triple.rescue (hx.keeps inv tick) fun e => ?_⟩
  cases e with
  | lro e => exact fun s h => (hh e).keeps inv tick s h.1
  | invalidArgument => exact fun _ h => h
  | badArrayLength => exact fun _ h => h
  | crash => exact fun _ h => h
  | outOfFuel => exact fun _ h => absurd rfl h.2

theorem setCsInfo (path : Wstr) : Ticks (Fs.setCsInfo env path : Program Stop σ Unit) := by
  refine status env fun _ => ite (fun _ => pure ()) fun _ => status env fun _ => ite (fun _ => ?_) ?_
  · exact status env fun _ => ite (fun _ => raise _) (fun _ => pure ())
  · exact fun _ => ite (fun _ => raise _) (fun _ => pure ())

theorem openListed (path : Wstr) : Ticks (Fs.openListed env path : Program Stop σ Unit) := by
  have opened : Ticks (Fs.openFile env path true false : Program Stop σ Unit) :=
    status env fun _ => ite (fun _ => raise _) (fun _ => pure ())
  have build : Ticks (getWinBuild env : Program Stop σ UInt32) :=
    status env fun _ => ite (fun _ => raise _) (fun _ => pure _)
  refine catchLro (bind opened fun _ => bind build fun _ => ?_) fun e => ?_
  · exact ite (fun _ => setCsInfo env path) (fun _ => pure ())
  · exact ite (fun _ => raise _) (fun _ => raise _)

theorem findNext (path : Wstr) : Ticks (Fs.findNext env path : Program Stop σ Bool) :=
  status env fun _ => ite (fun _ => pure _) fun _ => ite (fun _ => pure _) (fun _ => raise _)

end Ticks
end Fs

def zeroAttr : FileAttr := ⟨0,0,0,0,⟨0,0⟩,⟨0,0⟩,⟨0,0⟩,0,0,none⟩

def plainFs : FsEnv := ⟨fun _ _ => 0,fun _ _ => .ok,fun _ bytes => .took bytes.length,22000,fun _ => zeroAttr,.ok⟩

end LxRunOffline
