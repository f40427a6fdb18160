import LxRunOffline.ArchiveReader

/-! Which errors a copy can end in: the message of each and how many arguments it has by the time
it has passed the handlers between the call that failed and the caller of the reader. -/
namespace LxRunOffline

def Listed (kinds : List (ErrMsg × Nat)) (e : Stop) : Prop :=
  ∀ l, e = .lro l → (l.msgCode,l.msgArgs.length) ∈ kinds

def FsEnv.Grants (env : FsEnv) (c : FsCall) : Prop := ∀ time, env.status time c = 0

def Raises {σ α : Type} (kinds : List (ErrMsg × Nat)) (x : Program Stop σ α) : Prop :=
  Program.Triple (fun _ => True) x (fun _ _ => True) fun e _ => Listed kinds e

namespace Raises
variable {σ τ α β : Type} {kinds wider : List (ErrMsg × Nat)} {x : Program Stop σ α}
  {f : α → Program Stop σ β}

theorem bind (hx : Raises kinds x) (hf : ∀ a, Raises kinds (f a)) : Raises kinds (x >>= f) :=
  Program.Triple.bind hx hf

theorem pure (a : α) : Raises kinds (Pure.pure a : Program Stop σ α) := fun _ _ => trivial

theorem lro (l : LroError) (listed : (l.msgCode,l.msgArgs.length) ∈ kinds) :
    Raises kinds (Program.raise (.lro l) : Program Stop σ α) := by
  intro _ _ l' same
  cases same
  exact listed

theorem win32 {msg : ErrMsg} {args : List Wstr} (listed : (msg,args.length) ∈ kinds) (code : UInt32) :
    Raises kinds (Fs.throwWin32 msg args code : Program Stop σ α) := lro _ listed

theorem nt {msg : ErrMsg} {args : List Wstr} (listed : (msg,args.length) ∈ kinds) (status : UInt32) :
    Raises kinds (Fs.throwNt msg args status : Program Stop σ α) := lro _ listed

theorem other {msg : ErrMsg} {args : List Wstr} (listed : (msg,args.length) ∈ kinds) :
    Raises kinds (Fs.throwOther msg args : Program Stop σ α) := lro _ listed

theorem fuel : Raises kinds (Program.raise .outOfFuel : Program Stop σ α) := fun _ _ => nofun

theorem badArrayLength : Raises kinds (Program.raise .badArrayLength : Program Stop σ α) :=
  fun _ _ => nofun

theorem get {f : σ → Program Stop σ α} (h : ∀ s, Raises kinds (f s)) :
    Raises kinds (Program.get >>= f) := fun s _ => h s s trivial

theorem modify (f : σ → σ) : Raises kinds (Program.modify f : Program Stop σ Unit) :=
  fun _ _ => trivial

theorem ite {c : Prop} [Decidable c] {y : Program Stop σ α} (hx : c → Raises kinds x)
    (hy : ¬ c → Raises kinds y) : Raises kinds (if c then x else y) := Program.Triple.ite hx hy

theorem when {c : Prop} [Decidable c] {x : Program Stop σ Unit} (hx : c → Raises kinds x) :
    Raises kinds (Program.when c x) := ite hx fun _ => pure ()

theorem ask [Clocked σ] (answer : Nat → α) : Raises kinds (Fs.ask answer : Program Stop σ α) :=
  fun _ _ => trivial

theorem status [Clocked σ] {env : FsEnv} {c : FsCall} {f : UInt32 → Program Stop σ α}
    (h : ∀ code, Raises kinds (f code)) : Raises kinds (Fs.call env c >>= f) := bind (ask _) h

theorem granted [Clocked σ] {env : FsEnv} {c : FsCall} {f : UInt32 → Program Stop σ α}
    (granted : env.Grants c) (h : Raises kinds (f 0)) : Raises kinds (Fs.call env c >>= f) := by
  intro s _
  have zero : env.status (Clocked.clock s) c = 0 := granted _
  simp only [Fs.call,Fs.ask,Program.bindRun,zero]
  exact h _ trivial

theorem catchLro {handler : LroError → Program Stop σ α} {inner : List (ErrMsg × Nat)}
    (hx : Raises inner x) (hh : ∀ e, (e.msgCode,e.msgArgs.length) ∈ inner → Raises kinds (handler e)) :
    Raises kinds (LxRunOffline.catchLro x handler) := by
  refine Program.Triple.rescue hx fun e => ?_
  cases e with
  | lro l => exact fun s listed => hh l (listed l rfl) s trivial
  | invalidArgument => exact fun _ _ => nofun
  | badArrayLength => exact fun _ _ => nofun
  | crash => exact fun _ _ => nofun
  | outOfFuel => exact fun _ _ => nofun

theorem withPath {path : Wstr} {inner : List (ErrMsg × Nat)} (hx : Raises inner x)
    (pushed : ∀ k ∈ inner, (k.1,k.2+1) ∈ kinds) : Raises kinds (Fs.withPath path x) :=
  catchLro hx fun e listed => lro _ (by simpa [LroError.pushArg] using pushed _ listed)

theorem zoom {part : τ → σ} {put : τ → σ → τ} (hx : Raises kinds x) :
    Raises kinds (Program.zoom part put x) :=
  Program.Triple.zoom fun _ _ => Program.Triple.weaken hx (fun _ _ => trivial) (fun _ _ h => h)
    fun _ _ h => h

theorem forEach {step : α → Program Stop σ Unit} {items : List α} (h : ∀ a, Raises kinds (step a)) :
    Raises kinds (Program.forEach step items) := Program.Triple.forEach fun a _ => h a

theorem ensuring {unwinds : Stop → Bool} {cleanup : Program Stop σ Unit} (hx : Raises kinds x) :
    Raises kinds (Program.ensuring unwinds x cleanup) := Program.Triple.ensuring hx

theorem listed (h : Raises kinds x) {s : σ} {l : LroError} (thrown : (x s).1 = .error (.lro l)) :
    (l.msgCode,l.msgArgs.length) ∈ kinds := by
  have after := h s trivial
  rw [Program.returnedPair thrown] at after
  exact after l rfl

end Raises
namespace Fs
variable {σ : Type} {kinds : List (ErrMsg × Nat)}

theorem checkArchiveRaises (listed : (.errArchive,1) ∈ kinds) (status : ArchiveStatus) :
    Raises kinds (checkArchive status : Program Stop σ Bool) := by
  cases status with
  | failed text => exact .other listed
  | ok | eof | warn => exact .pure _

variable [Clocked σ] (env : FsEnv)

theorem openFileRaises {isDir create : Bool} (listed : (openError isDir create,1) ∈ kinds)
    (path : Wstr) : Raises kinds (openFile env path isDir create : Program Stop σ Unit) :=
  .status fun code => .ite (fun _ => .win32 listed code) fun _ => .pure ()

theorem openFileGranted {path : Wstr} {isDir create : Bool}
    (granted : env.Grants (.openFile path isDir create)) :
    Raises kinds (openFile env path isDir create : Program Stop σ Unit) :=
  .granted granted (.ite (fun failed => absurd rfl failed) fun _ => .pure ())

theorem setCsInfoRaises (listed : (.errSetCs,0) ∈ kinds) (path : Wstr) :
    Raises kinds (setCsInfo env path : Program Stop σ Unit) := by
  refine .status fun _ => .ite (fun _ => .pure ()) fun _ => .status fun status => .ite (fun _ => ?_) ?_
  · exact .status fun again => .ite (fun _ => .nt listed again) fun _ => .pure ()
  · exact fun _ => .ite (fun _ => .nt listed status) fun _ => .pure ()

theorem getWinBuildRaises (version : (.errGetVersion,0) ∈ kinds ∨ env.Grants .getVersion) :
    Raises kinds (getWinBuild env : Program Stop σ UInt32) := by
  rcases version with listed | granted
  · exact .status fun _ => .ite (fun _ => .other listed) fun _ => .pure _
  · exact .granted granted (.ite (fun failed => absurd rfl failed) fun _ => .pure _)

theorem getFileSizeRaises {path : Wstr} (sized : (.errFileSize,0) ∈ kinds ∨ env.Grants (.fileSize path))
    (size : UInt64) : Raises kinds (getFileSize env path size : Program Stop σ UInt64) := by
  rcases sized with listed | granted
  · exact .status fun code => .ite (fun _ => .win32 listed code) fun _ => .pure _
  · exact .granted granted (.ite (fun failed => absurd rfl failed) fun _ => .pure _)

theorem getEaRaises {α : Type} {path : Wstr} {name : EaName}
    (queried : (.errGetEa,0) ∈ kinds ∨ env.Grants (.queryEa path name))
    (valid : (.errInvalidEa,1) ∈ kinds) (eas : EaName → Option EaValue) (pick : EaValue → Option α) :
    Raises kinds (getEa env path eas name pick : Program Stop σ α) := by
  rcases queried with listed | granted
  · refine .status fun status => .ite (fun _ => .nt listed status) fun _ => ?_
    split
    · exact .other valid
    · exact .pure _
  · refine .granted granted (.ite (fun failed => absurd rfl failed) fun _ => ?_)
    split
    · exact .other valid
    · exact .pure _

theorem openListedRaises (opened : (.errOpenDir,1) ∈ kinds)
    (version : (.errGetVersion,0) ∈ kinds ∨ env.Grants .getVersion)
    (sensitive : (.errSetCs,1) ∈ kinds) (path : Wstr) :
    Raises kinds (openListed env path : Program Stop σ Unit) := by
  let inner : List (ErrMsg × Nat) := [(.errOpenDir,1),(.errSetCs,0)] ++
    if (.errGetVersion,0) ∈ kinds then [(.errGetVersion,0)] else []
  have build : Raises inner (getWinBuild env : Program Stop σ UInt32) :=
    getWinBuildRaises env (version.imp_left fun listed => by simp [inner,listed])
  refine .catchLro (.bind (openFileRaises env (by simp [inner,openError]) path) fun _ =>
    .bind build fun _ => .ite (fun _ => setCsInfoRaises env (by simp [inner]) path) fun _ => .pure ()) ?_
  intro e mem
  refine .ite (fun code => .lro _ ?_) fun code => .lro _ ?_
  · have none' : e.msgArgs.length = 0 := by
      simp only [inner,code] at mem
      split at mem <;> simpa using mem
    simpa [LroError.pushArg,code,none'] using sensitive
  · simp only [inner,List.mem_append,List.mem_cons,Prod.mk.injEq,List.not_mem_nil,or_false] at mem
    rcases mem with (⟨code',length⟩ | ⟨code',-⟩) | known
    · rw [code',length]
      exact opened
    · exact absurd code' code
    · split at known
      · rw [List.mem_singleton.mp known]
        assumption
      · contradiction

end Fs

def writerErrors : List (ErrMsg × Nat) :=
  [(.errOpenDir,1),(.errCreateFile,1),(.errCreateDir,1),(.errSetEa,2),(.errSetCs,1),
    (.errSetReparse,1),(.errSetFt,1),(.errWriteFile,1),(.errHardLink,2),(.errConvertEncoding,0),
    (.errArchive,1)]

def wslReaderErrors : List (ErrMsg × Nat) :=
  [(.errOpenFile,1),(.errOpenDir,1),(.errGetVersion,0),(.errSetCs,1),(.errEnumDir,1),
    (.errFileInfo,1),(.errFileSize,1),(.errGetEa,1),(.errGetFt,1),(.errReadFile,1),
    (.errSymlinkLength,2),(.errGetReparse,1)]

def archiveErrors : List (ErrMsg × Nat) :=
  [(.errFileSize,0),(.errArchive,1),(.errConvertEncoding,0)]

def FsEnv.Spares (env : FsEnv) : ErrMsg × Nat → Prop
  | (.errGetVersion,_) => env.Grants .getVersion
  | (.errGetEa,_) => ∀ path name, env.Grants (.queryEa path name)
  | _ => False

def ArchiveReader.Spares (r : ArchiveReader) (env : FsEnv) : ErrMsg × Nat → Prop
  | (.errFileSize,_) => env.Grants (.fileSize r.archivePath)
  | _ => False

namespace FilePath
variable {kinds : List (ErrMsg × Nat)}

theorem convertRaises (p : FilePath) : Raises kinds p.convert := by
  have put (c : WChar) : Raises kinds (put c) := fun _ _ => trivial
  have text (s : Wstr) : Raises kinds (putText s) := fun _ _ => trivial
  have both {x y : Program Stop FilePath Bool} (hx : Raises kinds x) (hy : Raises kinds y) :
      Raises kinds (Program.both x y) := .bind hx fun _ => .ite (fun _ => hy) fun _ => .pure _
  have units (special : WChar → Bool) (f : WChar → Wstr → Except Stop (WChar × Nat))
      (noLro : ∀ c rest e, f c rest = .error e → ∀ l, e ≠ .lro l) (skipped : Nat) (rel : Wstr) :
      Raises kinds (realConvert special f skipped rel) := by
    induction rel generalizing skipped with
    | nil =>
      rw [realConvert]
      exact put 0
    | cons c rest ih =>
      cases skipped with
      | succ skipped =>
        rw [realConvert]
        exact ih skipped
      | zero =>
        rw [realConvert]
        refine .ite (fun _ => ?_) fun _ => both (put _) (ih 0)
        split
        · rename_i e failed
          exact fun _ _ l is => absurd is (noLro c rest e failed l)
        · exact both (put _) (ih _)
  have v1 (rel : Wstr) : Raises kinds (realConvertV1 rel) := by
    refine units _ _ (fun c rest e failed l is => ?_) 0 rel
    rw [WslV1Path.convertSpecial] at failed
    split at failed
    · cases failed
      contradiction
    · contradiction
  have v2 (rel : Wstr) : Raises kinds (realConvertV2 rel) := by
    refine units _ _ (fun c rest e failed => ?_) 0 rel
    rw [WslV2Path.convertSpecial] at failed
    contradiction
  cases p with
  | linux p =>
    exact .ite (fun _ => .pure _) fun _ => .bind (.modify _) fun _ =>
      both (text _) (both (text _) (put 0))
  | wslV1 p => exact .bind (.modify _) fun _ => v1 _
  | wslV2 p => exact .bind (.modify _) fun _ => v2 _
  | wslLegacy p =>
    exact .ite (fun _ => .pure _) fun _ => .bind (.modify _) fun _ =>
      .ite (fun _ => both (text _) (v1 _)) fun _ => v1 _

end FilePath

section Writers
variable (env : FsEnv) {kinds : List (ErrMsg × Nat)}

namespace FsWriter

theorem setEaRaises (path : Wstr) (name : EaName) (value : EaValue) :
    Raises [(.errSetEa,1)] (setEa env path name value) :=
  .status fun status => .ite (fun _ => .nt (by simp) status) fun _ => .modify _

theorem checkAttrRaises (attr : Option FileAttr) (allowNull allowSock : Bool) :
    Raises kinds (checkAttr attr allowNull allowSock) :=
  .ite (fun _ => .pure _) fun _ => .bind (.modify _) fun _ => .pure _

theorem checkTargetRaises : Raises kinds checkTargetIgnored :=
  .get fun _ => .ite (fun _ => .bind (.modify _) fun _ => .pure _) fun _ => .pure _

theorem strlenRaises (attr : FileAttr) : Raises kinds (strlen attr) :=
  .ite (fun _ => .pure ()) fun _ => fun _ _ => nofun

theorem askLibraryRaises (c : FsCall) : Raises kinds (askLibrary env c) :=
  .bind (.ask _) fun _ => .bind (.modify _) fun _ => .pure _

end FsWriter

variable (writes : ∀ k ∈ writerErrors, k ∈ kinds)
include writes

namespace FsWriter

theorem writeDataRaises (hf : Option Wstr) (bytes : Bytes) : Raises kinds (writeData env hf bytes) := by
  refine .get fun s => ?_
  cases hf with
  | none => exact .win32 (writes _ (by simp [writerErrors])) _
  | some handle =>
    refine .status fun code => .ite (fun _ => ?_) fun _ => .modify _
    exact .win32 (writes _ (by simp [writerErrors])) code

theorem toUtf8Raises (text : Wstr) : Raises kinds (toUtf8 env text) :=
  .status fun code => .ite (fun _ => .win32 (writes _ (by simp [writerErrors])) code) fun _ => .pure ()

theorem writeHeaderRaises (path : Wstr) (e : FsEvent) : Raises kinds (writeHeader env path e) :=
  .bind (.modify _) fun _ => .bind (askLibraryRaises env _) fun stat =>
    .bind (Fs.checkArchiveRaises (writes _ (by simp [writerErrors])) stat) fun _ => .pure ()

end FsWriter
namespace ArchiveWriter
open FsWriter

theorem writeNewFileRaises (attr : Option FileAttr) : Raises kinds (writeNewFile env attr) := by
  have entry (a : FileAttr) : Raises kinds (writeEntry env a) :=
    .get fun _ => .ite (fun _ => .pure _) fun _ => .bind (toUtf8Raises env writes _) fun _ =>
      .bind (writeHeaderRaises env writes _ _) fun _ => .bind (.modify _) fun _ => .pure _
  refine .bind (checkAttrRaises attr false false) fun fine => ?_
  split
  · exact entry _
  · exact .pure _

theorem writeFileDataRaises (bytes : Bytes) : Raises kinds (writeFileData env bytes) := by
  refine .ite (fun _ => .pure ()) fun _ => .bind (.ask _) fun taken => .bind (.modify _) fun _ => ?_
  cases taken with
  | failed text => exact .other (writes _ (by simp [writerErrors]))
  | took count => exact .modify _

theorem writeHardLinkRaises : Raises kinds (writeHardLink env) := by
  have link : Raises kinds (linkEntry env) :=
    .get fun _ => .bind (toUtf8Raises env writes _) fun _ =>
      .bind (toUtf8Raises env writes _) fun _ => writeHeaderRaises env writes _ _
  exact .bind checkTargetRaises fun _ => .ite (fun _ => link) fun _ => .pure ()

end ArchiveWriter
namespace WslV2Writer
open FsWriter

theorem easRaises (path : Wstr) (attr : FileAttr) : Raises kinds (Fs.withPath path (setEas env path attr)) := by
  have eas : Raises [(.errSetEa,1)] (setEas env path attr) :=
    .bind (setEaRaises env path _ _) fun _ => .bind (setEaRaises env path _ _) fun _ =>
      .bind (setEaRaises env path _ _) fun _ => .when fun _ => setEaRaises env path _ _
  refine .withPath eas ?_
  simpa using writes _ (by simp [writerErrors])

theorem setReparseRaises (path : Wstr) (data : Option ReparseData) : Raises kinds (setReparse env path data) := by
  cases data with
  | none => exact .pure ()
  | some data =>
    refine .status fun code => .ite (fun _ => ?_) fun _ => .modify _
    exact .win32 (writes _ (by simp [writerErrors])) code

theorem setTimesRaises (path : Wstr) (attr : FileAttr) : Raises kinds (setTimes env path attr) := by
  refine .status fun code => .ite (fun _ => ?_) fun _ => .modify _
  exact .win32 (writes _ (by simp [writerErrors])) code

theorem storeAttrRaises (path : Wstr) (attr : FileAttr) : Raises kinds (storeAttr env path attr) :=
  .bind (easRaises env writes path attr) fun _ => .bind (setReparseRaises env writes path _) fun _ =>
    setTimesRaises env writes path attr

theorem realWriteAttrRaises (path : Wstr) (attr : FileAttr) : Raises kinds (realWriteAttr env path attr) :=
  .bind (easRaises env writes path attr) fun _ => .bind (strlenRaises attr) fun _ =>
    .bind (setReparseRaises env writes path _) fun _ => setTimesRaises env writes path attr

theorem storeDirRaises (dir : Wstr) (attr : FileAttr) {rest : List (Wstr × FileAttr)}
    {next : Copy Unit} (h : Raises kinds next) : Raises kinds (do
      Program.modify fun s => {s with dirAttr := rest}
      Fs.openFile env dir true false
      storeAttr env dir attr
      next) :=
  .bind (.modify _) fun _ =>
    .bind (Fs.openFileRaises env (writes _ (by simp [Fs.openError,writerErrors])) dir) fun _ =>
      .bind (storeAttrRaises env writes dir attr) fun _ => h

theorem flushRaises (path : Wstr) (dirs : List (Wstr × FileAttr)) :
    Raises kinds (flush env path dirs) := by
  induction dirs with
  | nil => exact .pure ()
  | cons dir rest ih => exact .ite (fun _ => .pure ()) fun _ => storeDirRaises env writes _ _ ih

theorem drainRaises (dirs : List (Wstr × FileAttr)) : Raises kinds (drain env dirs) := by
  induction dirs with
  | nil => exact .pure ()
  | cons dir rest ih => exact storeDirRaises env writes _ _ ih

theorem writeAttrRaises (path : Wstr) (attr : FileAttr) : Raises kinds (writeAttr env path attr) :=
  .ite (fun _ => .get fun _ => .bind (flushRaises env writes path _) fun _ => .modify _)
    fun _ => realWriteAttrRaises env writes path attr

end WslV2Writer
namespace WslWriter
open FsWriter
variable (w : Format)

theorem writeAttrRaises (path : Wstr) (attr : Option FileAttr) :
    Raises kinds (writeAttr env w path attr) := by
  cases attr with
  | none => exact .pure ()
  | some a =>
    refine .ite (fun _ => WslV2Writer.writeAttrRaises env writes path a) fun _ => ?_
    refine .bind (.withPath (setEaRaises env path _ _) ?_) fun _ => .bind (strlenRaises a) fun _ =>
      .when fun _ => writeDataRaises env writes _ _
    simpa using writes _ (by simp [writerErrors])

theorem createRaises (path : Wstr) (isDir : Bool) : Raises kinds (create env path isDir) := by
  have directory : Raises kinds (createDirectory env path) := by
    refine .status fun code => .ite (fun _ => .modify _) fun _ => .ite (fun _ => .pure ()) fun _ => ?_
    exact .win32 (writes _ (by simp [writerErrors])) code
  have opened (isDir create : Bool) (listed : (Fs.openError isDir create,1) ∈ writerErrors) :
      Raises kinds (Fs.openFile env path isDir create : Copy Unit) :=
    Fs.openFileRaises env (writes _ listed) path
  refine .ite (fun _ => .bind directory fun _ => opened true false ?_) fun _ =>
    .bind (opened false true ?_) fun _ => .modify _
  · simp [Fs.openError,writerErrors]
  · simp [Fs.openError,writerErrors]

theorem finishRaises (path : Wstr) (type : UInt32) : Raises kinds (finish env path type) := by
  refine .ite (fun _ => .modify _) fun _ => .ite (fun _ => .withPath
    (Fs.setCsInfoRaises env (List.mem_singleton_self _) path) ?_) fun _ => .pure ()
  simpa using writes _ (by simp [writerErrors])

theorem writeNewFileRaises (attr : Option FileAttr) : Raises kinds (writeNewFile env w attr) := by
  refine .bind (checkAttrRaises attr true true) fun _ => .ite (fun _ => .get fun s => ?_)
    fun _ => .pure _
  exact .bind (createRaises env writes _ _) fun _ => .bind (writeAttrRaises env writes w _ _)
    fun _ => .bind (finishRaises env writes _ _) fun _ => .bind (.modify _) fun _ => .pure _

theorem writeFileDataRaises (bytes : Bytes) : Raises kinds (writeFileData env bytes) :=
  .ite (fun _ => .modify _) fun _ => .get fun s => writeDataRaises env writes s.hfData bytes

theorem writeHardLinkRaises : Raises kinds (writeHardLink env) := by
  have link : Raises kinds (linkFile env) := by
    refine .get fun s => .bind (.modify _) fun _ => .status fun code => .ite (fun _ => ?_)
      fun _ => .pure ()
    exact .win32 (writes _ (by simp [writerErrors])) code
  exact .bind checkTargetRaises fun _ => .ite (fun _ => link) fun _ => .pure ()

end WslWriter
namespace FsWriter
variable (w : Format)

theorem writeNewFileRaises (attr : Option FileAttr) : Raises kinds (writeNewFile env w attr) :=
  .ite (fun _ => ArchiveWriter.writeNewFileRaises env writes attr)
    fun _ => WslWriter.writeNewFileRaises env writes w attr

theorem writeFileDataRaises (bytes : Bytes) : Raises kinds (writeFileData env w bytes) :=
  .ite (fun _ => ArchiveWriter.writeFileDataRaises env writes bytes)
    fun _ => WslWriter.writeFileDataRaises env writes bytes

theorem writeHardLinkRaises : Raises kinds (writeHardLink env w) :=
  .ite (fun _ => ArchiveWriter.writeHardLinkRaises env writes)
    fun _ => WslWriter.writeHardLinkRaises env writes

end FsWriter
end Writers

section Readers
variable (r : WslReader) (env : FsEnv) (w : Format) {kinds : List (ErrMsg × Nat)}
  (reads : ∀ k ∈ wslReaderErrors, k ∈ kinds ∨ env.Spares k)

namespace WslReader

theorem convertRaises (source : FilePath) (part : CopyState → FilePath)
    (put : CopyState → FilePath → CopyState) : Raises kinds (Program.zoom part put source.convert) :=
  .zoom (FilePath.convertRaises source)

include reads

theorem readsListed {k : ErrMsg × Nat} (mem : k ∈ wslReaderErrors) (plain : ¬ env.Spares k) :
    k ∈ kinds := (reads k mem).resolve_right plain

theorem openNodeRaises (path : Wstr) (dir : Bool) : Raises kinds (r.openNode env path dir) := by
  have listed : (Fs.openError dir false,1) ∈ kinds := by
    cases dir <;> exact readsListed env reads (by simp [Fs.openError,wslReaderErrors]) id
  refine .bind (Fs.openFileRaises env listed path) fun _ => ?_
  split
  · exact .win32 listed _
  · exact .pure _

theorem openListedRaises (path : Wstr) : Raises kinds (r.openListed env path) := by
  have opened : (ErrMsg.errOpenDir,1) ∈ kinds := readsListed env reads (by simp [wslReaderErrors]) id
  have sensitive : (ErrMsg.errSetCs,1) ∈ kinds := readsListed env reads (by simp [wslReaderErrors]) id
  have version := reads (.errGetVersion,0) (by simp [wslReaderErrors])
  exact .ite (fun _ => Fs.openListedRaises env opened version sensitive path)
    fun _ => .win32 opened _

theorem findFirstRaises (path : Wstr) : Raises kinds (r.findFirst env path) := by
  have listed : (ErrMsg.errEnumDir,1) ∈ kinds := readsListed env reads (by simp [wslReaderErrors]) id
  refine .status fun code => .ite (fun _ => .win32 listed code) fun _ => ?_
  split
  · exact .win32 listed _
  · exact .pure _

theorem findNextRaises (path : Wstr) : Raises kinds (Fs.findNext env path : Copy Bool) :=
  .status fun code => .ite (fun _ => .pure _) fun _ => .ite (fun _ => .pure _) fun _ =>
    .win32 (readsListed env reads (by simp [wslReaderErrors]) id) code

def attrErrors (kinds : List (ErrMsg × Nat)) : List (ErrMsg × Nat) :=
  [(.errInvalidEa,1),(.errFileSize,0)] ++ if (.errGetEa,1) ∈ kinds then [(.errGetEa,0)] else []

theorem orNullRaises {α : Type} {path : Wstr} {x : Copy (Option α)}
    (hx : Raises (attrErrors kinds) x) : Raises kinds (orNull path x) := by
  refine .catchLro hx fun e inner => .ite (fun _ => .pure _) fun other => .lro _ ?_
  simp only [attrErrors,List.mem_append,List.mem_cons,Prod.mk.injEq,List.not_mem_nil,or_false] at inner
  rcases inner with (⟨code,-⟩ | ⟨code,length⟩) | known
  · exact absurd code other
  · have listed : (ErrMsg.errFileSize,1) ∈ kinds := readsListed env reads (by simp [wslReaderErrors]) id
    simpa [LroError.pushArg,code,length] using listed
  · split at known
    · have known := List.mem_singleton.mp known
      obtain ⟨code,length⟩ := Prod.mk.inj known
      simpa [LroError.pushArg,code,length]
    · contradiction

theorem readAttrRaises (path : Wstr) (info : NodeInfo) : Raises kinds (r.readAttr env path info) := by
  have ea {α : Type} (name : EaName) (pick : EaValue → Option α) :
      Raises (attrErrors kinds) (Fs.getEa env path info.eas name pick : Copy α) := by
    refine Fs.getEaRaises env ((reads (.errGetEa,1) (by simp [wslReaderErrors])).imp (fun listed => ?_)
      fun granted => granted path name) (by simp [attrErrors]) info.eas pick
    simp [attrErrors,listed]
  have size : Raises (attrErrors kinds) (Fs.getFileSize env path info.size : Copy UInt64) :=
    Fs.getFileSizeRaises env (.inl (by simp [attrErrors])) info.size
  have eas : Raises kinds (readEas env path info) :=
    .bind (.ask _) fun attr => orNullRaises env reads (.bind (ea _ _) fun _ => .bind (ea _ _) fun _ =>
      .bind (ea _ _) fun _ => .bind size fun _ => .bind (.ite (fun _ => .bind (ea _ _) fun _ =>
        .pure _) fun _ => .pure _) fun _ => .pure _)
  have times (attr : FileAttr) : Raises kinds (readTimes env path info attr) :=
    .status fun code => .ite (fun _ => .win32 (readsListed env reads (by simp [wslReaderErrors]) id) code)
      fun _ => .pure _
  refine .ite (fun _ => .bind eas fun attr => ?_) fun _ => ?_
  · split
    · exact .pure _
    · exact .bind (times _) fun _ => .pure _
  · exact orNullRaises env reads (.bind (ea _ _) fun _ => .bind size fun _ => .pure _)

theorem readTargetRaises (path : Wstr) (size : Nat) (target : Bytes) (pieces : List Bytes) :
    Raises kinds (readTarget env path size target pieces) := by
  induction pieces generalizing target with
  | nil => exact .ite (fun _ => .pure _) fun _ => .fuel
  | cons piece rest ih =>
    refine .ite (fun _ => .pure _) fun _ => .status fun code => .ite (fun _ => ?_) fun _ => ih _
    exact .win32 (readsListed env reads (by simp [wslReaderErrors]) id) code

omit reads in
theorem copyTargetRaises (reparse : Option ReparseData) : Raises kinds (copyTarget reparse) := by
  cases reparse with
  | none => exact .pure _
  | some data =>
    refine .bind (.ite (fun _ => .pure ()) fun _ => .ite (fun _ => ?_) fun _ => ?_) fun _ => .pure _
    · exact fun _ _ => nofun
    · exact fun _ _ => nofun

theorem readSymlinkDataRaises (path : Wstr) (info : NodeInfo) :
    Raises kinds (r.readSymlinkData env path info) := by
  have size : Raises [(.errFileSize,0)] (Fs.getFileSize env path info.size : Copy UInt64) :=
    Fs.getFileSizeRaises env (.inl (by simp)) info.size
  refine .ite (fun _ => .status fun code => .ite (fun _ => copyTargetRaises _) fun _ => .ite (fun _ => .pure _)
    fun _ => .win32 (readsListed env reads (by simp [wslReaderErrors]) id) code) fun _ => ?_
  refine .bind (.withPath size ?_) fun n => .ite (fun _ => .other ?_) fun _ =>
    .bind (readTargetRaises env reads _ _ _ _) fun _ => .pure _
  · simpa using readsListed env reads (by simp [wslReaderErrors]) id
  · exact readsListed env reads (by simp [wslReaderErrors]) id

variable (writes : ∀ k ∈ writerErrors, k ∈ kinds)
include writes

theorem copyDataRaises (path : Wstr) (pieces : List Bytes) :
    Raises kinds (copyData env w path pieces) := by
  have listed : (ErrMsg.errReadFile,1) ∈ kinds := readsListed env reads (by simp [wslReaderErrors]) id
  induction pieces with
  | nil =>
    exact .status fun code => .ite (fun _ => .win32 listed code) fun _ =>
      FsWriter.writeFileDataRaises env writes w _
  | cons piece rest ih =>
    exact .status fun code => .ite (fun _ => .win32 listed code) fun _ =>
      .bind (FsWriter.writeFileDataRaises env writes w _) fun _ => .when fun _ => ih

theorem storeFileRaises (path : Wstr) (info : NodeInfo) (attr : Option FileAttr) :
    Raises kinds (storeFile env w path info attr) :=
  .bind (FsWriter.writeNewFileRaises env writes w attr) fun _ =>
    .ite (fun _ => .when fun _ => copyDataRaises env w reads writes _ _) fun _ => .pure ()

theorem copyFileRaises (path : Wstr) (info : NodeInfo) : Raises kinds (r.copyFile env w path info) := by
  refine .bind (readAttrRaises r env reads path info) fun attr => .ite (fun _ => ?_)
    fun _ => storeFileRaises env w reads writes _ _ _
  refine .bind (readSymlinkDataRaises r env reads path info) fun target => ?_
  split
  · exact storeFileRaises env w reads writes _ _ _
  · exact .pure ()

theorem visitFileRaises (path : Wstr) (info : NodeInfo) :
    Raises kinds (r.visitFile env w path info) := by
  have copied := copyFileRaises r env w reads writes path info
  refine .status fun code => .ite (fun _ => .win32 (readsListed env reads (by simp [wslReaderErrors]) id) code)
    fun _ => .ite (fun _ => .get fun s => ?_) fun _ => copied
  split
  · exact .bind (convertRaises _ _ _) fun _ =>
      .ite (fun _ => FsWriter.writeHardLinkRaises env writes w) fun _ => .pure ()
  · exact .bind (.modify _) fun _ => copied

theorem visitRaises (t : EnumDirType) : Raises kinds (r.visit env w t) := by
  have node (path : Wstr) (dir : Bool) : Raises kinds (r.visitNode env w path dir) := by
    refine .bind (convertRaises _ _ _) fun _ => .ite (fun _ => ?_) fun _ => .pure ()
    refine .bind (openNodeRaises r env reads path dir) fun info => .ite (fun _ => ?_)
      fun _ => visitFileRaises r env w reads writes path info
    exact .bind (readAttrRaises r env reads path info) fun _ =>
      .bind (FsWriter.writeNewFileRaises env writes w _) fun _ => .pure ()
  exact .ite (fun _ => .pure ()) fun _ => .get fun s => .ite (fun _ => .modify _) fun _ => node _ _

theorem runRaises (fuel : Nat) : Raises kinds (r.run env w fuel) := by
  refine .bind (.modify _) fun _ => ?_
  have steady : (r.api env).Steady (r.visit env w) (fun _ => True) (fun e _ => Listed kinds e) :=
    ⟨fun _ _ _ => nofun,fun _ _ _ => trivial,openListedRaises r env reads,findFirstRaises r env reads,
      findNextRaises env reads,visitRaises r env w reads writes⟩
  exact steady.walk fuel _

end WslReader
end Readers

section Archives
variable (r : ArchiveReader) (env : FsEnv) (w : Format) {kinds : List (ErrMsg × Nat)}
  (archives : ∀ k ∈ archiveErrors, k ∈ kinds ∨ r.Spares env k)
include archives

namespace ArchiveReader

theorem archivesListed {k : ErrMsg × Nat} (mem : k ∈ archiveErrors) (plain : ¬ r.Spares env k) :
    k ∈ kinds := (archives k mem).resolve_right plain

theorem fromUtf8Raises {α : Type} (text : Except UInt32 α) : Raises kinds (fromUtf8 text) := by
  cases text with
  | error code => exact .win32 (archivesListed r env archives (by simp [archiveErrors]) id) code
  | ok text => exact .pure _

theorem openArchiveRaises (opened : Raises kinds (Fs.openFile env r.archivePath false false : Copy Unit)) :
    Raises kinds (r.openArchive env) := by
  have status (stat : ArchiveStatus) : Raises kinds (Fs.checkArchive stat : Copy Bool) :=
    Fs.checkArchiveRaises (archivesListed r env archives (by simp [archiveErrors]) id) stat
  have size : Raises kinds (Fs.getFileSize env r.archivePath 0 : Copy UInt64) :=
    Fs.getFileSizeRaises env (archives (.errFileSize,0) (by simp [archiveErrors])) 0
  exact .bind opened fun _ => .bind size fun _ => .bind (.ask _) fun _ =>
    .bind (status _) fun _ => .bind (.ask _) fun _ => .bind (status _) fun _ => .bind (.ask _) fun _ =>
      .bind (status _) fun _ => .pure ()

variable (writes : ∀ k ∈ writerErrors, k ∈ kinds)
include writes

theorem readDataRaises (dataEnd : ArchiveStatus) (blocks : List ArchiveBlock) :
    Raises kinds (readData env w dataEnd blocks) := by
  have status (stat : ArchiveStatus) : Raises kinds (Fs.checkArchive stat : Copy Bool) :=
    Fs.checkArchiveRaises (archivesListed r env archives (by simp [archiveErrors]) id) stat
  induction blocks with
  | nil => exact .bind (status _) fun _ => FsWriter.writeFileDataRaises env writes w _
  | cons block rest ih =>
    exact .bind (status _) fun _ => .ite (fun _ =>
      .bind (FsWriter.writeFileDataRaises env writes w _) fun _ => ih)
      fun _ => FsWriter.writeFileDataRaises env writes w _

theorem extractRaises (e : ArchiveEntry) : Raises kinds (r.extract env w e) := by
  have name : Raises kinds (entryName e.pathname) := by
    unfold entryName
    split
    · exact .other (archivesListed r env archives (by simp [archiveErrors]) id)
    · exact fromUtf8Raises r env archives _
  have symlink : Raises kinds (readSymlink e) :=
    .ite (fun _ => .bind (fromUtf8Raises r env archives _) fun _ => .pure _) fun _ => .pure _
  have store : Raises kinds (storeEntry env w e) :=
    .bind symlink fun _ => .bind (FsWriter.writeNewFileRaises env writes w _) fun _ =>
      .ite (fun _ => .when fun _ => readDataRaises r env w archives writes _ _) fun _ => .pure ()
  refine .bind name fun _ => .bind (WslReader.convertRaises _ _ _) fun _ => .ite (fun _ => ?_)
    fun _ => .pure ()
  split
  · exact .bind (fromUtf8Raises r env archives _) fun _ => .bind (WslReader.convertRaises _ _ _) fun _ =>
      .ite (fun _ => FsWriter.writeHardLinkRaises env writes w) fun _ => .pure ()
  · exact store

theorem readEntriesRaises (entries : List ArchiveEntry) :
    Raises kinds (r.readEntries env w entries) := by
  have status (stat : ArchiveStatus) : Raises kinds (Fs.checkArchive stat : Copy Bool) :=
    Fs.checkArchiveRaises (archivesListed r env archives (by simp [archiveErrors]) id) stat
  induction entries with
  | nil => exact .bind (status _) fun _ => .pure ()
  | cons e rest ih =>
    exact .bind (status _) fun _ => .ite (fun _ =>
      .bind (extractRaises r env w archives writes e) fun _ => ih) fun _ => .pure ()

theorem unpackRaises : Raises kinds (do
    writeRoot env w
    r.readEntries env w r.entries) := by
  have root : Raises kinds (writeRoot env w) :=
    .bind (WslReader.convertRaises _ _ _) fun _ => .ite (fun _ =>
      .bind (FsWriter.writeNewFileRaises env writes w _) fun _ => .pure ()) fun _ => .pure ()
  exact .bind root fun _ => readEntriesRaises r env w archives writes r.entries

end ArchiveReader
end Archives
end LxRunOffline
