import LxRunOffline.ArchiveReader

/-! What the parts of a copy may append to the log, said once for each of them. Whether they
return or throw, they leave the two paths of the writer and its bookkeeping alone. -/
namespace LxRunOffline

structure Within (kind : FsEvent → Prop) (s t : CopyState) : Prop where
  path : t.path = s.path
  targetPath : t.targetPath = s.targetPath
  ignored : t.ignored = s.ignored
  idMap : t.idMap = s.idMap
  data : t.data = s.data
  isRoot : t.isRoot = s.isRoot
  log : ∃ more, t.log = s.log ++ more ∧ ∀ e ∈ more, kind e

namespace Within
variable {kind kind' : FsEvent → Prop} {s t u : CopyState}

theorem refl (s : CopyState) : Within kind s s := ⟨rfl,rfl,rfl,rfl,rfl,rfl,[],by simp,by simp⟩

theorem mono (h : Within kind s t) (wider : ∀ e, kind e → kind' e) : Within kind' s t := by
  obtain ⟨more,log,all⟩ := h.log
  exact ⟨h.path,h.targetPath,h.ignored,h.idMap,h.data,h.isRoot,more,log,
    fun e mem => wider e (all e mem)⟩

theorem trans (h : Within kind s t) (h' : Within kind t u) : Within kind s u := by
  obtain ⟨more,log,all⟩ := h.log
  obtain ⟨more',log',all'⟩ := h'.log
  refine ⟨h'.path.trans h.path,h'.targetPath.trans h.targetPath,h'.ignored.trans h.ignored,
    h'.idMap.trans h.idMap,h'.data.trans h.data,h'.isRoot.trans h.isRoot,more ++ more',
    by rw [log',log,List.append_assoc],?_⟩
  intro e mem
  exact (List.mem_append.mp mem).elim (all e) (all' e)

end Within

structure Emits {α : Type} (kind : FsEvent → Prop) (x : Copy α) : Prop where
  keeps : ∀ s, Program.Triple (Within kind s) x (fun _ => Within kind s) (fun _ => Within kind s)

namespace Emits
variable {kind kind' : FsEvent → Prop} {α β : Type} {x : Copy α}

theorem returned (h : Emits kind x) {s t : CopyState} {a : α} (run : x s = (.ok a,t)) :
    Within kind s t := by
  have ends := h.keeps s s (.refl s)
  rwa [run] at ends

theorem threw (h : Emits kind x) {s t : CopyState} {e : Stop} (run : x s = (.error e,t)) :
    Within kind s t := by
  have ends := h.keeps s s (.refl s)
  rwa [run] at ends

theorem final (h : Emits kind x) (s : CopyState) : Within kind s (x s).2 :=
  Program.endsBoth.mp (h.keeps s s (.refl s))

theorem ofFinal (h : ∀ s, Within kind s (x s).2) : Emits kind x :=
  ⟨fun _ s before => Program.endsBoth.mpr (before.trans (h s))⟩

theorem mono (h : Emits kind x) (wider : ∀ e, kind e → kind' e) : Emits kind' x :=
  ofFinal fun s => (h.final s).mono wider

theorem pure (a : α) : Emits kind (Pure.pure a : Copy α) := ⟨fun _ _ h => h⟩
theorem raise (e : Stop) : Emits kind (Program.raise e : Copy α) := ⟨fun _ _ h => h⟩

theorem bind {f : α → Copy β} (hx : Emits kind x) (hf : ∀ a, Emits kind (f a)) :
    Emits kind (x >>= f) :=
  ⟨fun r => Program.Triple.bind (hx.keeps r) fun a => (hf a).keeps r⟩

theorem get {f : CopyState → Copy α} (h : ∀ s, Emits kind (f s)) :
    Emits kind (Program.get >>= f) := ⟨fun r s hs => (h s).keeps r s hs⟩

theorem ite {c : Prop} [Decidable c] {x y : Copy α} (hx : c → Emits kind x)
    (hy : ¬ c → Emits kind y) : Emits kind (if c then x else y) := by
  split
  · exact hx (by assumption)
  · exact hy (by assumption)

theorem when {c : Prop} [Decidable c] {x : Copy Unit} (hx : c → Emits kind x) :
    Emits kind (Program.when c x) := ite hx fun _ => .pure ()

theorem catchLro {handler : LroError → Copy α} (hx : Emits kind x)
    (hh : ∀ e, Emits kind (handler e)) : Emits kind (LxRunOffline.catchLro x handler) := by
  refine ⟨fun r => Program.Triple.rescue (hx.keeps r) fun e => ?_⟩
  cases e with
  | lro e => exact (hh e).keeps r
  | invalidArgument => exact fun _ h => h
  | badArrayLength => exact fun _ h => h
  | crash => exact fun _ h => h
  | outOfFuel => exact fun _ h => h

theorem withPath (path : Wstr) (hx : Emits kind x) : Emits kind (Fs.withPath path x) :=
  hx.catchLro fun _ => .raise _

theorem ask (answer : Nat → α) : Emits kind (Fs.ask answer : Copy α) :=
  ofFinal fun _ => ⟨rfl,rfl,rfl,rfl,rfl,rfl,[],by simp [Fs.ask,Clocked.tick],by simp⟩

theorem note {e : FsEvent} (h : kind e) : Emits kind (FsWriter.note e) :=
  ofFinal fun _ => ⟨rfl,rfl,rfl,rfl,rfl,rfl,[e],rfl,by simpa using h⟩

theorem status {env : FsEnv} {c : FsCall} {f : UInt32 → Copy α} (h : ∀ code, Emits kind (f code)) :
    Emits kind (Fs.call env c >>= f) := .bind (.ask _) h

theorem answer (a : ArchiveAnswer) : Emits kind (FsWriter.answer a) :=
  .ofFinal fun _ => ⟨rfl,rfl,rfl,rfl,rfl,rfl,[],(List.append_nil _).symm,by simp⟩

theorem askLibrary (env : FsEnv) (c : FsCall) : Emits kind (FsWriter.askLibrary env c) :=
  .bind (.ask _) fun stat => .bind (.answer _) fun _ => .pure stat

theorem strlen (attr : FileAttr) : Emits kind (FsWriter.strlen attr) :=
  .ite (fun _ => .pure ()) fun _ => .raise _

theorem checkArchive (status : ArchiveStatus) : Emits kind (Fs.checkArchive status : Copy Bool) := by
  cases status <;> first | exact .pure _ | exact .raise _

theorem openFile (env : FsEnv) (path : Wstr) (isDir create : Bool) :
    Emits kind (Fs.openFile env path isDir create : Copy Unit) :=
  .status fun _ => .ite (fun _ => .raise _) (fun _ => .pure ())

theorem getWinBuild (env : FsEnv) : Emits kind (Fs.getWinBuild env : Copy UInt32) :=
  .status fun _ => .ite (fun _ => .raise _) (fun _ => .pure _)

theorem setCsInfo (env : FsEnv) (path : Wstr) : Emits kind (Fs.setCsInfo env path : Copy Unit) := by
  refine .status fun _ => .ite (fun _ => .pure ()) fun _ => .status fun _ => .ite (fun _ => ?_) ?_
  · exact .status fun _ => .ite (fun _ => .raise _) (fun _ => .pure ())
  · exact fun _ => .ite (fun _ => .raise _) (fun _ => .pure ())

theorem openListed (env : FsEnv) (path : Wstr) :
    Emits kind (Fs.openListed env path : Copy Unit) := by
  refine .catchLro (.bind (.openFile ..) fun _ => .bind (.getWinBuild env) fun _ => ?_) fun e => ?_
  · exact .ite (fun _ => .setCsInfo env path) (fun _ => .pure ())
  · exact .ite (fun _ => .raise _) (fun _ => .raise _)

theorem getFileSize (env : FsEnv) (path : Wstr) (size : UInt64) :
    Emits kind (Fs.getFileSize env path size : Copy UInt64) :=
  .status fun _ => .ite (fun _ => .raise _) (fun _ => .pure _)

theorem getEa (env : FsEnv) (path : Wstr) (eas : EaName → Option EaValue) (name : EaName)
    (pick : EaValue → Option α) : Emits kind (Fs.getEa env path eas name pick : Copy α) := by
  refine .status fun _ => .ite (fun _ => .raise _) fun _ => ?_
  split
  · exact .raise _
  · exact .pure _

theorem findNext (env : FsEnv) (path : Wstr) : Emits kind (Fs.findNext env path : Copy Bool) :=
  .status fun _ => .ite (fun _ => .pure _) fun _ => .ite (fun _ => .pure _) (fun _ => .raise _)

end Emits

structure Logs {α : Type} (e : FsEvent) (x : Copy α) : Prop where
  ends : ∀ s a t, x s = (.ok a,t) → e ∈ t.log

namespace Logs
variable {e : FsEvent} {α β : Type} {x : Copy α} {f : α → Copy β}

theorem note (e : FsEvent) : Logs e (FsWriter.note e) := by
  refine ⟨fun s a t run => ?_⟩
  obtain ⟨-,rfl⟩ := Prod.mk.inj run
  simp

theorem first (h : Logs e x) (rest : ∀ a, Emits (fun _ => True) (f a)) : Logs e (x >>= f) := by
  refine ⟨fun s b u run => ?_⟩
  obtain ⟨a,t,first,run⟩ := Program.bindOkSource run
  obtain ⟨more,log,-⟩ := ((rest a).returned run).log
  simp [log,h.ends s a t first]

theorem later (h : ∀ a, Logs e (f a)) : Logs e (x >>= f) := by
  refine ⟨fun s b u run => ?_⟩
  obtain ⟨a,t,-,run⟩ := Program.bindOkSource run
  exact (h a).ends t b u run

end Logs

inductive AttrEvent : FsEvent → Prop
  | ea (path : Wstr) (name : EaName) (value : EaValue) : AttrEvent (.ea path name value)
  | reparse (path : Wstr) (data : ReparseData) : AttrEvent (.reparse path data)
  | times (path : Wstr) (access write change : UInt64) :
      AttrEvent (.times path access write change)

inductive FileEvent (path : Wstr) : FsEvent → Prop
  | attr {e : FsEvent} (h : AttrEvent e) : FileEvent path e
  | wrote (bytes : Bytes) : FileEvent path (.wrote path bytes)
  | createdDirectory : FileEvent path (.createdDirectory path)
  | createdFile : FileEvent path (.createdFile path)
  | header (attr : FileAttr) : FileEvent path (.header path attr)

inductive DataEvent : FsEvent → Prop
  | wrote (path : Wstr) (bytes : Bytes) : DataEvent (.wrote path bytes)
  | archiveData (bytes : Bytes) : DataEvent (.archiveData bytes)

def TargetEvent (path : Wstr) (attr : FileAttr) (e : FsEvent) : Prop :=
  attr.type = aeIflnk ∧ ∃ bytes, e = .wrote path bytes

namespace FsWriter
variable {kind : FsEvent → Prop} (env : FsEnv)

theorem setEaEmits (path : Wstr) (name : EaName) (value : EaValue) :
    Emits AttrEvent (setEa env path name value) :=
  .status fun _ => .ite (fun _ => .raise _) (fun _ => .note (.ea path name value))

theorem writeDataEmits (hf : Option Wstr) (bytes : Bytes) :
    Emits (fun e => ∃ path, hf = some path ∧ e = .wrote path bytes) (writeData env hf bytes) := by
  refine .get fun s => ?_
  cases hf with
  | none => exact .raise _
  | some path =>
    exact .status fun _ => .ite (fun _ => .raise _) (fun _ => .note ⟨path,rfl,rfl⟩)

theorem toUtf8Emits (text : Wstr) : Emits kind (toUtf8 env text) :=
  .status fun _ => .ite (fun _ => .raise _) (fun _ => .pure ())

theorem writeHeaderEmits (path : Wstr) {e : FsEvent} (h : kind e) :
    Emits kind (writeHeader env path e) :=
  .bind (.note h) fun _ => .bind (.askLibrary ..) fun _ => .bind (.checkArchive _) fun _ => .pure ()

end FsWriter

theorem ArchiveWriter.destroyEmits {kind : FsEvent → Prop} (env : FsEnv) :
    Emits kind (ArchiveWriter.destroy env) :=
  .ofFinal fun _ => ⟨rfl,rfl,rfl,rfl,rfl,rfl,[],(List.append_nil _).symm,by simp⟩

namespace WslWriter
open FsWriter
variable (env : FsEnv) (format : Format)

theorem v1AttrEmits (path : Wstr) (attr : FileAttr) :
    Emits (fun e => AttrEvent e ∨ TargetEvent path attr e) (WslV1Writer.writeAttr env path attr) := by
  refine .bind (.withPath path ((setEaEmits ..).mono fun _ => .inl)) fun _ =>
    .bind (.strlen attr) fun _ => .when fun link => ?_
  refine (writeDataEmits ..).mono ?_
  rintro e ⟨path',same,rfl⟩
  cases same
  exact .inr ⟨link,_,rfl⟩

theorem setEasEmits (path : Wstr) (attr : FileAttr) : Emits AttrEvent (WslV2Writer.setEas env path attr) :=
  .bind (setEaEmits ..) fun _ => .bind (setEaEmits ..) fun _ => .bind (setEaEmits ..) fun _ =>
    .when fun _ => setEaEmits ..

theorem storeAttrEmits (path : Wstr) (attr : FileAttr) :
    Emits AttrEvent (WslV2Writer.storeAttr env path attr) := by
  have reparse (data : Option ReparseData) : Emits AttrEvent (WslV2Writer.setReparse env path data) := by
    cases data with
    | none => exact .pure ()
    | some data => exact .status fun _ => .ite (fun _ => .raise _) (fun _ => .note (.reparse ..))
  exact .bind (.withPath path (setEasEmits ..)) fun _ => .bind (reparse _) fun _ =>
    .status fun _ => .ite (fun _ => .raise _) (fun _ => .note (.times ..))

theorem realAttrEmits (path : Wstr) (attr : FileAttr) :
    Emits AttrEvent (WslV2Writer.realWriteAttr env path attr) := by
  by_cases whole : attr.Whole
  · exact WslV2Writer.realWriteAttrWhole env whole path ▸ storeAttrEmits ..
  · exact WslV2Writer.realWriteAttrTorn env whole path ▸ .bind (.withPath path (setEasEmits ..)) fun _ => .raise _

theorem flushEmits (path : Wstr) (dirs : List (Wstr × FileAttr)) :
    Emits AttrEvent (WslV2Writer.flush env path dirs) := by
  induction dirs with
  | nil => exact .pure ()
  | cons dir rest ih =>
    have popped : Emits AttrEvent (Program.modify fun s => {s with dirAttr := rest}) :=
      .ofFinal fun _ => ⟨rfl,rfl,rfl,rfl,rfl,rfl,[],by simp,by simp⟩
    exact .ite (fun _ => .pure ()) fun _ => .bind popped fun _ => .bind (.openFile ..) fun _ =>
      .bind (storeAttrEmits ..) fun _ => ih

theorem v2AttrEmits (path : Wstr) (attr : FileAttr) :
    Emits AttrEvent (WslV2Writer.writeAttr env path attr) :=
  .ite (fun _ => .get fun s => .bind (flushEmits ..) fun _ =>
      .ofFinal fun _ => ⟨rfl,rfl,rfl,rfl,rfl,rfl,[],by simp,by simp⟩)
    (fun _ => realAttrEmits ..)

theorem writeAttrEmits (path : Wstr) (attr : Option FileAttr) :
    Emits (fun e => AttrEvent e ∨ ∃ a, attr = some a ∧ TargetEvent path a e)
      (writeAttr env format path attr) := by
  cases attr with
  | none => exact .pure ()
  | some a =>
    refine .ite (fun _ => (v2AttrEmits ..).mono fun _ => .inl) (fun _ => (v1AttrEmits ..).mono ?_)
    exact fun e => Or.imp_right fun target => ⟨a,rfl,target⟩

theorem createEmits (path : Wstr) (isDir : Bool) : Emits (FileEvent path) (create env path isDir) := by
  refine .ite (fun _ => .bind ?_ fun _ => .openFile ..)
    (fun _ => .bind (.openFile ..) fun _ => .note .createdFile)
  exact .status fun _ => .ite (fun _ => .note .createdDirectory) fun _ =>
    .ite (fun _ => .pure ()) (fun _ => .raise _)

theorem finishEmits {kind : FsEvent → Prop} (path : Wstr) (type : UInt32) :
    Emits kind (finish env path type) :=
  .ite (fun _ => .ofFinal fun _ => ⟨rfl,rfl,rfl,rfl,rfl,rfl,[],by simp,by simp⟩) fun _ =>
    .ite (fun _ => .withPath path (.setCsInfo ..)) (fun _ => .pure ())

end WslWriter
namespace FsWriter
variable (env : FsEnv) (w : Format)

def Stored (s : CopyState) : Except Stop Bool × CopyState → Prop
  | (.ok true,t) => ∃ u, Within (FileEvent s.path.data) s u ∧
      t = {u with log := u.log ++ [.accepted s.path.data]}
  | (.ok false,t) => t = {s with ignored := s.path.data :: s.ignored} ∨
      w = .linux ∧ s.path.data = [] ∧ t = s
  | (.error _,t) => Within (FileEvent s.path.data) s t

theorem storedAfter {s : CopyState} {x : Copy Unit} (h : Emits (FileEvent s.path.data) x) :
    Stored w s ((x >>= fun _ => do note (.accepted s.path.data); pure true) s) := by
  rw [Program.bindRun]
  cases run : x s with
  | mk outcome u =>
    cases outcome with
    | ok _ => exact ⟨u,h.returned run,rfl⟩
    | error e => exact h.threw run

theorem archiveEntryStored (s : CopyState) (attr : FileAttr) :
    Stored .linux s (ArchiveWriter.writeEntry env attr s) := by
  rw [ArchiveWriter.writeEntry,Program.bindRun,Program.getRun]
  by_cases empty : s.path.data = []
  · have same : s.path.data.isEmpty = true := by simp [empty]
    simp only [same,↓reduceIte]
    exact .inr ⟨rfl,empty,rfl⟩
  · have some' : s.path.data.isEmpty = false := by simp [empty]
    simp only [some',Bool.false_eq_true,↓reduceIte]
    have wrote : Emits (FileEvent s.path.data) (do
        toUtf8 env s.path.data
        writeHeader env s.path.data (.header s.path.data (ArchiveWriter.entryOf attr))) :=
      .bind (toUtf8Emits ..) fun _ => writeHeaderEmits _ _ (.header _)
    have stored := storedAfter .linux wrote
    rwa [Program.bindAssoc] at stored

theorem wslFileStored (s : CopyState) (attr : Option FileAttr) :
    Stored w s (WslWriter.writeFile env w attr s) := by
  rw [WslWriter.writeFile,Program.bindRun,Program.getRun]
  have attrs : Emits (FileEvent s.path.data) (WslWriter.writeAttr env w s.path.data attr) := by
    refine (WslWriter.writeAttrEmits ..).mono ?_
    rintro e (h | ⟨a,-,-,bytes,rfl⟩)
    · exact .attr h
    · exact .wrote bytes
  have wrote : Emits (FileEvent s.path.data) (do
      WslWriter.create env s.path.data (typeOf attr = aeIfdir)
      WslWriter.writeAttr env w s.path.data attr
      WslWriter.finish env s.path.data (typeOf attr)) :=
    .bind (WslWriter.createEmits ..) fun _ => .bind attrs fun _ => WslWriter.finishEmits ..
  have stored := storedAfter w wrote
  simpa only [Program.bindAssoc] using stored

theorem checkAttrRun (attr : Option FileAttr) (allowNull allowSock : Bool) (s : CopyState) :
    checkAttr attr allowNull allowSock s = if passes attr allowNull allowSock then (.ok true,s)
      else (.ok false,{s with ignored := s.path.data :: s.ignored}) := by
  unfold checkAttr
  split <;> rfl

theorem archiveAccepts {a : FileAttr} (accepts : passes (some a) false false = true) (s : CopyState) :
    writeNewFile env .linux (some a) s = ArchiveWriter.writeEntry env a s := by
  rw [writeNewFile,if_pos rfl,ArchiveWriter.writeNewFile,Program.bindRun,checkAttrRun,if_pos accepts]

variable {attr : Option FileAttr} {w}

theorem wslAccepts (wsl : w ≠ .linux) (accepts : passes attr true true = true) (s : CopyState) :
    writeNewFile env w attr s = WslWriter.writeFile env w attr s := by
  rw [writeNewFile,if_neg wsl,WslWriter.writeNewFile,Program.bindRun,checkAttrRun,if_pos accepts]
  rfl

theorem wslRefuses (wsl : w ≠ .linux) (refuses : ¬ passes attr true true = true) (s : CopyState) :
    writeNewFile env w attr s = (.ok false,{s with ignored := s.path.data :: s.ignored}) := by
  rw [writeNewFile,if_neg wsl,WslWriter.writeNewFile,Program.bindRun,checkAttrRun,if_neg refuses]
  rfl

variable (w)

theorem writeNewFileStored (attr : Option FileAttr) (s : CopyState) :
    Stored w s (writeNewFile env w attr s) := by
  by_cases linux : w = .linux
  · subst linux
    cases attr with
    | none => exact .inl rfl
    | some a =>
      cases accepts : passes (some a) false false with
      | true =>
        rw [archiveAccepts env accepts]
        exact archiveEntryStored env s a
      | false =>
        rw [writeNewFile,if_pos rfl,ArchiveWriter.writeNewFile,Program.bindRun,checkAttrRun,accepts]
        exact .inl rfl
  · by_cases accepts : passes attr true true = true
    · rw [wslAccepts env linux accepts]
      exact wslFileStored env w s attr
    · rw [wslRefuses env linux accepts]
      exact .inl rfl

theorem refusedLink {s : CopyState} (known : s.targetPath.data ∈ s.ignored) :
    writeHardLink env w s = (.ok (),{s with ignored := s.path.data :: s.ignored}) := by
  have check : checkTargetIgnored s =
      (.ok false,{s with ignored := s.path.data :: s.ignored}) := by
    simp [checkTargetIgnored,Program.bindRun,known,ignorePath]
  unfold writeHardLink
  split
  · rw [ArchiveWriter.writeHardLink,Program.bindOk check]
    rfl
  · rw [WslWriter.writeHardLink,Program.bindOk check]
    rfl

theorem freeLink {s : CopyState} (free : s.targetPath.data ∉ s.ignored) :
    ∃ x : Copy Unit, writeHardLink env w s = x s ∧
      Emits (fun e => e = .hardLink s.path.data s.targetPath.data) x ∧
      Logs (.hardLink s.path.data s.targetPath.data) x := by
  have check : checkTargetIgnored s = (.ok true,s) := by
    simp [checkTargetIgnored,Program.bindRun,free]
  unfold writeHardLink
  split
  · refine ⟨do
      toUtf8 env s.path.data
      toUtf8 env s.targetPath.data
      writeHeader env s.path.data (.hardLink s.path.data s.targetPath.data),
      Program.bindOk check,?_,?_⟩
    · exact .bind (toUtf8Emits ..) fun _ => .bind (toUtf8Emits ..) fun _ => writeHeaderEmits _ _ rfl
    · exact .later fun _ => .later fun _ => .first (.note _) fun _ => .bind (.askLibrary ..) fun _ =>
        .bind (.checkArchive _) fun _ => .pure ()
  · refine ⟨do
      note (.hardLink s.path.data s.targetPath.data)
      let code ← Fs.call env (.createHardLink s.path.data s.targetPath.data)
      if code ≠ 0 then Fs.throwWin32 .errHardLink [s.path.data,s.targetPath.data] code
      else pure (),Program.bindOk check,?_,?_⟩
    · exact .bind (.note rfl) fun _ => .status fun _ => .ite (fun _ => .raise _) (fun _ => .pure ())
    · exact .first (.note _) fun _ => .status fun _ => .ite (fun _ => .raise _) (fun _ => .pure ())

theorem emittedLink {s : CopyState} (free : s.targetPath.data ∉ s.ignored) :
    Within (fun e => e = .hardLink s.path.data s.targetPath.data) s (writeHardLink env w s).2 := by
  obtain ⟨x,run,emits,_⟩ := freeLink env w free
  rw [run]
  exact emits.final s

theorem loggedLink {s t : CopyState} (free : s.targetPath.data ∉ s.ignored)
    (run : writeHardLink env w s = (.ok (),t)) :
    .hardLink s.path.data s.targetPath.data ∈ t.log := by
  obtain ⟨x,is,_,logs⟩ := freeLink env w free
  exact logs.ends s () t (is.symm.trans run)

theorem writeFileDataEmits (bytes : Bytes) : Emits DataEvent (writeFileData env w bytes) := by
  refine .ite (fun _ => .ite (fun _ => .pure ()) fun _ => .bind (.ask _) fun taken =>
    .bind (.answer _) fun _ => ?_) (fun _ => .ite (fun _ => ?_) fun _ => .get fun s => (writeDataEmits ..).mono ?_)
  · cases taken with
    | failed text => exact .raise _
    | took count => exact .note (.archiveData _)
  · exact .ofFinal fun _ => ⟨rfl,rfl,rfl,rfl,rfl,rfl,[],by simp,by simp⟩
  · rintro e ⟨path,-,rfl⟩
    exact .wrote path bytes

end FsWriter

namespace WslReader
variable {kind : FsEvent → Prop} (r : WslReader) (env : FsEnv) (w : Format)

theorem orNullEmits {α : Type} (path : Wstr) {x : Copy (Option α)} (hx : Emits kind x) :
    Emits kind (orNull path x) :=
  hx.catchLro fun _ => .ite (fun _ => .pure _) (fun _ => .raise _)

theorem readAttrV1Emits (path : Wstr) (info : NodeInfo) :
    Emits kind (readAttrV1 env path info) :=
  orNullEmits path (.bind (.getEa ..) fun _ => .bind (.getFileSize ..) fun _ => .pure _)

theorem readEasEmits (path : Wstr) (info : NodeInfo) : Emits kind (readEas env path info) := by
  have dev (attr : FileAttr) : Emits kind (readDev env path info attr) :=
    .ite (fun _ => .bind (.getEa ..) fun _ => .pure _) (fun _ => .pure _)
  exact .bind (.ask _) fun _ => orNullEmits path (.bind (.getEa ..) fun _ => .bind (.getEa ..)
    fun _ => .bind (.getEa ..) fun _ => .bind (.getFileSize ..) fun _ => .bind (dev _)
    fun _ => .pure _)

theorem readTimesEmits (path : Wstr) (info : NodeInfo) (attr : FileAttr) :
    Emits kind (readTimes env path info attr) :=
  .status fun _ => .ite (fun _ => .raise _) (fun _ => .pure _)

theorem readAttrEmits (path : Wstr) (info : NodeInfo) : Emits kind (r.readAttr env path info) := by
  refine .ite (fun _ => .bind (readEasEmits ..) fun read => ?_) (fun _ => readAttrV1Emits ..)
  cases read with
  | none => exact .pure _
  | some attr => exact .bind (readTimesEmits ..) fun _ => .pure _

theorem readTargetEmits (path : Wstr) (size : Nat) (target : Bytes) (reads : List Bytes) :
    Emits kind (readTarget env path size target reads) := by
  induction reads generalizing target with
  | nil => exact .ite (fun _ => .pure _) (fun _ => .raise _)
  | cons piece rest ih =>
    exact .ite (fun _ => .pure _) fun _ => .status fun _ => .ite (fun _ => .raise _) (fun _ => ih _)

theorem copyTargetEmits (reparse : Option ReparseData) : Emits kind (copyTarget reparse) := by
  cases reparse with
  | none => exact .pure _
  | some data =>
    exact .bind (.ite (fun _ => .pure ()) fun _ => .ite (fun _ => .raise _) fun _ => .raise _) fun _ => .pure _

theorem copyTargetSource {reparse : Option ReparseData} {target : Option Bytes} {s t : CopyState}
    (run : copyTarget reparse s = (.ok target,t)) : target = reparse.bind symlinkTarget ∧ t = s := by
  cases reparse with
  | none =>
    cases run
    exact ⟨rfl,rfl⟩
  | some data =>
    obtain ⟨_,u,allocated,run⟩ := Program.bindOkSource run
    cases run
    rw [allocateTarget] at allocated
    split at allocated
    · cases allocated
      exact ⟨rfl,rfl⟩
    · split at allocated <;> cases allocated

theorem copyTargetNone {reparse : Option ReparseData} {s t : CopyState} (run : copyTarget reparse s = (.ok none,t)) :
    ∀ data ∈ reparse, data.tag ≠ tagLxSymlink := by
  rintro data rfl link
  obtain ⟨_,u,allocated,run⟩ := Program.bindOkSource run
  have none' : symlinkTarget data = none := Except.ok.inj (Prod.mk.inj run).1
  rw [symlinkTarget] at none'
  rw [allocateTarget] at allocated
  by_cases fits : 4 ≤ data.dataLength
  · rw [if_pos ⟨link,fits⟩] at none'
    cases none'
  · rw [if_neg fun either => either.elim (fun other => other link) fits] at allocated
    split at allocated <;> cases allocated

theorem copyTargetFound {reparse : Option ReparseData} {target : Bytes}
    (found : reparse.bind symlinkTarget = some target) (s : CopyState) :
    copyTarget reparse s = (.ok (some target),s) := by
  obtain ⟨data,rfl,is⟩ := Option.bind_eq_some_iff.mp found
  have fits : data.tag = tagLxSymlink ∧ 4 ≤ data.dataLength := by
    by_contra short
    rw [symlinkTarget,if_neg short] at is
    cases is
  have allocated : allocateTarget data s = (.ok (),s) := by
    rw [allocateTarget,if_pos (.inr fits.2)]
    rfl
  rw [copyTarget,Program.bindOk allocated,is]
  rfl

theorem readSymlinkDataEmits (path : Wstr) (info : NodeInfo) :
    Emits kind (r.readSymlinkData env path info) := by
  refine .ite (fun _ => .status fun _ => ?_) (fun _ => .bind (.withPath path (.getFileSize ..)) ?_)
  · exact .ite (fun _ => copyTargetEmits info.reparse) fun _ => .ite (fun _ => .pure _) (fun _ => .raise _)
  · exact fun _ => .ite (fun _ => .raise _) fun _ => .bind (readTargetEmits ..) fun _ => .pure _

theorem copyDataEmits (path : Wstr) (reads : List Bytes) :
    Emits DataEvent (copyData env w path reads) := by
  induction reads with
  | nil =>
    exact .status fun _ => .ite (fun _ => .raise _) (fun _ => FsWriter.writeFileDataEmits ..)
  | cons piece rest ih =>
    exact .status fun _ => .ite (fun _ => .raise _) fun _ =>
      .bind (FsWriter.writeFileDataEmits ..) fun _ => .when fun _ => ih

theorem openListedEmits (path : Wstr) : Emits kind (r.openListed env path) :=
  .ite (fun _ => .openListed env path) (fun _ => .raise _)

theorem findFirstEmits (path : Wstr) : Emits kind (r.findFirst env path) := by
  refine .status fun _ => .ite (fun _ => .raise _) fun _ => ?_
  split
  · exact .raise _
  · exact .pure _

theorem openNodeEmits (path : Wstr) (dir : Bool) : Emits kind (r.openNode env path dir) := by
  refine .bind (.openFile ..) fun _ => ?_
  split
  · exact .raise _
  · exact .pure _

end WslReader

namespace ArchiveReader
variable {kind : FsEvent → Prop} (r : ArchiveReader) (env : FsEnv) (w : Format)

theorem fromUtf8Emits {α : Type} (text : Except UInt32 α) : Emits kind (fromUtf8 text) := by
  cases text <;> first | exact .raise _ | exact .pure _

theorem readDataEmits (dataEnd : ArchiveStatus) (blocks : List ArchiveBlock) :
    Emits DataEvent (readData env w dataEnd blocks) := by
  induction blocks with
  | nil => exact .bind (.checkArchive _) fun _ => FsWriter.writeFileDataEmits ..
  | cons block rest ih =>
    exact .bind (.checkArchive _) fun _ => .ite
      (fun _ => .bind (FsWriter.writeFileDataEmits ..) fun _ => ih)
      (fun _ => FsWriter.writeFileDataEmits ..)

theorem openArchiveEmits : Emits kind (r.openArchive env) :=
  .bind (.openFile ..) fun _ => .bind (.getFileSize ..) fun _ => .bind (.ask _) fun _ =>
    .bind (.checkArchive _) fun _ => .bind (.ask _) fun _ => .bind (.checkArchive _) fun _ =>
    .bind (.ask _) fun _ => .bind (.checkArchive _) fun _ => .pure ()

end ArchiveReader
end LxRunOffline
