import LxRunOffline.CopyBelow
import LxRunOffline.ReadMode
import LxRunOffline.WriterLife

/-! What is stored at once. Only a directory's attributes in the v2 format are put off; anything
else leaves the stack of the writer as it is, and stores attributes under its own path alone. -/
namespace LxRunOffline
open Program (Moves)
open WslV2Writer (attrOf)

theorem Program.Moves.catchLro {R : CopyState → CopyState → Prop} [IsPreorder CopyState R] {α : Type}
    {x : Copy α} {handler : LroError → Copy α} (hx : Moves R x) (hh : ∀ e, Moves R (handler e)) :
    Moves R (LxRunOffline.catchLro x handler) := by
  refine hx.rescue fun e => ?_
  cases e with
  | lro e => exact hh e
  | invalidArgument => exact .raise _
  | badArrayLength => exact .raise _
  | crash => exact .raise _
  | outOfFuel => exact .raise _

theorem Program.Moves.withPath {R : CopyState → CopyState → Prop} [IsPreorder CopyState R] {α : Type}
    {x : Copy α} (path : Wstr) (hx : Moves R x) : Moves R (Fs.withPath path x) :=
  hx.catchLro fun _ => .raise _

def Ticked (s t : CopyState) : Prop := ∃ clock, t = {s with clock := clock}

instance : IsPreorder CopyState Ticked where
  refl s := ⟨s.clock,rfl⟩
  trans := by
    rintro s _ _ ⟨_,rfl⟩ ⟨clock,rfl⟩
    exact ⟨clock,rfl⟩

section Reading
variable {env : FsEnv} {α : Type}

theorem statusTicked {c : FsCall} {f : UInt32 → Copy α} (h : ∀ code, Moves Ticked (f code)) :
    Moves Ticked (Fs.call env c >>= f) := .bind ⟨fun s => ⟨s.clock+1,rfl⟩⟩ h

theorem openFileTicked (path : Wstr) (isDir create : Bool) :
    Moves Ticked (Fs.openFile env path isDir create : Copy Unit) :=
  statusTicked fun _ => .ite (fun _ => .raise _) fun _ => .pure ()

theorem setCsInfoTicked (path : Wstr) : Moves Ticked (Fs.setCsInfo env path : Copy Unit) := by
  refine statusTicked fun _ => .ite (fun _ => .pure ()) fun _ => statusTicked fun _ => .ite (fun _ => ?_) ?_
  · exact statusTicked fun _ => .ite (fun _ => .raise _) fun _ => .pure ()
  · exact fun _ => .ite (fun _ => .raise _) fun _ => .pure ()

theorem getFileSizeTicked (path : Wstr) (size : UInt64) :
    Moves Ticked (Fs.getFileSize env path size : Copy UInt64) :=
  statusTicked fun _ => .ite (fun _ => .raise _) fun _ => .pure _

theorem getEaTicked (path : Wstr) (eas : EaName → Option EaValue) (name : EaName)
    (pick : EaValue → Option α) : Moves Ticked (Fs.getEa env path eas name pick : Copy α) := by
  refine statusTicked fun _ => .ite (fun _ => .raise _) fun _ => ?_
  split
  · exact .raise _
  · exact .pure _

namespace WslReader
variable (r : WslReader) (env) (path : Wstr) (info : NodeInfo)

theorem orNullTicked {x : Copy (Option α)} (hx : Moves Ticked x) : Moves Ticked (orNull path x) :=
  hx.catchLro fun _ => .ite (fun _ => .pure none) fun _ => .raise _

theorem readDevTicked (attr : FileAttr) : Moves Ticked (readDev env path info attr) :=
  .ite (fun _ => .bind (getEaTicked ..) fun _ => .pure _) fun _ => .pure attr

theorem readAttrTicked : Moves Ticked (r.readAttr env path info) := by
  have eas : Moves Ticked (readEas env path info) := by
    refine .bind ⟨fun s => ⟨s.clock+1,rfl⟩⟩ fun attr => orNullTicked path ?_
    refine .bind (getEaTicked ..) fun uid => .bind (getEaTicked ..) fun gid => ?_
    refine .bind (getEaTicked ..) fun mode => .bind (getFileSizeTicked ..) fun size => ?_
    exact .bind (readDevTicked env path info _) fun _ => .pure _
  have times (attr : FileAttr) : Moves Ticked (readTimes env path info attr) :=
    statusTicked fun _ => .ite (fun _ => .raise _) fun _ => .pure _
  refine .ite (fun _ => .bind eas fun attr => ?_) fun _ => orNullTicked path ?_
  · cases attr with
    | none => exact .pure none
    | some attr => exact .bind (times attr) fun _ => .pure _
  · exact .bind (getEaTicked ..) fun _ => .bind (getFileSizeTicked ..) fun _ => .pure _

theorem readTargetTicked (size : Nat) (target : Bytes) (reads : List Bytes) :
    Moves Ticked (readTarget env path size target reads) := by
  induction reads generalizing target with
  | nil => exact .ite (fun _ => .pure target) fun _ => .raise _
  | cons piece rest ih =>
    exact .ite (fun _ => .pure target) fun _ => statusTicked fun _ => .ite (fun _ => .raise _) fun _ => ih _

theorem copyTargetTicked (reparse : Option ReparseData) : Moves Ticked (copyTarget reparse) := by
  cases reparse with
  | none => exact .pure none
  | some data =>
    exact .bind (.ite (fun _ => .pure ()) fun _ => .ite (fun _ => .raise _) fun _ => .raise _) fun _ => .pure _

theorem readSymlinkTicked : Moves Ticked (r.readSymlinkData env path info) := by
  refine .ite (fun _ => ?_) fun _ => .bind (.withPath path (getFileSizeTicked ..)) fun size => ?_
  · exact statusTicked fun _ => .ite (fun _ => copyTargetTicked _) fun _ =>
      .ite (fun _ => .pure none) fun _ => .raise _
  · exact .ite (fun _ => .raise _) fun _ => .bind (readTargetTicked ..) fun _ => .pure _

theorem openNodeTicked (dir : Bool) : Moves Ticked (r.openNode env path dir) := by
  refine .bind (openFileTicked path dir false) fun _ => ?_
  split
  · exact .raise _
  · exact .pure _

end WslReader
end Reading

structure Filing (own : Wstr) (s t : CopyState) : Prop where
  path : t.path = s.path
  stack : t.dirAttr = s.dirAttr
  log : ∃ more, t.log = s.log ++ more ∧ ∀ e ∈ more, ∀ q, attrOf q e = true → q = own

namespace Filing
variable {path : Wstr} {s t u : CopyState} {env : FsEnv} {α : Type} {x : Copy α}

theorem silent (h : t.path = s.path) (stack : t.dirAttr = s.dirAttr) (log : t.log = s.log) : Filing path s t :=
  ⟨h,stack,[],by rw [log,List.append_nil],by simp⟩

theorem trans (h : Filing path s t) (h' : Filing path t u) : Filing path s u := by
  obtain ⟨more,log,all⟩ := h.log
  obtain ⟨more',log',all'⟩ := h'.log
  refine ⟨h'.path.trans h.path,h'.stack.trans h.stack,more ++ more',by rw [log',log,List.append_assoc],?_⟩
  intro e mem
  exact (List.mem_append.mp mem).elim (all e) (all' e)

instance : IsPreorder CopyState (Filing path) where
  refl _ := silent rfl rfl rfl
  trans _ _ _ := trans

theorem ticked (h : Moves Ticked x) : Moves (Filing path) x := by
  refine ⟨fun s => ?_⟩
  obtain ⟨clock,same⟩ := h.final s
  rw [same]
  exact silent rfl rfl rfl

theorem status {c : FsCall} {f : UInt32 → Copy α} (h : ∀ code, Moves (Filing path) (f code)) :
    Moves (Filing path) (Fs.call env c >>= f) := .bind ⟨fun _ => silent rfl rfl rfl⟩ h

theorem note {e : FsEvent} (h : ∀ q, attrOf q e = true → q = path) :
    Moves (Filing path) (FsWriter.note e) := by
  refine ⟨fun s => ⟨rfl,rfl,[e],rfl,fun e' mem => ?_⟩⟩
  exact List.mem_singleton.mp mem ▸ h

theorem noted {q : Wstr} (h : decide (path = q) = true) : q = path := (of_decide_eq_true h).symm

variable (env) (path)

theorem setEa (name : EaName) (value : EaValue) :
    Moves (Filing path) (FsWriter.setEa env path name value) :=
  status fun _ => .ite (fun _ => .raise _) fun _ => note fun _ => noted

theorem writeData (hf : Option Wstr) (bytes : Bytes) :
    Moves (Filing path) (FsWriter.writeData env hf bytes) := by
  refine .get fun s => ?_
  cases hf with
  | none => exact .raise _
  | some handle => exact status fun _ => .ite (fun _ => .raise _) fun _ => note fun _ no => by cases no

theorem strlen (attr : FileAttr) : Moves (Filing path) (FsWriter.strlen attr) :=
  .ite (fun _ => .pure ()) fun _ => .raise _

theorem setEas (attr : FileAttr) : Moves (Filing path) (WslV2Writer.setEas env path attr) :=
  .bind (setEa ..) fun _ => .bind (setEa ..) fun _ => .bind (setEa ..) fun _ => .when fun _ => setEa ..

theorem storeAttr (attr : FileAttr) : Moves (Filing path) (WslV2Writer.storeAttr env path attr) := by
  have reparse (data : Option ReparseData) : Moves (Filing path) (WslV2Writer.setReparse env path data) := by
    cases data with
    | none => exact .pure ()
    | some data => exact status fun _ => .ite (fun _ => .raise _) fun _ => note fun _ => noted
  exact .bind (.withPath path (setEas path env attr)) fun _ => .bind (reparse _) fun _ =>
    status fun _ => .ite (fun _ => .raise _) fun _ => note fun _ => noted

theorem realWriteAttr (attr : FileAttr) : Moves (Filing path) (WslV2Writer.realWriteAttr env path attr) := by
  by_cases whole : attr.Whole
  · exact WslV2Writer.realWriteAttrWhole env whole path ▸ storeAttr path env attr
  · exact WslV2Writer.realWriteAttrTorn env whole path ▸
      .bind (.withPath path (setEas path env attr)) fun _ => .raise _

end Filing

def Prompt (w : Format) (mode : Option UInt32) : Prop :=
  w = .v2 → ∀ m, mode = some m → m &&& aeIfmt ≠ aeIfdir

namespace Filing
variable {w : Format} {attr : Option FileAttr}

theorem writeAttr (env : FsEnv) (path : Wstr) (prompt : Prompt w (attr.map FileAttr.mode)) :
    Moves (Filing path) (WslWriter.writeAttr env w path attr) := by
  cases attr with
  | none => exact .pure ()
  | some a =>
    refine .ite (fun v2 => ?_) fun _ => .bind (.withPath path (setEa ..)) fun _ => .bind (strlen path a) fun _ =>
      .when fun _ => writeData ..
    have plain : ¬ a.type = aeIfdir := prompt v2 a.mode rfl
    rw [WslV2Writer.writeAttr,if_neg plain]
    exact realWriteAttr path env a

theorem create (env : FsEnv) (path : Wstr) (isDir : Bool) : Moves (Filing path) (WslWriter.create env path isDir) := by
  refine .ite (fun _ => .bind (status fun _ => ?_) fun _ => ticked (openFileTicked ..))
    fun _ => .bind (ticked (openFileTicked ..)) fun _ => note fun _ no => by cases no
  exact .ite (fun _ => note fun _ no => by cases no) fun _ => .ite (fun _ => .pure ()) fun _ => .raise _

theorem finish (env : FsEnv) (path : Wstr) (type : UInt32) : Moves (Filing path) (WslWriter.finish env path type) :=
  .ite (fun _ => ⟨fun _ => silent rfl rfl rfl⟩) fun _ =>
    .ite (fun _ => .withPath path (ticked (setCsInfoTicked path))) fun _ => .pure ()

end Filing

theorem WslWriter.writeFileParts {R : CopyState → CopyState → Prop} [IsPreorder CopyState R] {env : FsEnv}
    {w : Format} {attr : FileAttr} {s t : CopyState} {stored : Bool}
    (create : Moves R (WslWriter.create env s.path.data (typeOf (some attr) = aeIfdir)))
    (finish : Moves R (WslWriter.finish env s.path.data (typeOf (some attr))))
    (accepted : Moves R (FsWriter.note (.accepted s.path.data)))
    (run : writeFile env w (some attr) s = (.ok stored,t)) :
    ∃ u v, R s u ∧ WslWriter.writeAttr env w s.path.data (some attr) u = (.ok (),v) ∧ R v t := by
  obtain ⟨_,u,made,run⟩ := Program.bindOkSource run
  cases made
  obtain ⟨_,u,created,run⟩ := Program.bindOkSource run
  obtain ⟨_,v,wrote,run⟩ := Program.bindOkSource run
  have first := create.final s
  rw [created] at first
  have last : Moves R (do
      WslWriter.finish env s.path.data (typeOf (some attr))
      FsWriter.note (.accepted s.path.data)
      pure true) := .bind finish fun _ => .bind accepted fun _ => .pure true
  have rest := last.final v
  rw [run] at rest
  exact ⟨u,v,first,wrote,rest⟩

def Filed (s t : CopyState) : Prop := Filing s.path.data s t

namespace Filed
variable {s t u : CopyState} {env : FsEnv} {w : Format} {attr : Option FileAttr} {α : Type} {x : Copy α}

instance : IsPreorder CopyState Filed where
  refl _ := Filing.silent rfl rfl rfl
  trans s t u h h' := h.trans (show Filing s.path.data t u from h.path ▸ h')

theorem filing (h : ∀ path, Moves (Filing path) x) : Moves Filed x := ⟨fun s => (h s.path.data).final s⟩

theorem ticked (h : Moves Ticked x) : Moves Filed x := filing fun _ => Filing.ticked h

theorem writeNewFile (wsl : w ≠ .linux) (prompt : Prompt w (attr.map FileAttr.mode)) :
    Moves Filed (FsWriter.writeNewFile env w attr) := by
  have write : Moves Filed (WslWriter.writeFile env w attr) := by
    refine ⟨fun s => ?_⟩
    have rest : Moves (Filing s.path.data) (do
        WslWriter.create env s.path.data (typeOf attr = aeIfdir)
        WslWriter.writeAttr env w s.path.data attr
        WslWriter.finish env s.path.data (typeOf attr)
        FsWriter.note (.accepted s.path.data)
        pure true) :=
      .bind (Filing.create ..) fun _ => .bind (Filing.writeAttr env _ prompt) fun _ =>
        .bind (Filing.finish ..) fun _ => .bind (Filing.note fun _ no => by cases no) fun _ => .pure true
    exact rest.final s
  have checked : Moves Filed (FsWriter.checkAttr attr true true) :=
    .ite (fun _ => .pure true) fun _ => .bind ⟨fun _ => Filing.silent rfl rfl rfl⟩ fun _ => .pure false
  rw [FsWriter.writeNewFile,if_neg wsl]
  exact .bind checked fun _ => .ite (fun _ => write) fun _ => .pure false

theorem writeHardLink (wsl : w ≠ .linux) : Moves Filed (FsWriter.writeHardLink env w) := by
  have checked : Moves Filed FsWriter.checkTargetIgnored :=
    .get fun s => .ite (fun _ => .bind ⟨fun _ => Filing.silent rfl rfl rfl⟩ fun _ => .pure false) fun _ => .pure true
  have linked : Moves Filed (WslWriter.linkFile env) :=
    .get fun s => .bind (filing fun path => Filing.note fun _ no => by cases no) fun _ =>
      filing fun path => Filing.status fun _ => .ite (fun _ => .raise _) fun _ => .pure ()
  rw [FsWriter.writeHardLink,if_neg wsl]
  exact .bind checked fun _ => .ite (fun _ => linked) fun _ => .pure ()

theorem copyData (wsl : w ≠ .linux) (path : Wstr) (reads : List Bytes) :
    Moves Filed (WslReader.copyData env w path reads) := by
  have data (bytes : Bytes) : Moves Filed (FsWriter.writeFileData env w bytes) := by
    rw [FsWriter.writeFileData,if_neg wsl]
    exact .ite (fun _ => ⟨fun _ => Filing.silent rfl rfl rfl⟩) fun _ => .get fun s => filing fun own =>
      Filing.writeData ..
  have reading {α : Type} {f : UInt32 → Copy α} (h : ∀ code, Moves Filed (f code)) :
      Moves Filed (Fs.call env (.readFile path) >>= f) := .bind ⟨fun _ => Filing.silent rfl rfl rfl⟩ h
  induction reads with
  | nil => exact reading fun _ => .ite (fun _ => .raise _) fun _ => data []
  | cons piece rest ih =>
    exact reading fun _ => .ite (fun _ => .raise _) fun _ => .bind (data piece) fun _ => .when fun _ => ih

end Filed
namespace WslReader
variable {r : WslReader} {env : FsEnv} {w : Format} {info : NodeInfo}

theorem storeFileFiled (wsl : w ≠ .linux) (path : Wstr) {attr : Option FileAttr}
    (prompt : Prompt w (attr.map FileAttr.mode)) : Moves Filed (storeFile env w path info attr) :=
  .bind (Filed.writeNewFile wsl prompt) fun _ => .ite
    (fun _ => .when fun _ => Filed.copyData wsl path _) fun _ => .pure ()

theorem copyFileFiled (wsl : w ≠ .linux) (path : Wstr) (prompt : Prompt w (r.modeOf info)) :
    Moves Filed (r.copyFile env w path info) := by
  refine .bindOk (Filed.ticked (r.readAttrTicked env path info)) fun attr s t read => ?_
  rw [← r.readAttrTold read] at prompt
  refine .ite (fun _ => .bind (Filed.ticked (r.readSymlinkTicked env path info)) fun target => ?_)
    fun _ => storeFileFiled wsl path prompt
  cases attr with
  | none => exact .pure ()
  | some a => cases target with
    | none => exact .pure ()
    | some target => exact storeFileFiled wsl path prompt

theorem visitFileFiled (wsl : w ≠ .linux) (path : Wstr) (prompt : Prompt w (r.modeOf info)) :
    Moves Filed (r.visitFile env w path info) := by
  have copied : Moves Filed (r.copyFile env w path info) := copyFileFiled wsl path prompt
  refine .bind ⟨fun _ => Filing.silent rfl rfl rfl⟩ fun code => .ite (fun _ => .raise _) fun _ =>
    .ite (fun _ => .get fun s => ?_) fun _ => copied
  cases s.idMap.lookup info.index with
  | none => exact .bind ⟨fun _ => Filing.silent rfl rfl rfl⟩ fun _ => copied
  | some first =>
    have target : Moves Filed (convertTarget first) := ⟨fun _ => Filing.silent rfl rfl rfl⟩
    exact .bind target fun _ => .ite (fun _ => Filed.writeHardLink wsl) fun _ => .pure ()

end WslReader
end LxRunOffline
