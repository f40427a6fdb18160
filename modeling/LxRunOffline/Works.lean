import LxRunOffline.WriterEffects

/-! A system on which every call succeeds, and the programs that always return on it. -/
namespace LxRunOffline

structure FsEnv.Works (env : FsEnv) : Prop where
  status : ∀ time call, env.status time call = 0
  archive : ∀ time call, env.archive time call = .ok
  data : ∀ time bytes, ∃ count, env.data time bytes = .took count

theorem callWorks {env : FsEnv} (works : env.Works) (c : FsCall) (s : CopyState) :
    Fs.call env c s = (.ok 0,Clocked.tick s) := by
  rw [Fs.call,Fs.ask,works.status]

theorem openWorks {env : FsEnv} (works : env.Works) (path : Wstr) (isDir create : Bool)
    (s : CopyState) : Fs.openFile env path isDir create s = (.ok (),Clocked.tick s) := by
  rw [Fs.openFile,Program.bindOk (callWorks works _ s)]
  rfl

structure Returns {α : Type} (x : Copy α) : Prop where
  ends : ∀ s, ∃ a t, x s = (.ok a,t)

namespace Returns
variable {env : FsEnv} {α β : Type} {x : Copy α}

theorem pure (a : α) : Returns (Pure.pure a : Copy α) := ⟨fun s => ⟨a,s,rfl⟩⟩

theorem modify (f : CopyState → CopyState) : Returns (Program.modify f) := ⟨fun s => ⟨(),f s,rfl⟩⟩

theorem note (e : FsEvent) : Returns (FsWriter.note e) := modify _

theorem bind {f : α → Copy β} (hx : Returns x) (hf : ∀ a, Returns (f a)) : Returns (x >>= f) := by
  refine ⟨fun s => ?_⟩
  obtain ⟨a,t,run⟩ := hx.ends s
  rw [Program.bindOk run]
  exact (hf a).ends t

theorem get {f : CopyState → Copy α} (h : ∀ s, Returns (f s)) : Returns (Program.get >>= f) :=
  ⟨fun s => (h s).ends s⟩

theorem ite {c : Prop} [Decidable c] {x y : Copy α} (hx : c → Returns x) (hy : ¬ c → Returns y) :
    Returns (if c then x else y) := by
  split
  · exact hx (by assumption)
  · exact hy (by assumption)

theorem when {c : Prop} [Decidable c] {x : Copy Unit} (hx : c → Returns x) :
    Returns (Program.when c x) := ite hx fun _ => .pure ()

theorem strlen {attr : FileAttr} (whole : attr.Whole) : Returns (FsWriter.strlen attr) :=
  .ite (fun _ => .pure ()) fun torn => absurd whole torn

theorem withPath (path : Wstr) (hx : Returns x) : Returns (Fs.withPath path x) := by
  refine ⟨fun s => ?_⟩
  obtain ⟨a,t,run⟩ := hx.ends s
  exact ⟨a,t,Program.rescueOk run⟩

theorem status (works : env.Works) {c : FsCall} {f : UInt32 → Copy α} (h : Returns (f 0)) :
    Returns (Fs.call env c >>= f) := by
  refine ⟨fun s => ?_⟩
  rw [Program.bindOk (callWorks works c s)]
  exact h.ends _

theorem openFile (works : env.Works) (path : Wstr) (isDir create : Bool) :
    Returns (Fs.openFile env path isDir create : Copy Unit) := .status works (.pure ())

theorem setCsInfo (works : env.Works) (path : Wstr) :
    Returns (Fs.setCsInfo env path : Copy Unit) := .status works (.pure ())

theorem openListed (works : env.Works) (path : Wstr) :
    Returns (Fs.openListed env path : Copy Unit) := by
  have opened : Returns (do
      Fs.openFile env path true false
      let build ← (Fs.getWinBuild env : Copy UInt32)
      if build ≤ 20206 then Fs.setCsInfo env path else Pure.pure ()) :=
    .bind (openFile works ..) fun _ => .bind (.status works (.pure _)) fun _ =>
      .ite (fun _ => setCsInfo works path) (fun _ => .pure ())
  refine ⟨fun s => ?_⟩
  obtain ⟨a,t,run⟩ := opened.ends s
  exact ⟨a,t,Program.rescueOk run⟩

end Returns
namespace WslWriter
open FsWriter
variable {env : FsEnv} (works : env.Works)
include works

theorem setEaReturns (path : Wstr) (name : EaName) (value : EaValue) :
    Returns (setEa env path name value) := .status works (.note _)

theorem writeDataReturns (path : Wstr) (bytes : Bytes) : Returns (writeData env (some path) bytes) :=
  .get fun _ => .status works (.note _)

theorem v1AttrReturns (path : Wstr) {attr : FileAttr} (whole : attr.Whole) :
    Returns (WslV1Writer.writeAttr env path attr) :=
  .bind (.withPath path (setEaReturns works ..)) fun _ => .bind (.strlen whole) fun _ =>
    .when fun _ => writeDataReturns works ..

theorem storeAttrReturns (path : Wstr) (attr : FileAttr) :
    Returns (WslV2Writer.storeAttr env path attr) := by
  have eas : Returns (WslV2Writer.setEas env path attr) :=
    .bind (setEaReturns works ..) fun _ => .bind (setEaReturns works ..) fun _ =>
      .bind (setEaReturns works ..) fun _ => .when fun _ => setEaReturns works ..
  have reparse (data : Option ReparseData) : Returns (WslV2Writer.setReparse env path data) := by
    cases data with
    | none => exact .pure ()
    | some data => exact .status works (.note _)
  exact .bind (.withPath path eas) fun _ => .bind (reparse _) fun _ => .status works (.note _)

theorem flushReturns (path : Wstr) (dirs : List (Wstr × FileAttr)) :
    Returns (WslV2Writer.flush env path dirs) := by
  induction dirs with
  | nil => exact .pure ()
  | cons dir rest ih =>
    exact .ite (fun _ => .pure ()) fun _ => .bind (.modify _) fun _ =>
      .bind (.openFile works ..) fun _ => .bind (storeAttrReturns works ..) fun _ => ih

theorem writeAttrReturns (format : Format) (path : Wstr) {attr : Option FileAttr} (whole : ∀ a ∈ attr, a.Whole) :
    Returns (writeAttr env format path attr) := by
  cases attr with
  | none => exact .pure ()
  | some attr =>
    have target := whole attr rfl
    refine .ite (fun _ => .ite (fun _ => .get fun s => ?_) fun _ => ?_) (fun _ => v1AttrReturns works path target)
    · exact .bind (flushReturns works ..) fun _ => .modify _
    · exact WslV2Writer.realWriteAttrWhole env target path ▸ storeAttrReturns works path attr

theorem createReturns (path : Wstr) (isDir : Bool) : Returns (create env path isDir) :=
  .ite (fun _ => .bind (.status works (.note _)) fun _ => .openFile works ..)
    (fun _ => .bind (.openFile works ..) fun _ => .note _)

theorem finishReturns (path : Wstr) (type : UInt32) : Returns (finish env path type) :=
  .ite (fun _ => .modify _) fun _ =>
    .ite (fun _ => .withPath path (.setCsInfo works path)) (fun _ => .pure ())

theorem writeNewFileReturns (format : Format) {attr : Option FileAttr} (whole : ∀ a ∈ attr, a.Whole) :
    Returns (writeNewFile env format attr) := by
  have checked : Returns (checkAttr attr true true) :=
    .ite (fun _ => .pure _) fun _ => .bind (.modify _) fun _ => .pure _
  refine .bind checked fun _ => .ite (fun _ => .get fun s => ?_) (fun _ => .pure _)
  exact .bind (createReturns works ..) fun _ => .bind (writeAttrReturns works format _ whole) fun _ =>
    .bind (finishReturns works ..) fun _ => .bind (.note _) fun _ => .pure _

end WslWriter
end LxRunOffline
