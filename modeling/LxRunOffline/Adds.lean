import LxRunOffline.DirAttr
import LxRunOffline.Immediate

/-! What a writer has put into the log by the time it returns, whatever the system answers: a
step that fails throws, so a file that is accepted has been stored with all its attributes. -/
namespace LxRunOffline
open Program (Moves)
open WslV2Writer (stores)

structure Adds {α : Type} (events : List FsEvent) (x : Copy α) : Prop where
  log : ∀ s a t, x s = (.ok a,t) → t.log = s.log ++ events

namespace Adds
variable {env : FsEnv} {α β : Type} {events more : List FsEvent} {x : Copy α}

theorem ticked (h : Moves Ticked x) : Adds [] x := by
  refine ⟨fun s a t run => ?_⟩
  obtain ⟨clock,same⟩ := h.final s
  rw [run] at same
  dsimp only at same
  rw [same,List.append_nil]

theorem pure (a : α) : Adds [] (Pure.pure a : Copy α) := ticked (.pure a)

theorem note (e : FsEvent) : Adds [e] (FsWriter.note e) := by
  refine ⟨fun s a t run => ?_⟩
  cases run
  rfl

theorem throws (e : Stop) : Adds events (Program.raise e : Copy α) := ⟨fun s a t run => by cases run⟩

theorem bind {f : α → Copy β} (hx : Adds events x) (hf : ∀ a, Adds more (f a)) :
    Adds (events ++ more) (x >>= f) := by
  refine ⟨fun s b u run => ?_⟩
  obtain ⟨a,t,first,rest⟩ := Program.bindOkSource run
  rw [(hf a).log t b u rest,hx.log s a t first,List.append_assoc]

theorem get {f : CopyState → Copy α} (h : ∀ s, Adds events (f s)) : Adds events (Program.get >>= f) :=
  ⟨fun s => (h s).log s⟩

theorem ite {c : Prop} [Decidable c] {y : Copy α} (hx : c → Adds events x) (hy : ¬ c → Adds events y) :
    Adds events (if c then x else y) := by
  split
  · exact hx (by assumption)
  · exact hy (by assumption)

theorem when {c : Prop} [Decidable c] {x : Copy Unit} (h : Adds events x) :
    Adds (if c then events else []) (Program.when c x) := by
  unfold Program.when
  split
  · exact h
  · exact pure ()

theorem status {c : FsCall} {f : UInt32 → Copy α} (h : ∀ code, Adds events (f code)) :
    Adds events (Fs.call env c >>= f) :=
  bind (ticked ⟨fun s => ⟨s.clock+1,rfl⟩⟩) h

theorem withPath (path : Wstr) (h : Adds events x) : Adds events (Fs.withPath path x) := by
  refine ⟨fun s a t run => ?_⟩
  cases first : x s with
  | mk outcome u =>
    cases outcome with
    | ok b =>
      rw [Fs.withPath,catchLro,Program.rescueOk first] at run
      cases run
      exact h.log s _ _ first
    | error e =>
      rw [Fs.withPath,catchLro,Program.rescueError first] at run
      cases e <;> cases run

theorem strlen (attr : FileAttr) : Adds [] (FsWriter.strlen attr) :=
  .ite (fun _ => .pure ()) fun _ => .throws _

end Adds
namespace WslV2Writer
variable (env : FsEnv) (path : Wstr)

theorem setEaAdds (name : EaName) (value : EaValue) :
    Adds [.ea path name value] (FsWriter.setEa env path name value) :=
  .status fun _ => .ite (fun _ => .throws _) fun _ => .note _

theorem storeAttrAdds (attr : FileAttr) : Adds (stores path attr) (storeAttr env path attr) := by
  have eas : Adds _ (setEas env path attr) :=
    .bind (setEaAdds env path .lxuid _) fun _ => .bind (setEaAdds env path .lxgid _) fun _ =>
      .bind (setEaAdds env path .lxmod _) fun _ => (setEaAdds env path .lxdev _).when
  have reparse (data : Option ReparseData) :
      Adds (data.toList.map (.reparse path)) (setReparse env path data) := by
    cases data with
    | none => exact .pure ()
    | some data => exact .status fun _ => .ite (fun _ => .throws _) fun _ => .note _
  have times : Adds [.times path (timeU2f attr.atime) (timeU2f attr.mtime) (timeU2f attr.ctime)]
      (setTimes env path attr) := .status fun _ => .ite (fun _ => .throws _) fun _ => .note _
  exact (eas.withPath path).bind fun _ => (reparse _).bind fun _ => times

theorem realAttrAdds (attr : FileAttr) : Adds (stores path attr) (realWriteAttr env path attr) :=
  ⟨fun s a t run => (storeAttrAdds env path attr).log s a t (realWriteAttrReturned env run)⟩

end WslV2Writer
namespace WslV1Writer

def stores (path : Wstr) (attr : FileAttr) : List FsEvent :=
  .ea path .lxattrb (.record (record attr)) ::
    if attr.type = aeIflnk then [.wrote path (linkData (attr.symlink.getD []))] else []

theorem writeAttrAdds (env : FsEnv) (path : Wstr) (attr : FileAttr) :
    Adds (stores path attr) (writeAttr env path attr) := by
  have target : Adds [.wrote path (linkData (attr.symlink.getD []))]
      (FsWriter.writeData env (some path) (linkData (attr.symlink.getD []))) :=
    .get fun _ => .status fun _ => .ite (fun _ => .throws _) fun _ => .note _
  exact ((WslV2Writer.setEaAdds env path .lxattrb _).withPath path).bind fun _ =>
    (Adds.strlen attr).bind fun _ => target.when

end WslV1Writer
namespace WslWriter
variable (env : FsEnv) (w : Format)

def storedAs (path : Wstr) (attr : FileAttr) : List FsEvent :=
  if w = .v2 then stores path attr else WslV1Writer.stores path attr

theorem writeAttrAdds (path : Wstr) {attr : FileAttr} (prompt : w = .v2 → attr.type ≠ aeIfdir) :
    Adds (storedAs w path attr) (writeAttr env w path (some attr)) := by
  by_cases v2 : w = .v2
  · have now : Adds (stores path attr) (WslV2Writer.writeAttr env path attr) := by
      rw [WslV2Writer.writeAttr,if_neg (prompt v2)]
      exact WslV2Writer.realAttrAdds env path attr
    simpa only [storedAs,writeAttr,if_pos v2] using now
  · simpa only [storedAs,writeAttr,if_neg v2] using WslV1Writer.writeAttrAdds env path attr

end WslWriter
end LxRunOffline
