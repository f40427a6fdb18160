import LxRunOffline.DeviceNumber
import LxRunOffline.Relates

/-! Two runs of a copy on systems that differ in the memory that `read_attr` gets for a record.
The states they reach may differ in what is on the stack of the writer, but only in members of
the records there that a v2 writer does not use. -/
namespace LxRunOffline
open Program (Relates)

/- The record as a writer of the format uses it. Device numbers are always used by v1. -/
def FileAttr.used (w : Format) (attr : FileAttr) : FileAttr :=
  {attr with
    devMajor := if attr.device ∨ w ≠ .v2 ∧ w ≠ .linux then attr.devMajor else 0
    devMinor := if attr.device ∨ w ≠ .v2 ∧ w ≠ .linux then attr.devMinor else 0
    symlink := if attr.type = aeIflnk then attr.symlink else none}

def usedEntry (e : Wstr × FileAttr) : Wstr × FileAttr := (e.1,e.2.used .v2)

def Matched (s t : CopyState) : Prop :=
  ∃ stack, t = {s with dirAttr := stack} ∧ s.dirAttr.map usedEntry = stack.map usedEntry

structure SameButMemory (env env' : FsEnv) : Prop where
  status : env'.status = env.status
  archive : env'.archive = env.archive
  data : env'.data = env.data
  build : env'.build = env.build
  flush : env'.flush = env.flush

namespace Matched
variable {α β γ : Type} {x : Copy α} {y : Copy β} {V : α → β → Prop}

theorem refl (s : CopyState) : Matched s s := ⟨s.dirAttr,rfl,rfl⟩

theorem modify {f : CopyState → CopyState} (aside : ∀ s stack,
      f {s with dirAttr := stack} = {f s with dirAttr := stack} ∧ (f s).dirAttr = s.dirAttr) :
    Relates Matched Eq (Program.modify f : Copy Unit) (Program.modify f) := by
  refine .modify fun s t matched => ?_
  obtain ⟨stack,rfl,same⟩ := matched
  obtain ⟨frame,kept⟩ := aside s stack
  exact ⟨stack,frame,by rw [kept,same]⟩

theorem get {f : CopyState → Copy α} {g : CopyState → Copy β}
    (h : ∀ s stack, s.dirAttr.map usedEntry = stack.map usedEntry →
      Relates Matched V (f s) (g {s with dirAttr := stack})) :
    Relates Matched V (Program.get >>= f) (Program.get >>= g) := by
  refine .get fun s t matched => ?_
  obtain ⟨stack,rfl,same⟩ := matched
  exact h s stack same

theorem catchLro {handler : LroError → Copy α} {handler' : LroError → Copy β}
    (body : Relates Matched V x y) (recover : ∀ e, Relates Matched V (handler e) (handler' e)) :
    Relates Matched V (LxRunOffline.catchLro x handler) (LxRunOffline.catchLro y handler') := by
  refine .rescue body fun e => ?_
  cases e with
  | lro e => exact recover e
  | invalidArgument => exact .raise _
  | badArrayLength => exact .raise _
  | crash => exact .raise _
  | outOfFuel => exact .raise _

theorem withPath (path : Wstr) {y : Copy α} (h : Relates Matched Eq x y) :
    Relates Matched Eq (Fs.withPath path x) (Fs.withPath path y) := catchLro h fun _ => .raise _

theorem note (e : FsEvent) : Relates Matched Eq (FsWriter.note e) (FsWriter.note e) :=
  modify fun _ _ => ⟨rfl,rfl⟩

theorem zoom {part : CopyState → FilePath} {put : CopyState → FilePath → CopyState}
    (reads : ∀ s stack, part {s with dirAttr := stack} = part s)
    (aside : ∀ s p stack, put {s with dirAttr := stack} p = {put s p with dirAttr := stack} ∧
      (put s p).dirAttr = s.dirAttr) (x : Program Stop FilePath α) :
    Relates Matched Eq (Program.zoom part put x) (Program.zoom part put x) := by
  refine ⟨fun s t matched => ?_⟩
  obtain ⟨stack,rfl,same⟩ := matched
  obtain ⟨frame,kept⟩ := aside s (x (part s)).2 stack
  have right : Program.zoom part put x {s with dirAttr := stack} =
      ((x (part s)).1,{put s (x (part s)).2 with dirAttr := stack}) := by
    rw [← frame,← reads s stack]
    rfl
  have after : Matched (put s (x (part s)).2) {put s (x (part s)).2 with dirAttr := stack} :=
    ⟨stack,rfl,by rw [kept,same]⟩
  rw [right,Program.zoom]
  cases (x (part s)).1 with
  | ok a => exact .ok rfl after
  | error e => exact .error after

theorem checkArchive (status : ArchiveStatus) :
    Relates Matched Eq (Fs.checkArchive status : Copy Bool) (Fs.checkArchive status) := by
  cases status <;> first | exact .pure rfl | exact .raise _

section Calls
theorem answer (a : ArchiveAnswer) : Relates Matched Eq (FsWriter.answer a) (FsWriter.answer a) :=
  modify fun _ _ => ⟨rfl,rfl⟩

theorem strlen (attr : FileAttr) : Relates Matched Eq (FsWriter.strlen attr) (FsWriter.strlen attr) :=
  .ite (fun _ => .pure rfl) fun _ => .raise _

variable {env env' : FsEnv} (same : SameButMemory env env')
include same

theorem call (c : FsCall) : Relates Matched Eq (Fs.call env c : Copy UInt32) (Fs.call env' c) := by
  refine ⟨fun s t matched => ?_⟩
  obtain ⟨stack,rfl,held⟩ := matched
  rw [Fs.call,Fs.call,same.status]
  exact .ok rfl ⟨stack,rfl,held⟩

theorem askArchive (c : FsCall) : Relates Matched Eq
    (Fs.ask fun time => env.archive time c : Copy ArchiveStatus)
    (Fs.ask fun time => env'.archive time c) := by
  refine ⟨fun s t matched => ?_⟩
  obtain ⟨stack,rfl,held⟩ := matched
  rw [same.archive]
  exact .ok rfl ⟨stack,rfl,held⟩

theorem askData (bytes : Bytes) : Relates Matched Eq
    (Fs.ask fun time => env.data time bytes : Copy DataAnswer) (Fs.ask fun time => env'.data time bytes) := by
  refine ⟨fun s t matched => ?_⟩
  obtain ⟨stack,rfl,held⟩ := matched
  rw [same.data]
  exact .ok rfl ⟨stack,rfl,held⟩

theorem status {c : FsCall} {f : UInt32 → Copy α} {g : UInt32 → Copy β}
    (rest : ∀ code, Relates Matched V (f code) (g code)) :
    Relates Matched V (Fs.call env c >>= f) (Fs.call env' c >>= g) := (call same c).follow rest

theorem openFile (path : Wstr) (isDir create : Bool) :
    Relates Matched Eq (Fs.openFile env path isDir create : Copy Unit)
      (Fs.openFile env' path isDir create) :=
  status same fun _ => .ite (fun _ => .raise _) fun _ => .pure rfl

theorem setCsInfo (path : Wstr) :
    Relates Matched Eq (Fs.setCsInfo env path : Copy Unit) (Fs.setCsInfo env' path) := by
  refine status same fun _ => .ite (fun _ => .pure rfl) fun _ => status same fun _ => .ite (fun _ => ?_) ?_
  · exact status same fun _ => .ite (fun _ => .raise _) fun _ => .pure rfl
  · exact fun _ => .ite (fun _ => .raise _) fun _ => .pure rfl

theorem openListed (path : Wstr) :
    Relates Matched Eq (Fs.openListed env path : Copy Unit) (Fs.openListed env' path) := by
  have build : Relates Matched Eq (Fs.getWinBuild env : Copy UInt32) (Fs.getWinBuild env') := by
    rw [Fs.getWinBuild,Fs.getWinBuild,same.build]
    exact status same fun _ => .ite (fun _ => .raise _) fun _ => .pure rfl
  refine catchLro (.follow (openFile same path true false) fun _ => .follow build fun _ => ?_) fun _ => ?_
  · exact .ite (fun _ => setCsInfo same path) fun _ => .pure rfl
  · exact .ite (fun _ => .raise _) fun _ => .raise _

theorem getFileSize (path : Wstr) (size : UInt64) :
    Relates Matched Eq (Fs.getFileSize env path size : Copy UInt64) (Fs.getFileSize env' path size) :=
  status same fun _ => .ite (fun _ => .raise _) fun _ => .pure rfl

theorem getEa (path : Wstr) (eas : EaName → Option EaValue) (name : EaName)
    (pick : EaValue → Option α) :
    Relates Matched Eq (Fs.getEa env path eas name pick : Copy α) (Fs.getEa env' path eas name pick) := by
  refine status same fun _ => .ite (fun _ => .raise _) fun _ => ?_
  split
  · exact .raise _
  · exact .pure rfl

theorem findNext (path : Wstr) :
    Relates Matched Eq (Fs.findNext env path : Copy Bool) (Fs.findNext env' path) :=
  status same fun _ => .ite (fun _ => .pure rfl) fun _ => .ite (fun _ => .pure rfl) fun _ => .raise _

theorem toUtf8 (text : Wstr) :
    Relates Matched Eq (FsWriter.toUtf8 env text) (FsWriter.toUtf8 env' text) :=
  status same fun _ => .ite (fun _ => .raise _) fun _ => .pure rfl

theorem askLibrary (c : FsCall) :
    Relates Matched Eq (FsWriter.askLibrary env c) (FsWriter.askLibrary env' c) :=
  .follow (askArchive same c) fun stat => .follow (answer (.status c stat)) fun _ => .pure rfl

theorem writeHeader (path : Wstr) (e : FsEvent) :
    Relates Matched Eq (FsWriter.writeHeader env path e) (FsWriter.writeHeader env' path e) :=
  .follow (note e) fun _ => .follow (askLibrary same _) fun _ =>
    .follow (checkArchive _) fun _ => .pure rfl

theorem setEa (path : Wstr) (name : EaName) (value : EaValue) :
    Relates Matched Eq (FsWriter.setEa env path name value) (FsWriter.setEa env' path name value) :=
  status same fun _ => .ite (fun _ => .raise _) fun _ => note _

theorem writeData (hf : Option Wstr) (bytes : Bytes) :
    Relates Matched Eq (FsWriter.writeData env hf bytes) (FsWriter.writeData env' hf bytes) := by
  refine get fun s stack _ => ?_
  cases hf with
  | none => exact .raise _
  | some handle => exact status same fun _ => .ite (fun _ => .raise _) fun _ => note _

end Calls
end Matched
end LxRunOffline
