import LxRunOffline.Contents

/-! Where every call succeeds, a file or a directory is copied to the end, whatever the writer. -/
namespace LxRunOffline

namespace ArchiveWriter
open FsWriter
variable {env : FsEnv} (works : env.Works)
include works

theorem toUtf8Returns (text : Wstr) : Returns (toUtf8 env text) := .status works (.pure ())

theorem askLibraryRun (c : FsCall) (s : CopyState) :
    askLibrary env c s = (.ok .ok,{Clocked.tick s with answers := s.answers ++ [.status c .ok]}) := by
  rw [askLibrary,Program.bindRun,Fs.ask]
  dsimp only
  rw [works.archive]
  rfl

theorem writeHeaderReturns (path : Wstr) (e : FsEvent) : Returns (writeHeader env path e) := by
  refine .bind (.note e) fun _ => ⟨fun s => ?_⟩
  rw [Program.bindOk (askLibraryRun works _ s)]
  exact ⟨(),_,rfl⟩

theorem writeNewFileReturns (attr : Option FileAttr) : Returns (writeNewFile env attr) := by
  have entry (a : FileAttr) : Returns (writeEntry env a) :=
    .get fun s => .ite (fun _ => .pure _) fun _ => .bind (toUtf8Returns works _) fun _ =>
      .bind (writeHeaderReturns works ..) fun _ => .bind (.note _) fun _ => .pure _
  have checked : Returns (checkAttr attr false false) :=
    .ite (fun _ => .pure _) fun _ => .bind (.modify _) fun _ => .pure _
  refine .bind checked fun fine => ?_
  cases fine <;> cases attr <;> first | exact .pure _ | exact entry _

theorem linkEntryReturns : Returns (linkEntry env) :=
  .get fun _ => .bind (toUtf8Returns works _) fun _ => .bind (toUtf8Returns works _) fun _ =>
    writeHeaderReturns works ..

end ArchiveWriter
namespace FsWriter
variable {env : FsEnv} (works : env.Works) (w : Format)
include works

theorem writeNewFileReturns {attr : Option FileAttr} (whole : w ≠ .linux → ∀ a ∈ attr, a.Whole) :
    Returns (writeNewFile env w attr) :=
  .ite (fun _ => ArchiveWriter.writeNewFileReturns works attr)
    fun wsl => WslWriter.writeNewFileReturns works w (whole wsl)

theorem writeHardLinkReturns : Returns (writeHardLink env w) := by
  have checked : Returns checkTargetIgnored :=
    .get fun s => .ite (fun _ => .bind (.modify _) fun _ => .pure _) fun _ => .pure _
  have linked : Returns (WslWriter.linkFile env) :=
    .get fun s => .bind (.note _) fun _ => .status works (.pure ())
  refine .ite (fun _ => .bind checked fun _ => .ite (fun _ => ?_) fun _ => .pure ()) fun _ =>
    .bind checked fun _ => .ite (fun _ => linked) fun _ => .pure ()
  exact ArchiveWriter.linkEntryReturns works

theorem archiveDataReturns (bytes : Bytes) : Returns (ArchiveWriter.writeFileData env bytes) := by
  refine .ite (fun _ => .pure ()) fun _ => ⟨fun s => ?_⟩
  obtain ⟨count,took⟩ := works.data s.clock bytes
  have asked : Fs.ask (fun time => env.data time bytes) s = (.ok (.took count),Clocked.tick s) :=
    Prod.ext (congrArg Except.ok took) rfl
  rw [Program.bindOk asked]
  exact ⟨(),_,rfl⟩

end FsWriter

namespace WslReader
variable {r : WslReader} {env : FsEnv} {w : Format} (works : env.Works)

def Writable (w : Format) (s : CopyState) : Prop := w = .linux ∨ ∃ path, s.hfData = some path

theorem storedWritable {attr : Option FileAttr} (plain : typeOf attr = aeIfreg) {s t : CopyState}
    (run : FsWriter.writeNewFile env w attr s = (.ok true,t)) : Writable w t := by
  rw [FsWriter.writeNewFile] at run
  split at run
  · exact .inl (by assumption)
  · obtain ⟨fine,u,-,run⟩ := Program.bindOkSource run
    split at run
    · obtain ⟨_,_,-,run⟩ := Program.bindOkSource run
      obtain ⟨_,_,-,run⟩ := Program.bindOkSource run
      obtain ⟨_,_,-,run⟩ := Program.bindOkSource run
      obtain ⟨_,v,finished,run⟩ := Program.bindOkSource run
      rw [WslWriter.finish,if_pos plain] at finished
      cases finished
      cases run
      exact .inr ⟨_,rfl⟩
    · cases run

include works

theorem copyDataWorks (path : Wstr) (reads : List Bytes) {s : CopyState} (writable : Writable w s) :
    ∃ t, copyData env w path reads s = (.ok (),t) := by
  have closing (s : CopyState) : ∃ t, FsWriter.writeFileData env w [] s = (.ok (),t) := by
    rw [FsWriter.writeFileData]
    split
    · exact ⟨s,rfl⟩
    · exact ⟨_,rfl⟩
  induction reads generalizing s with
  | nil =>
    rw [copyData,Program.bindOk (callWorks works _ s)]
    exact closing _
  | cons piece rest ih =>
    rw [copyData,Program.bindOk (callWorks works _ s)]
    simp only [ne_eq,not_true_eq_false,↓reduceIte]
    by_cases empty : piece = []
    · obtain ⟨t,run⟩ := closing (Clocked.tick s)
      rw [empty,Program.bindOk run,Program.when,if_neg fun some' => some' rfl]
      exact ⟨t,rfl⟩
    · have wrote : ∃ t, FsWriter.writeFileData env w piece (Clocked.tick s) = (.ok (),t) ∧
          Writable w t := by
        by_cases linux : w = .linux
        · obtain ⟨_,t,run⟩ := (FsWriter.archiveDataReturns works piece).ends (Clocked.tick s)
          exact ⟨t,by rw [FsWriter.writeFileData,if_pos linux,run],.inl linux⟩
        · obtain ⟨handle,opened⟩ := writable.resolve_left linux
          exact ⟨_,WslWriter.openDataRun works linux empty opened,.inr ⟨handle,opened⟩⟩
      obtain ⟨t,run,still⟩ := wrote
      rw [Program.bindOk run,Program.when,if_pos empty]
      exact ih still

theorem storeFileReturns (path : Wstr) (info : NodeInfo) {attr : Option FileAttr} (whole : ∀ a ∈ attr, a.Whole) :
    Returns (storeFile env w path info attr) := by
  refine ⟨fun s => ?_⟩
  obtain ⟨stored,t,run⟩ := (FsWriter.writeNewFileReturns works w fun _ => whole).ends s
  rw [storeFile,Program.bindOk run]
  cases stored with
  | false => exact ⟨(),t,rfl⟩
  | true =>
    rw [if_pos rfl,Program.when]
    split
    · rename_i plain
      exact ⟨(),copyDataWorks works path info.reads (storedWritable plain run)⟩
    · exact ⟨(),t,rfl⟩

theorem copyFileReturns {info : NodeInfo} (readable : ∀ mode, r.modeOf info = some mode →
    mode &&& aeIfmt = aeIflnk → r.LinkReadable info) (path : Wstr) :
    Returns (r.copyFile env w path info) := by
  refine ⟨fun s => ?_⟩
  obtain ⟨attr,t,read,mode⟩ := r.readAttrWorks works path info s
  rw [copyFile,Program.bindOk read]
  split
  · rename_i link
    cases attr with
    | none => exact absurd link (by decide)
    | some a =>
      obtain ⟨target,u,run⟩ := r.readSymlinkWorks works (readable a.mode mode.symm link) path t
      rw [storeSymlink,Program.bindOk run]
      refine (storeFileReturns works path info fun b same => ?_).ends u
      cases same
      exact fun _ => Option.some_ne_none target
  · rename_i other
    refine (storeFileReturns works path info fun a same => ?_).ends t
    cases same
    exact fun link => absurd link other

theorem visitDirReturns (path : Wstr) {info : NodeInfo} (plain : w ≠ .linux → r.Unlinked info) :
    Returns (r.visitDir env w path info) := by
  refine ⟨fun s => ?_⟩
  obtain ⟨attr,t,read,mode⟩ := r.readAttrWorks works path info s
  rw [visitDir,Program.bindOk read]
  exact (Returns.bind (FsWriter.writeNewFileReturns works w fun wsl => (plain wsl).whole mode) fun _ => .pure ()).ends t

theorem openNodeWorks {path : Wstr} {dir : Bool} {info : NodeInfo}
    (there : r.infoAt path dir = some info) (s : CopyState) :
    r.openNode env path dir s = (.ok info,Clocked.tick s) := by
  rw [openNode,Program.bindOk (openWorks works path dir false s),there]
  rfl

end WslReader
end LxRunOffline
