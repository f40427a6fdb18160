import LxRunOffline.Adds
import LxRunOffline.MatchedReader
import LxRunOffline.StoredEas

/-! What the members of a record show that the v2 reader has not assigned. They keep what the
allocation has found, and some of the writers store it. -/
namespace LxRunOffline
open WslV2Writer (stores)
open Program (Relates)

namespace WslWriter
variable {env : FsEnv} (works : env.Works)
include works

theorem createAdds (path : Wstr) (isDir : Bool) :
    Adds [if isDir then .createdDirectory path else .createdFile path] (create env path isDir) := by
  cases isDir with
  | true =>
    have directory : Adds [.createdDirectory path] (createDirectory env path) := by
      refine ⟨fun s a t run => ?_⟩
      rw [createDirectory,Program.bindOk (callWorks works _ s),if_pos rfl] at run
      exact (Adds.note (.createdDirectory path)).log (Clocked.tick s) a t run
    exact directory.bind (f := fun _ => Fs.openFile env path true false) fun _ => .ticked (openFileTicked ..)
  | false =>
    exact (Adds.ticked (openFileTicked ..)).bind (f := fun _ => FsWriter.note (.createdFile path))
      fun _ => .note _

end WslWriter

def shown (w : Format) (path : Wstr) (attr : FileAttr) : List FsEvent :=
  if w = .linux then [.header path (ArchiveWriter.entryOf attr)]
  else (if attr.type = aeIfdir then .createdDirectory path else .createdFile path) ::
    WslWriter.storedAs w path attr

namespace Emits
variable {kind : FsEvent → Prop} {α β : Type} {x : Copy α}

theorem keepsLog (h : Emits kind x) (s : CopyState) : s.log <+: (x s).2.log := by
  obtain ⟨more,log,-⟩ := (h.final s).log
  exact ⟨more,log.symm⟩

theorem behind {f : α → Copy β} {events : List FsEvent} {s : CopyState}
    (rest : ∀ a, Emits kind (f a)) (first : events <+: (x s).2.log) :
    events <+: ((x >>= f) s).2.log := by
  rw [Program.bindRun]
  cases run : x s with
  | mk result t =>
    rw [run] at first
    cases result with
    | ok a => exact first.trans ((rest a).keepsLog t)
    | error e => exact first

end Emits

namespace FsWriter
variable {env : FsEnv} {w : Format} {attr : FileAttr} {s : CopyState}

theorem entryShows (works : env.Works) (named : s.path.data ≠ []) :
    s.log ++ shown .linux s.path.data attr <+: (ArchiveWriter.writeEntry env attr s).2.log := by
  have some' : s.path.data.isEmpty = false := List.isEmpty_eq_false_iff.mpr named
  have coded : toUtf8 env s.path.data s = (.ok (),Clocked.tick s) := by
    rw [toUtf8,Program.bindOk (callWorks works _ s)]
    rfl
  have noted : note (.header s.path.data (ArchiveWriter.entryOf attr)) (Clocked.tick s) =
      (.ok (),{Clocked.tick s with log := s.log ++ shown .linux s.path.data attr}) := rfl
  rw [ArchiveWriter.writeEntry,Program.bindRun,Program.getRun]
  dsimp only
  rw [some',if_neg Bool.false_ne_true,Program.bindOk coded,writeHeader,Program.bindAssoc,
    Program.bindOk noted]
  refine Emits.keepsLog (?_ : Emits (fun _ => True) _) {Clocked.tick s with log := s.log ++ _}
  exact .bind (.bind (.askLibrary ..) fun _ => .bind (.checkArchive _) fun _ => .pure ()) fun _ =>
    .bind (.note trivial) fun _ => .pure _

theorem fileShows (works : env.Works) (wsl : w ≠ .linux) (whole : attr.Whole)
    (prompt : w = .v2 → attr.type ≠ aeIfdir) :
    s.log ++ shown w s.path.data attr <+: (WslWriter.writeFile env w (some attr) s).2.log := by
  have type : typeOf (some attr) = attr.type := rfl
  have given : ∀ a ∈ some attr, a.Whole := by
    rintro _ ⟨⟩
    exact whole
  obtain ⟨_,t,made⟩ := (WslWriter.createReturns works s.path.data (attr.type = aeIfdir)).ends s
  obtain ⟨_,u,wrote⟩ := (WslWriter.writeAttrReturns works w s.path.data given).ends t
  have first := (WslWriter.createAdds works s.path.data (attr.type = aeIfdir)).log s _ t made
  have second := (WslWriter.writeAttrAdds env w s.path.data prompt).log t _ u wrote
  have both : s.log ++ shown w s.path.data attr = u.log := by
    rw [second,first,shown,if_neg wsl]
    by_cases dir : attr.type = aeIfdir <;> simp [dir]
  rw [WslWriter.writeFile,Program.bindRun,Program.getRun,type]
  dsimp only
  rw [Program.bindOk made,Program.bindOk wrote,both]
  refine Emits.keepsLog (?_ : Emits (fun _ => True) _) u
  exact .bind (WslWriter.finishEmits ..) fun _ => .bind (.note trivial) fun _ => .pure _

theorem newFileShows (works : env.Works) (whole : attr.Whole) (accepted : supported attr.type (w ≠ .linux) = true)
    (prompt : w = .v2 → attr.type ≠ aeIfdir) (named : s.path.data ≠ []) :
    s.log ++ shown w s.path.data attr <+: (writeNewFile env w (some attr) s).2.log := by
  by_cases archive : w = .linux
  · subst archive
    have passes : FsWriter.passes (some attr) false false = true := by
      simpa [FsWriter.passes] using accepted
    rw [archiveAccepts env passes]
    exact entryShows works named
  · have passes : FsWriter.passes (some attr) true true = true := by
      simpa [archive,FsWriter.passes] using accepted
    rw [wslAccepts env archive passes]
    exact fileShows works archive whole prompt

theorem destroyEmits (env : FsEnv) (w : Format) : Emits (fun _ => True) (destroy env w) := by
  refine .ite (fun _ => ?_) fun _ => .ite (fun _ => ArchiveWriter.destroyEmits env) fun _ => .pure ()
  refine .get fun s => .rescue ((WslV2Writer.drainStores env s.dirAttr).mono fun _ _ => trivial) fun e => ?_
  exact .ite (fun _ => .pure ()) fun _ => .raise e

end FsWriter
namespace WslReader
variable (r : WslReader) {env env' : FsEnv} {w : Format} {dir : Bool} {info : NodeInfo}

def nodeStored (env : FsEnv) (w : Format) (dir : Bool) (path : Wstr) (info : NodeInfo) : Copy Unit :=
  Program.ensuring Stop.unwinds (if dir then r.visitDir env w path info else r.copyFile env w path info)
    (FsWriter.destroy env w)

structure Keeps (memory attr : FileAttr) : Prop where
  symlink : attr.symlink = memory.symlink
  major : ¬ attr.device → attr.devMajor = memory.devMajor
  minor : ¬ attr.device → attr.devMinor = memory.devMinor

theorem readAttrKeeps (v2 : r.format = .v2) {path : Wstr} {s t : CopyState} {attr : FileAttr}
    (run : r.readAttr env path info s = (.ok (some attr),t)) : ∃ time, Keeps (env.memory time) attr := by
  rw [readAttr,if_pos v2] at run
  obtain ⟨read,u,eas,run⟩ := Program.bindOkSource run
  cases read with
  | none => cases run
  | some bare =>
    obtain ⟨timed,v,times,run⟩ := Program.bindOkSource run
    cases run
    obtain ⟨code,x,-,times⟩ := Program.bindOkSource times
    split at times
    · cases times
    · cases times
      obtain ⟨fresh,y,asked,eas⟩ := Program.bindOkSource eas
      cases asked
      obtain ⟨uid,z,-,eas⟩ := Program.bindOkSource (orNullSome eas)
      obtain ⟨gid,z,-,eas⟩ := Program.bindOkSource eas
      obtain ⟨mode,z,-,eas⟩ := Program.bindOkSource eas
      obtain ⟨size,z,-,eas⟩ := Program.bindOkSource eas
      obtain ⟨last,z,dev,eas⟩ := Program.bindOkSource eas
      cases eas
      refine ⟨Clocked.clock s,?_⟩
      by_cases device : isDevice mode
      · rw [readDevice device] at dev
        obtain ⟨number,z,-,dev⟩ := Program.bindOkSource dev
        cases dev
        exact ⟨rfl,fun plain => absurd device plain,fun plain => absurd device plain⟩
      · rw [readPlain device] at dev
        cases dev
        exact ⟨rfl,fun _ => rfl,fun _ => rfl⟩

structure HandedOn (env : FsEnv) (dir : Bool) (mode : UInt32) (attr : FileAttr) : Prop where
  sameMode : attr.mode = mode
  numbers : ¬ isDevice mode → ∃ time, attr.devMajor = (env.memory time).devMajor ∧
    attr.devMinor = (env.memory time).devMinor
  symlink : dir = true → ∃ time, attr.symlink = (env.memory time).symlink

theorem readHanded (dir : Bool) (v2 : r.format = .v2) (works : env.Works) {mode : UInt32}
    (held : r.modeOf info = some mode) (path : Wstr) (s : CopyState) :
    ∃ attr t, r.readAttr env path info s = (.ok (some attr),t) ∧ t.path = s.path ∧ t.log = s.log ∧
      HandedOn env dir mode attr := by
  obtain ⟨attr,t,run,known⟩ := r.readAttrWorks works path info s
  rw [held] at known
  cases attr with
  | none => contradiction
  | some attr =>
    have same : attr.mode = mode := Option.some.inj known
    obtain ⟨clock,ticked⟩ := (r.readAttrTicked env path info).final s
    rw [run] at ticked
    dsimp only at ticked
    obtain ⟨time,keeps⟩ := r.readAttrKeeps v2 run
    refine ⟨attr,t,run,by rw [ticked],by rw [ticked],same,fun plain => ?_,fun _ => ⟨time,keeps.symlink⟩⟩
    have unassigned : ¬ attr.device := by rwa [FileAttr.device,same]
    exact ⟨time,keeps.major unassigned,keeps.minor unassigned⟩

theorem fileStored (works : env.Works) (info : NodeInfo) {attr : FileAttr} (whole : attr.Whole)
    (accepted : FsWriter.supported attr.type (w ≠ .linux) = true)
    (prompt : w = .v2 → attr.type ≠ aeIfdir) (path : Wstr) {s : CopyState}
    (named : s.path.data ≠ []) :
    s.log ++ shown w s.path.data attr <+: (storeFile env w path info (some attr) s).2.log :=
  Emits.behind (fun _ => .ite (fun _ => .when fun _ => copyDataEmits ..) fun _ => .pure ())
    (FsWriter.newFileShows works whole accepted prompt named)

theorem nodeShows (v2 : r.format = .v2) (works : env.Works) {mode : UInt32}
    (held : r.modeOf info = some mode)
    (accepted : FsWriter.supported (mode &&& aeIfmt) (w ≠ .linux) = true)
    (prompt : w = .v2 → mode &&& aeIfmt ≠ aeIfdir)
    (readable : dir = false → mode &&& aeIfmt = aeIflnk → info.reparse.bind symlinkTarget ≠ none)
    (filled : ∀ time, (env.memory time).symlink ≠ none) (path : Wstr) {s : CopyState} (named : s.path.data ≠ []) :
    ∃ attr, HandedOn env dir mode attr ∧
      s.log ++ shown w s.path.data attr <+: (r.nodeStored env w dir path info s).2.log := by
  obtain ⟨attr,t,read,at',log,handed⟩ := r.readHanded dir v2 works held path s
  have type : attr.type = mode &&& aeIfmt := by rw [FileAttr.type,handed.sameMode]
  have typed : typeOf (some attr) = attr.type := rfl
  have opens : t.path.data ≠ [] := by rwa [at']
  have ended {x : Copy Unit} :
      (x s).2.log <+: (Program.ensuring Stop.unwinds x (FsWriter.destroy env w) s).2.log := by
    have destroyed := (FsWriter.destroyEmits env w).keepsLog (x s).2
    unfold Program.ensuring
    cases run : x s with
    | mk outcome u =>
      rw [run] at destroyed
      cases outcome with
      | ok a => exact destroyed
      | error e =>
        dsimp only
        split
        · exact destroyed
        · exact List.prefix_rfl
  cases dir with
  | true =>
    have whole : attr.Whole := fun _ => by
      obtain ⟨time,same⟩ := handed.symlink rfl
      exact same ▸ filled time
    have shows := FsWriter.newFileShows works whole (type ▸ accepted) (type ▸ prompt) opens
    rw [at',log] at shows
    refine ⟨attr,handed,.trans ?_ ended⟩
    rw [if_pos rfl,visitDir,Program.bindOk read]
    exact Emits.behind (fun _ => (.pure () : Emits (fun _ => True) _)) shows
  | false =>
    by_cases link : attr.type = aeIflnk
    · obtain ⟨target,there⟩ := Option.ne_none_iff_exists'.mp (readable rfl (type.symm.trans link))
      have found : r.readSymlinkData env path info t = (.ok (some target),Clocked.tick t) := by
        rw [readSymlinkData,if_pos v2,readSymlinkV2,Program.bindOk (callWorks works _ t),if_pos rfl]
        exact copyTargetFound there _
      let whole : FileAttr := {attr with symlink := some target}
      have held : whole.Whole := fun _ => Option.some_ne_none target
      have shows := fileStored works info held (type ▸ accepted) (type ▸ prompt)
        path (s := Clocked.tick t) opens
      have clock : (Clocked.tick t).path = t.path ∧ (Clocked.tick t).log = t.log := ⟨rfl,rfl⟩
      rw [clock.1,clock.2,at',log] at shows
      refine ⟨whole,⟨handed.sameMode,handed.numbers,fun is => Bool.noConfusion is⟩,.trans ?_ ended⟩
      rw [if_neg Bool.false_ne_true,copyFile,Program.bindOk read,typed,if_pos link,storeSymlink,
        Program.bindOk found]
      exact shows
    · have whole : attr.Whole := fun is => absurd is link
      have shows := fileStored works info whole (type ▸ accepted) (type ▸ prompt) path opens
      rw [at',log] at shows
      refine ⟨attr,handed,.trans ?_ ended⟩
      rw [if_neg Bool.false_ne_true,copyFile,Program.bindOk read,typed,if_neg link]
      exact shows

def filled (memory : FileAttr) : FsEnv := {plainFs with memory := fun _ => memory}

theorem filledWorks (memory : FileAttr) : (filled memory).Works :=
  ⟨fun _ _ => rfl,fun _ _ => rfl,fun _ _ => ⟨_,rfl⟩⟩

def garbage (major : UInt32) (text : UInt8) : FileAttr :=
  {zeroAttr with devMajor := major, symlink := some [text]}

theorem HandedOn.known {memory attr : FileAttr} {mode : UInt32}
    (h : HandedOn (filled memory) dir mode attr) :
    (¬ isDevice mode → attr.devMajor = memory.devMajor ∧ attr.devMinor = memory.devMinor) ∧
      (dir = true → attr.symlink = memory.symlink) :=
  ⟨fun plain => (h.numbers plain).elim fun _ => id,fun is => (h.symlink is).elim fun _ => id⟩

theorem sameStart {α : Type} {a b l : List α} (ha : a <+: l) (hb : b <+: l)
    (length : a.length = b.length) : a = b :=
  (List.prefix_of_prefix_length_le ha hb length.le).eq_of_length length

def ShowSame (w : Format) (dir : Bool) (mode : UInt32) : Prop :=
  ∃ path a b, HandedOn (filled (garbage 1 97)) dir mode a ∧ HandedOn (filled (garbage 2 98)) dir mode b ∧
    ∃ log, shown w path a <+: log ∧ shown w path b <+: log

theorem numbersApart {mode : UInt32} (other : w ≠ .v2 ∧ w ≠ .linux) (plain : ¬ isDevice mode) :
    ¬ ShowSame w dir mode := by
  intro ⟨path,a,b,first,second,log,inFirst,inSecond⟩
  have typed : a.type = b.type := by rw [FileAttr.type,FileAttr.type,first.sameMode,second.sameMode]
  have record (attr : FileAttr) : [if attr.type = aeIfdir then FsEvent.createdDirectory path
      else .createdFile path,.ea path .lxattrb (.record (WslV1Writer.record attr))] <+:
      shown w path attr := by
    rw [shown,if_neg other.2,WslWriter.storedAs,if_neg other.1,WslV1Writer.stores]
    exact ⟨_,rfl⟩
  have equal := sameStart ((record a).trans inFirst) ((record b).trans inSecond) rfl
  have records : WslV1Writer.record a = WslV1Writer.record b := by
    injection equal with _ tail
    injection tail with event
    injection event with _ _ value
    injection value
  obtain ⟨major,minor⟩ := first.known.1 plain
  obtain ⟨major',minor'⟩ := second.known.1 plain
  have narrow : a.Narrow := by
    rw [FileAttr.Narrow,major,minor]
    decide
  have narrow' : b.Narrow := by
    rw [FileAttr.Narrow,major',minor']
    decide
  have numbers : a.devMajor = b.devMajor := by
    rw [← (FileAttr.narrowPacked narrow).1,← (FileAttr.narrowPacked narrow').1,records]
  rw [major,major'] at numbers
  exact absurd numbers (by decide)

theorem linkShown {path : Wstr} {attr : FileAttr} (link : attr.type = aeIflnk) :
    shown .v2 path attr = [.createdFile path,.ea path .lxuid (.dword attr.uid),
      .ea path .lxgid (.dword attr.gid),.ea path .lxmod (.dword attr.mode),
      .reparse path ⟨tagLxSymlink,((attr.symlink.getD []).length+4).toUInt16,
        [2,0,0,0] ++ attr.symlink.getD []⟩,
      .times path (timeU2f attr.atime) (timeU2f attr.mtime) (timeU2f attr.ctime)] := by
  have plain : ¬ attr.type = aeIfdir ∧ ¬ (attr.type = aeIfchr ∨ attr.type = aeIfblk) := by
    rw [link]
    decide
  rw [shown,if_neg (by decide),if_neg plain.1,WslWriter.storedAs,if_pos rfl,WslV2Writer.stores,
    if_neg plain.2,WslV2Writer.reparseOf,if_pos link]
  rfl

theorem targetsApart {mode : UInt32} (format : w = .v2 ∨ w = .linux)
    (link : mode &&& aeIfmt = aeIflnk) : ¬ ShowSame w true mode := by
  intro ⟨path,a,b,first,second,log,inFirst,inSecond⟩
  have isLink : a.type = aeIflnk := by rw [FileAttr.type,first.sameMode,link]
  have isLink' : b.type = aeIflnk := by rw [FileAttr.type,second.sameMode,link]
  have targets : a.symlink.getD [] = b.symlink.getD [] := by
    rcases format with v2 | archive
    · rw [v2,linkShown isLink] at inFirst
      rw [v2,linkShown isLink'] at inSecond
      have equal := sameStart inFirst inSecond (by simp only [List.length_cons,List.length_nil])
      simp only [List.cons.injEq,FsEvent.reparse.injEq,ReparseData.mk.injEq] at equal
      exact List.append_cancel_left equal.2.2.2.2.1.2.2.2
    · rw [archive,shown,if_pos rfl] at inFirst inSecond
      have equal := sameStart inFirst inSecond rfl
      simp only [List.cons.injEq,FsEvent.header.injEq] at equal
      have symlinks : a.symlink = b.symlink := by
        have same := congrArg FileAttr.symlink equal.1.2
        rwa [ArchiveWriter.entryOf,ArchiveWriter.entryOf,if_pos isLink,if_pos isLink'] at same
      rw [symlinks]
  rw [first.known.2 rfl,second.known.2 rfl] at targets
  exact absurd targets (by decide)

theorem filledSame (a b : FileAttr) : SameButMemory (filled a) (filled b) := ⟨rfl,rfl,rfl,rfl,rfl⟩

def arrived (w : Format) : CopyState :=
  let s := CopyState.new w [] []
  {s with path := s.path.withRel (wstr "a")}

theorem storedShowSame (v2 : r.format = .v2) {mode : UInt32} (held : r.modeOf info = some mode)
    (accepted : FsWriter.supported (mode &&& aeIfmt) (w ≠ .linux) = true)
    (prompt : w = .v2 → mode &&& aeIfmt ≠ aeIfdir)
    (readable : dir = false → mode &&& aeIfmt = aeIflnk → info.reparse.bind symlinkTarget ≠ none)
    (alone : ∀ env env' path s, SameButMemory env env' →
      (r.nodeStored env w dir path info s).2.log = (r.nodeStored env' w dir path info s).2.log) :
    ShowSame w dir mode := by
  have named : (arrived w).path.data ≠ [] := by
    cases w <;> decide
  obtain ⟨a,first,shows⟩ := r.nodeShows v2 (filledWorks (garbage 1 97)) held accepted prompt readable
    (fun _ => Option.some_ne_none _) [] named
  obtain ⟨b,second,shows'⟩ := r.nodeShows v2 (filledWorks (garbage 2 98)) held accepted prompt readable
    (fun _ => Option.some_ne_none _) [] named
  rw [alone _ (filled (garbage 2 98)) [] _ (filledSame _ _)] at shows
  exact ⟨_,a,b,first,second,_,shows,shows'⟩

theorem usedApart (v2 : r.format = .v2)
    (alone : ∀ env env' path s, SameButMemory env env' →
      (r.nodeStored env w dir path info s).2.log = (r.nodeStored env' w dir path info s).2.log) :
    r.Assigned w dir info := by
  intro mode held accepted
  have format (other : ¬ (w = .v2 ∨ w = .linux)) : w ≠ .v2 ∧ w ≠ .linux := not_or.mp other
  by_cases link : mode &&& aeIfmt = aeIflnk
  · have plain : ¬ isDevice mode := by
      rw [isDevice,link]
      decide
    have prompt : w = .v2 → mode &&& aeIfmt ≠ aeIfdir := by
      rw [link]
      exact fun _ => by decide
    rw [if_pos link]
    cases dir with
    | true =>
      have same : ShowSame w true mode :=
        r.storedShowSame v2 held accepted prompt (fun is => Bool.noConfusion is) alone
      by_cases other : w = .v2 ∨ w = .linux
      · exact absurd same (targetsApart other link)
      · exact absurd same (numbersApart (format other) plain)
    | false =>
      refine ⟨rfl,?_⟩
      by_cases unreadable : info.reparse.bind symlinkTarget = none
      · exact .inl unreadable
      · by_cases other : w = .v2 ∨ w = .linux
        · exact .inr other
        · have same := r.storedShowSame v2 held accepted prompt (fun _ _ => unreadable) alone
          exact absurd same (numbersApart (format other) plain)
  · rw [if_neg link]
    by_cases plain : isDevice mode
    · exact .inl plain
    · by_cases other : w = .v2 ∨ w = .linux
      · exact .inr other
      · have same := r.storedShowSame v2 held accepted (fun is => absurd is (format other).1)
          (fun _ is => absurd is link) alone
        exact absurd same (numbersApart (format other) plain)

theorem nodeMatched (v2 : r.format = .v2) (assigned : r.Assigned w dir info) (path : Wstr)
    (same : SameButMemory env env') :
    Relates Matched Eq (r.nodeStored env w dir path info) (r.nodeStored env' w dir path info) := by
  refine .ensuring ?_ (Matched.destroy same w)
  cases dir with
  | true => exact r.visitDirMatched same v2 path assigned
  | false => exact r.copyFileMatched same v2 path assigned

def copyStored (env : FsEnv) (w : Format) (fuel : Nat) : Copy Unit :=
  Program.ensuring Stop.unwinds (r.run env w fuel) (FsWriter.destroy env w)

theorem matchedLog {s t : CopyState} (matched : Matched s t) : s.log = t.log := by
  obtain ⟨stack,rfl,-⟩ := matched
  rfl

/- What is stored for a file depends on the source alone exactly where nothing is used that the
reader has not assigned; and so does a copy of a tree of such files. -/
theorem memoryShows (v2 : r.format = .v2) (w : Format) :
    (∀ dir info, (∀ env env' path s, SameButMemory env env' →
        (r.nodeStored env w dir path info s).2.log = (r.nodeStored env' w dir path info s).2.log) ↔
      r.Assigned w dir info) ∧
    ((∀ path dir info, r.infoAt path dir = some info → r.Assigned w dir info) →
      ∀ env env' fuel s, SameButMemory env env' →
        (r.copyStored env w fuel s).1 = (r.copyStored env' w fuel s).1 ∧
        (r.copyStored env w fuel s).2.log = (r.copyStored env' w fuel s).2.log) := by
  refine ⟨fun dir info => ⟨r.usedApart v2,fun assigned env env' path s same => ?_⟩,?_⟩
  · exact matchedLog ((r.nodeMatched v2 assigned path same).final (Matched.refl s)).2
  · intro assigned env env' fuel s same
    have ended : Relates Matched Eq (r.copyStored env w fuel) (r.copyStored env' w fuel) :=
      .ensuring (r.runMatched same v2 assigned fuel) (Matched.destroy same w)
    obtain ⟨outcome,matched⟩ := ended.final (Matched.refl s)
    exact ⟨outcome,matchedLog matched⟩

end WslReader

def plainFile : NodeInfo := {twoNames 0x81a4 with links := 1}

def plainTree : WslReader := ⟨.v2,sourceBase,.file (wstr "a") plainFile .nil⟩

theorem plainDescends {dirs : List Wstr} {t : Tree} (found : plainTree.tree.descend dirs = some t) :
    t = plainTree.tree := by
  cases dirs with
  | nil => exact (Option.some.inj found).symm
  | cons name dirs => cases found

theorem plainOnly {path : Wstr} {dir : Bool} {info : NodeInfo} (found : plainTree.infoAt path dir = some info) :
    dir = false ∧ info = plainFile := by
  unfold WslReader.infoAt at found
  split at found
  · split at found
    · obtain ⟨t,there,found⟩ := Option.bind_eq_some_iff.mp found
      obtain rfl := plainDescends there
      obtain ⟨held,inside,-⟩ := Option.map_eq_some_iff.mp found
      obtain ⟨name,-,none'⟩ := Option.bind_eq_some_iff.mp inside
      cases none'
    · cases found
  · rename_i file
    obtain ⟨t,there,found⟩ := Option.bind_eq_some_iff.mp found
    obtain rfl := plainDescends there
    obtain ⟨name,-,is⟩ := Option.bind_eq_some_iff.mp found
    obtain ⟨-,same⟩ := Option.ite_none_right_eq_some.mp is
    exact ⟨Bool.eq_false_iff.mpr file,(Option.some.inj same).symm⟩

theorem plainAssigned : plainTree.Assigned .v2 false plainFile := by
  intro mode held accepted
  obtain rfl : (0x81a4 : UInt32) = mode := Option.some.inj held
  decide

theorem memoryShowsUse :
    (∀ env env' path s, SameButMemory env env' →
      (plainTree.nodeStored env .v2 false path plainFile s).2.log =
        (plainTree.nodeStored env' .v2 false path plainFile s).2.log) ∧
    ∀ env env' fuel s, SameButMemory env env' →
      (plainTree.copyStored env .v2 fuel s).1 = (plainTree.copyStored env' .v2 fuel s).1 ∧
      (plainTree.copyStored env .v2 fuel s).2.log = (plainTree.copyStored env' .v2 fuel s).2.log := by
  obtain ⟨one,all⟩ := plainTree.memoryShows rfl .v2
  refine ⟨(one false plainFile).mpr plainAssigned,all fun path dir info found => ?_⟩
  obtain ⟨rfl,rfl⟩ := plainOnly found
  exact plainAssigned

/- The device number of a regular file in the v1 format is what the memory has held before. -/
theorem memoryLeaks :
    SameButMemory (WslReader.filled (WslReader.garbage 1 97)) (WslReader.filled (WslReader.garbage 2 98)) ∧
    (plainTree.nodeStored (WslReader.filled (WslReader.garbage 1 97)) .v1 false (wstr "a") plainFile
        (WslReader.arrived .v1)).2.log ≠
      (plainTree.nodeStored (WslReader.filled (WslReader.garbage 2 98)) .v1 false (wstr "a") plainFile
        (WslReader.arrived .v1)).2.log :=
  ⟨WslReader.filledSame _ _,by decide +kernel⟩

end LxRunOffline
