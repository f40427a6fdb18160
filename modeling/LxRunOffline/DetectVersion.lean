import LxRunOffline.Commands
import LxRunOffline.Landing
import LxRunOffline.Marks
import Mathlib.Data.List.TakeWhile

/-! `detect_version` of fs.cpp, asked about a directory that an archive has been unpacked into. A
legacy installation shows in the attributes of its `home` alone, and nobody but the archive puts
a `home` there. -/
namespace LxRunOffline
open Program (Moves)
open WslReader (convertPath convertTarget)

namespace Fs
variable {σ α : Type} [Clocked σ] (env : FsEnv) (disk : Wstr → EaName → Option EaValue)

def hasEa (path : Wstr) (name : EaName) (pick : EaValue → Option α) (ignoreError : Bool) :
    Program Stop σ Bool :=
  catchLro (do
    openFile env path true false
    let _ ← getEa env path (disk path) name pick
    pure true) fun e =>
      if e.msgCode = .errInvalidEa ∨ ignoreError = true then pure false else Program.raise (.lro e)

/- `p1` and `p2` are the texts of the two paths, each of which is built from the path anew. -/
def probeVersion (path p1 p2 : Wstr) : Program Stop σ UInt32 := do
  if ← hasEa env disk p1 .lxuid EaValue.asDword false then pure 2
  else if ← hasEa env disk p2 .lxattrb EaValue.asRecord true then pure 0
  else if ← hasEa env disk p1 .lxattrb EaValue.asRecord false then pure 1
  else throwOther .errFsDetect [path]

/- The base is what a `wsl_v2_path` makes of the path. -/
def detectVersion (path base : Wstr) : Program Stop σ UInt32 :=
  probeVersion env disk path (base ++ wstr "rootfs\\") (base ++ wstr "home\\")

end Fs

/- A directory that carries attributes can be opened, and what it carries can be asked for. -/
structure FsEnv.Shows (env : FsEnv) (disk : Wstr → EaName → Option EaValue) : Prop where
  opens : ∀ time path name value, disk path name = some value →
    env.status time (.openFile path true false) = 0
  answers : ∀ time path name, env.status time (.queryEa path name) = 0

namespace ArchiveReader
variable {r : ArchiveReader} {env : FsEnv} {w : Format} {base : Wstr} {s t : CopyState}
  {e : ArchiveEntry}

def delivered (entries : List ArchiveEntry) : List ArchiveEntry :=
  entries.takeWhile fun e => e.header ≠ .eof

def Writes (r : ArchiveReader) (start : FilePath) (e : ArchiveEntry) (path : Wstr) : Prop :=
  e.hardlink = none ∧ FsWriter.supported (e.mode &&& aeIfmt) true = true ∧ r.Named start e path

theorem readSymlinkUnmarked : Moves Unmarked (readSymlink e) := by
  refine .ite (fun _ => .bind ?_ fun _ => .pure _) fun _ => .pure _
  cases e.symlink <;> first | exact .raise _ | exact .pure _

theorem checkArchiveUnmarked (status : ArchiveStatus) :
    Moves Unmarked (Fs.checkArchive status : Copy Bool) := by
  cases status <;> first | exact .raise _ | exact .pure _

theorem readDataUnmarked (wsl : w ≠ .linux) (dataEnd : ArchiveStatus) (blocks : List ArchiveBlock) :
    Moves Unmarked (readData env w dataEnd blocks) := by
  induction blocks with
  | nil => exact .bind (checkArchiveUnmarked dataEnd) fun _ => Unmarked.writeFileData wsl []
  | cons block rest ih =>
    exact .bind (checkArchiveUnmarked block.status) fun _ => .ite
      (fun _ => .bind (Unmarked.writeFileData wsl block.written) fun _ => ih)
      fun _ => Unmarked.writeFileData wsl []

theorem linkEntryUnmarked (wsl : w ≠ .linux) (link : Except UInt32 CStr) :
    Moves Unmarked (r.linkEntry env w link) := by
  have converted (target : CStr) : Moves Unmarked (convertTarget (r.pathOf target)) :=
    ⟨fun _ => .silent rfl rfl rfl⟩
  cases link with
  | error code => exact .raise _
  | ok target =>
    exact .bind (.pure target) fun target => .bind (converted target) fun _ =>
      .ite (fun _ => Unmarked.writeHardLink wsl) fun _ => .pure ()

theorem openArchiveUnmarked : Moves Unmarked (r.openArchive env) :=
  .bind (Unmarked.ticked (openFileTicked ..)) fun _ =>
    .bind (Unmarked.ticked (getFileSizeTicked ..)) fun _ =>
    .bind (Unmarked.ticked ⟨fun s => ⟨s.clock+1,rfl⟩⟩) fun _ => .bind (checkArchiveUnmarked _) fun _ =>
    .bind (Unmarked.ticked ⟨fun s => ⟨s.clock+1,rfl⟩⟩) fun _ => .bind (checkArchiveUnmarked _) fun _ =>
    .bind (Unmarked.ticked ⟨fun s => ⟨s.clock+1,rfl⟩⟩) fun _ => .bind (checkArchiveUnmarked _) fun _ =>
    .pure ()

theorem storeEntryGains (wsl : w ≠ .linux) (run : storeEntry env w e s = (.ok (),t)) :
    Gains w (fun p => FsWriter.supported (e.mode &&& aeIfmt) true = true ∧ p = s.path.data) s t ∧
      t.path = s.path := by
  obtain ⟨symlink,u,read,run⟩ := Program.bindOkSource run
  obtain ⟨stored,v,wrote,run⟩ := Program.bindOkSource run
  have first := (@readSymlinkUnmarked e).final s
  rw [read] at first
  have gains := FsWriter.writeNewFileGains wsl wrote
  have making := ((Makes.writeNewFile env w (some (attrOf e symlink))).final u).path
  rw [wrote] at making
  have last : Moves Unmarked (if stored = true then
      Program.when (e.mode &&& aeIfmt = aeIfreg) (readData env w e.dataEnd e.blocks) else pure ()) :=
    .ite (fun _ => .when fun _ => readDataUnmarked wsl ..) fun _ => .pure ()
  have rest := last.final v
  rw [run] at rest
  have same : u.path = s.path := first.path
  rw [attrOfType,same] at gains
  exact ⟨.after first (gains.before rest),rest.path.trans (making.trans same)⟩

theorem convertedGains {start : FilePath} {src : FilePath} (begins : s.path.reset = start) {done : Bool}
    (run : convertPath src s = (.ok done,t)) :
    Gains w (fun _ => False) s t ∧ t.path.reset = start ∧
      if done = true then src.Reaches start t.path.data else ∀ path, ¬ src.Reaches start path := by
  have reset := FilePath.convertReset src s.path
  obtain ⟨result,rfl⟩ := Prod.mk.inj run
  refine ⟨.silent,reset.trans begins,?_⟩
  split
  · rename_i yes
    subst yes
    exact convertPathReaches begins run
  · rename_i no
    intro path reaches
    exact no (Except.ok.inj (result.symm.trans (FilePath.convertedReaches (begins.symm ▸ reaches))))

theorem entryNameSource {name : CStr} (run : entryName e.pathname s = (.ok name,t)) :
    e.pathname = some (.ok name) ∧ t = s := by
  cases known : e.pathname with
  | none =>
    rw [known] at run
    cases run
  | some text =>
    rw [known] at run
    cases text with
    | error code => cases run
    | ok text =>
      cases run
      exact ⟨rfl,rfl⟩

theorem extractGains (wsl : w ≠ .linux) (begins : s.path.reset = w.fresh base)
    (run : r.extract env w e s = (.ok (),t)) :
    Gains w (r.Writes (w.fresh base) e) s t ∧ t.path.reset = w.fresh base := by
  obtain ⟨name,u,named,run⟩ := Program.bindOkSource run
  obtain ⟨own,same⟩ := entryNameSource named
  rw [same] at run
  obtain ⟨done,v,converted,run⟩ := Program.bindOkSource run
  obtain ⟨silent,reset,reaches⟩ := @convertedGains w _ _ _ _ begins _ converted
  have only {p : Wstr} (writes : r.Writes (w.fresh base) e p) :
      (r.pathOf name).Reaches (w.fresh base) p := by
    obtain ⟨name',own',reaches'⟩ := writes.2.2
    cases own.symm.trans own'
    exact reaches'
  cases done with
  | false =>
    cases run
    exact ⟨silent.same fun p => ⟨False.elim,fun writes => reaches p (only writes)⟩,reset⟩
  | true =>
    rw [if_pos rfl] at run reaches
    cases link : e.hardlink with
    | some target =>
      rw [link] at run
      have rest := (@linkEntryUnmarked r env w wsl target).final v
      dsimp only at run
      rw [run] at rest
      refine ⟨(silent.before rest).same fun p => ?_,rest.path ▸ reset⟩
      simp [Writes,link]
    | none =>
      rw [link] at run
      obtain ⟨gains,path⟩ := storeEntryGains wsl run
      refine ⟨(silent.trans gains).same fun p => ?_,path ▸ reset⟩
      rw [false_or]
      refine ⟨fun held => ⟨link,held.1,name,own,held.2 ▸ reaches⟩,fun writes => ⟨writes.2.1,?_⟩⟩
      exact FilePath.reachesOnce (only writes) reaches

theorem readEntriesGains (wsl : w ≠ .linux) {entries : List ArchiveEntry}
    (begins : s.path.reset = w.fresh base) (run : r.readEntries env w entries s = (.ok (),t)) :
    Gains w (fun p => ∃ e ∈ delivered entries, r.Writes (w.fresh base) e p) s t := by
  induction entries generalizing s with
  | nil =>
    have ended : Moves Unmarked (r.readEntries env w []) :=
      .bind (checkArchiveUnmarked _) fun _ => .pure ()
    have rest := ended.final s
    rw [run] at rest
    exact (Gains.unmarked rest).same fun p => by simp [delivered]
  | cons e entries ih =>
    obtain ⟨more,u,checked,run⟩ := Program.bindOkSource run
    cases header : e.header with
    | failed text =>
      rw [header] at checked
      cases checked
    | eof =>
      rw [header] at checked
      cases checked
      cases run
      exact (Gains.unmarked (.silent rfl rfl rfl)).same fun p => by simp [delivered,header]
    | ok =>
      rw [header] at checked
      cases checked
      obtain ⟨_,v,extracted,run⟩ := Program.bindOkSource run
      obtain ⟨gains,reset⟩ := extractGains wsl begins extracted
      exact (gains.trans (ih reset run)).same fun p => by simp [delivered,header]
    | warn =>
      rw [header] at checked
      cases checked
      obtain ⟨_,v,extracted,run⟩ := Program.bindOkSource run
      obtain ⟨gains,reset⟩ := extractGains wsl begins extracted
      exact (gains.trans (ih reset run)).same fun p => by simp [delivered,header]

end ArchiveReader
namespace FilePath

theorem linuxReaches {p : LinuxPath} (shown : p.skip = false) (w : Format) (base path : Wstr) :
    (FilePath.linux p).Reaches (w.fresh base) path ↔
      ∃ rel, w.lands (wstr "rootfs/" ++ p.data) = some rel ∧ path = (w.fresh base).base ++ rel := by
  have fed := feedText w base (wstr "rootfs/" ++ p.data)
  rw [Reaches,linuxStreams shown,servedReset .fresh,putText]
  cases landed : w.lands (wstr "rootfs/" ++ p.data) with
  | none =>
    rw [landed] at fed
    dsimp only at fed
    simp only [Prod.mk.injEq,Except.ok.injEq,fed]
    simp
  | some rel =>
    rw [landed] at fed
    obtain ⟨held,run,data⟩ := fed
    simp only [run]
    grind

end FilePath
namespace Format

theorem landsRoot {w : Format} (wsl : w ≠ .linux) : w.lands (wstr "rootfs/") = some (wstr "rootfs\\") := by
  cases w with
  | linux => contradiction
  | v1 => rfl
  | v2 => rfl
  | legacy => decide

theorem freshBase {w : Format} (wsl : w ≠ .linux) (base : Wstr) : (w.fresh base).base = base := by
  cases w <;> first | rfl | contradiction

theorem landsHome {w : Format} (wsl : w ≠ .linux) {data : Wstr} (noNul : 0 ∉ data) :
    w.lands (wstr "rootfs/" ++ data) = some (wstr "home\\") ↔ w = .legacy ∧ data = wstr "home/" := by
  have coded (k : PrefixCode WChar WChar) (root : k.encode (wstr "rootfs/") = wstr "rootfs\\") :
      k.encode (wstr "rootfs/" ++ data) ≠ wstr "home\\" := by
    rw [PrefixCode.encodeAppend,root]
    exact fun same => by cases (List.cons.inj same).1
  cases w with
  | linux => contradiction
  | v1 => exact ⟨fun landed => absurd (Option.some.inj landed) (coded _ rfl),fun no => by cases no.1⟩
  | v2 => exact ⟨fun landed => absurd (Option.some.inj landed) (coded _ rfl),fun no => by cases no.1⟩
  | legacy =>
    refine ⟨fun landed => ⟨rfl,?_⟩,fun known => ?_⟩
    · rw [lands] at landed
      split at landed
      · cases landed
      · have is := Option.some.inj landed
        rcases WslLegacyPath.landing (WslLegacyPath.rootedClear noNul) with ⟨u,same,-,rel⟩ | rel
        · rw [List.append_cancel_left same]
          have home : WslV1Path.code.encode (wstr "home/") = wstr "home\\" := rfl
          have clear : 0 ∉ u := (List.append_cancel_left same) ▸ noNul
          exact (WslLegacyPath.encodedSame clear (by decide)).mp (rel.symm.trans (is.trans home.symm))
        · exact absurd (rel.symm.trans is) (coded _ rfl)
    · rw [known.2]
      decide

end Format
namespace ArchiveReader
variable {r : ArchiveReader} {env : FsEnv} {w : Format} {base source : Wstr} {s t : CopyState}
  {e : ArchiveEntry}

def BringsHome (r : ArchiveReader) (e : ArchiveEntry) : Prop :=
  e.hardlink = none ∧ FsWriter.supported (e.mode &&& aeIfmt) true = true ∧
  ∃ name, e.pathname = some (.ok name) ∧
    (LinuxPath.ofName name.units r.rootPath).data = wstr "home/"

theorem writesHome (wsl : w ≠ .linux) :
    r.Writes (w.fresh base) e (base ++ wstr "home\\") ↔ w = .legacy ∧ r.BringsHome e := by
  have named (name : CStr) : (r.pathOf name).Reaches (w.fresh base) (base ++ wstr "home\\") ↔
      w = .legacy ∧ (LinuxPath.ofName name.units r.rootPath).data = wstr "home/" := by
    have skip := LinuxPath.ofNameSkip name.units r.rootPath
    have noNul := LinuxPath.ofNameNoNul name.noNul r.rootPath
    rw [← Format.landsHome wsl noNul,pathOf]
    cases shown : (LinuxPath.ofName name.units r.rootPath).skip with
    | false =>
      rw [FilePath.linuxReaches shown,Format.freshBase wsl]
      simp only [List.append_cancel_left_eq,exists_eq_right']
    | true =>
      have empty : (LinuxPath.ofName name.units r.rootPath).data = [] := by
        simpa [shown] using skip.symm
      refine ⟨fun reaches => ?_,fun landed => ?_⟩
      · obtain ⟨out,run,-⟩ := reaches
        rw [FilePath.convert,FilePath.linuxConvert,if_pos shown] at run
        cases run
      · rw [Format.landsHome wsl noNul,empty] at landed
        cases landed.2
  unfold Writes Named BringsHome
  simp only [named]
  grind

theorem runGains (wsl : w ≠ .linux) (run : r.run env w (.new w base source) = (.ok (),t)) :
    Gains w (fun p => p = base ++ wstr "rootfs\\" ∨
      ∃ e ∈ delivered r.entries, r.Writes (w.fresh base) e p) (.new w base source) t := by
  obtain ⟨_,u,opened,run⟩ := Program.bindOkSource run
  obtain ⟨_,v,rooted,run⟩ := Program.bindOkSource run
  have first := (@openArchiveUnmarked r env).final (.new w base source)
  rw [opened] at first
  have begins : u.path.reset = w.fresh base := first.path ▸ FilePath.servedReset .fresh
  have root : Gains w (· = base ++ wstr "rootfs\\") u v ∧ v.path.reset = w.fresh base := by
    obtain ⟨done,x,converted,wrote⟩ := Program.bindOkSource rooted
    obtain ⟨silent,reset,reaches⟩ := @convertedGains w _ _ _ _ begins _ converted
    have lands (p : Wstr) : (FilePath.linux LinuxPath.new).Reaches (w.fresh base) p ↔
        p = base ++ wstr "rootfs\\" := by
      have data : wstr "rootfs/" ++ LinuxPath.new.data = wstr "rootfs/" := rfl
      rw [FilePath.linuxReaches rfl,data,Format.landsRoot wsl,Format.freshBase wsl]
      simp
    cases done with
    | false => exact absurd ((lands _).mpr rfl) (reaches _)
    | true =>
      obtain ⟨stored,y,wrote,ended⟩ := Program.bindOkSource wrote
      cases ended
      have gains := FsWriter.writeNewFileGains wsl wrote
      have making := ((Makes.writeNewFile env w (some rootAttr)).final x).path
      rw [wrote] at making
      have fine : FsWriter.supported rootAttr.type true = true := rfl
      refine ⟨(silent.trans gains).same fun p => ?_,making ▸ reset⟩
      simp [fine,(lands _).mp reaches]
  have entries := readEntriesGains wsl root.2 run
  exact (Gains.after first (root.1.trans entries))

structure Installed (r : ArchiveReader) (env : FsEnv) (w : Format) (base source : Wstr)
    (u : CopyState) : Prop where
  ended : ∃ t, r.run env w (.new w base source) = (.ok (),t) ∧ FsWriter.destroy env w t = (.ok (),u) ∧
    (w = .v2 → (WslV2Writer.drain env t.dirAttr t).1 = .ok ())

theorem installedGains (wsl : w ≠ .linux) {u : CopyState} (h : r.Installed env w base source u) :
    (∀ e ∈ u.log, Fitting w e) ∧ ∀ p, (∃ value, .ea p w.sign value ∈ u.log) ↔
      p = base ++ wstr "rootfs\\" ∨ ∃ e ∈ delivered r.entries, r.Writes (w.fresh base) e p := by
  obtain ⟨t,run,destroyed,drained⟩ := h.ended
  have gains := runGains wsl run
  have last : Gains w (fun _ => False) t u ∧ u.dirAttr = [] := by
    rw [FsWriter.destroy] at destroyed
    split at destroyed
    · rename_i v2
      subst v2
      have drain := Program.returnedPair (drained rfl)
      have same : WslV2Writer.destroy env t = (.ok (),(WslV2Writer.drain env t.dirAttr t).2) :=
        Program.rescueOk drain
      cases same.symm.trans destroyed
      exact WslV2Writer.drainGains rfl drain
    · rename_i old
      cases destroyed
      exact ⟨.unmarked (.silent rfl rfl rfl),gains.stack old⟩
  have whole := gains.trans last.1
  obtain ⟨more,log,fits⟩ := whole.log
  have start : (CopyState.new w base source).log = [] := rfl
  rw [start,List.nil_append] at log
  refine ⟨fun e mem => fits e (log ▸ mem),fun p => ?_⟩
  have marked := whole.marked p
  rw [Marked,last.2,Marked] at marked
  simpa [CopyState.new] using marked

end ArchiveReader
section Probes
variable {σ α : Type} [Clocked σ] {env : FsEnv} {disk : Wstr → EaName → Option EaValue} {path : Wstr}
  {name : EaName} {pick : EaValue → Option α} {ignoreError : Bool} {s : σ}

theorem openShown (fine : env.status (Clocked.clock s) (.openFile path true false) = 0) :
    Fs.openFile env path true false s = (.ok (),Clocked.tick s) := by
  rw [Fs.openFile,Program.bindRun,Fs.call,Fs.ask,fine]
  rfl

theorem getShown (shows : env.Shows disk) : Fs.getEa env path (disk path) name pick s =
    match (disk path name).bind pick with
    | none => (.error (.lro (.fromOther .errInvalidEa [name.text])),Clocked.tick s)
    | some a => (.ok a,Clocked.tick s) := by
  rw [Fs.getEa,Program.bindRun,Fs.call,Fs.ask,shows.answers]
  dsimp only
  rw [if_neg (by decide)]
  cases (disk path name).bind pick <;> rfl

theorem hasEaFound (shows : env.Shows disk) {value : EaValue} {a : α}
    (held : disk path name = some value) (fits : pick value = some a) :
    ∃ t, Fs.hasEa env disk path name pick ignoreError s = (.ok true,t) := by
  refine ⟨Clocked.tick (Clocked.tick s),Program.rescueOk ?_⟩
  rw [Program.bindOk (openShown (shows.opens _ _ _ _ held)),Program.bindRun,getShown shows,held,
    Option.bind_some,fits]
  rfl

theorem hasEaMissing (shows : env.Shows disk) (absent : disk path name = none)
    (there : ignoreError = true ∨ ∃ n value, disk path n = some value) :
    ∃ t, Fs.hasEa env disk path name pick ignoreError s = (.ok false,t) := by
  by_cases fine : env.status (Clocked.clock s) (.openFile path true false) = 0
  · refine ⟨Clocked.tick (Clocked.tick s),?_⟩
    rw [Fs.hasEa,catchLro,Program.rescueError]
    rotate_left
    · rw [Program.bindOk (openShown fine),Program.bindRun,getShown shows,absent]
      rfl
    · exact congrFun (if_pos (.inl rfl)) _
  · have ignored : ignoreError = true := by
      rcases there with ignored | ⟨n,value,held⟩
      · exact ignored
      · exact absurd (shows.opens _ _ _ _ held) fine
    refine ⟨Clocked.tick s,?_⟩
    rw [Fs.hasEa,catchLro,Program.rescueError]
    rotate_left
    · rw [Fs.openFile,Program.bindRun,Program.bindRun,Fs.call,Fs.ask]
      dsimp only
      rw [if_pos fine]
      rfl
    · exact congrFun (if_pos (.inr ignored)) _

end Probes

theorem eaOfHeld {log : List FsEvent} {path : Wstr} {name : EaName} {value : EaValue}
    (mem : .ea path name value ∈ log) : ∃ last, eaOf log path name = some last := by
  have some' : log.filterMap (eaEvent path name) ≠ [] := fun none' => by
    have left := List.filterMap_eq_nil_iff.mp none' _ mem
    simp [eaEvent] at left
  exact ⟨_,List.getLast?_eq_some_getLast some'⟩

theorem eaOfThere {log : List FsEvent} {path : Wstr} {name : EaName} :
    (eaOf log path name).isSome = true ↔ ∃ value, .ea path name value ∈ log := by
  rw [Option.isSome_iff_exists]
  refine ⟨fun held => ?_,fun there => ?_⟩
  · obtain ⟨value,found⟩ := held
    exact ⟨value,eaOfSource found⟩
  · obtain ⟨value,mem⟩ := there
    exact eaOfHeld mem

theorem ofVersionSource {v : UInt32} {w : Format} (known : Format.ofVersion v = some w) :
    v = 0 ∧ w = .legacy ∨ v = 1 ∧ w = .v1 ∨ v = 2 ∧ w = .v2 := by
  unfold Format.ofVersion at known
  grind

section Detection
variable {w : Format} {r : ArchiveReader} {env probe : FsEnv} {base source path : Wstr} {u : CopyState}
  {σ : Type} [Clocked σ] {s : σ}

theorem detectsV2 (installed : r.Installed env .v2 base source u) (shows : probe.Shows (eaOf u.log)) :
    (Fs.detectVersion probe (eaOf u.log) path base s).1 = .ok 2 := by
  obtain ⟨fits,marked⟩ := ArchiveReader.installedGains (by decide) installed
  have sign : Format.v2.sign = .lxuid := rfl
  rw [sign] at marked
  obtain ⟨value,mem⟩ := (marked _).mpr (.inl rfl)
  obtain ⟨last,held⟩ := eaOfHeld mem
  obtain ⟨n,is⟩ := fits _ (eaOfSource held) rfl
  obtain ⟨t,found⟩ := @hasEaFound _ _ _ _ _ _ _ EaValue.asDword false s shows _ n held (is ▸ rfl)
  rw [Fs.detectVersion,Fs.probeVersion,Program.bindOk found]
  rfl

theorem detectsOld (wsl : w ≠ .linux) (old : w ≠ .v2) (installed : r.Installed env w base source u)
    (shows : probe.Shows (eaOf u.log)) : (Fs.detectVersion probe (eaOf u.log) path base s).1 =
      .ok (if (eaOf u.log (base ++ wstr "home\\") .lxattrb).isSome then 0 else 1) := by
  obtain ⟨fits,marked⟩ := ArchiveReader.installedGains wsl installed
  have sign : w.sign = .lxattrb := if_neg old
  have record {p : Wstr} {value : EaValue} (held : eaOf u.log p .lxattrb = some value) :
      ∃ attr, value = .record attr := by
    have fit := fits _ (eaOfSource held)
    rw [Fitting,if_neg old] at fit
    exact fit.2
  have noUid (p : Wstr) : eaOf u.log p .lxuid = none := by
    by_contra some'
    obtain ⟨value,held⟩ := Option.ne_none_iff_exists'.mp some'
    have fit := fits _ (eaOfSource held)
    rw [Fitting,if_neg old] at fit
    cases fit.1
  obtain ⟨value,mem⟩ := (marked _).mpr (.inl rfl)
  rw [sign] at mem
  obtain ⟨root,held⟩ := eaOfHeld mem
  obtain ⟨attr,is⟩ := record held
  obtain ⟨t,first⟩ := @hasEaMissing _ _ _ _ _ _ _ EaValue.asDword false s shows (noUid _)
    (.inr ⟨_,_,held⟩)
  rw [Fs.detectVersion,Fs.probeVersion,Program.bindOk first]
  cases home : eaOf u.log (base ++ wstr "home\\") .lxattrb with
  | some value =>
    obtain ⟨own,same⟩ := record home
    obtain ⟨t',second⟩ := @hasEaFound _ _ _ _ _ _ _ EaValue.asRecord true t shows _ own home (same ▸ rfl)
    simp only [Bool.false_eq_true,if_false,Program.bindOk second]
    rfl
  | none =>
    obtain ⟨t',second⟩ := @hasEaMissing _ _ _ _ _ _ _ EaValue.asRecord true t shows home (.inl rfl)
    obtain ⟨t'',third⟩ := @hasEaFound _ _ _ _ _ _ _ EaValue.asRecord false t' shows _ attr held (is ▸ rfl)
    simp only [Bool.false_eq_true,if_false,Program.bindOk second,Program.bindOk third]
    rfl

end Detection

/- A legacy installation is told from a v1 one by nothing but the entry `home/`. -/
theorem detectsVersion {v : UInt32} {w : Format} (known : Format.ofVersion v = some w)
    {r : ArchiveReader} {env : FsEnv} {base source : Wstr} {u : CopyState}
    (installed : r.Installed env w base source u) {probe : FsEnv} (shows : probe.Shows (eaOf u.log))
    {σ : Type} [Clocked σ] (path : Wstr) (s : σ) :
    (Fs.detectVersion probe (eaOf u.log) path base s).1 = .ok v ↔
      (v = 0 → ∃ e ∈ ArchiveReader.delivered r.entries, r.BringsHome e) := by
  have home (wsl : w ≠ .linux) (old : w ≠ .v2) :
      (eaOf u.log (base ++ wstr "home\\") .lxattrb).isSome = true ↔
        w = .legacy ∧ ∃ e ∈ ArchiveReader.delivered r.entries, r.BringsHome e := by
    have marked := (ArchiveReader.installedGains wsl installed).2 (base ++ wstr "home\\")
    have apart : base ++ wstr "home\\" ≠ base ++ wstr "rootfs\\" := fun same => by
      cases List.append_cancel_left same
    rw [Format.sign,if_neg old] at marked
    rw [eaOfThere,marked]
    simp only [ArchiveReader.writesHome wsl,apart,false_or]
    grind
  rcases ofVersionSource known with ⟨rfl,rfl⟩ | ⟨rfl,rfl⟩ | ⟨rfl,rfl⟩
  · rw [detectsOld (by decide) (by decide) installed shows]
    simp [home (by decide) (by decide)]
  · rw [detectsOld (by decide) (by decide) installed shows]
    simp [home (by decide) (by decide)]
  · simp [detectsV2 installed shows]

def oneDirectory (name : CStr) : ArchiveReader where
  archivePath := wstr "a.tar"
  rootPath := []
  entries := [⟨.ok,some (.ok name),none,0x41ed,0,0,0,none,⟨0,0⟩,none,0,0,.error 0,[],.eof⟩]
  ending := .eof

def etcDir : CStr := ⟨wstr "etc/",by decide⟩
def homeDir : CStr := ⟨wstr "home/",by decide⟩

def unpacked (name : CStr) : CopyState :=
  ((oneDirectory name).run plainFs .legacy (.new .legacy targetBase [])).2

theorem unpackedInstalled (name : CStr)
    (returns : ((oneDirectory name).run plainFs .legacy (.new .legacy targetBase [])).1 = .ok ()) :
    (oneDirectory name).Installed plainFs .legacy targetBase [] (unpacked name) :=
  ⟨_,Program.returnedPair returns,rfl,fun no => by cases no⟩

theorem plainShows (disk : Wstr → EaName → Option EaValue) : plainFs.Shows disk :=
  ⟨fun _ _ _ _ _ => rfl,fun _ _ _ => rfl⟩

theorem detectsVersionHome :
    (Fs.detectVersion plainFs (eaOf (unpacked homeDir).log) [] targetBase (unpacked homeDir)).1 = .ok 0 ↔
      ((0 : UInt32) = 0 → ∃ e ∈ ArchiveReader.delivered (oneDirectory homeDir).entries,
        (oneDirectory homeDir).BringsHome e) :=
  detectsVersion rfl (unpackedInstalled homeDir (by decide +kernel)) (plainShows _) [] _

/- An archive without a `home/` makes a legacy installation that is taken for a v1 one. -/
theorem homelessMistaken : ¬ ∀ (v : UInt32) (w : Format) (r : ArchiveReader) (env probe : FsEnv)
    (base source path : Wstr) (u s : CopyState), Format.ofVersion v = some w →
    r.Installed env w base source u → probe.Shows (eaOf u.log) →
    (Fs.detectVersion probe (eaOf u.log) path base s).1 = .ok v := by
  intro always
  have found := always 0 .legacy (oneDirectory etcDir) plainFs plainFs targetBase [] []
    (unpacked etcDir) (unpacked etcDir) rfl (unpackedInstalled etcDir (by decide +kernel)) (plainShows _)
  have mistaken : (Fs.detectVersion plainFs (eaOf (unpacked etcDir).log) [] targetBase
      (unpacked etcDir)).1 = .ok 1 := by decide +kernel
  cases mistaken.symm.trans found

end LxRunOffline
