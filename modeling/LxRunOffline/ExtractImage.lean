import LxRunOffline.ImageRuns
import LxRunOffline.Members

/-! Unpacking an archive, and the disk that shows its members afterwards. -/
namespace LxRunOffline
open Program (Moves)
namespace ArchiveReader
variable {r : ArchiveReader} {env : FsEnv} {w : Format} {base p : Wstr} {e : ArchiveEntry} {s t u : CopyState}
  {blocks : List ArchiveBlock} {path target : Wstr} {attr a : FileAttr} {data : Bytes}

def written (blocks : List ArchiveBlock) : List Bytes := (blocks.map ArchiveBlock.written).filter (· ≠ [])

def EmptyLast (blocks : List ArchiveBlock) : Prop := blocks.Pairwise fun a b => a.written = [] → b.written = []

theorem writtenWhole (reads : ReadsFile path attr data e) (regular : attr.type = aeIfreg) :
    (written e.blocks).flatten = data := by
  obtain ⟨gapless,small,-⟩ := reads.contiguous regular
  obtain ⟨long,last⟩ := reads.size regular
  rw [(reads.data regular).whole gapless (long.trans last.symm),← smallWritten small,written,
    List.flatten_filter_ne_nil,List.flatMap_def]

theorem readsEmptyLast (reads : ReadsFile path attr data e) (regular : attr.type = aeIfreg) : EmptyLast e.blocks := by
  obtain ⟨-,small,last⟩ := reads.contiguous regular
  exact last.imp_of_mem fun mem mem' behind => by
    rwa [writtenAll (small _ mem),writtenAll (small _ mem')]

theorem readDataRest (wsl : w ≠ .linux) (delivered : ∀ block ∈ blocks, Delivered block.status)
    (rest : ∀ block ∈ blocks, block.written = []) (s : CopyState) :
    readData env w .eof blocks s = (.ok (),{s with hfData := none}) := by
  induction blocks generalizing s with
  | nil => exact readEnd wsl s
  | cons block blocks ih =>
    rw [readBlock (delivered block List.mem_cons_self),rest block List.mem_cons_self,
      Program.bindOk (WslWriter.emptyDataRun wsl s)]
    exact ih (fun b mem => delivered b (List.mem_cons_of_mem _ mem))
      (fun b mem => rest b (List.mem_cons_of_mem _ mem)) _

theorem readDataPuts (wsl : w ≠ .linux) (all : ∀ block ∈ blocks, Delivered block.status) (last : EmptyLast blocks)
    (open' : s.hfData = some p) (run : readData env w .eof blocks s = (.ok (),t)) :
    Puts ((written blocks).map (.wrote p)) s t := by
  induction blocks generalizing s with
  | nil =>
    rw [readEnd wsl] at run
    cases run
    exact ⟨rfl,rfl,(List.append_nil _).symm⟩
  | cons block rest ih =>
    obtain ⟨behind,last⟩ := List.pairwise_cons.mp last
    have later (b : ArchiveBlock) (mem : b ∈ rest) : Delivered b.status := all b (List.mem_cons_of_mem _ mem)
    rw [readBlock (all block List.mem_cons_self)] at run
    by_cases empty : block.written = []
    · have none' : written (block :: rest) = [] := by simpa [written,empty] using fun b mem => behind b mem empty
      rw [empty,Program.bindOk (WslWriter.emptyDataRun wsl s),
        readDataRest wsl later fun b mem => behind b mem empty] at run
      cases run
      rw [none']
      exact ⟨rfl,rfl,(List.append_nil _).symm⟩
    · obtain ⟨_,u,wrote,run⟩ := Program.bindOkSource run
      have one : Puts [.wrote p block.written] s u ∧ u.hfData = some p := by
        rw [FsWriter.writeFileData,if_neg wsl,WslWriter.writeFileData,if_neg (by simpa using empty)] at wrote
        obtain ⟨_,x,got,wrote⟩ := Program.bindOkSource wrote
        cases got
        rw [open'] at wrote
        obtain ⟨_,x,got,wrote⟩ := Program.bindOkSource wrote
        cases got
        obtain ⟨code,x,asked,wrote⟩ := Program.bindOkSource wrote
        cases asked
        split at wrote
        · cases wrote
        · cases wrote
          exact ⟨⟨rfl,rfl,rfl⟩,open'⟩
      have first : written (block :: rest) = block.written :: written rest := by simp [written,empty]
      rw [first]
      exact one.1.trans (ih later last one.2 run)

theorem readSymlinkStays {symlink : Option Bytes} (run : readSymlink e s = (.ok symlink,t)) : t = s := by
  rw [readSymlink] at run
  split at run
  · cases text : e.symlink with
    | error code =>
      rw [text] at run
      cases run
    | ok target =>
      rw [text] at run
      cases run
      rfl
  · cases run
    rfl

theorem storeEntryParts (wsl : w ≠ .linux) (accepts : FsWriter.supported (e.mode &&& aeIfmt) true = true)
    (run : storeEntry env w e s = (.ok (),t)) : ∃ symlink u, readSymlink e s = (.ok symlink,s) ∧
      WslWriter.writeFile env w (some (attrOf e symlink)) s = (.ok true,u) ∧
      Program.when (e.mode &&& aeIfmt = aeIfreg) (readData env w e.dataEnd e.blocks) u = (.ok (),t) := by
  obtain ⟨symlink,v,read,run⟩ := Program.bindOkSource run
  have same := readSymlinkStays read
  rw [same] at read run
  obtain ⟨stored,u,wrote,run⟩ := Program.bindOkSource run
  have passes : FsWriter.passes (some (attrOf e symlink)) true true = true := by
    rw [FsWriter.passes,attrOfType]
    exact accepts
  rw [FsWriter.wslAccepts env wsl passes] at wrote
  obtain rfl := FsWriter.wslFileStores wrote
  exact ⟨symlink,u,read,wrote,run⟩

structure Steady (s t : CopyState) : Prop where
  path : t.path = s.path
  targetPath : t.targetPath = s.targetPath
  ignored : t.ignored = s.ignored

theorem writeFileSteady {stored : Bool} (run : WslWriter.writeFile env w (some a) s = (.ok stored,t)) : Steady s t := by
  have kept := FsWriter.wslFileStored env w s (some a)
  obtain rfl := FsWriter.wslFileStores run
  rw [run] at kept
  obtain ⟨u,within,rfl⟩ := kept
  exact ⟨within.path,within.targetPath,within.ignored⟩

theorem storeEntrySteady (wsl : w ≠ .linux) (accepts : FsWriter.supported (e.mode &&& aeIfmt) true = true)
    (run : storeEntry env w e s = (.ok (),t)) : Steady s t := by
  obtain ⟨symlink,u,-,wrote,run⟩ := storeEntryParts wsl accepts run
  have kept := writeFileSteady wrote
  have quiet : Emits DataEvent (Program.when (e.mode &&& aeIfmt = aeIfreg) (readData env w e.dataEnd e.blocks)) :=
    .when fun _ => readDataEmits ..
  have within := quiet.final u
  rw [run] at within
  exact ⟨within.path.trans kept.path,within.targetPath.trans kept.targetPath,within.ignored.trans kept.ignored⟩

theorem readHeader {m : Member} (reads : Reads m e) : Delivered e.header := by
  cases m with
  | file path attr data => exact reads.header
  | link path target => exact reads.header

theorem readType (reads : ReadsFile path attr data e) : e.mode &&& aeIfmt = attr.type :=
  congrArg (· &&& aeIfmt) reads.mode

theorem attrType (reads : ReadsFile path attr data e) (symlink : Option Bytes) :
    (attrOf e symlink).type = attr.type :=
  (attrOfType e symlink).trans (readType reads)

theorem readOwner (reads : ReadsFile path attr data e) (symlink : Option Bytes) :
    (attrOf e symlink).owner = (inStat attr).owner := by
  have same : (attrOf e symlink).device ↔ (inStat attr).device := by
    unfold FileAttr.device
    rw [show (attrOf e symlink).mode = (inStat attr).mode from congrArg shortMode reads.mode]
  have either : (inStat attr).device ↔ attr.device := by
    have type := inStatType attr
    unfold FileAttr.type at type
    simp only [FileAttr.device,WslReader.isDevice,type]
  rw [FileAttr.owner,FileAttr.owner,
    show (attrOf e symlink).mode = (inStat attr).mode from congrArg shortMode reads.mode,
    show (attrOf e symlink).uid = (inStat attr).uid from congrArg shortId reads.uid,
    show (attrOf e symlink).gid = (inStat attr).gid from congrArg shortId reads.gid]
  by_cases device : (inStat attr).device
  · obtain ⟨major,minor⟩ := reads.device (either.mp device)
    rw [if_pos (same.mpr device),if_pos device,show (attrOf e symlink).devMajor = (inStat attr).devMajor from major,
      show (attrOf e symlink).devMinor = (inStat attr).devMinor from minor]
  · rw [if_neg (mt same.mp device),if_neg device]

variable {rootPath : Wstr} {members : List Member} {done rest : List (Option Member)}

theorem readGiven {symlink : Option Bytes} (reads : ReadsFile path attr data e)
    (read : readSymlink e s = (.ok symlink,s)) (plain : attr.type ≠ aeIfdir) :
    (original rootPath w base members).Given (some (.file path attr data)) (some (attrOf e symlink))
      (written e.blocks) where
  file := by simp [original,heldBy,plain]
  owner := congrArg some (readOwner reads symlink)
  content bytes whole := by
    have type := attrType reads symlink
    obtain ⟨regular,same⟩ := Option.ite_none_right_eq_some.mp whole
    refine ⟨type.trans regular,?_⟩
    exact (writtenWhole reads regular).trans (Option.some.inj same)
  target target found := by
    have type := attrType reads symlink
    obtain ⟨link,same⟩ := Option.ite_none_right_eq_some.mp found
    obtain ⟨target',held,text,clear⟩ := reads.target link
    obtain rfl : target' = target := Option.some.inj (held.symm.trans same)
    have isLink : e.mode &&& aeIfmt = aeIflnk := (readType reads).trans link
    rw [readSymlink,if_pos isLink,text] at read
    cases read
    exact ⟨type.trans link,rfl,clear⟩

structure Unpacking (rootPath : Wstr) (w : Format) (base : Wstr) (members : List Member)
    (done : List (Option Member)) (s : CopyState) : Prop where
  path : s.path.reset = w.fresh base
  targetPath : s.targetPath.reset = w.fresh base
  ignored : s.ignored = []
  depicted : (original rootPath w base members).Depicted w done s

theorem Unpacking.steady (h : Unpacking rootPath w base members done s) (steady : Steady s t)
    {done' : List (Option Member)} (depicted : (original rootPath w base members).Depicted w done' t) :
    Unpacking rootPath w base members done' t :=
  ⟨by rw [steady.path,h.path],by rw [steady.targetPath,h.targetPath],steady.ignored.trans h.ignored,depicted⟩

section Step
variable (orderly : Orderly r.rootPath w base members) (wsl : w ≠ .linux) {m : Member}
  (all : none :: members.map some = done ++ some m :: rest)
include orderly all

theorem Orderly.soundPart : (original r.rootPath w base members).Sound (done ++ [some m]) :=
  orderly.sound fun i mem => by
    rw [all]
    simp only [List.mem_append,List.mem_cons,List.not_mem_nil,or_false] at mem ⊢
    exact mem.imp_right .inl

theorem Orderly.unused (landed : landsAt r.rootPath w base m.path = some p) :
    ∀ j ∈ done, placeOf r.rootPath w base j ≠ some p := by
  intro j before landed'
  have apart := orderly.once
  rw [all,List.pairwise_append] at apart
  exact apart.2.2 j before (some m) List.mem_cons_self p landed' landed

include wsl

theorem unpackFile (fresh : env.Fresh) (h : Unpacking r.rootPath w base members done s)
    (file : m = .file path attr data) (landed : landsAt r.rootPath w base path = some s.path.data)
    (reads : ReadsFile path attr data e) (run : storeEntry env w e s = (.ok (),t)) :
    Unpacking r.rootPath w base members (done ++ [some m]) t := by
  subst file
  have mem : .file path attr data ∈ members := by
    have inside : some (Member.file path attr data) ∈ none :: members.map some := by simp [all]
    simpa using inside
  have accepts : FsWriter.supported (e.mode &&& aeIfmt) true = true := by
    rw [reads.mode]
    exact orderly.types path attr data mem
  have sound := Orderly.soundPart orderly all
  have new := Orderly.unused orderly all (p := s.path.data) landed
  have steady := storeEntrySteady wsl accepts run
  obtain ⟨symlink,u,read,wrote,run⟩ := storeEntryParts wsl accepts run
  refine h.steady steady ?_
  have type := attrType reads symlink
  have mode := readType reads
  by_cases dir : attr.type = aeIfdir
  · have other : e.mode &&& aeIfmt ≠ aeIfreg := by
      rw [mode,dir]
      decide
    rw [Program.when,if_neg other] at run
    cases run
    have isDir : (original r.rootPath w base members).dir (some (.file path attr data)) = true := by
      simp [original,heldBy,dir]
    exact h.depicted.dir sound fresh new landed isDir (type.trans dir)
      (congrArg some (readOwner reads symlink).symm) wrote
  · have plain : typeOf (some (attrOf e symlink)) ≠ aeIfdir := fun is => dir (type.symm.trans is)
    obtain ⟨first,open'⟩ := WslWriter.filePuts plain wrote
    have puts : Puts (FsWriter.fileEvents w s.path.data (some (attrOf e symlink)) (written e.blocks)) s t := by
      have shape : FsWriter.fileEvents w s.path.data (some (attrOf e symlink)) (written e.blocks) =
          (.createdFile s.path.data :: WslWriter.storesOf w s.path.data (some (attrOf e symlink)) ++
            [.accepted s.path.data]) ++ if typeOf (some (attrOf e symlink)) = aeIfreg then
              (written e.blocks).map (.wrote s.path.data) else [] := by
        simp [FsWriter.fileEvents]
      rw [shape]
      refine first.trans ?_
      rw [Program.when] at run
      split at run
      · rename_i regular
        have isRegular : attr.type = aeIfreg := mode.symm.trans regular
        rw [reads.ends isRegular] at run
        have stored : typeOf (some (attrOf e symlink)) = aeIfreg := type.trans isRegular
        rw [if_pos stored]
        exact readDataPuts wsl (reads.delivered isRegular) (readsEmptyLast reads isRegular) (open' stored) run
      · rename_i other
        cases run
        rw [if_neg (show ¬ typeOf (some (attrOf e symlink)) = aeIfreg from
          fun is => other ((attrOfType e _).symm.trans is))]
        exact ⟨rfl,rfl,(List.append_nil _).symm⟩
    -- The path is new, so no other name of the file has come before.
    refine h.depicted.file sound new landed (fun j before same => ?_) (readGiven reads read dir) puts
    obtain ⟨q,object,own⟩ := same
    obtain ⟨-,place⟩ := Option.ite_none_left_eq_some.mp own
    obtain ⟨first',attr',data',early,-,landed',-⟩ := orderly.heldObject all before object
    obtain rfl : q = s.path.data := Option.some.inj (place.symm.trans landed)
    exact absurd landed' (new _ early)

theorem unpackLink (h : Unpacking r.rootPath w base members done s) (link : m = .link path target)
    (landed : landsAt r.rootPath w base path = some s.path.data) {name : CStr} (spelt : name.units = target)
    (run : r.linkEntry env w (.ok name) s = (.ok (),t)) :
    Unpacking r.rootPath w base members (done ++ [some m]) t := by
  subst link
  have sound := Orderly.soundPart orderly all
  have new := Orderly.unused orderly all (p := s.path.data) landed
  have there : (landsAt r.rootPath w base path).isSome := by simp [landed]
  have object : objectOf r.rootPath w base (some (.link path target)) = landsAt r.rootPath w base target := by
    simp [objectOf,there]
  obtain ⟨q,reaches⟩ : ∃ q, landsAt r.rootPath w base target = some q := by
    have mem : .link path target ∈ members := by
      have inside : some (Member.link path target) ∈ none :: members.map some := by simp [all]
      simpa using inside
    obtain ⟨before,after,split⟩ := List.append_of_mem mem
    obtain ⟨_,_,_,q,-,-,-,landed'⟩ := orderly.backed before path target after split there
    exact ⟨q,landed'⟩
  obtain ⟨first,attr,data,early,plain,landed',-⟩ : ∃ first attr data, some (Member.file first attr data) ∈ done ∧
      attr.type ≠ aeIfdir ∧ landsAt r.rootPath w base first = some q ∧ True := by
    obtain ⟨first,attr,data,early,plain,landed',-⟩ := orderly.heldObject
      (all.trans (List.append_cons ..)) (by simp) (object.trans reaches)
    rcases List.mem_append.mp early with old | own
    · exact ⟨first,attr,data,old,plain,landed',trivial⟩
    · cases List.mem_singleton.mp own
  obtain ⟨_,_,got,run⟩ := Program.bindOkSource run
  cases got
  obtain ⟨yes,u,converted,run⟩ := Program.bindOkSource run
  have fine : (r.pathOf name).Reaches (w.fresh base) q := (reachesLands wsl _).mpr (spelt ▸ reaches)
  have kept : u.path = s.path ∧ u.targetPath.reset = s.targetPath.reset ∧ u.ignored = s.ignored ∧
      u.log = s.log ∧ u.dirAttr = s.dirAttr := by
    have reset := FilePath.convertReset (r.pathOf name) s.targetPath
    obtain ⟨-,rfl⟩ := Prod.mk.inj converted
    exact ⟨rfl,reset,rfl,rfl,rfl⟩
  obtain ⟨path',target',ignored,log,stack⟩ := kept
  obtain rfl : yes = true := by
    have is := FilePath.convertedReaches (h.targetPath.symm ▸ fine)
    exact Except.ok.inj ((Prod.mk.inj converted).1.symm.trans is)
  have data' : u.targetPath.data = q := FilePath.reachesOnce (convertTargetReaches h.targetPath converted) fine
  have free : u.targetPath.data ∉ u.ignored := by simp [ignored,h.ignored]
  rw [if_pos rfl] at run
  have puts := FsWriter.linkPuts wsl free run
  have within := FsWriter.emittedLink env w free
  rw [run] at within
  rw [data',path'] at puts
  refine ⟨?_,?_,?_,?_⟩
  · rw [within.path,path',h.path]
  · rw [within.targetPath,target',h.targetPath]
  · rw [within.ignored,ignored,h.ignored]
  · have own : (original r.rootPath w base members).same (some (.file first attr data)) (some (.link path target)) :=
      ⟨q,by rw [objectOf,if_neg plain,landed'],object.trans reaches⟩
    exact (h.depicted.silent log stack).link sound new landed early own landed' puts

theorem unpackEntry (fresh : env.Fresh) (h : Unpacking r.rootPath w base members done s) (reads : Reads m e)
    (run : r.extract env w e s = (.ok (),t)) : Unpacking r.rootPath w base members (done ++ [some m]) t := by
  obtain ⟨name,u,named,run⟩ := Program.bindOkSource run
  obtain ⟨own,same⟩ := entryNameSource named
  rw [same] at run
  have spelt : name.units = m.path := by
    cases m with
    | file path attr data =>
      obtain ⟨name',known,units⟩ := reads.name
      cases own.symm.trans known
      exact units
    | link path target =>
      obtain ⟨name',known,units⟩ := reads.name
      cases own.symm.trans known
      exact units
  obtain ⟨yes,v,converted,run⟩ := Program.bindOkSource run
  have reset := FilePath.convertReset (r.pathOf name) s.path
  obtain ⟨result,rfl⟩ := Prod.mk.inj converted
  have h' : Unpacking r.rootPath w base members done {s with path := ((r.pathOf name).convert s.path).2} :=
    ⟨reset.trans h.path,h.targetPath,h.ignored,h.depicted.silent rfl rfl⟩
  cases yes with
  | false =>
    cases run
    have away : placeOf r.rootPath w base (some m) = none := by
      refine Option.eq_none_iff_forall_ne_some.mpr fun p landed => ?_
      have reaches : (r.pathOf name).Reaches s.path.reset p := by
        rw [pathOf,spelt,h.path]
        exact (reachesLands wsl m.path).mpr landed
      cases result.symm.trans (FilePath.convertedReaches reaches)
    exact ⟨h'.path,h'.targetPath,h'.ignored,h'.depicted.skipped away⟩
  | true =>
    have landed : landsAt r.rootPath w base m.path = some ((r.pathOf name).convert s.path).2.data := by
      rw [← spelt]
      exact (reachesLands wsl name.units).mp (convertPathReaches h.path converted)
    rw [if_pos rfl] at run
    cases m with
    | file path attr data =>
      rw [reads.plain] at run
      exact unpackFile orderly wsl all fresh h' rfl landed reads run
    | link path target =>
      obtain ⟨link,known,units⟩ := reads.link
      rw [known] at run
      exact unpackLink orderly wsl all h' rfl landed units run

end Step

theorem unpackEntries (orderly : Orderly r.rootPath w base members) (wsl : w ≠ .linux) (fresh : env.Fresh)
    (ending : r.ending = .eof) {left : List Member} {entries : List ArchiveEntry}
    (reads : List.Forall₂ Reads left entries)
    (all : none :: members.map some = done ++ left.map some) (h : Unpacking r.rootPath w base members done s)
    (run : r.readEntries env w entries s = (.ok (),t)) :
    Unpacking r.rootPath w base members (none :: members.map some) t := by
  induction reads generalizing done s with
  | nil =>
    rw [readEntries,ending] at run
    cases run
    rw [all,List.map_nil,List.append_nil]
    exact h
  | @cons m e left entries first _ ih =>
    rw [readEntries,Program.bindOk (deliveredRun (readHeader first) s),if_pos rfl] at run
    obtain ⟨_,u,extracted,run⟩ := Program.bindOkSource run
    have one := unpackEntry orderly wsl all fresh h first extracted
    exact ih (by rw [all]; simp) one run

theorem checkArchiveTicked (status : ArchiveStatus) : Moves Ticked (Fs.checkArchive status : Copy Bool) := by
  cases status <;> first | exact .raise _ | exact .pure _

theorem openArchiveTicked : Moves Ticked (r.openArchive env) :=
  .bind (openFileTicked ..) fun _ => .bind (getFileSizeTicked ..) fun _ =>
    .bind ⟨fun s => ⟨s.clock+1,rfl⟩⟩ fun _ => .bind (checkArchiveTicked _) fun _ =>
    .bind ⟨fun s => ⟨s.clock+1,rfl⟩⟩ fun _ => .bind (checkArchiveTicked _) fun _ =>
    .bind ⟨fun s => ⟨s.clock+1,rfl⟩⟩ fun _ => .bind (checkArchiveTicked _) fun _ => .pure ()

theorem rootReaches (wsl : w ≠ .linux) :
    (FilePath.linux LinuxPath.new).Reaches (w.fresh base) (base ++ wstr "rootfs\\") := by
  rw [FilePath.linuxReaches rfl,Format.freshBase wsl]
  have whole : wstr "rootfs/" ++ LinuxPath.new.data = wstr "rootfs/" := List.append_nil _
  exact ⟨_,by rw [whole,Format.landsRoot wsl],rfl⟩

theorem rootUnpacked (orderly : Orderly r.rootPath w base members) (wsl : w ≠ .linux) (fresh : env.Fresh)
    (path : s.path.reset = w.fresh base) (targetPath : s.targetPath.reset = w.fresh base) (ignored : s.ignored = [])
    (log : s.log = []) (stack : s.dirAttr = []) (run : writeRoot env w s = (.ok (),t)) :
    Unpacking r.rootPath w base members [none] t := by
  obtain ⟨yes,u,converted,run⟩ := Program.bindOkSource run
  have reaches : (FilePath.linux LinuxPath.new).Reaches (w.fresh base) (base ++ wstr "rootfs\\") := rootReaches wsl
  obtain rfl : yes = true := by
    have is := FilePath.convertedReaches (path.symm ▸ reaches)
    exact Except.ok.inj ((Prod.mk.inj converted).1.symm.trans is)
  have landed : u.path.data = base ++ wstr "rootfs\\" :=
    FilePath.reachesOnce (convertPathReaches path converted) reaches
  have reset := FilePath.convertReset (.linux LinuxPath.new) s.path
  obtain ⟨-,rfl⟩ := Prod.mk.inj converted
  rw [if_pos rfl] at run
  obtain ⟨stored,v,wrote,run⟩ := Program.bindOkSource run
  cases run
  rw [FsWriter.wslAccepts env wsl (by decide)] at wrote
  have steady := writeFileSteady wrote
  refine ⟨by rw [steady.path]; exact reset.trans path,by rw [steady.targetPath]; exact targetPath,
    steady.ignored.trans ignored,?_⟩
  have begun : (original r.rootPath w base members).Depicted w []
      {s with path := ((FilePath.linux LinuxPath.new).convert s.path).2} := .empty log stack
  exact begun.dir (i := none) (orderly.sound (by simp)) fresh (by simp) (congrArg some landed.symm)
    (by simp [original,heldBy]; decide) (by decide) rfl wrote

theorem convertLinuxReturns (p : LinuxPath) (out : FilePath) : ∃ b, ((FilePath.linux p).convert out).1 = .ok b := by
  cases shown : p.skip with
  | true =>
    rw [FilePath.convert,FilePath.linuxConvert,if_pos shown]
    exact ⟨false,rfl⟩
  | false =>
    rw [FilePath.linuxStreams shown]
    exact ⟨_,rfl⟩

section Works
variable (works : env.Works)
include works

theorem openArchiveReturns : Returns (r.openArchive env) := by
  have asked {α : Type} (c : FsCall) {x : Copy α} (rest : Returns x) : Returns (do
      let status ← Fs.ask fun time => env.archive time c
      let _ ← Fs.checkArchive status
      x) := by
    refine ⟨fun s => ?_⟩
    rw [Program.bindRun,Fs.ask]
    dsimp only
    rw [works.archive]
    exact rest.ends _
  exact .bind (.openFile works ..) fun _ => .bind (.status works (.pure _)) fun _ =>
    asked _ (asked _ (asked _ (.pure ())))

theorem readDataWorks (wsl : w ≠ .linux) (all : ∀ block ∈ blocks, Delivered block.status) (last : EmptyLast blocks)
    (open' : s.hfData = some p) : ∃ t, readData env w .eof blocks s = (.ok (),t) := by
  induction blocks generalizing s with
  | nil => exact ⟨_,readEnd wsl s⟩
  | cons block rest ih =>
    obtain ⟨behind,last⟩ := List.pairwise_cons.mp last
    have later (b : ArchiveBlock) (mem : b ∈ rest) : Delivered b.status := all b (List.mem_cons_of_mem _ mem)
    rw [readBlock (all block List.mem_cons_self)]
    by_cases empty : block.written = []
    · rw [empty,Program.bindOk (WslWriter.emptyDataRun wsl s)]
      exact ⟨_,readDataRest wsl later (fun b mem => behind b mem empty) _⟩
    · rw [Program.bindOk (WslWriter.openDataRun works wsl empty open')]
      exact ih later last open'

theorem storeEntryWorks (wsl : w ≠ .linux) (accepts : FsWriter.supported attr.type true = true)
    (reads : ReadsFile path attr data e) (s : CopyState) : ∃ t, storeEntry env w e s = (.ok (),t) := by
  obtain ⟨symlink,read⟩ : ∃ symlink, readSymlink e s = (.ok symlink,s) := by
    rw [readSymlink]
    split
    · rename_i link
      obtain ⟨target,-,text,-⟩ := reads.target ((readType reads).symm.trans link)
      rw [text]
      exact ⟨some target,rfl⟩
    · exact ⟨none,rfl⟩
  have type := attrType reads symlink
  have whole : w ≠ .linux → ∀ a ∈ some (attrOf e symlink), a.Whole := by
    rintro - _ ⟨⟩ link
    obtain ⟨target,-,text,-⟩ := reads.target (type.symm.trans link)
    rw [readSymlink,if_pos ((attrOfType e symlink).symm.trans link),text] at read
    cases read
    exact Option.some_ne_none target
  obtain ⟨stored,u,wrote⟩ := (FsWriter.writeNewFileReturns works w whole).ends s
  have passes : FsWriter.passes (some (attrOf e symlink)) true true = true := by
    rw [FsWriter.passes,type]
    exact accepts
  have own := wrote
  rw [FsWriter.wslAccepts env wsl passes] at own
  obtain rfl := FsWriter.wslFileStores own
  rw [storeEntry,Program.bindOk read,Program.bindOk wrote,if_pos rfl,Program.when]
  split
  · rename_i regular
    have isRegular : attr.type = aeIfreg := (readType reads).symm.trans regular
    have stored : typeOf (some (attrOf e symlink)) = aeIfreg := type.trans isRegular
    have plain : typeOf (some (attrOf e symlink)) ≠ aeIfdir := by
      rw [stored]
      decide
    rw [reads.ends isRegular]
    exact readDataWorks works wsl (reads.delivered isRegular) (readsEmptyLast reads isRegular)
      ((WslWriter.filePuts plain own).2 stored)
  · exact ⟨u,rfl⟩

theorem extractWorks {m : Member} (wsl : w ≠ .linux) (types : ∀ path attr data, m = .file path attr data →
    FsWriter.supported attr.type true = true) (reads : Reads m e) (s : CopyState) :
    ∃ t, r.extract env w e s = (.ok (),t) := by
  have named {text : Option (Except UInt32 CStr)} {path : Wstr} (spelt : Spells text path) :
      ∃ name : CStr, text = some (.ok name) := spelt.imp fun _ both => both.1
  have converts (name : CStr) (s : CopyState) : ∃ yes t, WslReader.convertPath (r.pathOf name) s = (.ok yes,t) := by
    obtain ⟨yes,is⟩ := convertLinuxReturns (LinuxPath.ofName name.units r.rootPath) s.path
    exact ⟨yes,_,Prod.ext is rfl⟩
  have retargets (name : CStr) (s : CopyState) :
      ∃ yes t, WslReader.convertTarget (r.pathOf name) s = (.ok yes,t) := by
    obtain ⟨yes,is⟩ := convertLinuxReturns (LinuxPath.ofName name.units r.rootPath) s.targetPath
    exact ⟨yes,_,Prod.ext is rfl⟩
  have known : ∃ name, e.pathname = some (.ok name) := by
    cases m with
    | file path attr data => exact named reads.name
    | link path target => exact named reads.name
  obtain ⟨name,own⟩ := known
  have text : entryName e.pathname s = (.ok name,s) := by
    rw [own]
    rfl
  obtain ⟨yes,u,converted⟩ := converts name s
  rw [extract,Program.bindOk text,Program.bindOk converted]
  cases yes with
  | false => exact ⟨u,rfl⟩
  | true =>
    rw [if_pos rfl]
    cases m with
    | file path attr data =>
      rw [reads.plain]
      exact storeEntryWorks works wsl (types path attr data rfl) reads u
    | link path target =>
      obtain ⟨other,linked⟩ := named reads.link
      obtain ⟨yes,v,retargeted⟩ := retargets other u
      have first : fromUtf8 (.ok other) u = (.ok other,u) := rfl
      rw [linked]
      dsimp only
      rw [linkEntry,Program.bindOk first,Program.bindOk retargeted]
      cases yes with
      | false => exact ⟨v,rfl⟩
      | true =>
        obtain ⟨_,t,run⟩ := (FsWriter.writeHardLinkReturns works w).ends v
        exact ⟨t,run⟩

theorem readEntriesWorks (wsl : w ≠ .linux) (ending : r.ending = .eof) {left : List Member}
    {entries : List ArchiveEntry} (reads : List.Forall₂ Reads left entries) (types : ∀ path attr data,
      .file path attr data ∈ left → FsWriter.supported attr.type true = true) (s : CopyState) :
    ∃ t, r.readEntries env w entries s = (.ok (),t) := by
  induction reads generalizing s with
  | nil =>
    rw [readEntries,ending]
    exact ⟨s,rfl⟩
  | @cons m e left entries first _ ih =>
    obtain ⟨u,run⟩ := extractWorks works wsl (m := m)
      (fun path attr data is => types path attr data (is ▸ List.mem_cons_self)) first s
    rw [readEntries,Program.bindOk (deliveredRun (readHeader first) s),if_pos rfl,Program.bindOk run]
    exact ih (fun path attr data mem => types path attr data (List.mem_cons_of_mem _ mem)) u

theorem runWorks (clock : Nat) (source : Wstr) (wsl : w ≠ .linux) (ending : r.ending = .eof)
    (reads : List.Forall₂ Reads members r.entries)
    (types : ∀ path attr data, .file path attr data ∈ members → FsWriter.supported attr.type true = true) :
    ∃ t, r.run env w (.newAt clock [] w base source) = (.ok (),t) ∧ WslReader.Emptied env t := by
  obtain ⟨_,u,opened⟩ := (openArchiveReturns works (r := r)).ends (CopyState.newAt clock [] w base source)
  have rootWhole : w ≠ .linux → ∀ a ∈ some rootAttr, a.Whole := by
    rintro - _ ⟨⟩
    decide
  have rooted : Returns (writeRoot env w) := by
    refine ⟨fun s => ?_⟩
    obtain ⟨yes,is⟩ := convertLinuxReturns LinuxPath.new s.path
    have converted : WslReader.convertPath (.linux LinuxPath.new) s = (.ok yes,_) := Prod.ext is rfl
    rw [writeRoot,Program.bindOk converted]
    exact (Returns.ite (fun _ => .bind (FsWriter.writeNewFileReturns works w rootWhole) fun _ => .pure ())
      fun _ => .pure ()).ends _
  obtain ⟨_,v,root⟩ := rooted.ends u
  obtain ⟨t,run⟩ := readEntriesWorks works wsl ending reads types v
  refine ⟨t,?_,WslReader.emptiedWorks works t⟩
  rw [ArchiveReader.run,Program.bindOk opened,Program.bindOk root,run]

end Works

theorem unpackedDepicted (clock : Nat) (source : Wstr) (wsl : w ≠ .linux) (fresh : env.Fresh)
    (orderly : Orderly r.rootPath w base members) (reads : List.Forall₂ Reads members r.entries)
    (ending : r.ending = .eof) (run : r.run env w (.newAt clock [] w base source) = (.ok (),t)) :
    (original r.rootPath w base members).Depicted w (none :: members.map some) t := by
  obtain ⟨_,u,opened,run⟩ := Program.bindOkSource run
  obtain ⟨clock,same⟩ := openArchiveTicked.final (CopyState.newAt clock [] w base source)
  rw [opened] at same
  dsimp only at same
  subst same
  obtain ⟨_,v,rooted,run⟩ := Program.bindOkSource run
  have begun := rootUnpacked orderly wsl fresh (FilePath.servedReset .fresh) (FilePath.servedReset .fresh)
    rfl rfl rfl rooted
  exact (unpackEntries orderly wsl fresh ending reads (List.singleton_append) begun run).depicted

theorem unpackedRun (wsl : w ≠ .linux) (fresh : env.Fresh) (orderly : Orderly r.rootPath w base members)
    (reads : List.Forall₂ Reads members r.entries) (ending : r.ending = .eof)
    (run : r.run env w (.new w base []) = (.ok (),t)) (emptied : WslReader.Emptied env t) :
    ∃ disk, Disk.image (FsWriter.destroy env w t).2.log = some disk ∧
      (original r.rootPath w base members).Shows w (none :: members.map some) disk :=
  (unpackedDepicted 0 [] wsl fresh orderly reads ending run).destroyed (orderly.sound fun _ mem => mem) wsl emptied

/- Every archive whose names are distinct where they land: whatever the system answers, an
extraction that comes to its end and whose writer stores what it has put off leaves the members
on the disk; and where every call succeeds it does come to its end. -/
theorem extractShown (wsl : w ≠ .linux) (fresh : env.Fresh) (orderly : Orderly r.rootPath w base members)
    (reads : List.Forall₂ Reads members r.entries) (ending : r.ending = .eof) :
    (∀ t, r.run env w (.new w base []) = (.ok (),t) → WslReader.Emptied env t →
      ∃ disk, Disk.image (FsWriter.destroy env w t).2.log = some disk ∧
        (original r.rootPath w base members).Shows w (none :: members.map some) disk) ∧
    (env.Works → ∃ t, r.run env w (.new w base []) = (.ok (),t) ∧ WslReader.Emptied env t) :=
  ⟨fun _ run emptied => unpackedRun wsl fresh orderly reads ending run emptied,
    fun works => runWorks works 0 [] wsl ending reads orderly.types⟩

end ArchiveReader
open ArchiveReader (Orderly Reads rootAttr)

def packedMembers : List Member :=
  [.file (wstr "d/") rootAttr [],.file (wstr "d/f") {rootAttr with mode := 0x81a4} [1,2,3],
    .link (wstr "g") (wstr "d/f")]

def packedEntry (name : CStr) : ArchiveEntry :=
  ⟨.ok,some (.ok name),none,0x41ed,0,0,0,none,⟨0,0⟩,none,0,0,.ok [],[],.eof⟩

def packedArchive : ArchiveReader where
  archivePath := wstr "a.tar"
  rootPath := []
  entries := [packedEntry ⟨wstr "d/",by decide⟩,
    {packedEntry ⟨wstr "d/f",by decide⟩ with mode := 0x81a4, size := 3, blocks := [⟨.ok,[1,2],0⟩,⟨.ok,[3],2⟩]},
    {packedEntry ⟨wstr "g",by decide⟩ with hardlink := some (.ok ⟨wstr "d/f",by decide⟩)}]
  ending := .eof

theorem packedOrderly : Orderly packedArchive.rootPath .v2 targetBase packedMembers where
  types path attr data mem := by
    simp only [packedMembers,List.mem_cons,Member.file.injEq,reduceCtorEq,List.not_mem_nil,or_false] at mem
    rcases mem with ⟨-,rfl,-⟩ | ⟨-,rfl,-⟩ <;> decide
  once := by
    have distinct : (none :: packedMembers.map some).Pairwise fun i j =>
        ArchiveReader.placeOf [] .v2 targetBase i ≠ ArchiveReader.placeOf [] .v2 targetBase j := by decide +kernel
    exact distinct.imp fun other p landed landed' => other (landed.trans landed'.symm)
  backed before path target after all _ := by
    match before with
    | [] => cases all
    | [_] => cases all
    | [_,_] =>
      cases all
      exact ⟨wstr "d/f",{rootAttr with mode := 0x81a4},[1,2,3],targetBase ++ wstr "rootfs\\d\\f",by simp,by decide,
        by decide +kernel,by decide +kernel⟩
    | _ :: _ :: _ :: rest => cases rest <;> cases all

theorem packedContiguous : ArchiveReader.Contiguous [⟨.ok,[1,2],0⟩,⟨.ok,[3],2⟩] :=
  ⟨⟨rfl,rfl,trivial⟩,by simp,by simp⟩

theorem packedHolds : Extent.Holds 0 [1,2,3] (ArchiveReader.extents [⟨.ok,[1,2],0⟩,⟨.ok,[3],2⟩]) :=
  have ordered : Extent.Ordered 0 (ArchiveReader.extents [⟨.ok,[1,2],0⟩,⟨.ok,[3],2⟩]) :=
    ⟨Nat.le_refl _,Nat.le_refl _,trivial⟩
  (Extent.holdsJoined 0 ordered).mpr packedContiguous.gapless

theorem packedReads : List.Forall₂ Reads packedMembers packedArchive.entries := by
  have dir : ArchiveReader.ReadsFile (wstr "d/") rootAttr [] (packedEntry ⟨wstr "d/",by decide⟩) :=
    have other {P : Prop} (regular : rootAttr.type = aeIfreg) : P := absurd regular (by decide)
    ⟨.inl rfl,⟨_,rfl,rfl⟩,rfl,rfl,rfl,rfl,fun _ => ⟨rfl,rfl⟩,fun link => absurd link (by decide),
      other,other,other,other,other⟩
  refine .cons dir (.cons ?_ (.cons ⟨.inl rfl,⟨_,rfl,rfl⟩,_,rfl,rfl⟩ .nil))
  refine ⟨.inl rfl,⟨_,rfl,rfl⟩,rfl,rfl,rfl,rfl,fun _ => ⟨rfl,rfl⟩,fun link => absurd link (by decide),fun _ => ?_,
    fun _ => packedContiguous,fun _ => ⟨rfl,rfl⟩,fun _ => packedHolds,fun _ => rfl⟩
  intro block mem
  rcases List.mem_cons.mp mem with rfl | mem
  · exact .inl rfl
  · obtain rfl := List.mem_singleton.mp mem
    exact .inl rfl

theorem extractShownPacked :
    (∀ t, packedArchive.run plainFs .v2 (.new .v2 targetBase []) = (.ok (),t) → WslReader.Emptied plainFs t →
      ∃ disk, Disk.image (FsWriter.destroy plainFs .v2 t).2.log = some disk ∧
        (ArchiveReader.original packedArchive.rootPath .v2 targetBase packedMembers).Shows .v2
          (none :: packedMembers.map some) disk) ∧
    (plainFs.Works → ∃ t, packedArchive.run plainFs .v2 (.new .v2 targetBase []) = (.ok (),t) ∧
      WslReader.Emptied plainFs t) :=
  ArchiveReader.extractShown (by decide) plainFresh packedOrderly packedReads rfl

end LxRunOffline
