import LxRunOffline.HardLinks

/-! Whole runs of the two readers. The map of file ids is filled before a file is known to be
writable, so the invariant speaks of every path in it: what it becomes in the writer is settled.
Two kinds of files escape the bookkeeping, and the runs without them leave no dangling link. -/
namespace LxRunOffline
open FilePath (Reaches)

structure Copying (start : FilePath) (s : CopyState) : Prop where
  path : s.path.reset = start
  targetPath : s.targetPath.reset = start
  safe : NoDangling s.log
  known : ∀ entry ∈ s.idMap, ∀ data, entry.2.Reaches start data → Settled s data

namespace Copying
variable {start : FilePath} {s t : CopyState}

theorem advance (h : Copying start s) (later : Advanced s t) : Copying start t where
  path := later.path ▸ h.path
  targetPath := later.targetPath ▸ h.targetPath
  safe := later.safe h.safe
  known entry mem data reaches := later.settled (h.known entry (later.idMap ▸ mem) data reaches)

theorem converted (h : Copying start s) (src : FilePath) :
    Copying start (WslReader.convertPath src s).2 where
  path := (FilePath.convertReset src s.path).trans h.path
  targetPath := h.targetPath
  safe := h.safe
  known := h.known

theorem convertedTarget (h : Copying start s) (src : FilePath) :
    Copying start (WslReader.convertTarget src s).2 where
  path := h.path
  targetPath := (FilePath.convertReset src s.targetPath).trans h.targetPath
  safe := h.safe
  known := h.known

theorem linked (h : Copying start s) (settled : Settled s s.targetPath.data) (env : FsEnv)
    (w : Format) : Copying start (FsWriter.writeHardLink env w s).2 := by
  have safe := FsWriter.writeHardLinkSafe env w settled h.safe
  by_cases refused : s.targetPath.data ∈ s.ignored
  · rw [FsWriter.refusedLink env w refused] at safe ⊢
    exact ⟨h.path,h.targetPath,safe,fun entry mem data reaches =>
      (h.known entry mem data reaches).imp_left fun known => List.mem_cons_of_mem _ known⟩
  · obtain ⟨path,targetPath,ignored,idMap,-,-,more,log,_⟩ := FsWriter.emittedLink env w refused
    refine ⟨path ▸ h.path,targetPath ▸ h.targetPath,safe,fun entry mem data reaches => ?_⟩
    have before := h.known entry (idMap ▸ mem) data reaches
    exact before.imp (ignored ▸ ·) fun made => log ▸ made.more more

end Copying

def GoesOn {α : Type} (start : FilePath) : Except Stop α × CopyState → Prop :=
  Program.Ends (fun _ t => Copying start t) (fun _ t => NoDangling t.log)

theorem goesOnFinal {α : Type} {start : FilePath} {outcome : Except Stop α × CopyState}
    (h : Copying start outcome.2) : GoesOn start outcome := by
  cases outcome with
  | mk result t => cases result with
    | ok a => exact h
    | error e => exact h.safe

theorem goesOnBind {α β : Type} {start : FilePath} {x : Copy α} {f : α → Copy β} {s : CopyState}
    (first : GoesOn start (x s)) (next : ∀ a t, x s = (.ok a,t) → Copying start t →
      GoesOn start (f a t)) : GoesOn start ((x >>= f) s) := by
  rw [Program.bindRun]
  cases run : x s with
  | mk result t =>
    rw [run] at first
    cases result with
    | ok a => exact next a t run first
    | error e => exact first

theorem goesOnIte {α : Type} {start : FilePath} {c : Prop} [Decidable c] {x y : Copy α}
    {s : CopyState} (yes : c → GoesOn start (x s)) (no : ¬ c → GoesOn start (y s)) :
    GoesOn start ((if c then x else y) s) := by
  split
  · exact yes (by assumption)
  · exact no (by assumption)

theorem goesOnQuiet {α : Type} {start : FilePath} {x : Copy α} (quiet : Emits (fun _ => False) x)
    {s : CopyState} (h : Copying start s) : GoesOn start (x s) :=
  goesOnFinal (h.advance (quietAdvanced quiet s))

theorem goesOnSettles {α : Type} {start : FilePath} {excuse : Prop} {s : CopyState}
    {outcome : Except Stop α × CopyState} (h : Copying start s) (settles : Settles excuse s outcome) :
    GoesOn start outcome := by
  cases outcome with
  | mk result t => cases result with
    | ok _ => exact h.advance settles.1
    | error e => exact settles.safe h.safe

theorem convertPathReaches {start : FilePath} {s t : CopyState} {src : FilePath}
    (path : s.path.reset = start) (run : WslReader.convertPath src s = (.ok true,t)) :
    src.Reaches start t.path.data := by
  obtain ⟨done,rfl⟩ := Prod.mk.inj run
  exact path ▸ FilePath.reachesConverted done

theorem convertTargetReaches {start : FilePath} {s t : CopyState} {src : FilePath}
    (path : s.targetPath.reset = start) (run : WslReader.convertTarget src s = (.ok true,t)) :
    src.Reaches start t.targetPath.data := by
  obtain ⟨done,rfl⟩ := Prod.mk.inj run
  exact path ▸ FilePath.reachesConverted done

namespace WslReader
variable (r : WslReader) (env : FsEnv) (w : Format)

/- A symbolic link by its attributes that the v2 reader finds no target of. -/
def BadSymlink (path : Wstr) (info : NodeInfo) : Prop :=
  r.format = .v2 ∧
  (∃ mode, (info.eas .lxmod).bind EaValue.asDword = some mode ∧ mode &&& aeIfmt = aeIflnk) ∧
  ((∀ data ∈ info.reparse, data.tag ≠ tagLxSymlink) ∨
    ∃ time, env.status time (.getReparse path) = errorNotAReparsePoint)

theorem orNullSome {α : Type} {path : Wstr} {x : Copy (Option α)} {s t : CopyState} {a : α}
    (h : orNull path x s = (.ok (some a),t)) : x s = (.ok (some a),t) := by
  cases run : x s with
  | mk outcome u =>
    cases outcome with
    | ok b =>
      have same : orNull path x s = (.ok b,u) := Program.rescueOk run
      rw [← same,h]
    | error e =>
      rw [orNull,catchLro,Program.rescueError run] at h
      cases e with
      | lro l =>
        simp only at h
        split at h <;> cases h
      | invalidArgument => cases h
      | badArrayLength => cases h
      | crash => cases h
      | outOfFuel => cases h

theorem getEaSource {α : Type} {path : Wstr} {eas : EaName → Option EaValue} {name : EaName}
    {pick : EaValue → Option α} {s t : CopyState} {a : α}
    (h : Fs.getEa env path eas name pick s = (.ok a,t)) : (eas name).bind pick = some a := by
  obtain ⟨status,u,-,h⟩ := Program.bindOkSource h
  split at h
  · cases h
  · cases found : (eas name).bind pick with
    | none =>
      simp only [found] at h
      cases h
    | some b =>
      simp only [found] at h
      cases h
      rfl

theorem readAttrMode {path : Wstr} {info : NodeInfo} {s t : CopyState} {attr : FileAttr}
    (v2 : r.format = .v2) (h : r.readAttr env path info s = (.ok (some attr),t)) :
    (info.eas .lxmod).bind EaValue.asDword = some attr.mode := by
  rw [readAttr,if_pos v2] at h
  obtain ⟨read,u,eas,h⟩ := Program.bindOkSource h
  cases read with
  | none => cases h
  | some bare =>
    obtain ⟨timed,_,times,h⟩ := Program.bindOkSource h
    cases h
    obtain ⟨code,_,-,times⟩ := Program.bindOkSource times
    split at times
    · cases times
    · cases times
      obtain ⟨fresh,_,-,eas⟩ := Program.bindOkSource eas
      obtain ⟨uid,_,-,eas⟩ := Program.bindOkSource (orNullSome eas)
      obtain ⟨gid,_,-,eas⟩ := Program.bindOkSource eas
      obtain ⟨mode,_,ea,eas⟩ := Program.bindOkSource eas
      obtain ⟨size,_,-,eas⟩ := Program.bindOkSource eas
      obtain ⟨last,_,dev,eas⟩ := Program.bindOkSource eas
      cases eas
      refine (getEaSource env ea).trans (congrArg some ?_)
      unfold readDev at dev
      split at dev
      · obtain ⟨number,_,-,dev⟩ := Program.bindOkSource dev
        cases dev
        rfl
      · cases dev
        rfl

theorem readSymlinkNone {path : Wstr} {info : NodeInfo} {s t : CopyState}
    (h : r.readSymlinkData env path info s = (.ok none,t)) : r.format = .v2 ∧
      ((∀ data ∈ info.reparse, data.tag ≠ tagLxSymlink) ∨
        ∃ time, env.status time (.getReparse path) = errorNotAReparsePoint) := by
  unfold readSymlinkData at h
  split at h
  · refine ⟨by assumption,?_⟩
    obtain ⟨code,u,asked,h⟩ := Program.bindOkSource h
    obtain ⟨rfl,-⟩ : env.status s.clock (.getReparse path) = code ∧ _ := by
      simpa [Fs.call,Fs.ask,Clocked.clock] using asked
    split at h
    · exact .inl (copyTargetNone h)
    · split at h
      · exact .inr ⟨_,by assumption⟩
      · cases h
  · obtain ⟨size,_,-,h⟩ := Program.bindOkSource h
    split at h
    · cases h
    · obtain ⟨target,_,-,h⟩ := Program.bindOkSource h
      cases h

theorem storeFileSettles (path : Wstr) (info : NodeInfo) (attr : Option FileAttr) (s : CopyState) :
    Settles (Nameless w s) s (storeFile env w path info attr s) := by
  refine Settles.bindQuiet (FsWriter.writeNewFileSettles env w attr s) fun stored t => ?_
  have quiet : Emits DataEvent (if stored = true then
      Program.when (typeOf attr = aeIfreg) (copyData env w path info.reads) else pure ()) :=
    .ite (fun _ => .when fun _ => copyDataEmits ..) (fun _ => .pure ())
  exact (quiet.final t).advanced dataEventNoLink

theorem copyFileSettles (path : Wstr) (info : NodeInfo) (s : CopyState) :
    Settles (Nameless w s ∨ r.BadSymlink env path info) s (r.copyFile env w path info s) := by
  refine Settles.after (quietAdvanced (r.readAttrEmits env path info) s) fun attr t read later => ?_
  have stored (attr : Option FileAttr) {t : CopyState} (same : t.path = s.path) :
      Settles (Nameless w s ∨ r.BadSymlink env path info) t (storeFile env w path info attr t) := by
    have settles := storeFileSettles env w path info attr t
    rw [Nameless,same] at settles
    exact settles.excused .inl
  split
  · rename_i link
    refine Settles.after (quietAdvanced (r.readSymlinkDataEmits env path info) t) ?_
    intro tb u target later'
    cases attr with
    | none => exact absurd link (by decide)
    | some a =>
      cases tb with
      | some target => exact stored _ (later'.path.trans later.path)
      | none =>
        obtain ⟨v2,lost⟩ := r.readSymlinkNone env target
        exact ⟨.refl _,.inl (.inr ⟨v2,⟨a.mode,r.readAttrMode env v2 read,link⟩,lost⟩)⟩
  · exact stored attr later.path

theorem openNodeSource {path : Wstr} {dir : Bool} {info : NodeInfo} {s t : CopyState}
    (h : r.openNode env path dir s = (.ok info,t)) : r.infoAt path dir = some info := by
  obtain ⟨_,_,-,h⟩ := Program.bindOkSource h
  cases found : r.infoAt path dir with
  | none =>
    simp only [found] at h
    cases h
  | some other =>
    simp only [found] at h
    cases h
    rfl

/- Every file of several names whose path converts is one that is written or remembered as left out. -/
def Linkable (start : FilePath) : Prop :=
  ∀ path info, r.infoAt path false = some info → 1 < info.links → ∀ p, (r.pathAt path).Reaches start p →
    ¬ r.BadSymlink env path info ∧ ¬ (w = .linux ∧ p = [])

variable {r} {env} {w} {start : FilePath} {s : CopyState}

theorem copyFirstGoesOn (linkable : r.Linkable env w start) (h : Copying start s) {path : Wstr}
    {info : NodeInfo} (found : r.infoAt path false = some info) (several : 1 < info.links)
    (reaches : (r.pathAt path).Reaches start s.path.data) : GoesOn start (r.copyFile env w path info
      {s with idMap := (info.index,r.pathAt path) :: s.idMap}) := by
  obtain ⟨readable,named⟩ := linkable path info found several s.path.data reaches
  have settles := r.copyFileSettles env w path info
    {s with idMap := (info.index,r.pathAt path) :: s.idMap}
  cases run : r.copyFile env w path info {s with idMap := (info.index,r.pathAt path) :: s.idMap} with
  | mk outcome t =>
    rw [run] at settles
    cases outcome with
    | error e => exact settles.safe h.safe
    | ok _ =>
      obtain ⟨later,settled⟩ := settles
      have done : Settled t s.path.data := by
        refine settled.resolve_left ?_
        rintro (⟨linux,empty⟩ | bad)
        · exact named ⟨linux,empty⟩
        · exact readable bad
      refine ⟨later.path ▸ h.path,later.targetPath ▸ h.targetPath,later.safe h.safe,?_⟩
      intro entry mem data reached
      rcases List.mem_cons.mp (later.idMap ▸ mem) with rfl | old
      · rwa [FilePath.reachesOnce reached reaches]
      · exact later.settled (h.known entry old data reached)

theorem visitFileGoesOn (linkable : r.Linkable env w start) (h : Copying start s) {path : Wstr}
    {info : NodeInfo} (found : r.infoAt path false = some info)
    (reaches : (r.pathAt path).Reaches start s.path.data) :
    GoesOn start (r.visitFile env w path info s) := by
  have asked : Emits (fun _ => False) (Fs.call env (.fileInfo path) : Copy UInt32) := .ask _
  refine goesOnBind (goesOnQuiet asked h) fun code t run ht => ?_
  have same : t.path = s.path := (asked.returned run).path
  refine goesOnIte (fun _ => ht.safe) fun _ => goesOnIte (fun several => ?_)
    (fun _ => goesOnSettles ht (r.copyFileSettles env w path info t))
  rw [Program.bindRun,Program.getRun]
  dsimp only
  cases known : t.idMap.lookup info.index with
  | none => exact copyFirstGoesOn linkable ht found several (same ▸ reaches)
  | some first =>
    refine goesOnBind (goesOnFinal (ht.convertedTarget first)) fun done u converted hu => ?_
    refine goesOnIte (fun yes => ?_) (fun _ => hu)
    cases yes
    have mem : (info.index,first) ∈ u.idMap := by
      obtain ⟨before,behind,same,_⟩ := List.lookup_eq_some_iff.mp known
      rw [← (Prod.mk.inj converted).2]
      simp [same]
    have settled := hu.known _ mem _ (convertTargetReaches ht.targetPath converted)
    exact goesOnFinal (hu.linked settled env w)

theorem visitDirGoesOn (h : Copying start s) (path : Wstr) (info : NodeInfo) :
    GoesOn start (r.visitDir env w path info s) := by
  refine goesOnBind (goesOnQuiet (r.readAttrEmits env path info) h) fun attr t _ ht => ?_
  exact goesOnBind (goesOnSettles ht (FsWriter.writeNewFileSettles env w attr t)) fun _ _ _ hu => hu

theorem visitGoesOn (linkable : r.Linkable env w start) (t : EnumDirType) (h : Copying start s) :
    GoesOn start (r.visit env w t s) := by
  refine goesOnIte (fun _ => h) fun _ => ?_
  rw [Program.bindRun,Program.getRun]
  refine goesOnIte (fun _ => ⟨h.path,h.targetPath,h.safe,h.known⟩) fun _ => ?_
  refine goesOnBind (goesOnFinal (h.converted _)) fun done u converted hu => ?_
  refine goesOnIte (fun yes => ?_) (fun _ => hu)
  cases yes
  have reaches := convertPathReaches h.path converted
  have opened : Emits (fun _ => False) (r.openNode env s.data (t = .enter)) :=
    r.openNodeEmits env _ _
  refine goesOnBind (goesOnQuiet opened hu) fun info v run hv => ?_
  refine goesOnIte (fun _ => visitDirGoesOn hv _ _) fun file => ?_
  have found : r.infoAt s.data false = some info := by
    rw [← Bool.eq_false_iff.mpr file]
    exact r.openNodeSource env run
  exact visitFileGoesOn linkable hv found ((opened.returned run).path ▸ reaches)

theorem walkSteady (linkable : r.Linkable env w start) :
    (r.api env).Steady (r.visit env w) (Copying start) (fun _ t => NoDangling t.log) where
  fuel _ h := h.safe
  set _ _ h := ⟨h.path,h.targetPath,h.safe,h.known⟩
  opened path _ h := goesOnQuiet (r.openListedEmits env path) h
  first path _ h := goesOnQuiet (r.findFirstEmits env path) h
  next path _ h := goesOnQuiet (.findNext env path) h
  acts t _ h := visitGoesOn linkable t h

theorem runSafe (linkable : r.Linkable env w start) (h : Copying start s) (fuel : Nat) :
    NoDangling (r.run env w fuel s).2.log := by
  have ends := (walkSteady linkable).walk fuel (r.format = .legacy)
    {s with isRoot := true, idMap := []} ⟨h.path,h.targetPath,h.safe,by simp⟩
  rw [run,Program.bindRun,Program.modifyRun]
  dsimp only [DirApi.enumDirectory]
  cases run : (r.api env).enumRec (r.visit env w) fuel (r.format = .legacy)
      {s with isRoot := true, idMap := []} with
  | mk outcome t =>
    rw [run] at ends
    cases outcome with
    | ok _ => exact Copying.safe ends
    | error e => exact ends

end WslReader
namespace ArchiveReader
variable (r : ArchiveReader) (start : FilePath)

def Named (e : ArchiveEntry) (data : Wstr) : Prop :=
  ∃ name, e.pathname = some (.ok name) ∧ (r.pathOf name).Reaches start data

/- Of an entry whose own link target is refused nothing is kept, so it counts for no other. -/
def Recorded (e : ArchiveEntry) (data : Wstr) : Prop :=
  r.Named start e data ∧
  ∀ link, e.hardlink = some (.ok link) → ∃ target, (r.pathOf link).Reaches start target

/- Every hard link names the path of an earlier entry that counts. -/
def Backed : Prop :=
  ∀ earlier e later, r.entries = earlier ++ e :: later → (∃ own, r.Named start e own) →
    ∀ link data, e.hardlink = some (.ok link) → (r.pathOf link).Reaches start data →
      ∃ e' ∈ earlier, r.Recorded start e' data

structure Unpacked (done : List ArchiveEntry) (s : CopyState) : Prop extends Copying start s where
  recorded : ∀ e ∈ done, ∀ data, r.Recorded start e data → Settled s data

variable {r} {start} {env : FsEnv} {w : Format} {base : Wstr} {s t : CopyState}
  {done : List ArchiveEntry}

theorem Unpacked.advance (h : r.Unpacked start done s) (later : Advanced s t) :
    r.Unpacked start done t :=
  ⟨h.toCopying.advance later,fun e mem data rec => later.settled (h.recorded e mem data rec)⟩

def UnpacksNext (r : ArchiveReader) (start : FilePath) (done : List ArchiveEntry)
    (e : ArchiveEntry) : Except Stop Unit × CopyState → Prop :=
  Program.Ends (fun _ t => r.Unpacked start (done ++ [e]) t) (fun _ t => NoDangling t.log)

theorem Unpacked.snoc {e : ArchiveEntry} (h : r.Unpacked start done s)
    (settled : ∀ data, r.Recorded start e data → Settled s data) :
    r.Unpacked start (done ++ [e]) s := by
  refine ⟨h.toCopying,fun e' mem data rec => ?_⟩
  rcases List.mem_append.mp mem with old | new
  · exact h.recorded e' old data rec
  · cases List.mem_singleton.mp new
    exact settled data rec

theorem neverNameless (r : ArchiveReader) (name : CStr) (base : Wstr) :
    ¬ (r.pathOf name).Reaches (Format.fresh .linux base) [] := by
  rintro ⟨out,run,empty⟩
  have noNul := LinuxPath.ofNameNoNul name.noNul r.rootPath
  have skips := LinuxPath.ofNameSkip name.units r.rootPath
  rw [pathOf] at run
  cases shown : (LinuxPath.ofName name.units r.rootPath).skip with
  | true =>
    rw [FilePath.convert,FilePath.linuxConvert,if_pos shown] at run
    cases run
  | false =>
    rw [FilePath.linuxStreams shown] at run
    obtain ⟨q,whole,data,_⟩ := LinuxPath.feedRooted noNul
    have both : FilePath.putText (wstr "rootfs/" ++ (LinuxPath.ofName name.units r.rootPath).data ++ [0])
        (.linux LinuxPath.new) = (.ok true,.linux q) := by
      rw [FilePath.putText,whole]
    obtain rfl : (FilePath.linux q) = out := (Prod.mk.inj (both.symm.trans run)).2
    have nothing : (LinuxPath.ofName name.units r.rootPath).data = [] := data ▸ empty
    rw [nothing,shown] at skips
    cases skips

theorem storeEntrySettles (e : ArchiveEntry) (s : CopyState) :
    Settles (Nameless w s) s (storeEntry env w e s) := by
  have symlink : Emits (fun _ => False) (readSymlink e) :=
    .ite (fun _ => .bind (fromUtf8Emits _) fun _ => .pure _) (fun _ => .pure _)
  refine Settles.after (quietAdvanced symlink s) fun target t _ later => ?_
  have settles := FsWriter.writeNewFileSettles env w (some (attrOf e target)) t
  rw [Nameless,later.path] at settles
  refine Settles.bindQuiet settles fun stored u => ?_
  have quiet : Emits DataEvent (if stored = true then
      Program.when (e.mode &&& aeIfmt = aeIfreg) (readData env w e.dataEnd e.blocks) else pure ()) :=
    .ite (fun _ => .when fun _ => readDataEmits ..) (fun _ => .pure ())
  exact (quiet.final u).advanced dataEventNoLink

theorem recordedOnce {start : FilePath} {e : ArchiveEntry} {name : CStr} {data path : Wstr}
    (own : e.pathname = some (.ok name)) (reaches : (r.pathOf name).Reaches start path)
    (rec : r.Recorded start e data) : data = path := by
  obtain ⟨⟨name',own',reaches'⟩,-⟩ := rec
  cases own.symm.trans own'
  exact FilePath.reachesOnce reaches' reaches

theorem storeEntryNext (h : r.Unpacked (w.fresh base) done s) {e : ArchiveEntry} {name : CStr}
    (own : e.pathname = some (.ok name))
    (reaches : (r.pathOf name).Reaches (w.fresh base) s.path.data) :
    r.UnpacksNext (w.fresh base) done e (storeEntry env w e s) := by
  have settles := @storeEntrySettles env w e s
  cases run : storeEntry env w e s with
  | mk outcome t =>
    rw [run] at settles
    cases outcome with
    | error _ => exact settles.safe h.safe
    | ok _ =>
      refine (h.advance settles.1).snoc fun data rec => recordedOnce own reaches rec ▸ ?_
      refine settles.2.resolve_left ?_
      rintro ⟨rfl,empty⟩
      exact neverNameless r name base (empty ▸ reaches)

theorem nextBind {α : Type} {start : FilePath} {e : ArchiveEntry} {x : Copy α} {f : α → Copy Unit}
    (fails : NoDangling (x s).2.log)
    (next : ∀ a t, x s = (.ok a,t) → r.UnpacksNext start done e (f a t)) :
    r.UnpacksNext start done e ((x >>= f) s) := by
  rw [Program.bindRun]
  cases run : x s with
  | mk outcome t =>
    rw [run] at fails
    cases outcome with
    | ok a => exact next a t run
    | error stop => exact fails

theorem nextIte {start : FilePath} {e : ArchiveEntry} {c : Prop} [Decidable c] {x y : Copy Unit}
    (yes : c → r.UnpacksNext start done e (x s)) (no : ¬ c → r.UnpacksNext start done e (y s)) :
    r.UnpacksNext start done e ((if c then x else y) s) := by
  split
  · exact yes (by assumption)
  · exact no (by assumption)

theorem writeHardLinkNext (h : r.Unpacked start done s) {e : ArchiveEntry}
    (settled : Settled s s.targetPath.data)
    (only : ∀ data, r.Recorded start e data → data = s.path.data) :
    r.UnpacksNext start done e (FsWriter.writeHardLink env w s) := by
  have linked := h.toCopying.linked settled env w
  cases run : FsWriter.writeHardLink env w s with
  | mk outcome t =>
    rw [run] at linked
    cases outcome with
    | error _ => exact linked.safe
    | ok _ =>
      by_cases refused : s.targetPath.data ∈ s.ignored
      · rw [FsWriter.refusedLink env w refused] at run
        obtain ⟨-,rfl⟩ := Prod.mk.inj run
        refine Unpacked.snoc ⟨linked,fun e' mem data rec => ?_⟩ fun data rec => ?_
        · exact (h.recorded e' mem data rec).imp_left fun known => List.mem_cons_of_mem _ known
        · exact .inl (only data rec ▸ List.mem_cons_self)
      · have logged := FsWriter.loggedLink env w refused run
        have within := FsWriter.emittedLink env w refused
        rw [run] at within
        obtain ⟨more,log,-⟩ := within.log
        refine Unpacked.snoc ⟨linked,fun e' mem data rec => ?_⟩ fun data rec => ?_
        · exact (h.recorded e' mem data rec).imp (within.ignored ▸ ·) fun made => log ▸ made.more more
        · exact .inr (.inr ⟨_,only data rec ▸ logged⟩)

theorem linkEntryNext (h : r.Unpacked start done s) {e : ArchiveEntry} {name target : CStr}
    (own : e.pathname = some (.ok name)) (reaches : (r.pathOf name).Reaches start s.path.data)
    (link : e.hardlink = some (.ok target))
    (backed : ∀ data, (r.pathOf target).Reaches start data →
      ∃ e' ∈ done, r.Recorded start e' data) :
    r.UnpacksNext start done e (r.linkEntry env w (.ok target) s) := by
  have ht := h.toCopying.convertedTarget (r.pathOf target)
  change r.UnpacksNext start done e ((WslReader.convertTarget (r.pathOf target) >>= _) s)
  refine nextBind ht.safe fun done' t converted => ?_
  rw [converted] at ht
  obtain ⟨result,rfl⟩ := Prod.mk.inj converted
  have kept : r.Unpacked start done _ := ⟨ht,h.recorded⟩
  refine nextIte (fun yes => ?_) (fun no => kept.snoc fun data rec => ?_)
  · subst yes
    obtain ⟨e',mem,rec⟩ := backed _ (convertTargetReaches h.targetPath converted)
    exact writeHardLinkNext kept (h.recorded e' mem _ rec) fun data rec =>
      recordedOnce own reaches rec
  · obtain ⟨reached,linked⟩ := rec.2 target link
    have yes := FilePath.convertedReaches (h.targetPath.symm ▸ linked)
    cases result.symm.trans yes
    contradiction

theorem extractNext (h : r.Unpacked (w.fresh base) done s) {e : ArchiveEntry}
    (backed : (∃ own, r.Named (w.fresh base) e own) → ∀ link data, e.hardlink = some (.ok link) →
      (r.pathOf link).Reaches (w.fresh base) data → ∃ e' ∈ done, r.Recorded (w.fresh base) e' data) :
    r.UnpacksNext (w.fresh base) done e (r.extract env w e s) := by
  unfold extract
  cases own : e.pathname with
  | none => exact h.safe
  | some text =>
    cases text with
    | error code => exact h.safe
    | ok name =>
      have ht := h.toCopying.converted (r.pathOf name)
      change r.UnpacksNext _ done e ((WslReader.convertPath (r.pathOf name) >>= _) s)
      refine nextBind ht.safe fun done' t converted => ?_
      have reaches : done' = true → (r.pathOf name).Reaches (w.fresh base) t.path.data :=
        fun yes => convertPathReaches h.path (yes ▸ converted)
      obtain ⟨result,rfl⟩ := Prod.mk.inj converted
      have kept : r.Unpacked (w.fresh base) done _ := ⟨ht,h.recorded⟩
      refine nextIte (fun yes => ?_) (fun no => kept.snoc fun data rec => ?_)
      · have named := reaches yes
        cases link : e.hardlink with
        | none => exact storeEntryNext kept own named
        | some text =>
          cases text with
          | error code => exact h.safe
          | ok target =>
            exact linkEntryNext kept own named link fun data =>
              backed ⟨_,name,own,named⟩ target data link
      · obtain ⟨⟨name',own',reached⟩,-⟩ := rec
        cases own.symm.trans own'
        have yes := FilePath.convertedReaches (h.path.symm ▸ reached)
        cases result.symm.trans yes
        contradiction

theorem checkArchiveKeeps (status : ArchiveStatus) (s : CopyState) :
    (Fs.checkArchive status s).2 = s := by
  cases status <;> rfl

theorem readEntriesSafe (backed : r.Backed (w.fresh base)) {entries : List ArchiveEntry}
    (rest : r.entries = done ++ entries) (h : r.Unpacked (w.fresh base) done s) :
    NoDangling (r.readEntries env w entries s).2.log := by
  induction entries generalizing done s with
  | nil =>
    have ending : Emits (fun _ => False) (r.readEntries env w []) :=
      .bind (.checkArchive _) fun _ => .pure ()
    exact (h.advance (quietAdvanced ending s)).safe
  | cons e entries ih =>
    rw [readEntries,Program.bindRun]
    have same := checkArchiveKeeps e.header s
    cases header : (Fs.checkArchive e.header : Copy Bool) s with
    | mk outcome t =>
      rw [header] at same
      subst same
      match outcome with
      | .error stop => exact h.safe
      | .ok false => exact h.safe
      | .ok true =>
        have next : r.UnpacksNext (w.fresh base) done e (r.extract env w e t) :=
          extractNext h (backed done e entries rest)
        dsimp only
        rw [if_pos rfl,Program.bindRun]
        cases run : r.extract env w e t with
        | mk outcome u =>
          rw [run] at next
          cases outcome with
          | error stop => exact next
          | ok _ => exact ih (by simp [rest]) next

theorem writeRootGoesOn (h : Copying start s) : GoesOn start (writeRoot env w s) := by
  refine goesOnBind (goesOnFinal (h.converted _)) fun done t _ ht => goesOnIte (fun _ => ?_) fun _ => ht
  exact goesOnBind (goesOnSettles ht (FsWriter.writeNewFileSettles env w _ t)) fun _ _ _ hu => hu

theorem runSafe (backed : r.Backed (w.fresh base)) (h : Copying (w.fresh base) s) :
    NoDangling (r.run env w s).2.log := by
  have begun : GoesOn (w.fresh base) ((r.openArchive env >>= fun _ => writeRoot env w) s) :=
    goesOnBind (goesOnQuiet (r.openArchiveEmits env) h) fun _ t _ ht => writeRootGoesOn ht
  have parts : r.run env w = (r.openArchive env >>= fun _ => writeRoot env w) >>= fun _ =>
      r.readEntries env w r.entries := by rw [Program.bindAssoc]; rfl
  rw [parts,Program.bindRun]
  cases run : (r.openArchive env >>= fun _ => writeRoot env w) s with
  | mk outcome t =>
    rw [run] at begun
    cases outcome with
    | error stop => exact begun
    | ok _ =>
      exact readEntriesSafe backed (List.nil_append _).symm
        ⟨begun,fun e mem => absurd mem List.not_mem_nil⟩

end ArchiveReader

inductive FsReader where
  | wsl (r : WslReader)
  | archive (r : ArchiveReader)

namespace FsReader

def run (env : FsEnv) (w : Format) (fuel : Nat) : FsReader → Copy Unit
  | wsl r => r.run env w fuel
  | archive r => r.run env w

def begins (w : Format) (base : Wstr) : FsReader → CopyState
  | wsl r => .new w base r.base
  | archive _ => .new w base []

def Accounted (env : FsEnv) (w : Format) (start : FilePath) : FsReader → Prop
  | wsl r => r.Linkable env w start
  | archive r => r.Backed start

end FsReader

theorem newCopying (w : Format) (base source : Wstr) :
    Copying (w.fresh base) (.new w base source) where
  path := FilePath.servedReset .fresh
  targetPath := FilePath.servedReset .fresh
  safe before path target after same := by simp [CopyState.new] at same
  known := by simp [CopyState.new]

def sourceBase : Wstr := wstr "\\\\?\\C:\\s\\"
def targetBase : Wstr := wstr "\\\\?\\C:\\t\\"

def twoNames (mode : UInt32) : NodeInfo where
  eas
    | .lxattrb => some (.record ⟨0,1,mode,0,0,0,0,0,0,0,0,0⟩)
    | .lxdev => none
    | .lxmod => some (.dword mode)
    | _ => some (.dword 0)
  size := 0
  times := (0,0,0)
  links := 2
  index := 7
  reparse := none
  reads := []

def pairReader (format : Format) (mode : UInt32) : FsReader :=
  .wsl ⟨format,sourceBase,.file (wstr "a") (twoNames mode) (.file (wstr "b") (twoNames mode) .nil)⟩

end LxRunOffline
