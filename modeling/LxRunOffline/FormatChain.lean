import LxRunOffline.DeviceNumber
import LxRunOffline.StoredEas

/-! A record that is written in one format, read back, written in the next and so on. The widths
of the device numbers differ between the formats, and v2 has no place for a part of a tick. -/
namespace LxRunOffline

def storeRecord (env : FsEnv) (f : Format) (path : Wstr) (attr : FileAttr) : Copy Unit := do
  WslWriter.writeAttr env f path (some attr)
  FsWriter.destroy env f

/- A file without attributes is given those of `a`, by a writer that has put nothing off, and
`b` is read back from it. The link target of `b` is that of the reader, not of the record. -/
inductive Recorded (f : Format) (a b : FileAttr) : Prop
  | intro {path : Wstr} {info : NodeInfo} {s s' t t' : CopyState} {read : FileAttr}
      {r : WslReader} {wenv renv : FsEnv} (same : r.format = f) (fresh : s.dirAttr = [])
      (clean : ∀ name, eaOf s.log path name = none)
      (stored : storeRecord wenv f path a s = (.ok (),s'))
      (held : ∀ name, info.eas name = eaOf s'.log path name)
      (back : r.readAttr renv path info t = (.ok (some read),t'))
      (target : b = {read with symlink := b.symlink})

inductive Carried : List Format → FileAttr → FileAttr → Prop
  | nil (a : FileAttr) : Carried [] a a
  | cons {f : Format} {chain : List Format} {a b c : FileAttr} (wsl : f = .v1 ∨ f = .v2)
      (first : Recorded f a b) (rest : Carried chain b c) : Carried (f :: chain) a c

structure SameOwner (a b : FileAttr) : Prop where
  mode : b.mode = a.mode
  uid : b.uid = a.uid
  gid : b.gid = a.gid
  major : a.device → a.Narrow → b.devMajor = a.devMajor
  minor : a.device → a.Narrow → b.devMinor = a.devMinor

structure SameTimes (a b : FileAttr) : Prop where
  atime : b.atime = a.atime
  mtime : b.mtime = a.mtime
  ctime : b.ctime = a.ctime

namespace SameOwner

theorem refl (a : FileAttr) : SameOwner a a := ⟨rfl,rfl,rfl,fun _ _ => rfl,fun _ _ => rfl⟩

theorem trans {a b c : FileAttr} (h : SameOwner a b) (h' : SameOwner b c) : SameOwner a c := by
  have device : a.device → b.device := fun is => by rwa [FileAttr.device,h.mode]
  have narrow : a.device → a.Narrow → b.Narrow := fun is small => by
    rwa [FileAttr.Narrow,h.major is small,h.minor is small]
  refine ⟨h'.mode.trans h.mode,h'.uid.trans h.uid,h'.gid.trans h.gid,?_,?_⟩
  · exact fun is small => (h'.major (device is) (narrow is small)).trans (h.major is small)
  · exact fun is small => (h'.minor (device is) (narrow is small)).trans (h.minor is small)

end SameOwner

theorem SameTimes.trans {a b c : FileAttr} (h : SameTimes a b) (h' : SameTimes b c) :
    SameTimes a c := ⟨h'.atime.trans h.atime,h'.mtime.trans h.mtime,h'.ctime.trans h.ctime⟩

theorem firstAttr (env : FsEnv) (path : Wstr) (attr : FileAttr) {s : CopyState}
    (fresh : s.dirAttr = []) :
    Within (· ∈ WslV2Writer.stores path attr) s (WslV2Writer.writeAttr env path attr s).2 ∧
    ∀ e ∈ WslV2Writer.storesAll (WslV2Writer.writeAttr env path attr s).2.dirAttr,
      e ∈ WslV2Writer.stores path attr := by
  by_cases dir : attr.type = aeIfdir
  · have wrote : WslV2Writer.writeAttr env path attr s =
        (.ok (),{s with dirAttr := [(path,attr)]}) := by
      rw [WslV2Writer.writeAttr,if_pos dir,Program.bindRun,Program.getRun]
      dsimp only
      rw [fresh,WslV2Writer.flush]
      simp only [Program.bindRun,Program.pureRun,Program.modifyRun,fresh]
    rw [wrote]
    exact ⟨⟨rfl,rfl,rfl,rfl,rfl,rfl,[],by simp,by simp⟩,fun e mem => by
      simpa [WslV2Writer.storesAll] using mem⟩
  · have wrote : WslV2Writer.writeAttr env path attr = WslV2Writer.realWriteAttr env path attr :=
      if_neg dir
    have stack := ((Filing.realWriteAttr path env attr).final s).stack
    rw [wrote]
    refine ⟨(WslV2Writer.realAttrStores env path attr).final s,fun e mem => ?_⟩
    rw [stack,fresh] at mem
    contradiction

theorem destroyStores (env : FsEnv) (s : CopyState) :
    Within (· ∈ WslV2Writer.storesAll s.dirAttr) s (WslV2Writer.destroy env s).2 := by
  have swallowed (e : Stop) : Emits (· ∈ WslV2Writer.storesAll s.dirAttr)
      (if e.unwinds then pure () else Program.raise e : Copy Unit) :=
    .ite (fun _ => .pure ()) fun _ => .raise _
  exact (Emits.rescue (WslV2Writer.drainStores env s.dirAttr) swallowed).final s

theorem recordStores (env : FsEnv) (f : Format) (path : Wstr) (attr : FileAttr) {s : CopyState}
    (fresh : s.dirAttr = []) :
    Within (· ∈ WslWriter.storedAs f path attr) s (storeRecord env f path attr s).2 := by
  by_cases v2 : f = .v2
  · obtain ⟨within,left⟩ := firstAttr env path attr fresh
    rw [WslWriter.storedAs,if_pos v2,storeRecord,WslWriter.writeAttr,if_pos v2,FsWriter.destroy,
      if_pos v2]
    cases wrote : WslV2Writer.writeAttr env path attr s with
    | mk outcome t =>
      rw [wrote] at within left
      cases outcome with
      | error e => rwa [Program.bindError wrote]
      | ok _ =>
        rw [Program.bindOk wrote]
        exact within.trans ((destroyStores env t).mono left)
  · have wrote : Emits (· ∈ WslV1Writer.stores path attr) (storeRecord env f path attr) := by
      rw [storeRecord,WslWriter.writeAttr,if_neg v2,FsWriter.destroy,if_neg v2]
      exact .bind (WslV1Writer.attrStores env path attr) fun _ =>
        .ite (fun _ => ArchiveWriter.destroyEmits env) fun _ => .pure ()
    rw [WslWriter.storedAs,if_neg v2]
    exact wrote.final s

theorem pickSource {α : Type} {held : Option EaValue} {pick : EaValue → Option α} {a : α}
    (h : held.bind pick = some a) : ∃ value, held = some value ∧ pick value = some a :=
  Option.bind_eq_some_iff.mp h

theorem asDwordSource {value : EaValue} {n : UInt32} (h : value.asDword = some n) :
    value = .dword n := by
  cases value <;> cases h
  rfl

theorem asQwordSource {value : EaValue} {n : UInt64} (h : value.asQword = some n) :
    value = .qword n := by
  cases value <;> cases h
  rfl

theorem asRecordSource {value : EaValue} {ea : LxAttrB} (h : value.asRecord = some ea) :
    value = .record ea := by
  cases value <;> cases h
  rfl

section Reading
variable {path : Wstr} {attr read : FileAttr} {info : NodeInfo}

theorem sameOwnerV2 (held : ∀ name value, info.eas name = some value →
      .ea path name value ∈ WslV2Writer.stores path attr)
    (source : WslReader.ReadV2 info read) : SameOwner attr read := by
  have dword {name : EaName} {n : UInt32} (found : (info.eas name).bind EaValue.asDword = some n) :
      .ea path name (.dword n) ∈ WslV2Writer.stores path attr := by
    obtain ⟨value,is,picked⟩ := pickSource found
    cases asDwordSource picked
    exact held name _ is
  have uid : read.uid = attr.uid := by
    simpa using WslV2Writer.storesEas path attr (dword source.uid)
  have gid : read.gid = attr.gid := by
    simpa using WslV2Writer.storesEas path attr (dword source.gid)
  have mode : read.mode = attr.mode := by
    simpa using WslV2Writer.storesEas path attr (dword source.mode)
  have numbers : attr.device → read.devMajor = attr.devMajor ∧ read.devMinor = attr.devMinor := by
    intro device
    obtain ⟨dev,found,major,minor⟩ := source.device (by rw [mode]; exact device)
    obtain ⟨value,is,picked⟩ := pickSource found
    cases asQwordSource picked
    have number : dev = attr.packed := by
      simpa [FileAttr.packed] using WslV2Writer.storesEas path attr (held _ _ is)
    have back := attr.packedBack
    rw [← number] at back
    exact ⟨major.trans back.1,minor.trans back.2⟩
  exact ⟨mode,uid,gid,fun device _ => (numbers device).1,fun device _ => (numbers device).2⟩

theorem sameRecordV1 (held : ∀ name value, info.eas name = some value →
      .ea path name value ∈ WslV1Writer.stores path attr) {ea : LxAttrB} {size : UInt64}
    (found : (info.eas .lxattrb).bind EaValue.asRecord = some ea)
    (is : read = WslReader.ofRecord ea size) : SameOwner attr read ∧ SameTimes attr read := by
  obtain ⟨value,there,picked⟩ := pickSource found
  cases asRecordSource picked
  have mem := held _ _ there
  have stored : ea = WslV1Writer.record attr := by
    unfold WslV1Writer.stores at mem
    rcases List.mem_cons.mp mem with same | link
    · cases same
      rfl
    · split at link
      · cases List.mem_singleton.mp link
      · contradiction
  subst is stored
  exact ⟨⟨rfl,rfl,rfl,fun _ narrow => (FileAttr.narrowPacked narrow).1,
    fun _ narrow => (FileAttr.narrowPacked narrow).2⟩,⟨rfl,rfl,rfl⟩⟩

end Reading

theorem recordedKeeps {f : Format} {a b : FileAttr} (h : Recorded f a b) :
    SameOwner a b ∧ (f ≠ .v2 → SameTimes a b) := by
  obtain @⟨path,info,s,s',t,t',read,r,wenv,renv,same,fresh,clean,stored,eas,back,target⟩ := h
  have within := recordStores wenv f path a fresh
  rw [stored] at within
  obtain ⟨more,log,all⟩ := within.log
  have held (name : EaName) (value : EaValue) (is : info.eas name = some value) :
      .ea path name value ∈ WslWriter.storedAs f path a := by
    rw [eas,log] at is
    exact all _ (eaOfClean (clean name) is)
  rw [target]
  by_cases v2 : f = .v2
  · rw [WslReader.readAttr,if_pos (same.trans v2)] at back
    rw [WslWriter.storedAs,if_pos v2] at held
    have kept := sameOwnerV2 held (WslReader.readAttrV2Source back)
    exact ⟨⟨kept.mode,kept.uid,kept.gid,kept.major,kept.minor⟩,fun other => absurd v2 other⟩
  · rw [WslReader.readAttr,if_neg fun is => v2 (same.symm.trans is)] at back
    rw [WslWriter.storedAs,if_neg v2] at held
    obtain ⟨ea,size,found,is⟩ := WslReader.readAttrV1Source back
    obtain ⟨kept,times⟩ := sameRecordV1 held found is
    exact ⟨⟨kept.mode,kept.uid,kept.gid,kept.major,kept.minor⟩,
      fun _ => ⟨times.atime,times.mtime,times.ctime⟩⟩

theorem carriedKeeps {chain : List Format} {a z : FileAttr} (h : Carried chain a z) :
    SameOwner a z ∧ ((∀ f ∈ chain, f ≠ .v2) → SameTimes a z) := by
  induction h with
  | nil a => exact ⟨.refl a,fun _ => ⟨rfl,rfl,rfl⟩⟩
  | @cons f chain a b c wsl first rest ih =>
    obtain ⟨owner,times⟩ := recordedKeeps first
    refine ⟨owner.trans ih.1,fun noV2 => ?_⟩
    exact (times (noV2 f (by simp))).trans (ih.2 fun g mem => noV2 g (by simp [mem]))

theorem eaOfStores (path : Wstr) (attr : FileAttr) :
    eaOf (WslV2Writer.stores path attr) path .lxuid = some (.dword attr.uid) ∧
    eaOf (WslV2Writer.stores path attr) path .lxgid = some (.dword attr.gid) ∧
    eaOf (WslV2Writer.stores path attr) path .lxmod = some (.dword attr.mode) ∧
    (attr.device → eaOf (WslV2Writer.stores path attr) path .lxdev = some (.qword attr.packed)) := by
  have rest (name : EaName) : ((WslV2Writer.reparseOf attr).toList.map (FsEvent.reparse path) ++
      [FsEvent.times path (timeU2f attr.atime) (timeU2f attr.mtime) (timeU2f attr.ctime)]).filterMap
        (eaEvent path name) = [] := by
    cases WslV2Writer.reparseOf attr <;> rfl
  have eas (name : EaName) : eaOf (WslV2Writer.stores path attr) path name = eaOf
      ([.ea path .lxuid (.dword attr.uid),.ea path .lxgid (.dword attr.gid),
        .ea path .lxmod (.dword attr.mode)] ++
      if attr.device then [.ea path .lxdev (.qword attr.packed)] else []) path name := by
    rw [eaOf,eaOf,WslV2Writer.stores,List.filterMap_append,rest,List.append_nil]
    rfl
  rw [eas,eas,eas,eas]
  refine ⟨?_,?_,?_,fun is => ?_⟩
  · by_cases is : attr.device <;> simp [eaOf,eaEvent,is]
  · by_cases is : attr.device <;> simp [eaOf,eaEvent,is]
  · by_cases is : attr.device <;> simp [eaOf,eaEvent,is]
  · simp [eaOf,eaEvent,is]

theorem recordStored (f : Format) (path : Wstr) {attr : FileAttr} (whole : attr.Whole) {s : CopyState}
    (fresh : s.dirAttr = []) : ∃ t, storeRecord plainFs f path attr s = (.ok (),t) ∧
      t.log = s.log ++ WslWriter.storedAs f path attr := by
  by_cases v2 : f = .v2
  · obtain ⟨clock,wrote⟩ := WslV2Writer.writeAttrTells plainWorks.tolerated path whole s
    rw [storeRecord,WslWriter.writeAttr,if_pos v2,Program.bindOk wrote,FsWriter.destroy,if_pos v2,
      WslWriter.storedAs,if_pos v2]
    obtain ⟨clock',destroyed⟩ := WslV2Writer.destroyTells plainWorks.tolerated
      {s with
        clock := clock,
        log := s.log ++ WslV2Writer.storesAll (Postponed.give WslV2Writer.liesIn ⟨s.dirAttr,[]⟩
          (WslV2Writer.gift path attr)).delivered,
        dirAttr := (Postponed.give WslV2Writer.liesIn ⟨s.dirAttr,[]⟩
          (WslV2Writer.gift path attr)).waiting}
    rw [destroyed]
    refine ⟨_,rfl,?_⟩
    by_cases dir : attr.type = aeIfdir <;>
      simp [Postponed.give,WslV2Writer.gift,WslV2Writer.storesAll,fresh,dir,Postponed.outsiders,
        Postponed.holders]
  · have given : ∀ a ∈ some attr, a.Whole := by
      rintro _ ⟨⟩
      exact whole
    obtain ⟨_,t,wrote⟩ := (WslWriter.writeAttrReturns plainWorks f path given).ends s
    have adds : Adds (WslWriter.storedAs f path attr) (WslWriter.writeAttr plainFs f path (some attr)) :=
      WslWriter.writeAttrAdds plainFs f path fun is => absurd is v2
    have destroyed : ∃ u, FsWriter.destroy plainFs f t = (.ok (),u) ∧ u.log = t.log := by
      rw [FsWriter.destroy,if_neg v2]
      by_cases archive : f = .linux
      · rw [if_pos archive]
        exact ⟨_,rfl,rfl⟩
      · rw [if_neg archive]
        exact ⟨t,rfl,rfl⟩
    obtain ⟨u,ended,log⟩ := destroyed
    refine ⟨u,?_,log.trans (adds.log s _ t wrote)⟩
    rw [storeRecord,Program.bindOk wrote,ended]

theorem recordable (f : Format) {a : FileAttr} (whole : a.Whole) : ∃ b, Recorded f a b ∧ b.Whole := by
  let s : CopyState := .new f [] []
  obtain ⟨t,stored,log⟩ := recordStored f [] whole (show s.dirAttr = [] from rfl)
  have empty : s.log = [] := rfl
  rw [empty,List.nil_append] at log
  let info : NodeInfo := ⟨eaOf t.log [],0,(0,0,0),1,0,none,[]⟩
  let r : WslReader := ⟨f,[],.nil⟩
  have mode : r.modeOf info = some a.mode := by
    by_cases v2 : f = .v2
    · have eas (name : EaName) : info.eas name = eaOf (WslV2Writer.stores [] a) [] name := by
        rw [← log.trans (if_pos v2)]
      obtain ⟨uid,gid,mode,dev⟩ := eaOfStores [] a
      rw [WslReader.modeOf,if_pos v2,eas,eas,eas,eas,uid,gid,mode]
      by_cases device : a.device
      · rw [dev device]
        simp [EaValue.asDword,EaValue.asQword]
      · have plain : ¬ WslReader.isDevice a.mode := device
        simp [EaValue.asDword,plain]
    · have eas : info.eas .lxattrb = some (.record (WslV1Writer.record a)) := by
        have stores : t.log = WslV1Writer.stores [] a := log.trans (if_neg v2)
        show eaOf t.log [] .lxattrb = _
        rw [stores,WslV1Writer.stores]
        by_cases link : a.type = aeIflnk <;> simp [eaOf,eaEvent,link,List.filterMap_cons]
      rw [WslReader.modeOf,if_neg v2,eas]
      rfl
  obtain ⟨attr,u,back,read⟩ := r.readAttrWorks plainWorks [] info s
  rw [mode] at read
  cases attr with
  | none => contradiction
  | some attr =>
    have recorded : Recorded f a {attr with symlink := a.symlink} :=
      .intro rfl rfl (fun _ => rfl) stored (fun _ => rfl) back rfl
    refine ⟨_,recorded,fun link => whole ?_⟩
    have type : ({attr with symlink := a.symlink} : FileAttr).type = a.type :=
      congrArg (· &&& aeIfmt) (recordedKeeps recorded).1.mode
    exact type.symm.trans link

/- Every chain of formats and every record; `Carried` leaves it to the environment of each step
which calls fail, as long as something is read back. A link that has no target is not written. -/
theorem chainKept (chain : List Format) (wsl : ∀ f ∈ chain, f = .v1 ∨ f = .v2) (a : FileAttr)
    (narrow : a.device → a.Narrow) :
    (a.Whole → ∃ z, Carried chain a z) ∧
    ∀ z, Carried chain a z → z.mode = a.mode ∧ z.uid = a.uid ∧ z.gid = a.gid ∧
      (a.device → z.devMajor = a.devMajor ∧ z.devMinor = a.devMinor) ∧
      ((∀ f ∈ chain, f = .v1) → z.atime = a.atime ∧ z.mtime = a.mtime ∧ z.ctime = a.ctime) := by
  have carries (whole : a.Whole) : ∃ z, Carried chain a z := by
    clear narrow
    induction chain generalizing a with
    | nil => exact ⟨a,.nil a⟩
    | cons f chain ih =>
      obtain ⟨b,first,whole'⟩ := recordable f whole
      obtain ⟨z,rest⟩ := ih (fun g mem => wsl g (List.mem_cons_of_mem f mem)) b whole'
      exact ⟨z,.cons (wsl f List.mem_cons_self) first rest⟩
  refine ⟨carries,fun z h => ?_⟩
  obtain ⟨owner,times⟩ := carriedKeeps h
  refine ⟨owner.mode,owner.uid,owner.gid,fun device => ?_,fun v1 => ?_⟩
  · exact ⟨owner.major device (narrow device),owner.minor device (narrow device)⟩
  · have kept := times fun f mem => by
      rw [v1 f mem]
      decide
    exact ⟨kept.atime,kept.mtime,kept.ctime⟩

def ttyDevice : FileAttr := {zeroAttr with mode := 0x2190, gid := 5, devMajor := 4095, devMinor := 1048575}

theorem ttyKept :
    (∃ z, Carried [.v1,.v2,.v1] ttyDevice z) ∧
    ∀ z, Carried [.v1,.v2,.v1] ttyDevice z → z.mode = ttyDevice.mode ∧ z.uid = ttyDevice.uid ∧
      z.gid = ttyDevice.gid ∧
      (ttyDevice.device → z.devMajor = ttyDevice.devMajor ∧ z.devMinor = ttyDevice.devMinor) ∧
      ((∀ f ∈ [Format.v1,.v2,.v1], f = .v1) →
        z.atime = ttyDevice.atime ∧ z.mtime = ttyDevice.mtime ∧ z.ctime = ttyDevice.ctime) := by
  have kept := chainKept [.v1,.v2,.v1] (by decide) ttyDevice fun _ => ⟨by decide,by decide⟩
  exact ⟨kept.1 (by decide),kept.2⟩

end LxRunOffline
