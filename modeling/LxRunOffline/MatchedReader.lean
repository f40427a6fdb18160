import LxRunOffline.MatchedWriters

/-! The v2 reader on two systems that differ in the memory it allocates. What it hands to the
writer agrees wherever the members that it has not assigned are not used. -/
namespace LxRunOffline
open Program (Relates)

namespace DirApi
variable {σ τ : Type} {R : σ → τ → Prop}

structure Paired (R : σ → τ → Prop) (api : DirApi σ) (api' : DirApi τ)
    (action : EnumDirType → Program Stop σ Unit) (action' : EnumDirType → Program Stop τ Unit) :
    Prop where
  data : ∀ s t, R s t → api.data s = api'.data t
  set : ∀ d s t, R s t → R (api.setData d s) (api'.setData d t)
  opened : ∀ path, Relates R Eq (api.openListed path) (api'.openListed path)
  first : ∀ path, Relates R Eq (api.findFirst path) (api'.findFirst path)
  next : ∀ path, Relates R Eq (api.findNext path) (api'.findNext path)
  acts : ∀ t, Relates R Eq (action t) (action' t)

namespace Paired
variable {api : DirApi σ} {api' : DirApi τ} {action : EnumDirType → Program Stop σ Unit}
  {action' : EnumDirType → Program Stop τ Unit}

theorem current (h : Paired R api api' action action') :
    Relates R Eq api.current api'.current := ⟨fun s t related => .ok (h.data s t related) related⟩

theorem changed (h : Paired R api api' action action') (f : Wstr → Wstr) :
    Relates R Eq (Program.modify fun s => api.setData (f (api.data s)) s : Program Stop σ Unit)
      (Program.modify fun t => api'.setData (f (api'.data t)) t) := by
  refine .modify fun s t related => ?_
  rw [h.data s t related]
  exact h.set _ s t related

theorem extend (h : Paired R api api' action action') (text : Wstr) :
    Relates R Eq (api.extend text) (api'.extend text) := h.changed (· ++ text)

theorem resize (h : Paired R api api' action action') (size : Nat) :
    Relates R Eq (api.resize size) (api'.resize size) := h.changed (·.take size)

theorem entry (h : Paired R api api' action action') {descend : Program Stop σ Unit}
    {descend' : Program Stop τ Unit} (deeper : Relates R Eq descend descend') (isRoot : Bool)
    (os : Nat) (entry : FindData) :
    Relates R Eq (api.enumEntry action descend isRoot os entry)
      (api'.enumEntry action' descend' isRoot os entry) := by
  have named : Relates R Eq (api.enumNamed action descend entry)
      (api'.enumNamed action' descend' entry) :=
    .ite (fun _ => .follow (h.extend _) fun _ => deeper) fun _ => h.acts .file
  exact .when fun _ => .follow (h.extend _) fun _ => .follow named fun _ => h.resize os

theorem entries (h : Paired R api api' action action') {descend : Program Stop σ Unit}
    {descend' : Program Stop τ Unit} (deeper : Relates R Eq descend descend') (isRoot : Bool)
    (os : Nat) (found : List FindData) :
    Relates R Eq (api.enumEntries action descend isRoot os found)
      (api'.enumEntries action' descend' isRoot os found) := by
  induction found with
  | nil => exact h.acts .exit
  | cons entry rest ih =>
    exact .follow (h.entry deeper isRoot os entry) fun _ => .follow h.current fun path =>
      .follow (h.next path) fun _ => .ite (fun _ => ih) fun _ => h.acts .exit

theorem walk (h : Paired R api api' action action') (fuel : Nat) (isRoot : Bool) :
    Relates R Eq (api.enumRec action fuel isRoot) (api'.enumRec action' fuel isRoot) := by
  induction fuel generalizing isRoot with
  | zero => exact .raise _
  | succ fuel ih =>
    refine .follow h.current fun path => .follow (h.opened path) fun _ => ?_
    refine .follow (h.acts .enter) fun _ => .follow h.current fun entered => ?_
    refine .follow (.when fun _ => ?_) fun _ => ?_
    · exact .follow (h.extend _) fun _ => .follow (ih false) fun _ => h.resize _
    · exact .follow h.current fun listed => .follow (h.first listed) fun found =>
        h.entries (ih false) isRoot _ found

end Paired
end DirApi

structure SameEas (a b : FileAttr) : Prop where
  mode : a.mode = b.mode
  uid : a.uid = b.uid
  gid : a.gid = b.gid
  size : a.size = b.size
  numbers : a.device → a.devMajor = b.devMajor ∧ a.devMinor = b.devMinor

structure SameRead (a b : FileAttr) : Prop extends SameEas a b where
  atime : a.atime = b.atime
  mtime : a.mtime = b.mtime
  ctime : a.ctime = b.ctime

theorem SameRead.used {a b : FileAttr} (h : SameRead a b) {w : Format}
    (numbers : a.device ∨ w = .v2 ∨ w = .linux)
    (link : a.type = aeIflnk → a.symlink = b.symlink) : a.used w = b.used w := by
  have type : b.type = a.type := by rw [FileAttr.type,FileAttr.type,h.mode]
  have device : b.device ↔ a.device := by rw [FileAttr.device,FileAttr.device,h.mode]
  have target : (a.used w).symlink = (b.used w).symlink := by
    by_cases is : a.type = aeIflnk
    · rw [a.usedLink w is,b.usedLink w (type.trans is),link is]
    · exact (if_neg is).trans (if_neg (type ▸ is)).symm
  have major : (a.used w).devMajor = (b.used w).devMajor ∧
      (a.used w).devMinor = (b.used w).devMinor := by
    by_cases is : a.device
    · obtain ⟨major,minor⟩ := a.usedNumbers (w := w) (.inl is)
      obtain ⟨major',minor'⟩ := b.usedNumbers (w := w) (.inl (device.mpr is))
      rw [major,minor,major',minor']
      exact h.numbers is
    · have format : ¬ (w ≠ .v2 ∧ w ≠ .linux) := fun other =>
        (numbers.resolve_left is).elim other.1 other.2
      have unused : ¬ (a.device ∨ w ≠ .v2 ∧ w ≠ .linux) := not_or.mpr ⟨is,format⟩
      have unused' : ¬ (b.device ∨ w ≠ .v2 ∧ w ≠ .linux) :=
        not_or.mpr ⟨fun is' => is (device.mp is'),format⟩
      exact ⟨(if_neg unused).trans (if_neg unused').symm,
        (if_neg unused).trans (if_neg unused').symm⟩
  rw [FileAttr.used,FileAttr.used,FileAttr.mk.injEq]
  exact ⟨h.mode,h.uid,h.gid,h.size,h.atime,h.mtime,h.ctime,major.1,major.2,target⟩

namespace WslReader
variable (r : WslReader) {env env' : FsEnv}

theorem orNullMatched {V : FileAttr → FileAttr → Prop} (path : Wstr) {x y : Copy (Option FileAttr)}
    (h : Relates Matched (Option.Rel V) x y) :
    Relates Matched (Option.Rel V) (orNull path x) (orNull path y) :=
  Matched.catchLro h fun _ => .ite (fun _ => .pure .none) fun _ => .raise _

/- The file can be copied without a use of what has not been assigned: its type is refused, or
its link target is read from the file and its device numbers are used for a device only. -/
def Assigned (w : Format) (dir : Bool) (info : NodeInfo) : Prop :=
  ∀ mode, r.modeOf info = some mode → FsWriter.supported (mode &&& aeIfmt) (w ≠ .linux) = true →
    if mode &&& aeIfmt = aeIflnk then
      dir = false ∧ (info.reparse.bind symlinkTarget = none ∨ w = .v2 ∨ w = .linux)
    else isDevice mode ∨ w = .v2 ∨ w = .linux

variable {w : Format}

theorem relTypes {a b : Option FileAttr} (h : Option.Rel SameRead a b) :
    a.map FileAttr.type = b.map FileAttr.type := by
  cases h with
  | none => rfl
  | some h => exact congrArg some (congrArg (· &&& aeIfmt) h.mode)

theorem plainUsed {dir : Bool} {info : NodeInfo} (assigned : r.Assigned w dir info)
    {a b : Option FileAttr} (h : Option.Rel SameRead a b) (mode : a.map FileAttr.mode = r.modeOf info)
    (plain : dir = true ∨ typeOf a ≠ aeIflnk)
    (passes : FsWriter.passes a (w ≠ .linux) (w ≠ .linux) = true) :
    a.map (FileAttr.used w) = b.map (FileAttr.used w) := by
  cases h with
  | none => rfl
  | @some a b h =>
    have known := assigned a.mode mode.symm passes
    by_cases link : a.type = aeIflnk
    · rw [if_pos (show a.mode &&& aeIfmt = aeIflnk from link)] at known
      rcases plain with is | other
      · rw [is] at known
        exact absurd known.1 (by decide)
      · exact absurd link other
    · rw [if_neg (show ¬ a.mode &&& aeIfmt = aeIflnk from link)] at known
      exact congrArg some (h.used known fun is => absurd is link)

variable (same : SameButMemory env env')
include same

theorem readEasMatched (path : Wstr) (info : NodeInfo) :
    Relates Matched (Option.Rel SameEas) (readEas env path info) (readEas env' path info) := by
  have fresh : Relates Matched (fun _ _ => True) (Fs.ask env.memory : Copy FileAttr)
      (Fs.ask env'.memory) := by
    refine ⟨fun s t matched => ?_⟩
    obtain ⟨stack,rfl,held⟩ := matched
    exact .ok trivial ⟨stack,rfl,held⟩
  refine fresh.bind fun a b _ => orNullMatched path ?_
  refine .follow (Matched.getEa same ..) fun uid => .follow (Matched.getEa same ..) fun gid => ?_
  refine .follow (Matched.getEa same ..) fun mode => .follow (Matched.getFileSize same ..) fun size => ?_
  have device : Relates Matched SameEas
      (readDev env path info {a with mode := mode, uid := uid, gid := gid, size := size})
      (readDev env' path info {b with mode := mode, uid := uid, gid := gid, size := size}) := by
    refine .ite (fun is => .follow (Matched.getEa same ..) fun dev => ?_) fun plain => ?_
    · exact .pure ⟨rfl,rfl,rfl,rfl,fun _ => ⟨rfl,rfl⟩⟩
    · exact .pure ⟨rfl,rfl,rfl,rfl,fun is => absurd is plain⟩
  exact device.bind fun a b h => .pure (.some h)

theorem readAttrMatched (v2 : r.format = .v2) (path : Wstr) (info : NodeInfo) :
    Relates Matched (fun a b => Option.Rel SameRead a b ∧ a.map FileAttr.mode = r.modeOf info)
      (r.readAttr env path info) (r.readAttr env' path info) := by
  refine Program.Relates.told ?_ fun s a t run => r.readAttrTold run
  rw [readAttr,readAttr,if_pos v2,if_pos v2]
  refine (readEasMatched same path info).bind fun a b h => ?_
  cases h with
  | none => exact .pure .none
  | @some a b h =>
    have times : Relates Matched SameRead (readTimes env path info a) (readTimes env' path info b) :=
      Matched.status same fun _ => .ite (fun _ => .raise _) fun _ =>
        .pure ⟨⟨h.mode,h.uid,h.gid,h.size,h.numbers⟩,rfl,rfl,rfl⟩
    exact times.bind fun a b h => .pure (.some h)

theorem readSymlinkMatched (v2 : r.format = .v2) (path : Wstr) (info : NodeInfo) :
    Relates Matched (fun a b => a = b ∧ ∀ target, a = some target → info.reparse.bind symlinkTarget = a)
      (r.readSymlinkData env path info) (r.readSymlinkData env' path info) := by
  have copied : Relates Matched (fun a b => a = b ∧ ∀ target, a = some target → info.reparse.bind symlinkTarget = a)
      (copyTarget info.reparse) (copyTarget info.reparse) := by
    cases info.reparse with
    | none => exact .pure ⟨rfl,nofun⟩
    | some data =>
      have allocated : Relates Matched Eq (allocateTarget data) (allocateTarget data) :=
        .ite (fun _ => .pure rfl) fun _ => .ite (fun _ => .raise _) fun _ => .raise _
      exact allocated.follow fun _ => .pure ⟨rfl,fun _ _ => rfl⟩
  rw [readSymlinkData,readSymlinkData,if_pos v2,if_pos v2]
  exact Matched.status same fun _ => .ite (fun _ => copied) fun _ =>
    .ite (fun _ => .pure ⟨rfl,nofun⟩) fun _ => .raise _

theorem copyDataMatched (path : Wstr) (reads : List Bytes) :
    Relates Matched Eq (copyData env w path reads) (copyData env' w path reads) := by
  induction reads with
  | nil => exact Matched.status same fun _ => .ite (fun _ => .raise _) fun _ => Matched.writeFileData same []
  | cons piece rest ih =>
    exact Matched.status same fun _ => .ite (fun _ => .raise _) fun _ =>
      .follow (Matched.writeFileData same piece) fun _ => .when fun _ => ih

theorem storeFileMatched (path : Wstr) (info : NodeInfo) {a b : Option FileAttr}
    (types : a.map FileAttr.type = b.map FileAttr.type)
    (used : FsWriter.passes a (w ≠ .linux) (w ≠ .linux) = true →
      a.map (FileAttr.used w) = b.map (FileAttr.used w)) :
    Relates Matched Eq (storeFile env w path info a) (storeFile env' w path info b) := by
  have type : typeOf b = typeOf a := by rw [typeOf,typeOf,types]
  refine .follow (Matched.writeNewFile same types used) fun stored => .ite (fun _ => ?_) fun _ => .pure rfl
  rw [type]
  exact .when fun _ => copyDataMatched same path _

theorem copyFileMatched (v2 : r.format = .v2) (path : Wstr) {info : NodeInfo}
    (assigned : r.Assigned w false info) :
    Relates Matched Eq (r.copyFile env w path info) (r.copyFile env' w path info) := by
  refine (r.readAttrMatched same v2 path info).bind fun a b read => ?_
  obtain ⟨h,mode⟩ := read
  have types := relTypes h
  have type : typeOf b = typeOf a := by rw [typeOf,typeOf,types]
  rw [type]
  refine .ite (fun link => ?_) fun plain => ?_
  · refine (r.readSymlinkMatched same v2 path info).bind fun x y target => ?_
    obtain ⟨rfl,source⟩ := target
    cases h with
    | none => exact .pure rfl
    | @some a b h =>
      cases x with
      | none => exact .pure rfl
      | some target =>
        refine storeFileMatched same path info types fun passes => ?_
        have known := assigned a.mode mode.symm passes
        rw [if_pos (show a.mode &&& aeIfmt = aeIflnk from link)] at known
        have format := known.2.resolve_left (by rw [source target rfl]; exact Option.some_ne_none _)
        have read : SameRead {a with symlink := some target} {b with symlink := some target} :=
          ⟨⟨h.mode,h.uid,h.gid,h.size,h.numbers⟩,h.atime,h.mtime,h.ctime⟩
        exact congrArg some (read.used (.inr format) fun _ => rfl)
  · exact storeFileMatched same path info types fun passes =>
      r.plainUsed assigned h mode (.inr plain) passes

theorem visitDirMatched (v2 : r.format = .v2) (path : Wstr) {info : NodeInfo}
    (assigned : r.Assigned w true info) :
    Relates Matched Eq (r.visitDir env w path info) (r.visitDir env' w path info) := by
  refine (r.readAttrMatched same v2 path info).bind fun a b read => ?_
  obtain ⟨h,mode⟩ := read
  exact .follow (Matched.writeNewFile same (relTypes h) fun passes =>
    r.plainUsed assigned h mode (.inl rfl) passes) fun _ => .pure rfl

theorem linkFileMatched (first : FilePath) :
    Relates Matched Eq (linkFile env w first) (linkFile env' w first) := by
  have converted : Relates Matched Eq (convertTarget first) (convertTarget first) := by
    refine Matched.zoom ?_ ?_ _
    · exact fun _ _ => rfl
    · exact fun _ _ _ => ⟨rfl,rfl⟩
  exact converted.follow fun _ => .ite (fun _ => Matched.writeHardLink same) fun _ => .pure rfl

theorem visitFileMatched (v2 : r.format = .v2) (path : Wstr) {info : NodeInfo}
    (assigned : r.Assigned w false info) :
    Relates Matched Eq (r.visitFile env w path info) (r.visitFile env' w path info) := by
  have copied := r.copyFileMatched same v2 path assigned
  refine Matched.status same fun _ => .ite (fun _ => .raise _) fun _ => .ite (fun _ => ?_) fun _ => copied
  refine Matched.get fun s stack _ => ?_
  cases s.idMap.lookup info.index with
  | none => exact .follow (Matched.modify fun _ _ => ⟨rfl,rfl⟩) fun _ => copied
  | some first => exact linkFileMatched same first

theorem openNodeMatched (path : Wstr) (dir : Bool) :
    Relates Matched (fun a b => a = b ∧ r.infoAt path dir = some a)
      (r.openNode env path dir) (r.openNode env' path dir) := by
  refine .follow (Matched.openFile same path dir false) fun _ => ?_
  cases found : r.infoAt path dir with
  | none => exact .raise _
  | some info => exact .pure ⟨rfl,rfl⟩

theorem visitMatched (v2 : r.format = .v2)
    (assigned : ∀ path dir info, r.infoAt path dir = some info → r.Assigned w dir info)
    (t : EnumDirType) : Relates Matched Eq (r.visit env w t) (r.visit env' w t) := by
  refine .ite (fun _ => .pure rfl) fun _ => Matched.get fun s stack _ => .ite (fun _ => ?_) fun _ => ?_
  · exact Matched.modify fun _ _ => ⟨rfl,rfl⟩
  · have converted : Relates Matched Eq (convertPath (r.pathAt s.data)) (convertPath (r.pathAt s.data)) := by
      refine Matched.zoom ?_ ?_ _
      · exact fun _ _ => rfl
      · exact fun _ _ _ => ⟨rfl,rfl⟩
    refine converted.follow fun _ => .ite (fun _ => ?_) fun _ => .pure rfl
    refine (r.openNodeMatched same s.data (t = .enter)).bind fun info info' ⟨equal,found⟩ => ?_
    subst equal
    have known := assigned _ _ _ found
    by_cases enter : t = .enter
    · simp only [enter] at known ⊢
      exact r.visitDirMatched same v2 s.data known
    · simp only [enter] at known ⊢
      exact r.visitFileMatched same v2 s.data known

theorem runMatched (v2 : r.format = .v2)
    (assigned : ∀ path dir info, r.infoAt path dir = some info → r.Assigned w dir info)
    (fuel : Nat) : Relates Matched Eq (r.run env w fuel) (r.run env' w fuel) := by
  have listed (path : Wstr) : Relates Matched Eq (r.openListed env path) (r.openListed env' path) :=
    .ite (fun _ => Matched.openListed same path) fun _ => .raise _
  have first (path : Wstr) : Relates Matched Eq (r.findFirst env path) (r.findFirst env' path) := by
    refine Matched.status same fun _ => .ite (fun _ => .raise _) fun _ => ?_
    cases r.dirAt path with
    | none => exact .raise _
    | some t => exact .pure rfl
  have paired : DirApi.Paired Matched (r.api env) (r.api env') (r.visit env w) (r.visit env' w) := by
    refine ⟨?_,?_,listed,first,fun path => Matched.findNext same path,r.visitMatched same v2 assigned⟩
    · intro s t matched
      obtain ⟨stack,rfl,_⟩ := matched
      rfl
    · intro d s t matched
      obtain ⟨stack,rfl,held⟩ := matched
      exact ⟨stack,rfl,held⟩
  exact .follow (Matched.modify fun _ _ => ⟨rfl,rfl⟩) fun _ => paired.walk fuel _

end WslReader
end LxRunOffline
