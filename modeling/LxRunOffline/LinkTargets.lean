import LxRunOffline.Contents
import LxRunOffline.StoredEas

/-! The targets of symbolic links. The v2 writer counts a target in three widths, and the v1
writer stores targets that the v1 reader refuses. -/
namespace LxRunOffline

/- How many bytes `real_write_attr` allocates for a reparse buffer, how many it fills, and the
data length that it declares. The data begin behind eight bytes, the target behind four more. -/
structure LinkBuffer where
  declared : UInt16
  allocated : UInt32
  copied : Nat

def linkBuffer (target : Bytes) : LinkBuffer where
  declared := (target.length+4).toUInt16
  allocated := (8+(target.length+4).toUInt16.toNat).toUInt32
  copied := 8+4+target.length

def reparseEvent (path : Wstr) : FsEvent → Option ReparseData
  | .reparse p data => if p = path then some data else none
  | _ => none

def reparseHeld (log : List FsEvent) (path : Wstr) : Option ReparseData :=
  (log.filterMap (reparseEvent path)).getLast?

def KeptByV2 (target : Bytes) : Prop :=
  ∀ (env : FsEnv) (path : Wstr) (attr : FileAttr) (s t : CopyState),
    attr.type = aeIflnk → attr.symlink = some target →
    WslWriter.writeAttr env .v2 path (some attr) s = (.ok (),t) →
    (linkBuffer target).copied ≤ (linkBuffer target).allocated.toNat ∧
    (linkBuffer target).declared.toNat = target.length+4 ∧
    ∀ (r : WslReader) (renv : FsEnv) (info : NodeInfo) (u : CopyState), r.format = .v2 →
      renv.Works → info.reparse = reparseHeld t.log path →
      (r.readSymlinkData renv path info u).1 = .ok (some target)

def KeptByV1 (target : Bytes) : Prop :=
  ∀ (env : FsEnv) (path : Wstr) (attr : FileAttr) (s t : CopyState),
    attr.type = aeIflnk → attr.symlink = some target → contents s.log path = some [] →
    WslWriter.writeAttr env .v1 path (some attr) s = (.ok (),t) →
    ∃ stored, contents t.log path = some stored ∧
      ∀ (r : WslReader) (renv : FsEnv) (info : NodeInfo) (u : CopyState), r.format = .v1 →
        renv.Works → info.size = stored.length.toUInt64 → info.reads.flatten = stored →
        (r.readSymlinkData renv path info u).1 = .ok (some target)

theorem declaredExact {target : Bytes} :
    (linkBuffer target).declared.toNat = target.length+4 ↔ target.length ≤ 65531 := by
  have wrapped : (linkBuffer target).declared.toNat = (target.length+4)%65536 := by
    simp [linkBuffer]
  rw [wrapped]
  omega

theorem allocatedEnough {target : Bytes} (short : target.length ≤ 65531) :
    (linkBuffer target).copied ≤ (linkBuffer target).allocated.toNat := by
  have declared := declaredExact.mpr short
  have size : (linkBuffer target).allocated.toNat =
      (8+(linkBuffer target).declared.toNat)%4294967296 := by
    simp [linkBuffer]
  rw [size,declared]
  simp only [linkBuffer]
  omega

theorem declaredFour {target : Bytes} (short : target.length ≤ 65531) : 4 ≤ (linkBuffer target).declared := by
  refine UInt16.le_iff_toNat_le.mpr ?_
  rw [declaredExact.mpr short]
  exact Nat.le_add_left 4 _

theorem linkReparse {attr : FileAttr} {target : Bytes} (link : attr.type = aeIflnk)
    (has : attr.symlink = some target) : WslV2Writer.reparseOf attr =
      some ⟨tagLxSymlink,(linkBuffer target).declared,[2,0,0,0] ++ target⟩ := by
  rw [WslV2Writer.reparseOf,if_pos link,has]
  rfl

theorem reparseStored (path : Wstr) {attr : FileAttr} {data : ReparseData}
    (has : WslV2Writer.reparseOf attr = some data) (log : List FsEvent) :
    reparseHeld (log ++ WslV2Writer.stores path attr) path = some data := by
  have first : ([FsEvent.ea path .lxuid (.dword attr.uid),.ea path .lxgid (.dword attr.gid),
      FsEvent.ea path .lxmod (.dword attr.mode)] ++
    if attr.type = aeIfchr ∨ attr.type = aeIfblk then
      [FsEvent.ea path .lxdev (.qword ((attr.devMinor.toUInt64 <<< 32) ||| attr.devMajor.toUInt64))]
    else []).filterMap (reparseEvent path) = [] := by
    split <;> rfl
  rw [reparseHeld,List.filterMap_append,WslV2Writer.stores,List.filterMap_append,first,has]
  simp [reparseEvent,List.filterMap_cons]

theorem cStringWhole {target : Bytes} (noNul : 0 ∉ target) : WslReader.cString target = target :=
  List.takeWhile_eq_self_iff.mpr fun b mem => by
    simpa using ne_of_mem_of_not_mem mem noNul

theorem targetBack {target : Bytes} (short : target.length ≤ 65531) (noNul : 0 ∉ target) :
    WslReader.symlinkTarget ⟨tagLxSymlink,(linkBuffer target).declared,[2,0,0,0] ++ target⟩ = some target := by
  have data : ([2,0,0,0] ++ target : Bytes).drop 4 = target := rfl
  have size : (linkBuffer target).declared.toNat-4 = target.length := by
    rw [declaredExact.mpr short]
    omega
  rw [WslReader.symlinkTarget,if_pos ⟨rfl,declaredFour short⟩]
  simp only [data,size,List.take_length,cStringWhole noNul]

theorem shortKeptByV2 {target : Bytes} (noNul : 0 ∉ target) (short : target.length ≤ 65531) :
    KeptByV2 target := by
  intro env path attr s t link has run
  refine ⟨allocatedEnough short,declaredExact.mpr short,fun r renv info u v2 works held => ?_⟩
  have notDir : attr.type ≠ aeIfdir := by
    rw [link]
    decide
  have adds : Adds (WslWriter.storedAs .v2 path attr) (WslWriter.writeAttr env .v2 path (some attr)) :=
    WslWriter.writeAttrAdds env .v2 path fun _ => notDir
  have log := adds.log s _ t run
  rw [WslWriter.storedAs,if_pos rfl] at log
  rw [log,reparseStored path (linkReparse link has)] at held
  have back := targetBack short noNul
  rw [WslReader.readSymlinkData,if_pos v2,WslReader.readSymlinkV2,Program.bindOk (callWorks works _ u),
    if_pos rfl,WslReader.copyTargetFound (by rw [held,Option.bind_some,back])]

theorem readTargetWhole {env : FsEnv} (works : env.Works) (path : Wstr) {size : Nat}
    {target : Bytes} {reads : List Bytes} (room : target.length ≤ size)
    (enough : size ≤ target.length+reads.flatten.length) (s : CopyState) :
    (WslReader.readTarget env path size target reads s).1 =
      .ok ((target ++ reads.flatten).take size) := by
  induction reads generalizing target s with
  | nil =>
    have whole : size = target.length := by simpa using Nat.le_antisymm enough room
    rw [WslReader.readTarget,if_pos (Nat.le_of_eq whole),whole]
    simp
  | cons piece rest ih =>
    rw [WslReader.readTarget]
    by_cases done : size ≤ target.length
    · have whole : size = target.length := Nat.le_antisymm done room
      rw [if_pos done,whole]
      simp
    · rw [if_neg done,Program.bindOk (callWorks works _ s),if_neg (by simp)]
      simp only [List.flatten_cons,List.length_append] at enough
      have part : (piece.take (size-target.length)).length = min (size-target.length) piece.length :=
        List.length_take
      rw [ih (by rw [List.length_append,part]; omega) (by rw [List.length_append,part]; omega),
        List.flatten_cons,List.append_assoc,List.take_append,List.take_append]
      have cut : size-target.length-min (size-target.length) piece.length =
          size-target.length-piece.length := by omega
      rw [List.take_append,List.take_append,List.take_take,part,cut,Nat.min_self]

theorem linkDataWhole {target : Bytes} (short : target.length < 4294967296) :
    WslV1Writer.linkData target = target := by
  rw [WslV1Writer.linkData]
  exact List.take_of_length_le (by simp [Nat.mod_eq_of_lt short])

theorem linkStoredV1 {env : FsEnv} {path : Wstr} {attr : FileAttr} {s t : CopyState}
    {target : Bytes} (link : attr.type = aeIflnk) (has : attr.symlink = some target)
    (made : contents s.log path = some [])
    (run : WslWriter.writeAttr env .v1 path (some attr) s = (.ok (),t)) :
    contents t.log path = some (WslV1Writer.linkData target) := by
  have adds : Adds (WslWriter.storedAs .v1 path attr) (WslWriter.writeAttr env .v1 path (some attr)) :=
    WslWriter.writeAttrAdds env .v1 path nofun
  have log := adds.log s _ t run
  rw [log,contentsMore,made,WslWriter.storedAs,if_neg (by decide),WslV1Writer.stores,if_pos link,has]
  simp [contentStep]

theorem readStoredV1 {r : WslReader} {env : FsEnv} {path : Wstr} {info : NodeInfo} {stored : Bytes}
    (v1 : r.format = .v1) (works : env.Works) (size : info.size = stored.length.toUInt64)
    (fits : stored.length < 18446744073709551616) (delivered : info.reads.flatten = stored)
    (u : CopyState) : (r.readSymlinkData env path info u).1 =
      if 65536 < stored.length then
        .error (.lro (.fromOther .errSymlinkLength [path,wstr (toString stored.length)]))
      else .ok (some (WslReader.cString stored)) := by
  have number : info.size.toNat = stored.length := by
    rw [size]
    simp [Nat.mod_eq_of_lt fits]
  have sized : Fs.withPath path (Fs.getFileSize env path info.size) u = (.ok info.size,Clocked.tick u) := by
    refine Program.rescueOk ?_
    rw [Fs.getFileSize,Program.bindOk (callWorks works _ u)]
    rfl
  have notV2 : r.format ≠ .v2 := by
    rw [v1]
    decide
  have limit : (65536 < info.size) ↔ 65536 < stored.length := by
    rw [UInt64.lt_iff_toNat_lt,number]
    rfl
  rw [WslReader.readSymlinkData,if_neg notV2,WslReader.readSymlinkV1,Program.bindOk sized]
  by_cases long : 65536 < stored.length
  · rw [if_pos (limit.mpr long),if_pos long,number]
    rfl
  · rw [if_neg fun is => long (limit.mp is),if_neg long,number]
    have whole := @readTargetWhole env works path stored.length [] info.reads (Nat.zero_le _)
      (by simp [delivered]) (Clocked.tick u)
    rw [List.nil_append,delivered,List.take_length] at whole
    cases read : WslReader.readTarget env path stored.length [] info.reads (Clocked.tick u) with
    | mk outcome v =>
      rw [read] at whole
      cases whole
      rw [Program.bindOk read]
      rfl

def linkAttr (target : Bytes) : FileAttr := {zeroAttr with mode := aeIflnk, symlink := some target}

theorem linkAttrType (target : Bytes) : (linkAttr target).type = aeIflnk := by
  have masked : aeIflnk &&& aeIfmt = aeIflnk := by decide
  exact masked

def linkMade : CopyState := {CopyState.new .v1 [] [] with log := [.createdFile []]}

theorem linkWritten (w : Format) (target : Bytes) (s : CopyState) : ∃ t,
    WslWriter.writeAttr plainFs w [] (some (linkAttr target)) s = (.ok (),t) := by
  have whole : ∀ a ∈ some (linkAttr target), a.Whole := by
    intro a same _
    cases same
    exact Option.some_ne_none target
  obtain ⟨_,t,run⟩ := (WslWriter.writeAttrReturns plainWorks w [] whole).ends s
  exact ⟨t,run⟩

theorem keptByV1Iff {target : Bytes} (noNul : 0 ∉ target) :
    KeptByV1 target ↔ target.length ≤ 65536 := by
  constructor
  · intro kept
    obtain ⟨t,run⟩ := linkWritten .v1 target linkMade
    obtain ⟨stored,left,back⟩ := kept plainFs [] (linkAttr target) linkMade t (linkAttrType target) rfl rfl run
    have short : stored.length ≤ 65536 ∧ WslReader.cString stored = target := by
      rw [linkStoredV1 (linkAttrType target) rfl rfl run] at left
      obtain rfl := Option.some.inj left
      have cut : (WslV1Writer.linkData target).length < 18446744073709551616 := by
        rw [WslV1Writer.linkData,List.length_take]
        have small := target.length.toUInt32.toNat_lt
        omega
      let info : NodeInfo := ⟨fun _ => none,(WslV1Writer.linkData target).length.toUInt64,(0,0,0),
        1,0,none,[WslV1Writer.linkData target]⟩
      have delivered : info.reads.flatten = WslV1Writer.linkData target := by simp [info]
      have read := back ⟨.v1,[],.nil⟩ plainFs info linkMade rfl plainWorks rfl delivered
      rw [readStoredV1 rfl plainWorks rfl cut delivered] at read
      split at read
      · contradiction
      · rename_i small
        exact ⟨Nat.le_of_not_lt small,Option.some.inj (Except.ok.inj read)⟩
    have shorter : (WslReader.cString stored).length ≤ stored.length :=
      (List.takeWhile_prefix _).length_le
    rw [short.2] at shorter
    exact shorter.trans short.1
  · intro short env path attr s t link has made run
    have stored := linkStoredV1 link has made run
    rw [linkDataWhole (by omega)] at stored
    refine ⟨target,stored,fun r renv info u v1 works size delivered => ?_⟩
    rw [readStoredV1 v1 works size (by omega) delivered u,if_neg (by omega),cStringWhole noNul]

theorem keptByV2Iff {target : Bytes} (noNul : 0 ∉ target) :
    KeptByV2 target ↔ target.length ≤ 65531 := by
  constructor
  · intro kept
    obtain ⟨t,run⟩ := linkWritten .v2 target linkMade
    have sound := kept plainFs [] (linkAttr target) linkMade t (linkAttrType target) rfl run
    exact declaredExact.mp sound.2.1
  · exact shortKeptByV2 noNul

/- Longer targets than these are written without complaint: 16 bits of the data length wrap
around, so the buffer of v2 is too small; what v1 stores is refused by its reader. -/
theorem linkTargetsKept (target : Bytes) (noNul : 0 ∉ target) :
    (KeptByV2 target ↔ target.length ≤ 65531) ∧ (KeptByV1 target ↔ target.length ≤ 65536) :=
  ⟨keptByV2Iff noNul,keptByV1Iff noNul⟩

theorem linkTargetsKeptUse :
    (KeptByV2 [104,111,109,101] ↔ ([104,111,109,101] : Bytes).length ≤ 65531) ∧
    (KeptByV1 [104,111,109,101] ↔ ([104,111,109,101] : Bytes).length ≤ 65536) :=
  linkTargetsKept [104,111,109,101] (by decide)

def longTarget : Bytes := List.replicate 65532 97

/- The smallest target for which the data length wraps around, to zero. -/
theorem longTargetOverruns : 0 ∉ longTarget ∧
    (linkBuffer longTarget).declared = 0 ∧ (linkBuffer longTarget).allocated = 8 ∧
    (linkBuffer longTarget).copied = 65544 ∧ ¬ KeptByV2 longTarget := by
  have size : longTarget.length = 65532 := List.length_replicate
  refine ⟨fun mem => absurd (List.eq_of_mem_replicate mem) (by decide),?_,?_,?_,?_⟩
  · simp only [linkBuffer,size]
    decide
  · simp only [linkBuffer,size]
    decide
  · simp only [linkBuffer,size]
  · intro kept
    obtain ⟨t,run⟩ := linkWritten .v2 longTarget linkMade
    have sound := kept plainFs [] (linkAttr longTarget) linkMade t (linkAttrType longTarget) rfl run
    have short := declaredExact.mp sound.2.1
    rw [size] at short
    omega

end LxRunOffline
