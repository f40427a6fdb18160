import LxRunOffline.ReadMode

/-! Where the members of a record come from that `read_attr` returns, whatever the system
answers. A v2 reader takes the device numbers from the file only if the file is a device. -/
namespace LxRunOffline.WslReader
variable {env : FsEnv} {path : Wstr} {info : NodeInfo} {s t : CopyState}

def ofRecord (ea : LxAttrB) (size : UInt64) : FileAttr where
  mode := ea.mode
  uid := ea.uid
  gid := ea.gid
  size := size
  atime := ⟨ea.atime,ea.atimeNsec⟩
  mtime := ⟨ea.mtime,ea.mtimeNsec⟩
  ctime := ⟨ea.ctime,ea.ctimeNsec⟩
  devMajor := ea.rdev >>> 20
  devMinor := ea.rdev &&& 0xfffff
  symlink := none

theorem readAttrV1Source {attr : FileAttr}
    (run : readAttrV1 env path info s = (.ok (some attr),t)) :
    ∃ ea size, (info.eas .lxattrb).bind EaValue.asRecord = some ea ∧ attr = ofRecord ea size := by
  obtain ⟨ea,u,first,run⟩ := Program.bindOkSource (orNullSome run)
  obtain ⟨size,v,-,run⟩ := Program.bindOkSource run
  cases run
  exact ⟨ea,size,getEaSource env first,rfl⟩

structure ReadV2 (info : NodeInfo) (attr : FileAttr) : Prop where
  uid : (info.eas .lxuid).bind EaValue.asDword = some attr.uid
  gid : (info.eas .lxgid).bind EaValue.asDword = some attr.gid
  mode : (info.eas .lxmod).bind EaValue.asDword = some attr.mode
  device : isDevice attr.mode → ∃ dev, (info.eas .lxdev).bind EaValue.asQword = some dev ∧
    attr.devMajor = dev.toUInt32 ∧ attr.devMinor = (dev >>> 32).toUInt32

theorem readDevSource {bare attr : FileAttr}
    (run : readDev env path info bare s = (.ok attr,t)) :
    attr.uid = bare.uid ∧ attr.gid = bare.gid ∧ attr.mode = bare.mode ∧
    (isDevice bare.mode → ∃ dev, (info.eas .lxdev).bind EaValue.asQword = some dev ∧
      attr.devMajor = dev.toUInt32 ∧ attr.devMinor = (dev >>> 32).toUInt32) := by
  by_cases device : isDevice bare.mode
  · rw [readDevice device] at run
    obtain ⟨dev,u,first,run⟩ := Program.bindOkSource run
    cases run
    exact ⟨rfl,rfl,rfl,fun _ => ⟨dev,getEaSource env first,rfl,rfl⟩⟩
  · rw [readPlain device] at run
    cases run
    exact ⟨rfl,rfl,rfl,fun is => absurd is device⟩

theorem readEasSource {attr : FileAttr} (run : readEas env path info s = (.ok (some attr),t)) :
    ReadV2 info attr := by
  obtain ⟨fresh,u,-,run⟩ := Program.bindOkSource run
  obtain ⟨uid,v,hasUid,run⟩ := Program.bindOkSource (orNullSome run)
  obtain ⟨gid,v,hasGid,run⟩ := Program.bindOkSource run
  obtain ⟨mode,v,hasMode,run⟩ := Program.bindOkSource run
  obtain ⟨size,v,-,run⟩ := Program.bindOkSource run
  obtain ⟨read,v,dev,run⟩ := Program.bindOkSource run
  cases run
  obtain ⟨sameUid,sameGid,sameMode,device⟩ := readDevSource dev
  refine ⟨?_,?_,?_,?_⟩
  · rw [sameUid,getEaSource env hasUid]
  · rw [sameGid,getEaSource env hasGid]
  · rw [sameMode,getEaSource env hasMode]
  · rw [sameMode]
    exact device

theorem readAttrV2Source {attr : FileAttr}
    (run : readAttrV2 env path info s = (.ok (some attr),t)) : ReadV2 info attr := by
  obtain ⟨read,u,eas,run⟩ := Program.bindOkSource run
  cases read with
  | none => cases run
  | some bare =>
    obtain ⟨timed,v,times,run⟩ := Program.bindOkSource run
    cases run
    obtain ⟨code,w,-,times⟩ := Program.bindOkSource times
    have source := readEasSource eas
    split at times
    · cases times
    · cases times
      exact ⟨source.uid,source.gid,source.mode,source.device⟩

end LxRunOffline.WslReader
