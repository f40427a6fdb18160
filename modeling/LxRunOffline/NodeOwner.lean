import LxRunOffline.DeviceNumber
import LxRunOffline.DiskImage
import LxRunOffline.LinkTargets

/-! What the files of a disk show to the readers of a format: whom a file belongs to, the target
of a symbolic link, the contents. The source is seen in the same way. -/
namespace LxRunOffline
open WslReader (isDevice)

structure Owner where
  mode : UInt32
  uid : UInt32
  gid : UInt32
  device : Option (UInt32 × UInt32)
  deriving DecidableEq, Repr

def FileAttr.owner (attr : FileAttr) : Owner :=
  ⟨attr.mode,attr.uid,attr.gid,if attr.device then some (attr.devMajor,attr.devMinor) else none⟩

def Owner.Fits (owner : Owner) (w : Format) : Prop :=
  w ≠ .v2 → ∀ number, owner.device = some number → number.1 < 4096 ∧ number.2 < 1048576

namespace Format

def ownerOf (format : Format) (eas : EaName → Option EaValue) : Option Owner :=
  if format = .v2 then do
    let uid ← (eas .lxuid).bind EaValue.asDword
    let gid ← (eas .lxgid).bind EaValue.asDword
    let mode ← (eas .lxmod).bind EaValue.asDword
    if isDevice mode then
      ((eas .lxdev).bind EaValue.asQword).map fun (dev : UInt64) =>
        ⟨mode,uid,gid,some (dev.toUInt32,(dev >>> 32).toUInt32)⟩
    else some ⟨mode,uid,gid,none⟩
  else ((eas .lxattrb).bind EaValue.asRecord).map fun (ea : LxAttrB) =>
    ⟨ea.mode,ea.uid,ea.gid,if isDevice ea.mode then some (ea.rdev >>> 20,ea.rdev &&& 0xfffff) else none⟩

def targetIn (format : Format) (node : FileNode) : Option Bytes :=
  if format = .v2 then node.reparse.bind WslReader.symlinkTarget else some (WslReader.cString node.bytes)

end Format
namespace NodeInfo

def pieces (info : NodeInfo) : List Bytes := info.reads.takeWhile (· ≠ [])

def content (info : NodeInfo) : Bytes := info.pieces.flatten

end NodeInfo
namespace WslReader
variable (r : WslReader)

def targetOf (info : NodeInfo) : Option Bytes :=
  if r.format = .v2 then info.reparse.bind symlinkTarget
  else some (cString (info.reads.flatten.take info.size.toNat))

variable {r} {env : FsEnv} {path : Wstr} {info : NodeInfo} {s t : CopyState}

theorem modeOfOwner (info : NodeInfo) : r.modeOf info = (r.format.ownerOf info.eas).map Owner.mode := by
  rw [modeOf,Format.ownerOf]
  split
  · cases (info.eas .lxuid).bind EaValue.asDword with
    | none => rfl
    | some uid => cases (info.eas .lxgid).bind EaValue.asDword with
      | none => rfl
      | some gid => cases (info.eas .lxmod).bind EaValue.asDword with
        | none => rfl
        | some mode =>
          simp only [Option.bind_eq_bind,Option.bind_some]
          split
          · cases (info.eas .lxdev).bind EaValue.asQword <;> rfl
          · rfl
  · cases (info.eas .lxattrb).bind EaValue.asRecord <;> rfl

theorem readAttrOwner {attr : Option FileAttr} (run : r.readAttr env path info s = (.ok attr,t)) :
    attr.map FileAttr.owner = r.format.ownerOf info.eas := by
  cases attr with
  | none =>
    have told := r.readAttrTold run
    rw [modeOfOwner] at told
    cases owner : r.format.ownerOf info.eas with
    | none => rfl
    | some owner => simp [owner] at told
  | some a =>
    rw [readAttr] at run
    rw [Format.ownerOf]
    split at run
    · rename_i v2
      have source := readAttrV2Source run
      rw [if_pos v2,source.uid,source.gid,source.mode]
      simp only [Option.bind_eq_bind,Option.bind_some,Option.map_some,FileAttr.owner]
      by_cases device : isDevice a.mode
      · obtain ⟨dev,held,major,minor⟩ := source.device device
        rw [if_pos device,held,if_pos (show a.device from device),major,minor]
        rfl
      · rw [if_neg device,if_neg (show ¬ a.device from device)]
    · rename_i v1
      obtain ⟨ea,size,held,rfl⟩ := readAttrV1Source run
      rw [if_neg v1,held]
      rfl

theorem readAttrSize {a : FileAttr} (run : r.readAttr env path info s = (.ok (some a),t)) : a.size = info.size := by
  have known {size : UInt64} {u v : CopyState} (sized : Fs.getFileSize env path info.size u = (.ok size,v)) :
      size = info.size := by
    obtain ⟨code,x,-,sized⟩ := Program.bindOkSource sized
    split at sized
    · cases sized
    · exact (Except.ok.inj (Prod.mk.inj sized).1).symm
  rw [readAttr] at run
  split at run
  · obtain ⟨read,u,eas,run⟩ := Program.bindOkSource run
    cases read with
    | none => cases run
    | some bare =>
      obtain ⟨timed,v,times,run⟩ := Program.bindOkSource run
      cases run
      obtain ⟨code,w,-,times⟩ := Program.bindOkSource times
      have same : bare.size = info.size := by
        obtain ⟨fresh,u,-,eas⟩ := Program.bindOkSource eas
        obtain ⟨uid,v,-,eas⟩ := Program.bindOkSource (orNullSome eas)
        obtain ⟨gid,v,-,eas⟩ := Program.bindOkSource eas
        obtain ⟨mode,v,-,eas⟩ := Program.bindOkSource eas
        obtain ⟨size,v,sized,eas⟩ := Program.bindOkSource eas
        obtain ⟨read,v,dev,eas⟩ := Program.bindOkSource eas
        cases eas
        rw [readDev] at dev
        split at dev
        · obtain ⟨number,v,-,dev⟩ := Program.bindOkSource dev
          cases dev
          exact known sized
        · cases dev
          exact known sized
      split at times
      · cases times
      · cases times
        exact same
  · obtain ⟨ea,u,-,run⟩ := Program.bindOkSource (orNullSome run)
    obtain ⟨size,v,sized,run⟩ := Program.bindOkSource run
    cases run
    exact known sized

theorem filledTarget {size : Nat} {target piece more : Bytes} (room : target.length ≤ size) :
    (target ++ piece.take (size-target.length) ++ more).take size = (target ++ (piece ++ more)).take size := by
  by_cases long : size-target.length ≤ piece.length
  · have full : (target ++ piece.take (size-target.length)).length = size := by
      rw [List.length_append,List.length_take]
      omega
    rw [List.take_left' full,List.take_append,List.take_of_length_le room,List.take_append_of_le_length long]
  · rw [List.take_of_length_le (by omega : piece.length ≤ size-target.length),List.append_assoc]

theorem readTargetSource {size : Nat} {target found : Bytes} {reads : List Bytes} (room : target.length ≤ size)
    (run : readTarget env path size target reads s = (.ok found,t)) :
    found = (target ++ reads.flatten).take size := by
  induction reads generalizing target s with
  | nil =>
    rw [readTarget] at run
    split at run
    · rename_i done
      cases run
      exact (List.take_left' (Nat.le_antisymm room done)).symm
    · cases run
  | cons piece rest ih =>
    rw [readTarget] at run
    split at run
    · rename_i done
      cases run
      exact (List.take_left' (Nat.le_antisymm room done)).symm
    · obtain ⟨code,u,-,run⟩ := Program.bindOkSource run
      split at run
      · cases run
      · have part : (target ++ piece.take (size-target.length)).length ≤ size := by
          rw [List.length_append,List.length_take]
          omega
        rw [ih part run,filledTarget room,List.flatten_cons]

theorem withPathSource {α : Type} {x : Copy α} {a : α} (run : Fs.withPath path x s = (.ok a,t)) :
    x s = (.ok a,t) := by
  cases first : x s with
  | mk outcome u =>
    cases outcome with
    | ok b => exact (Program.rescueOk first).symm.trans run
    | error e =>
      rw [Fs.withPath,catchLro,Program.rescueError first] at run
      cases e <;> cases run

theorem readSymlinkTarget {target : Bytes} (run : r.readSymlinkData env path info s = (.ok (some target),t)) :
    r.targetOf info = some target := by
  rw [readSymlinkData] at run
  rw [targetOf]
  split at run
  · rename_i v2
    obtain ⟨code,u,-,run⟩ := Program.bindOkSource run
    rw [if_pos v2]
    split at run
    · exact (copyTargetSource run).1.symm
    · split at run
      · cases run
      · cases run
  · rename_i v1
    obtain ⟨size,u,sized,run⟩ := Program.bindOkSource run
    have own : size = info.size := by
      obtain ⟨code,x,-,known⟩ := Program.bindOkSource (withPathSource sized)
      split at known
      · cases known
      · exact (Except.ok.inj (Prod.mk.inj known).1).symm
    split at run
    · cases run
    · obtain ⟨found,x,loop,run⟩ := Program.bindOkSource run
      cases run
      rw [if_neg v1,← own,readTargetSource (Nat.zero_le _) loop,List.nil_append]

end WslReader
end LxRunOffline
