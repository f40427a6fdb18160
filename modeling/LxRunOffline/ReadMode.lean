import LxRunOffline.Shape

/-! What `read_attr` takes for missing attributes. Whatever the system answers, a file that
carries attributes is never read as one that carries none. -/
namespace LxRunOffline.WslReader
variable (r : WslReader) {env : FsEnv} {α : Type}

def Told (mode : Option UInt32) : Except Stop (Option FileAttr) × CopyState → Prop
  | (.ok attr,_) => ∃ a, attr = some a ∧ mode = some a.mode
  | (.error e,_) => ∀ l, e = .lro l → l.msgCode = .errInvalidEa → mode = none

theorem toldEa (path : Wstr) (eas : EaName → Option EaValue) (name : EaName) (pick : EaValue → Option α)
    {f : α → Copy (Option FileAttr)} {mode : α → Option UInt32} {s : CopyState}
    (next : ∀ a t, Told (mode a) (f a t)) :
    Told (((eas name).bind pick).bind mode) ((Fs.getEa env path eas name pick >>= f) s) := by
  rw [Fs.getEa,Program.bindAssoc,Program.bindRun,Fs.call,Fs.ask]
  dsimp only
  split
  · intro l same code
    cases same
    cases code
  · cases (eas name).bind pick with
    | none => exact fun l _ _ => rfl
    | some a => exact next a _

theorem toldSize (path : Wstr) (size : UInt64) {f : UInt64 → Copy (Option FileAttr)}
    {mode : Option UInt32} {s : CopyState} (next : ∀ size t, Told mode (f size t)) :
    Told mode ((Fs.getFileSize env path size >>= f) s) := by
  rw [Fs.getFileSize,Program.bindAssoc,Program.bindRun,Fs.call,Fs.ask]
  dsimp only
  split
  · intro l same code
    cases same
    cases code
  · exact next _ _

theorem orNullTold {mode : Option UInt32} {path : Wstr} {x : Copy (Option FileAttr)} {s t : CopyState}
    {attr : Option FileAttr} (h : Told mode (x s)) (run : orNull path x s = (.ok attr,t)) :
    attr.map FileAttr.mode = mode := by
  rw [orNull,catchLro,Program.rescue] at run
  cases first : x s with
  | mk outcome u =>
    rw [first] at h run
    cases outcome with
    | ok other =>
      obtain ⟨a,rfl,rfl⟩ := h
      cases run
      rfl
    | error e =>
      cases e with
      | lro l =>
        dsimp only at run
        split at run
        · rename_i missing
          cases run
          exact (h l rfl missing).symm
        · cases run
      | invalidArgument => cases run
      | badArrayLength => cases run
      | crash => cases run
      | outOfFuel => cases run

theorem readAttrTold {path : Wstr} {info : NodeInfo} {s t : CopyState} {attr : Option FileAttr}
    (run : r.readAttr env path info s = (.ok attr,t)) : attr.map FileAttr.mode = r.modeOf info := by
  rw [readAttr] at run
  split at run
  · rename_i v2
    obtain ⟨read,u,eas,run⟩ := Program.bindOkSource run
    have told : read.map FileAttr.mode = r.modeOf info := by
      obtain ⟨fresh,v,-,eas⟩ := Program.bindOkSource eas
      refine orNullTold ?_ eas
      rw [modeOf,if_pos v2]
      refine toldEa path info.eas .lxuid _ fun uid _ => toldEa path info.eas .lxgid _ fun gid _ => ?_
      refine toldEa path info.eas .lxmod _ fun mode _ => toldSize path info.size fun size _ => ?_
      by_cases device : isDevice mode
      · rw [if_pos device,readDevice device,Program.bindAssoc,Option.map_eq_bind]
        exact toldEa path info.eas .lxdev _ fun dev _ => ⟨_,rfl,rfl⟩
      · rw [if_neg device,readPlain device]
        exact ⟨_,rfl,rfl⟩
    cases read with
    | none =>
      cases run
      exact told
    | some bare =>
      obtain ⟨timed,x,times,run⟩ := Program.bindOkSource run
      cases run
      obtain ⟨code,y,-,times⟩ := Program.bindOkSource times
      split at times
      · cases times
      · cases times
        exact told
  · rename_i v1
    refine orNullTold ?_ run
    rw [modeOf,if_neg v1,Option.map_eq_bind]
    refine toldEa path info.eas .lxattrb _ fun ea _ => toldSize path info.size fun size _ => ?_
    exact ⟨_,rfl,rfl⟩

end LxRunOffline.WslReader
