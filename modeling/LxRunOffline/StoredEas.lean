import LxRunOffline.Adds

/-! The extended attributes that a log leaves on a file. -/
namespace LxRunOffline

def eaEvent (path : Wstr) (name : EaName) : FsEvent → Option EaValue
  | .ea p n value => if p = path ∧ n = name then some value else none
  | _ => none

def eaOf (log : List FsEvent) (path : Wstr) (name : EaName) : Option EaValue :=
  (log.filterMap (eaEvent path name)).getLast?

theorem eaOfMore (log more : List FsEvent) (path : Wstr) (name : EaName) :
    eaOf (log ++ more) path name = (eaOf more path name).or (eaOf log path name) := by
  rw [eaOf,List.filterMap_append,List.getLast?_append,eaOf,eaOf]

theorem eaOfSource {log : List FsEvent} {path : Wstr} {name : EaName} {value : EaValue}
    (held : eaOf log path name = some value) : .ea path name value ∈ log := by
  have mem := List.mem_of_getLast? held
  obtain ⟨e,inside,is⟩ := List.mem_filterMap.mp mem
  unfold eaEvent at is
  split at is
  · split at is
    · rename_i same
      obtain ⟨rfl,rfl⟩ := same
      cases is
      exact inside
    · contradiction
  · contradiction

theorem eaOfClean {log more : List FsEvent} {path : Wstr} {name : EaName} {value : EaValue}
    (clean : eaOf log path name = none) (held : eaOf (log ++ more) path name = some value) :
    .ea path name value ∈ more := by
  rw [eaOfMore,clean,Option.or_none] at held
  exact eaOfSource held

namespace Emits
variable {kind : FsEvent → Prop} {α : Type}

theorem rescue {x : Copy α} {handler : Stop → Copy α} (hx : Emits kind x)
    (hh : ∀ e, Emits kind (handler e)) : Emits kind (Program.rescue x handler) :=
  ⟨fun s => Program.Triple.rescue (hx.keeps s) fun e => (hh e).keeps s⟩

theorem setEa {env : FsEnv} {path : Wstr} {name : EaName} {value : EaValue}
    (h : kind (.ea path name value)) : Emits kind (FsWriter.setEa env path name value) :=
  .status fun _ => .ite (fun _ => .raise _) fun _ => .note h

end Emits
namespace WslV2Writer
variable (env : FsEnv) (path : Wstr) (attr : FileAttr)

theorem storesEas {e : FsEvent} (mem : e ∈ stores path attr) :
    e = .ea path .lxuid (.dword attr.uid) ∨ e = .ea path .lxgid (.dword attr.gid) ∨
    e = .ea path .lxmod (.dword attr.mode) ∨
    e = .ea path .lxdev (.qword ((attr.devMinor.toUInt64 <<< 32) ||| attr.devMajor.toUInt64)) ∨
    ∀ p name value, e ≠ .ea p name value := by
  unfold stores at mem
  rcases List.mem_append.mp mem with eas | rest
  · rcases List.mem_append.mp eas with first | device
    · simp only [List.mem_cons,List.not_mem_nil,or_false] at first
      rcases first with uid | gid | mode
      · exact .inl uid
      · exact .inr (.inl gid)
      · exact .inr (.inr (.inl mode))
    · split at device
      · exact .inr (.inr (.inr (.inl (List.mem_singleton.mp device))))
      · contradiction
  · rcases List.mem_append.mp rest with reparse | times
    · obtain ⟨data,_,rfl⟩ := List.mem_map.mp reparse
      exact .inr (.inr (.inr (.inr (by simp))))
    · cases List.mem_singleton.mp times
      exact .inr (.inr (.inr (.inr (by simp))))

theorem setEasStores : Emits (· ∈ stores path attr) (setEas env path attr) :=
  .bind (.setEa (by simp [stores])) fun _ => .bind (.setEa (by simp [stores])) fun _ =>
    .bind (.setEa (by simp [stores])) fun _ => .when fun device => .setEa (by simp [stores,device])

theorem storeAttrStores : Emits (· ∈ stores path attr) (storeAttr env path attr) := by
  have reparse : Emits (· ∈ stores path attr) (setReparse env path (reparseOf attr)) := by
    cases kind : reparseOf attr with
    | none => exact .pure ()
    | some data =>
      exact .status fun _ => .ite (fun _ => .raise _) fun _ => .note (by simp [stores,kind])
  exact .bind (.withPath path (setEasStores env path attr)) fun _ => .bind reparse fun _ =>
    .status fun _ => .ite (fun _ => .raise _) fun _ => .note (by simp [stores])

theorem realAttrStores : Emits (· ∈ stores path attr) (realWriteAttr env path attr) := by
  by_cases whole : attr.Whole
  · exact realWriteAttrWhole env whole path ▸ storeAttrStores env path attr
  · exact realWriteAttrTorn env whole path ▸ .bind (.withPath path (setEasStores env path attr)) fun _ => .raise _

theorem drainStores (dirs : List (Wstr × FileAttr)) :
    Emits (· ∈ storesAll dirs) (drain env dirs) := by
  induction dirs with
  | nil => exact .pure ()
  | cons top rest ih =>
    obtain ⟨dir,attr⟩ := top
    have popped : Emits (· ∈ storesAll ((dir,attr) :: rest))
        (Program.modify fun s => {s with dirAttr := rest}) :=
      .ofFinal fun _ => ⟨rfl,rfl,rfl,rfl,rfl,rfl,[],by simp,by simp⟩
    exact .bind popped fun _ => .bind (.openFile ..) fun _ =>
      .bind ((storeAttrStores env dir attr).mono fun e mem => List.mem_append_left _ mem) fun _ =>
        ih.mono fun e mem => List.mem_append_right _ mem

end WslV2Writer
namespace WslV1Writer
variable (env : FsEnv) (path : Wstr) (attr : FileAttr)

theorem attrStores : Emits (· ∈ stores path attr) (writeAttr env path attr) := by
  refine .bind (.withPath path (.setEa (by simp [stores]))) fun _ => .bind (.strlen attr) fun _ => .when fun link => ?_
  refine .get fun s => .status fun _ => .ite (fun _ => .raise _) fun _ => .note ?_
  simp [stores,link]

end WslV1Writer
end LxRunOffline
