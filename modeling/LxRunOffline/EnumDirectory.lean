import LxRunOffline.FileSystem

/-! `enum_directory` of fs.cpp over any system that can list directories, and the rule for what
survives a whole walk. The path that the walk extends and cuts back is a part of the state. -/
namespace LxRunOffline

inductive EnumDirType where
  | enter
  | exit
  | file
  deriving DecidableEq, Repr

def dotName : Wstr := wstr "."
def dotDotName : Wstr := wstr ".."
def rootfsName : Wstr := wstr "rootfs"

/- A state with a path, and the calls for listing the directory of a given path. -/
structure DirApi (σ : Type) where
  data : σ → Wstr
  setData : Wstr → σ → σ
  dataSet : ∀ d s, data (setData d s) = d
  setSet : ∀ d d' s, setData d (setData d' s) = setData d s
  setSame : ∀ s, setData (data s) s = s
  openListed : Wstr → Program Stop σ Unit
  findFirst : Wstr → Program Stop σ (List FindData)
  findNext : Wstr → Program Stop σ Bool

namespace DirApi
variable {σ : Type} (api : DirApi σ)

def current : Program Stop σ Wstr := fun s => (.ok (api.data s),s)
def extend (text : Wstr) : Program Stop σ Unit :=
  Program.modify fun s => api.setData (api.data s ++ text) s
def resize (size : Nat) : Program Stop σ Unit :=
  Program.modify fun s => api.setData ((api.data s).take size) s

variable (action : EnumDirType → Program Stop σ Unit)

/- Whether an entry is looked at; `rootfs` has had its turn in a root that puts it first. -/
def Visited (isRoot : Bool) (entry : FindData) : Prop :=
  entry.name ≠ dotName ∧ entry.name ≠ dotDotName ∧ (isRoot = false ∨ entry.name ≠ rootfsName)

instance (isRoot : Bool) (entry : FindData) : Decidable (Visited isRoot entry) := by
  unfold Visited; infer_instance

def enumNamed (descend : Program Stop σ Unit) (entry : FindData) : Program Stop σ Unit :=
  if entry.directory then do
    api.extend [backslash]
    descend
  else action .file

def enumEntry (descend : Program Stop σ Unit) (isRoot : Bool) (os : Nat) (entry : FindData) :
    Program Stop σ Unit :=
  Program.when (Visited isRoot entry) (do
    api.extend entry.name
    api.enumNamed action descend entry
    api.resize os)

def enumEntries (descend : Program Stop σ Unit) (isRoot : Bool) (os : Nat) :
    List FindData → Program Stop σ Unit
  | [] => action .exit
  | entry :: rest => do
    api.enumEntry action descend isRoot os entry
    let path ← api.current
    if ← api.findNext path then enumEntries descend isRoot os rest else action .exit

/- The fuel bounds the depth of the recursion; a walk that runs out of it has not ended. -/
def enumRec : Nat → Bool → Program Stop σ Unit
  | 0,_ => Program.raise .outOfFuel
  | fuel+1,isRoot => do
    let path ← api.current
    api.openListed path
    action .enter
    let entered ← api.current
    Program.when (isRoot = true) (do
      api.extend (wstr "rootfs\\")
      enumRec fuel false
      api.resize entered.length)
    let listed ← api.current
    let found ← api.findFirst listed
    api.enumEntries action (enumRec fuel false) isRoot entered.length found

def enumDirectory (fuel : Nat) (rootfsFirst : Bool) : Program Stop σ Unit :=
  api.enumRec action fuel rootfsFirst

structure Steady (inv : σ → Prop) (bad : Stop → σ → Prop) : Prop where
  fuel : ∀ s, inv s → bad .outOfFuel s
  set : ∀ d s, inv s → inv (api.setData d s)
  opened : ∀ path, Program.Triple inv (api.openListed path) (fun _ => inv) bad
  first : ∀ path, Program.Triple inv (api.findFirst path) (fun _ => inv) bad
  next : ∀ path, Program.Triple inv (api.findNext path) (fun _ => inv) bad
  acts : ∀ t, Program.Triple inv (action t) (fun _ => inv) bad

namespace Steady
variable {api} {action} {inv : σ → Prop} {bad : Stop → σ → Prop}

theorem changed (steady : api.Steady action inv bad) (f : Wstr → Wstr) :
    Program.Triple inv (Program.modify fun s => api.setData (f (api.data s)) s) (fun _ => inv) bad :=
  fun s h => steady.set _ s h

theorem extending (steady : api.Steady action inv bad) (text : Wstr) :
    Program.Triple inv (api.extend text) (fun _ => inv) bad := steady.changed (· ++ text)

theorem resizing (steady : api.Steady action inv bad) (size : Nat) :
    Program.Triple inv (api.resize size) (fun _ => inv) bad := steady.changed (·.take size)

theorem reading {f : Wstr → Program Stop σ Unit}
    (h : ∀ path, Program.Triple inv (f path) (fun _ => inv) bad) :
    Program.Triple inv (api.current >>= f) (fun _ => inv) bad := fun s hs => h _ s hs

theorem entry (steady : api.Steady action inv bad) {descend : Program Stop σ Unit}
    (deeper : Program.Triple inv descend (fun _ => inv) bad) (isRoot : Bool) (os : Nat)
    (entry : FindData) :
    Program.Triple inv (api.enumEntry action descend isRoot os entry) (fun _ => inv) bad := by
  refine Program.Triple.ite (fun _ => ?_) (fun _ _ h => h)
  refine Program.Triple.bind (steady.extending _) fun _ => ?_
  refine Program.Triple.bind ?_ fun _ => steady.resizing os
  refine Program.Triple.ite (fun _ => ?_) (fun _ => steady.acts .file)
  exact Program.Triple.bind (steady.extending _) fun _ => deeper

theorem entries (steady : api.Steady action inv bad) {descend : Program Stop σ Unit}
    (deeper : Program.Triple inv descend (fun _ => inv) bad) (isRoot : Bool) (os : Nat)
    (found : List FindData) :
    Program.Triple inv (api.enumEntries action descend isRoot os found) (fun _ => inv) bad := by
  induction found with
  | nil => exact steady.acts .exit
  | cons entry rest ih =>
    refine Program.Triple.bind (steady.entry deeper isRoot os entry) fun _ => reading fun path => ?_
    refine Program.Triple.bind (steady.next path) fun more => ?_
    exact Program.Triple.ite (fun _ => ih) (fun _ => steady.acts .exit)

/- What every step preserves, the walk preserves. -/
theorem walk (steady : api.Steady action inv bad) (fuel : Nat) (isRoot : Bool) :
    Program.Triple inv (api.enumRec action fuel isRoot) (fun _ => inv) bad := by
  induction fuel generalizing isRoot with
  | zero => exact steady.fuel
  | succ fuel ih =>
    refine reading fun path => Program.Triple.bind (steady.opened path) fun _ => ?_
    refine Program.Triple.bind (steady.acts .enter) fun _ => reading fun entered => ?_
    have rootfsFirst : Program.Triple inv (Program.when (isRoot = true) (do
        api.extend (wstr "rootfs\\")
        api.enumRec action fuel false
        api.resize entered.length)) (fun _ => inv) bad := by
      refine Program.Triple.ite (fun _ => ?_) (fun _ _ h => h)
      refine Program.Triple.bind (steady.extending _) fun _ => ?_
      exact Program.Triple.bind (ih false) fun _ => steady.resizing _
    refine Program.Triple.bind rootfsFirst fun _ => reading fun listed => ?_
    exact Program.Triple.bind (steady.first listed) fun found =>
      steady.entries (ih false) isRoot entered.length found

end Steady

def At (inv : σ → Prop) (path : Wstr) (s : σ) : Prop := inv s ∧ api.data s = path

section At
variable {api} {inv : σ → Prop} {bad : Stop → σ → Prop} {path : Wstr}

theorem extendsAt (set : ∀ d s, inv s → inv (api.setData d s)) (text : Wstr) :
    Program.Triple (api.At inv path) (api.extend text) (fun _ => api.At inv (path ++ text)) bad :=
  fun s hs => ⟨set _ s hs.1,by rw [api.dataSet,hs.2]⟩

theorem resizesAt (set : ∀ d s, inv s → inv (api.setData d s)) (text : Wstr) :
    Program.Triple (api.At inv (path ++ text)) (api.resize path.length) (fun _ => api.At inv path) bad :=
  fun s hs => ⟨set _ s hs.1,by rw [api.dataSet,hs.2,List.take_left]⟩

end At

def NotOutOfFuel : Stop → σ → Prop := fun e _ => e ≠ .outOfFuel

/- What bounds the depth of a walk: the rank of a path goes down along every entry it lists. -/
structure Ranked (inv : σ → Prop) (rank : Nat → Wstr → Prop) : Prop where
  set : ∀ d s, inv s → inv (api.setData d s)
  opened : ∀ path, Program.Triple (api.At inv path) (api.openListed path)
    (fun _ => api.At inv path) NotOutOfFuel
  first : ∀ path, Program.Triple (api.At inv path) (api.findFirst path) (fun found s =>
    api.At inv path s ∧ ∀ n, rank n path → ∀ e ∈ found, Visited false e → e.directory = true →
      ∃ m, n = m+1 ∧ rank m (path ++ e.name ++ [backslash])) NotOutOfFuel
  next : ∀ path listed, Program.Triple (api.At inv path) (api.findNext listed)
    (fun _ => api.At inv path) NotOutOfFuel
  acts : ∀ t path, Program.Triple (api.At inv path) (action t) (fun _ => api.At inv path)
    NotOutOfFuel

namespace Ranked
variable {api} {action} {inv : σ → Prop} {rank : Nat → Wstr → Prop} {path : Wstr}

theorem here {β : Type} {f : Wstr → Program Stop σ β} {good : β → σ → Prop} {bad : Stop → σ → Prop}
    (h : Program.Triple (api.At inv path) (f path) good bad) :
    Program.Triple (api.At inv path) (api.current >>= f) good bad := by
  intro s hs
  have same := h s hs
  rw [← hs.2] at same
  exact same

theorem extending (ranked : api.Ranked action inv rank) (text : Wstr) :
    Program.Triple (api.At inv path) (api.extend text) (fun _ => api.At inv (path ++ text))
      NotOutOfFuel := extendsAt ranked.set text

theorem resizing (ranked : api.Ranked action inv rank) (text : Wstr) :
    Program.Triple (api.At inv (path ++ text)) (api.resize path.length)
      (fun _ => api.At inv path) NotOutOfFuel := resizesAt ranked.set text

theorem entry (ranked : api.Ranked action inv rank) {descend : Program Stop σ Unit}
    {entry : FindData} {isRoot : Bool} (deeper : Visited isRoot entry → entry.directory = true →
      Program.Triple (api.At inv (path ++ entry.name ++ [backslash])) descend
        (fun _ => api.At inv (path ++ entry.name ++ [backslash])) NotOutOfFuel) :
    Program.Triple (api.At inv path) (api.enumEntry action descend isRoot path.length entry)
      (fun _ => api.At inv path) NotOutOfFuel := by
  refine Program.Triple.ite (fun visited => ?_) (fun _ _ h => h)
  have named : Program.Triple (api.At inv (path ++ entry.name)) (api.enumNamed action descend entry)
      (fun _ s => ∃ text, api.At inv (path ++ text) s) NotOutOfFuel := by
    refine Program.Triple.ite (fun directory => ?_) (fun _ => ?_)
    · refine Program.Triple.bind (ranked.extending [backslash]) fun _ => ?_
      refine (deeper visited directory).weaken (fun _ h => h) (fun _ s h => ?_) fun _ _ h => h
      exact ⟨entry.name ++ [backslash],by rwa [← List.append_assoc]⟩
    · exact (ranked.acts .file _).weaken (fun _ h => h) (fun _ s h => ⟨_,h⟩) fun _ _ h => h
  refine Program.Triple.bind (ranked.extending entry.name) fun _ => Program.Triple.bind named ?_
  exact fun _ s ⟨text,h⟩ => ranked.resizing text s h

theorem entries (ranked : api.Ranked action inv rank) {descend : Program Stop σ Unit}
    {found : List FindData} {isRoot : Bool} (deeper : ∀ e ∈ found, Visited isRoot e →
      e.directory = true → Program.Triple (api.At inv (path ++ e.name ++ [backslash])) descend
        (fun _ => api.At inv (path ++ e.name ++ [backslash])) NotOutOfFuel) :
    Program.Triple (api.At inv path) (api.enumEntries action descend isRoot path.length found)
      (fun _ => api.At inv path) NotOutOfFuel := by
  induction found with
  | nil => exact ranked.acts .exit path
  | cons entry rest ih =>
    refine Program.Triple.bind (ranked.entry (deeper entry (by simp))) fun _ => here ?_
    refine Program.Triple.bind (ranked.next path path) fun _ => Program.Triple.ite (fun _ => ?_)
      (fun _ => ranked.acts .exit path)
    exact ih fun e mem => deeper e (by simp [mem])

/- Fuel beyond the rank is enough, and a walk that returns is back where it began. -/
theorem walk (ranked : api.Ranked action inv rank) {n fuel : Nat} (bounded : rank n path)
    (enough : n < fuel) : Program.Triple (api.At inv path) (api.enumRec action fuel false)
      (fun _ => api.At inv path) NotOutOfFuel := by
  induction fuel generalizing n path with
  | zero => exact absurd enough (Nat.not_lt_zero n)
  | succ fuel ih =>
    refine here (Program.Triple.bind (ranked.opened path) fun _ => ?_)
    refine Program.Triple.bind (ranked.acts .enter path) fun _ => here ?_
    refine Program.Triple.bind (Program.Triple.skip Bool.false_ne_true) fun _ => here ?_
    refine Program.Triple.bind (ranked.first path) fun found s hs => ?_
    refine ranked.entries (fun e mem visited directory => ?_) s hs.1
    obtain ⟨m,rfl,lower⟩ := hs.2 n bounded e mem visited directory
    exact ih lower (by omega)

end Ranked
end DirApi
end LxRunOffline
