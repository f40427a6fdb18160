import LxRunOffline.Depth
import LxRunOffline.EnumDirectory

/-! A volume as the deletion of a directory meets it: a graph of directories and the reparse
points that Win32 follows on its way along a path. Deleting only ever takes entries away, so
what a path leads to was to be found there before. -/
namespace LxRunOffline

/- What stands under a name. A reparse point leads to a directory, which need not exist. -/
inductive Node where
  | file
  | dir (id : Nat)
  | reparse (target : Nat)
  deriving DecidableEq, Repr

namespace Node

def leads : Node → Option Nat
  | file => none
  | dir id => some id
  | reparse target => some target

def subdir : Node → Option Nat
  | dir id => some id
  | _ => none

end Node

structure Entry where
  name : Wstr
  node : Node
  deriving DecidableEq, Repr

structure Volume where
  entries : Nat → Option (List Entry)
  unique : ∀ d es, entries d = some es → (es.map Entry.name).Nodup
  clear : ∀ d es, entries d = some es → ∀ e ∈ es, backslash ∉ e.name

namespace Volume
variable (v : Volume)

def listing (d : Nat) : List Entry := (v.entries d).getD []
def find (d : Nat) (name : Wstr) : Option Entry := (v.listing d).find? (·.name = name)

def resolve (d : Nat) : List Wstr → Option Nat
  | [] => some d
  | name :: names => (v.find d name).bind fun e => e.node.leads.bind fun next => resolve next names

def removeEntry (d : Nat) (name : Wstr) : Volume where
  entries x := if x = d then (v.entries d).map (·.filter (·.name ≠ name)) else v.entries x
  unique x es there := by
    split at there
    · obtain ⟨before,old,rfl⟩ := Option.map_eq_some_iff.mp there
      exact (v.unique d before old).sublist (List.filter_sublist.map _)
    · exact v.unique x es there
  clear x es there := by
    split at there
    · obtain ⟨before,old,rfl⟩ := Option.map_eq_some_iff.mp there
      exact fun e mem => v.clear d before old e (List.mem_filter.mp mem).1
    · exact v.clear x es there

def dropDirectory (d : Nat) : Volume where
  entries x := if x = d then none else v.entries x
  unique x es there := by
    split at there
    · cases there
    · exact v.unique x es there
  clear x es there := by
    split at there
    · cases there
    · exact v.clear x es there

def edges (d : Nat) : List Nat := (v.listing d).filterMap fun e => e.node.leads
def subdirs (d : Nat) : List Nat := (v.listing d).filterMap fun e => e.node.subdir

def Reached (root d : Nat) : Prop := Leads v.edges root d
def Inside (root d : Nat) : Prop := Leads v.subdirs root d

def Left (v v' : Volume) : Prop := ∀ d, (v'.listing d).Sublist (v.listing d)

variable {v} {v' v'' : Volume} {d root : Nat} {name : Wstr} {names : List Wstr} {e : Entry}

theorem listingUnique (v : Volume) (d : Nat) : ((v.listing d).map Entry.name).Nodup := by
  unfold listing
  cases there : v.entries d with
  | none => exact List.nodup_nil
  | some es => exact v.unique d es there

theorem listingClear (mem : e ∈ v.listing d) : backslash ∉ e.name := by
  unfold listing at mem
  cases there : v.entries d with
  | none => simp [there] at mem
  | some es => exact v.clear d es there e (by simpa [there] using mem)

theorem findSource (found : v.find d name = some e) : e ∈ v.listing d ∧ e.name = name :=
  ⟨List.mem_of_find?_eq_some found,by simpa using List.find?_some found⟩

theorem findMember (mem : e ∈ v.listing d) : v.find d e.name = some e := by
  have unique := listingUnique v d
  unfold find
  generalize v.listing d = listed at mem unique
  induction listed with
  | nil => simp at mem
  | cons first rest ih =>
    rw [List.map_cons,List.nodup_cons] at unique
    rcases List.mem_cons.mp mem with rfl | later
    · simp
    · have other : first.name ≠ e.name := fun same =>
        unique.1 (same ▸ List.mem_map_of_mem later)
      simpa [other] using ih later unique.2

theorem Left.refl (v : Volume) : Left v v := fun _ => List.Sublist.refl _

theorem Left.trans (h : Left v v') (h' : Left v' v'') : Left v v'' :=
  fun d => (h' d).trans (h d)

theorem removedLeft (v : Volume) (d : Nat) (name : Wstr) : Left v (v.removeEntry d name) := by
  intro x
  unfold listing removeEntry
  dsimp only
  split
  · rename_i same
    subst same
    cases v.entries x with
    | none => exact List.Sublist.refl _
    | some es => exact List.filter_sublist
  · exact List.Sublist.refl _

theorem droppedLeft (v : Volume) (d : Nat) : Left v (v.dropDirectory d) := by
  intro x
  unfold listing dropDirectory
  dsimp only
  split
  · exact List.nil_sublist _
  · exact List.Sublist.refl _

theorem Left.find (h : Left v v') (found : v'.find d name = some e) : v.find d name = some e := by
  obtain ⟨mem,rfl⟩ := findSource found
  exact findMember ((h d).subset mem)

theorem Left.resolve (h : Left v v') {x : Nat} (there : v'.resolve d names = some x) :
    v.resolve d names = some x := by
  induction names generalizing d with
  | nil => exact there
  | cons name names ih =>
    obtain ⟨e,found,rest⟩ := Option.bind_eq_some_iff.mp there
    obtain ⟨next,leads,further⟩ := Option.bind_eq_some_iff.mp rest
    rw [Volume.resolve,h.find found,Option.bind_some,leads,Option.bind_some,ih further]

theorem edgeOf (mem : e ∈ v.listing d) {next : Nat} (leads : e.node.leads = some next) :
    next ∈ v.edges d := List.mem_filterMap.mpr ⟨e,mem,leads⟩

theorem resolveReached {x : Nat} (there : v.resolve d names = some x) : v.Reached d x := by
  induction names generalizing d with
  | nil =>
    cases there
    exact .refl
  | cons name names ih =>
    obtain ⟨e,found,rest⟩ := Option.bind_eq_some_iff.mp there
    obtain ⟨next,leads,further⟩ := Option.bind_eq_some_iff.mp rest
    exact .head (edgeOf (findSource found).1 leads) (ih further)

theorem resolveMember {x next : Nat} (there : v.resolve d names = some x) (mem : e ∈ v.listing x)
    (leads : e.node.leads = some next) : v.resolve d (names ++ [e.name]) = some next := by
  induction names generalizing d with
  | nil =>
    cases there
    rw [List.nil_append,resolve,findMember mem,Option.bind_some,leads]
    rfl
  | cons name names ih =>
    obtain ⟨first,found,rest⟩ := Option.bind_eq_some_iff.mp there
    obtain ⟨onward,through,further⟩ := Option.bind_eq_some_iff.mp rest
    rw [List.cons_append,resolve,found,Option.bind_some,through,Option.bind_some,ih further]

def ofRows (rows : List (List Entry)) (unique : ∀ es ∈ rows, (es.map Entry.name).Nodup)
    (clear : ∀ es ∈ rows, ∀ e ∈ es, backslash ∉ e.name) : Volume where
  entries d := rows[d]?
  unique _ es there := unique es (List.mem_of_getElem? there)
  clear _ es there := clear es (List.mem_of_getElem? there)

end Volume
end LxRunOffline
