import Mathlib.Data.List.Nodup

/-! Tables whose keys are compared through a fold, such as names without regard to case. Two
keys that fold to the same one cannot stand beside each other, whatever is done to a table. -/
namespace LxRunOffline

structure FoldedTable {κ : Type} (ν : Type) (fold : κ → κ) where
  entries : List (κ × ν)
  distinct : (entries.map fun e => fold e.1).Nodup

namespace FoldedTable
variable {κ ν : Type} {fold : κ → κ}

@[ext] theorem ext {s t : FoldedTable ν fold} (h : s.entries = t.entries) : s = t := by
  cases s; cases t; cases h; rfl

theorem sameEntry {t : FoldedTable ν fold} {e e' : κ × ν} (mem : e ∈ t.entries)
    (mem' : e' ∈ t.entries) (same : fold e.1 = fold e'.1) : e = e' :=
  List.inj_on_of_nodup_map t.distinct mem mem' same

def empty : FoldedTable ν fold := ⟨[],by simp⟩

def Has (t : FoldedTable ν fold) (k : κ) : Prop := ∃ e ∈ t.entries, fold e.1 = fold k

def keys (t : FoldedTable ν fold) : List κ := t.entries.map Prod.fst

variable [DecidableEq κ]

instance (t : FoldedTable ν fold) (k : κ) : Decidable (t.Has k) := by unfold Has; infer_instance

def find (t : FoldedTable ν fold) (k : κ) : Option ν :=
  (t.entries.find? fun e => fold e.1 = fold k).map Prod.snd

def alter (t : FoldedTable ν fold) (k : κ) (f : ν → ν) : FoldedTable ν fold where
  entries := t.entries.map fun e => (e.1,if fold e.1 = fold k then f e.2 else e.2)
  distinct := by simpa [Function.comp_def] using t.distinct

def insert (t : FoldedTable ν fold) (k : κ) (v : ν) : FoldedTable ν fold :=
  if h : t.Has k then t else
    { entries := t.entries ++ [(k,v)]
      distinct := by
        have apart : fold k ∉ t.entries.map fun e => fold e.1 := by simpa [Has] using h
        rw [List.map_append,List.map_singleton,← List.concat_eq_append]
        exact t.distinct.concat apart }

def erase (t : FoldedTable ν fold) (k : κ) : FoldedTable ν fold where
  entries := t.entries.filter fun e => fold e.1 ≠ fold k
  distinct := t.distinct.sublist (List.filter_sublist.map _)

variable {t : FoldedTable ν fold} {k k' : κ} {v : ν} {f : ν → ν}

theorem findMem {e : κ × ν} (mem : e ∈ t.entries) (same : fold e.1 = fold k) :
    t.find k = some e.2 := by
  unfold find
  cases found : t.entries.find? fun e => fold e.1 = fold k with
  | none => exact absurd same (by simpa using List.find?_eq_none.mp found e mem)
  | some e' =>
    have same' : fold e'.1 = fold k := by simpa using List.find?_some found
    have one := sameEntry mem (List.mem_of_find?_eq_some found) (same.trans same'.symm)
    simp [one]

theorem insertFresh (absent : ¬ t.Has k) : (t.insert k v).entries = t.entries ++ [(k,v)] := by
  simp [insert,absent]

theorem insertThere (there : t.Has k) : t.insert k v = t := by
  simp [insert,there]

theorem alterFresh (absent : ¬ t.Has k) : t.alter k f = t := by
  ext1
  have kept : ∀ e ∈ t.entries, (e.1,if fold e.1 = fold k then f e.2 else e.2) = e := by
    intro e mem
    rw [if_neg fun same => absent ⟨e,mem,same⟩]
  exact (List.map_congr_left kept).trans (List.map_id _)

theorem alterInsertFresh (absent : ¬ t.Has k) :
    ((t.insert k v).alter k f).entries = t.entries ++ [(k,f v)] := by
  have same : (t.alter k f).entries = t.entries := by rw [alterFresh absent]
  simp only [alter] at same ⊢
  rw [insertFresh absent,List.map_append,same]
  simp

theorem eraseInsertFresh (absent : ¬ t.Has k) : (t.insert k v).erase k = t := by
  ext1
  have kept : t.entries.filter (fun e => fold e.1 ≠ fold k) = t.entries :=
    List.filter_eq_self.mpr fun e mem => by simpa using fun same => absent ⟨e,mem,same⟩
  simpa [erase,insertFresh absent] using kept

theorem alterAlter {g : ν → ν} : (t.alter k f).alter k g = t.alter k fun v => g (f v) := by
  ext1
  simp only [alter,List.map_map]
  refine List.map_congr_left fun e _ => ?_
  by_cases same : fold e.1 = fold k <;> simp [same]

theorem alterId : t.alter k (fun v => v) = t := by
  ext1
  simp [alter]

theorem findAlter : (t.alter k f).find k' =
    (t.find k').map fun v => if fold k' = fold k then f v else v := by
  rw [find,alter,List.find?_map]
  unfold find
  rw [Option.map_map,Option.map_map]
  cases found : t.entries.find? fun e => fold e.1 = fold k' with
  | none =>
    have same : t.entries.find? ((fun e => decide (fold e.1 = fold k')) ∘
        fun e => (e.1,if fold e.1 = fold k then f e.2 else e.2)) = none := found
    rw [same]
    rfl
  | some e =>
    have same : t.entries.find? ((fun e => decide (fold e.1 = fold k')) ∘
        fun e => (e.1,if fold e.1 = fold k then f e.2 else e.2)) = some e := found
    have here : fold e.1 = fold k' := by simpa using List.find?_some found
    rw [same]
    simp [here]

theorem keysAlter : (t.alter k f).keys = t.keys := by
  simp [keys,alter,Function.comp_def]

theorem keysInsert (there : k' ∈ t.keys) : k' ∈ (t.insert k v).keys := by
  unfold insert
  split
  · exact there
  · simp only [keys,List.map_append,List.mem_append] at there ⊢
    exact .inl there

theorem hasAlter : (t.alter k f).Has k' ↔ t.Has k' := by
  simp [Has,alter]

end FoldedTable
end LxRunOffline
