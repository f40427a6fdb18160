import Mathlib.Data.List.Induction

/-! Items that come one after the other, some of them under keys. The first value under a key is
issued alone, each later one together with the first. -/
namespace LxRunOffline.Grouping
variable {ι κ α : Type}

def shared : List α → List (α × Option α)
  | [] => []
  | first :: others => (first,none) :: others.map fun a => (a,some first)

theorem sharedSnoc (values : List α) (a : α) :
    shared (values ++ [a]) = shared values ++ [(a,values.head?)] := by
  cases values <;> simp [shared]

variable [DecidableEq κ] (key : ι → Option κ) (value : ι → Option α)

def valuesOf (k : κ) (items : List ι) : List α := (items.filter fun i => key i = some k).filterMap value

theorem valuesOfSnoc (k : κ) (items : List ι) (i : ι) : valuesOf key value k (items ++ [i]) =
    valuesOf key value k items ++ if key i = some k then (value i).toList else [] := by
  unfold valuesOf
  rw [List.filter_append,List.filterMap_append]
  by_cases own : key i = some k
  · cases h : value i <;> simp [own,h]
  · simp [own]

theorem memValuesOf {k : κ} {items : List ι} {a : α} : a ∈ valuesOf key value k items ↔
    ∃ i ∈ items, key i = some k ∧ value i = some a := by
  simp [valuesOf,and_assoc]

def Follows (cut : List (ι × List (α × Option α))) : Prop :=
  ∀ before i out after k, cut = before ++ (i,out) :: after → key i = some k →
    out = (value i).toList.map fun a => (a,(valuesOf key value k (before.map Prod.fst)).head?)

variable {key} {value} {cut : List (ι × List (α × Option α))} {i : ι} {out : List (α × Option α)}

theorem Follows.initial (h : Follows key value (cut ++ [(i,out)])) : Follows key value cut :=
  fun before j out' after k same => h before j out' (after ++ [(i,out)]) k (by simp [same])

theorem Follows.snoc (h : Follows key value cut) (last : ∀ k, key i = some k →
    out = (value i).toList.map fun a => (a,(valuesOf key value k (cut.map Prod.fst)).head?)) :
    Follows key value (cut ++ [(i,out)]) := by
  intro before j out' after k same own
  rcases List.eq_nil_or_concat after with rfl | ⟨front,final,rfl⟩
  · obtain ⟨rfl,tail⟩ := List.append_inj' same rfl
    cases tail
    exact last k own
  · rw [List.concat_eq_append,← List.cons_append,← List.append_assoc] at same
    exact h before j out' front k (List.append_inj' same rfl).1 own

theorem Follows.grouped (h : Follows key value cut) (k : κ) :
    (cut.filter fun entry => key entry.1 = some k).flatMap Prod.snd =
      shared (valuesOf key value k (cut.map Prod.fst)) := by
  induction cut using List.reverseRecOn with
  | nil => rfl
  | append_singleton cut entry ih =>
    obtain ⟨i,out⟩ := entry
    have before := ih h.initial
    rw [List.filter_append,List.flatMap_append,before,List.map_append,List.map_singleton,valuesOfSnoc]
    by_cases own : key i = some k
    · have last := h cut i out [] k rfl own
      cases there : value i with
      | none => simp [own,last,there]
      | some a => simp [own,last,there,sharedSnoc]
    · simp [own]

end LxRunOffline.Grouping
