import Mathlib.Data.List.Basic
import Mathlib.Logic.Function.Basic

/-! Objects that are held under names, each of them under one name or several. A name is made
together with a new object, or for an object that is there already; what is altered under one
name is altered under all the names of the object. -/
namespace LxRunOffline

structure LinkedStore (ν α : Type) where
  names : ν → Option Nat
  objects : List α
  held : ∀ p k, names p = some k → k < objects.length

namespace LinkedStore
variable {ν α : Type} {s t : LinkedStore ν α} {p q target : ν} {a : α} {f : α → α}

def empty : LinkedStore ν α := ⟨fun _ => none,[],nofun⟩

def value (s : LinkedStore ν α) (p : ν) : Option α := (s.names p).bind fun k => s.objects[k]?

def Shares (s : LinkedStore ν α) (p q : ν) : Prop := ∃ k, s.names p = some k ∧ s.names q = some k

theorem emptyValue : (empty : LinkedStore ν α).value p = none := rfl

theorem valueNone : s.value p = none ↔ s.names p = none := by
  rw [value]
  cases named : s.names p with
  | none => simp
  | some k => simp [s.held p k named]

theorem Shares.valued (h : s.Shares p q) : s.value q ≠ none := by
  obtain ⟨k,-,named⟩ := h
  simp [valueNone,named]

theorem Shares.symm (h : s.Shares p q) : s.Shares q p := h.imp fun _ both => ⟨both.2,both.1⟩

theorem sharesSelf (there : s.value p ≠ none) : s.Shares p p := by
  obtain ⟨k,named⟩ := Option.ne_none_iff_exists'.mp (mt valueNone.mpr there)
  exact ⟨k,named,named⟩

def alter (s : LinkedStore ν α) (p : ν) (f : α → α) : Option (LinkedStore ν α) :=
  (s.names p).map fun k => {
    names := s.names
    objects := s.objects.modify k f
    held := by
      intro q j named
      rw [List.length_modify]
      exact s.held q j named }

structure Altered (s : LinkedStore ν α) (p : ν) (f : α → α) (t : LinkedStore ν α) : Prop where
  value : ∀ q, s.Shares p q → t.value q = (s.value q).map f
  others : ∀ q, ¬ s.Shares p q → t.value q = s.value q
  shares : ∀ q q', t.Shares q q' ↔ s.Shares q q'

theorem alterThere (there : s.value p ≠ none) : ∃ t, s.alter p f = some t ∧ s.Altered p f t := by
  obtain ⟨k,named⟩ := Option.ne_none_iff_exists'.mp (mt valueNone.mpr there)
  refine ⟨_,congrArg (Option.map _) named,fun q shares => ?_,fun q apart => ?_,fun _ _ => .rfl⟩
  · obtain ⟨j,left,right⟩ := shares
    obtain rfl : k = j := Option.some.inj (named.symm.trans left)
    simp [LinkedStore.value,right]
  · rw [LinkedStore.value,LinkedStore.value]
    dsimp only
    cases other : s.names q with
    | none => rfl
    | some j =>
      have distinct : k ≠ j := fun same => apart ⟨k,named,same ▸ other⟩
      simp [List.getElem?_modify,distinct]

theorem Altered.trans {g : α → α} {u : LinkedStore ν α} (h : s.Altered p f t) (h' : t.Altered p g u) :
    s.Altered p (g ∘ f) u := by
  refine ⟨fun q shares => ?_,fun q apart => ?_,fun q q' => (h'.shares q q').trans (h.shares q q')⟩
  · rw [h'.value q ((h.shares p q).mpr shares),h.value q shares,Option.map_map]
  · rw [h'.others q (mt (h.shares p q).mp apart),h.others q apart]

variable [DecidableEq ν]

def create (s : LinkedStore ν α) (p : ν) (a : α) : Option (LinkedStore ν α) :=
  if s.names p = none then
    some {
      names := Function.update s.names p (some s.objects.length)
      objects := s.objects ++ [a]
      held := by
        intro q k named
        rw [List.length_append,List.length_singleton]
        by_cases own : q = p
        · subst own
          rw [Function.update_self] at named
          cases named
          exact Nat.lt_succ_self _
        · rw [Function.update_of_ne own] at named
          exact Nat.lt_succ_of_lt (s.held q k named) }
  else none

def link (s : LinkedStore ν α) (p target : ν) : Option (LinkedStore ν α) :=
  if s.names p = none ∧ s.names target ≠ none then
    some {
      names := Function.update s.names p (s.names target)
      objects := s.objects
      held := by
        intro q k named
        by_cases own : q = p
        · subst own
          rw [Function.update_self] at named
          exact s.held target k named
        · rw [Function.update_of_ne own] at named
          exact s.held q k named }
  else none

structure Created (s : LinkedStore ν α) (p : ν) (a : α) (t : LinkedStore ν α) : Prop where
  value : ∀ q, t.value q = if q = p then some a else s.value q
  shares : ∀ q q', t.Shares q q' ↔ q = p ∧ q' = p ∨ s.Shares q q'

structure Linked (s : LinkedStore ν α) (p target : ν) (t : LinkedStore ν α) : Prop where
  value : ∀ q, t.value q = s.value (if q = p then target else q)
  shares : ∀ q q', t.Shares q q' ↔ s.Shares (if q = p then target else q) (if q' = p then target else q')

theorem createFresh (fresh : s.value p = none) : ∃ t, s.create p a = some t ∧ s.Created p a t := by
  have unnamed := valueNone.mp fresh
  refine ⟨_,if_pos unnamed,fun q => ?_,fun q q' => ?_⟩
  · by_cases own : q = p
    · subst own
      simp [LinkedStore.value]
    · simp only [LinkedStore.value,Function.update_of_ne own,if_neg own]
      cases named : s.names q with
      | none => rfl
      | some k => exact List.getElem?_append_left (s.held q k named)
  · have apart (q : ν) (k : Nat) (named : s.names q = some k) : q ≠ p ∧ k ≠ s.objects.length :=
      ⟨fun own => by simp [own,unnamed] at named,Nat.ne_of_lt (s.held q k named)⟩
    unfold Shares
    by_cases own : q = p <;> by_cases own' : q' = p
    · subst own own'
      simp
    · subst own
      simp only [Function.update_self,Function.update_of_ne own',own',and_false,false_or,unnamed]
      constructor
      · rintro ⟨k,same,named⟩
        cases same
        exact absurd rfl (apart q' _ named).2
      · rintro ⟨k,no,-⟩
        cases no
    · subst own'
      simp only [Function.update_self,Function.update_of_ne own,own,false_and,false_or,unnamed]
      constructor
      · rintro ⟨k,named,same⟩
        cases same
        exact absurd rfl (apart q _ named).2
      · rintro ⟨k,-,no⟩
        cases no
    · simp [Function.update_of_ne own',own]

theorem linkFresh (fresh : s.value p = none) (there : s.value target ≠ none) :
    ∃ t, s.link p target = some t ∧ s.Linked p target t := by
  refine ⟨_,if_pos ⟨valueNone.mp fresh,mt valueNone.mpr there⟩,fun q => ?_,fun q q' => ?_⟩
  · by_cases own : q = p
    · subst own
      simp [LinkedStore.value]
    · simp [LinkedStore.value,own]
  · unfold Shares
    by_cases own : q = p <;> by_cases own' : q' = p <;> simp [own,own']

theorem Created.altered {u : LinkedStore ν α} (fresh : s.value p = none) (h : s.Created p a t)
    (h' : t.Altered p f u) : s.Created p (f a) u := by
  have only (q : ν) : t.Shares p q ↔ q = p := by
    rw [h.shares]
    refine ⟨fun shares => shares.elim And.right fun old => ?_,fun own => .inl ⟨rfl,own⟩⟩
    exact absurd fresh old.symm.valued
  refine ⟨fun q => ?_,fun q q' => (h'.shares q q').trans (h.shares q q')⟩
  by_cases own : q = p
  · rw [h'.value q ((only q).mpr own),h.value,if_pos own,if_pos own]
    rfl
  · rw [h'.others q (mt (only q).mp own),h.value,if_neg own,if_neg own]

end LinkedStore
end LxRunOffline
