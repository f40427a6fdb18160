import LxRunOffline.LinkedStore

/-! What a row of items leaves in a store. Every item has a place or none, and some of them are
names of one object; the store shows them when exactly their places are names, when two names
share an object exactly as the items do, and when every object fits its items. -/
namespace LxRunOffline.LinkedStore

structure Pictures {ι ν α : Type} (land : ι → Option ν) (same : ι → ι → Prop) (fits : ι → ν → α → Prop)
    (items : List ι) (s : LinkedStore ν α) : Prop where
  names : ∀ p, s.value p ≠ none ↔ ∃ i ∈ items, land i = some p
  shares : ∀ i ∈ items, ∀ j ∈ items, ∀ p q, land i = some p → land j = some q → (s.Shares p q ↔ p = q ∨ same i j)
  objects : ∀ i ∈ items, ∀ p, land i = some p → ∃ a, s.value p = some a ∧ fits i p a

namespace Pictures
variable {ι ν α : Type} {land : ι → Option ν} {same : ι → ι → Prop} {fits fits' : ι → ν → α → Prop}
  {items : List ι} {s t : LinkedStore ν α} {i j : ι} {p target : ν} {a : α} {f : α → α}

theorem empty : Pictures land same fits [] .empty where
  names p := by simp [emptyValue]
  shares i mem := by cases mem
  objects i mem := by cases mem

theorem refit (h : Pictures land same fits items s)
    (weaker : ∀ i ∈ items, ∀ p a, land i = some p → fits i p a → fits' i p a) : Pictures land same fits' items s where
  names := h.names
  shares := h.shares
  objects i mem p landed := by
    obtain ⟨a,held,fine⟩ := h.objects i mem p landed
    exact ⟨a,held,weaker i mem p a landed fine⟩

theorem skipped (h : Pictures land same fits items s) (away : land i = none) :
    Pictures land same fits (items ++ [i]) s := by
  have early {j : ι} {p : ν} (mem : j ∈ items ++ [i]) (landed : land j = some p) : j ∈ items := by
    rcases List.mem_append.mp mem with old | new
    · exact old
    · rw [List.mem_singleton.mp new,away] at landed
      cases landed
  refine ⟨fun p => (h.names p).trans ⟨?_,?_⟩,fun i mem j mem' p q landed landed' => ?_,fun i mem p landed => ?_⟩
  · exact fun ⟨j,mem,landed⟩ => ⟨j,List.mem_append_left _ mem,landed⟩
  · exact fun ⟨j,mem,landed⟩ => ⟨j,early mem landed,landed⟩
  · exact h.shares i (early mem landed) j (early mem' landed') p q landed landed'
  · exact h.objects i (early mem landed) p landed

theorem apart (h : Pictures land same fits items s) (fresh : s.value p = none) {q : ν} (mem : j ∈ items)
    (landed : land j = some q) : q ≠ p := by
  rintro rfl
  exact (h.names q).mpr ⟨j,mem,landed⟩ fresh

theorem altered (h : Pictures land same fits items s) (altered : s.Altered p f t)
    (touched : ∀ i ∈ items, ∀ q a, land i = some q → s.Shares p q → fits i q a → fits' i q (f a))
    (others : ∀ i ∈ items, ∀ q a, land i = some q → ¬ s.Shares p q → fits i q a → fits' i q a) :
    Pictures land same fits' items t := by
  refine ⟨fun q => ?_,fun i mem j mem' q q' there there' => ?_,fun i mem q there => ?_⟩
  · rw [← h.names]
    by_cases shares : s.Shares p q
    · rw [altered.value q shares]
      simp
    · rw [altered.others q shares]
  · rw [altered.shares]
    exact h.shares i mem j mem' q q' there there'
  · obtain ⟨a,held,fine⟩ := h.objects i mem q there
    by_cases shares : s.Shares p q
    · exact ⟨f a,(altered.value q shares).trans (congrArg _ held),touched i mem q a there shares fine⟩
    · exact ⟨a,(altered.others q shares).trans held,others i mem q a there shares fine⟩

theorem along {κ : Type} {land' : κ → Option ν} {same' : κ → κ → Prop} {fits' : κ → ν → α → Prop}
    {pairs : List (ι × κ)} (h : Pictures land same fits (pairs.map Prod.fst) s)
    (lands : ∀ i k, (i,k) ∈ pairs → land' k = land i)
    (shares : ∀ i k, (i,k) ∈ pairs → ∀ j l, (j,l) ∈ pairs → ∀ p q, land i = some p → land j = some q →
      (same i j ↔ same' k l))
    (fits : ∀ i k, (i,k) ∈ pairs → ∀ p a, land i = some p → fits i p a → fits' k p a) :
    Pictures land' same' fits' (pairs.map Prod.snd) s := by
  have back {k : κ} (mem : k ∈ pairs.map Prod.snd) : ∃ i, (i,k) ∈ pairs := by
    obtain ⟨⟨i,k⟩,inside,rfl⟩ := List.mem_map.mp mem
    exact ⟨i,inside⟩
  have left {i : ι} {k : κ} (mem : (i,k) ∈ pairs) : i ∈ pairs.map Prod.fst := List.mem_map.mpr ⟨_,mem,rfl⟩
  refine ⟨fun p => (h.names p).trans ⟨?_,?_⟩,fun k mem l mem' p q landed landed' => ?_,fun k mem p landed => ?_⟩
  · rintro ⟨i,mem,landed⟩
    obtain ⟨⟨i,k⟩,inside,rfl⟩ := List.mem_map.mp mem
    exact ⟨k,List.mem_map.mpr ⟨_,inside,rfl⟩,(lands i k inside).trans landed⟩
  · rintro ⟨k,mem,landed⟩
    obtain ⟨i,inside⟩ := back mem
    exact ⟨i,left inside,(lands i k inside).symm.trans landed⟩
  · obtain ⟨i,inside⟩ := back mem
    obtain ⟨j,inside'⟩ := back mem'
    have there := (lands i k inside).symm.trans landed
    have there' := (lands j l inside').symm.trans landed'
    exact (h.shares i (left inside) j (left inside') p q there there').trans
      (or_congr_right (shares i k inside j l inside' p q there there'))
  · obtain ⟨i,inside⟩ := back mem
    have there := (lands i k inside).symm.trans landed
    obtain ⟨a,held,fine⟩ := h.objects i (left inside) p there
    exact ⟨a,held,fits i k inside p a there fine⟩

variable [DecidableEq ν]

theorem made (h : Pictures land same fits items s) (fresh : s.value p = none) (created : s.Created p a t)
    (landed : land i = some p) (alone : ∀ j ∈ items, same j i ∨ same i j → land j = none) (own : fits i p a) :
    Pictures land same fits (items ++ [i]) t := by
  refine ⟨fun q => ?_,fun x mem y mem' q q' there there' => ?_,fun x mem q there => ?_⟩
  · rw [created.value]
    by_cases is : q = p
    · subst is
      simp [landed]
    · rw [if_neg is,h.names]
      simp [or_and_right,exists_or,landed,Ne.symm is]
  · rw [created.shares]
    rcases List.mem_append.mp mem with old | new <;> rcases List.mem_append.mp mem' with old' | new'
    · rw [h.shares x old y old' q q' there there']
      simp [h.apart fresh old there]
    · obtain rfl := List.mem_singleton.mp new'
      obtain rfl : q' = p := Option.some.inj (there'.symm.trans landed)
      have lonely : ¬ same x y := fun one => by simp [alone x old (.inl one)] at there
      have unshared : ¬ s.Shares q q' := fun shares => shares.valued fresh
      simp [h.apart fresh old there,lonely,unshared]
    · obtain rfl := List.mem_singleton.mp new
      obtain rfl : q = p := Option.some.inj (there.symm.trans landed)
      have lonely : ¬ same x y := fun one => by simp [alone y old' (.inr one)] at there'
      have unshared : ¬ s.Shares q q' := fun shares => shares.symm.valued fresh
      simp [Ne.symm (h.apart fresh old' there'),h.apart fresh old' there',lonely,unshared]
    · obtain rfl := List.mem_singleton.mp new
      obtain rfl := List.mem_singleton.mp new'
      obtain rfl : q = p := Option.some.inj (there.symm.trans landed)
      obtain rfl : q' = q := Option.some.inj (there'.symm.trans landed)
      simp
  · rw [created.value]
    rcases List.mem_append.mp mem with old | new
    · rw [if_neg (h.apart fresh old there)]
      exact h.objects x old q there
    · obtain rfl := List.mem_singleton.mp new
      obtain rfl : q = p := Option.some.inj (there.symm.trans landed)
      exact ⟨a,if_pos rfl,own⟩

theorem linked (h : Pictures land same fits items s) (symm : ∀ x y, same x y → same y x) (fresh : s.value p = none)
    (link : s.Linked p target t) (landed : land i = some p) (mem : j ∈ items) (first : land j = some target)
    (partner : ∀ x ∈ items, ∀ q, land x = some q → (target = q ∨ same j x ↔ same i x))
    (own : ∀ a, fits j target a → fits i p a) : Pictures land same fits (items ++ [i]) t := by
  obtain ⟨a,held,fine⟩ := h.objects j mem target first
  have shared {x : ι} {q : ν} (old : x ∈ items) (there : land x = some q) : s.Shares target q ↔ same i x :=
    (h.shares j mem x old target q first there).trans (partner x old q there)
  refine ⟨fun q => ?_,fun x mem y mem' q q' there there' => ?_,fun x mem q there => ?_⟩
  · rw [link.value]
    by_cases is : q = p
    · subst is
      simp [held,landed]
    · rw [if_neg is,h.names]
      simp [or_and_right,exists_or,landed,Ne.symm is]
  · rw [link.shares]
    rcases List.mem_append.mp mem with old | new <;> rcases List.mem_append.mp mem' with old' | new'
    · rw [if_neg (h.apart fresh old there),if_neg (h.apart fresh old' there')]
      exact h.shares x old y old' q q' there there'
    · obtain rfl := List.mem_singleton.mp new'
      obtain rfl : q' = p := Option.some.inj (there'.symm.trans landed)
      have distinct := h.apart fresh old there
      rw [if_neg distinct,if_pos rfl]
      refine ⟨fun shares => .inr (symm _ _ ((shared old there).mp shares.symm)),fun either => ?_⟩
      exact ((shared old there).mpr (symm _ _ (either.resolve_left distinct))).symm
    · obtain rfl := List.mem_singleton.mp new
      obtain rfl : q = p := Option.some.inj (there.symm.trans landed)
      have distinct := h.apart fresh old' there'
      rw [if_neg distinct,if_pos rfl,shared old' there']
      exact ⟨.inr,fun either => either.resolve_left (Ne.symm distinct)⟩
    · obtain rfl := List.mem_singleton.mp new
      obtain rfl := List.mem_singleton.mp new'
      obtain rfl : q = p := Option.some.inj (there.symm.trans landed)
      obtain rfl : q' = q := Option.some.inj (there'.symm.trans landed)
      rw [if_pos rfl]
      exact iff_of_true (sharesSelf (by simp [held])) (.inl rfl)
  · rw [link.value]
    rcases List.mem_append.mp mem with old | new
    · rw [if_neg (h.apart fresh old there)]
      exact h.objects x old q there
    · obtain rfl := List.mem_singleton.mp new
      obtain rfl : q = p := Option.some.inj (there.symm.trans landed)
      rw [if_pos rfl]
      exact ⟨a,held,own a fine⟩

end Pictures
end LxRunOffline.LinkedStore
