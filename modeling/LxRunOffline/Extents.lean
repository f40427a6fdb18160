/-! Pieces of a text with the offsets they belong at, over any alphabet. A text that is the pieces
joined one after the other holds each of them in its place exactly when there is no gap. -/
namespace LxRunOffline

structure Extent (α : Type) where
  offset : Nat
  items : List α

namespace Extent
variable {α : Type}

def stop (e : Extent α) : Nat := e.offset+e.items.length

def joined (es : List (Extent α)) : List α := es.flatMap items

def Ordered : Nat → List (Extent α) → Prop
  | _,[] => True
  | start,e :: rest => start ≤ e.offset ∧ Ordered e.stop rest

def Gapless : Nat → List (Extent α) → Prop
  | _,[] => True
  | start,e :: rest => e.offset = start ∧ Gapless e.stop rest

def finish : Nat → List (Extent α) → Nat
  | start,[] => start
  | _,e :: rest => finish e.stop rest

/- Every piece stands at its offset, and what lies before a piece and in none is blank. -/
structure Holds (blank : α) (text : List α) (es : List (Extent α)) : Prop where
  items : ∀ e ∈ es, (text.drop e.offset).take e.items.length = e.items
  gaps : ∀ i, (∃ e ∈ es, i < e.offset) → (∀ e ∈ es, ¬ (e.offset ≤ i ∧ i < e.stop)) →
    text[i]? = some blank

variable {blank : α} {text : List α} {es : List (Extent α)} {start : Nat}

theorem longFinish (ordered : Ordered start es) :
    start+(joined es).length ≤ finish start es ∧
    (finish start es = start+(joined es).length ↔ Gapless start es) := by
  induction es generalizing start with
  | nil => simp [joined,finish,Gapless]
  | cons e rest ih =>
    obtain ⟨long,exact'⟩ := ih ordered.2
    have first := ordered.1
    simp only [joined,List.flatMap_cons,List.length_append,finish,Gapless] at long exact' ⊢
    rw [← exact']
    unfold stop at long ⊢
    omega

theorem Holds.long (holds : Holds blank text es) {e : Extent α} (mem : e ∈ es) :
    e.stop ≤ text.length := by
  have inside (e : Extent α) (mem : e ∈ es) (some' : e.items ≠ []) : e.stop ≤ text.length := by
    have size := congrArg List.length (holds.items e mem)
    have pos := List.length_pos_iff.mpr some'
    simp only [List.length_take,List.length_drop] at size
    unfold stop
    omega
  by_cases empty : e.items = []
  · have stop' : e.stop = e.offset := by simp [stop,empty]
    rcases Nat.eq_zero_or_pos e.offset with zero | pos
    · omega
    · by_cases covered : ∃ e' ∈ es, e'.offset ≤ e.offset-1 ∧ e.offset-1 < e'.stop
      · obtain ⟨e',mem',before,behind⟩ := covered
        have some' : e'.items ≠ [] := by
          intro none
          simp only [stop,none,List.length_nil] at behind
          omega
        have := inside e' mem' some'
        omega
      · have blank' := holds.gaps (e.offset-1) ⟨e,mem,by omega⟩
          fun e' mem' both => covered ⟨e',mem',both⟩
        have := (List.getElem?_eq_some_iff.mp blank').1
        omega
  · exact inside e mem empty

theorem Holds.finishes (holds : Holds blank text es) : finish 0 es ≤ text.length := by
  have last (start : Nat) (rest : List (Extent α)) (sub : ∀ e ∈ rest, e ∈ es)
      (begins : start ≤ text.length) : finish start rest ≤ text.length := by
    induction rest generalizing start with
    | nil => exact begins
    | cons e rest ih =>
      exact ih e.stop (fun e' mem => sub e' (by simp [mem])) (holds.long (sub e (by simp)))
  exact last 0 es (fun _ mem => mem) (Nat.zero_le _)

theorem gaplessItems (gapless : Gapless start es) {before : List α} (size : before.length = start) :
    ∀ e ∈ es, ((before ++ joined es).drop e.offset).take e.items.length = e.items := by
  induction es generalizing start before with
  | nil => simp
  | cons e rest ih =>
    intro e' mem
    have regroup : before ++ joined (e :: rest) = (before ++ e.items) ++ joined rest := by
      simp [joined]
    rcases List.mem_cons.mp mem with rfl | later
    · have here : e'.offset = before.length := gapless.1.trans size.symm
      rw [here,List.drop_left,joined,List.flatMap_cons,List.take_left]
    · rw [regroup]
      refine ih gapless.2 ?_ e' later
      rw [List.length_append,size,stop,gapless.1]

theorem gaplessCovers (gapless : Gapless start es) {i : Nat} (begins : start ≤ i)
    (before : ∃ e ∈ es, i < e.offset) : ∃ e ∈ es, e.offset ≤ i ∧ i < e.stop := by
  induction es generalizing start with
  | nil => simp at before
  | cons e rest ih =>
    by_cases here : i < e.stop
    · exact ⟨e,by simp,gapless.1 ▸ begins,here⟩
    · obtain ⟨e',mem,later⟩ := before
      rcases List.mem_cons.mp mem with rfl | mem
      · exact absurd (gapless.1 ▸ later) (by omega)
      · obtain ⟨found,mem,covers⟩ := ih gapless.2 (by omega) ⟨e',mem,later⟩
        exact ⟨found,by simp [mem],covers⟩

theorem gaplessFinish (gapless : Gapless start es) : finish start es = start+(joined es).length := by
  induction es generalizing start with
  | nil => rfl
  | cons e rest ih =>
    have last := ih gapless.2
    have here := gapless.1
    simp only [finish,joined,List.flatMap_cons,List.length_append,stop] at last ⊢
    omega

theorem gaplessWithin (gapless : Gapless start es)
    (items : ∀ e ∈ es, (text.drop e.offset).take e.items.length = e.items) :
    (text.drop start).take (joined es).length = joined es := by
  induction es generalizing start with
  | nil => exact List.take_zero
  | cons e rest ih =>
    have first := items e List.mem_cons_self
    have others := ih gapless.2 fun e mem => items e (List.mem_cons_of_mem _ mem)
    rw [gapless.1] at first
    rw [stop,gapless.1,← List.drop_drop] at others
    rw [joined,List.flatMap_cons,List.length_append,List.take_add,first]
    exact congrArg (e.items ++ ·) others

theorem Holds.whole (holds : Holds blank text es) (gapless : Gapless 0 es) (size : text.length = finish 0 es) :
    text = joined es := by
  have within := gaplessWithin gapless holds.items
  have long : text.length = (joined es).length := by rw [size,gaplessFinish gapless,Nat.zero_add]
  rw [List.drop_zero,← long,List.take_length] at within
  exact within

theorem holdsJoined (blank : α) (ordered : Ordered 0 es) :
    Holds blank (joined es) es ↔ Gapless 0 es := by
  have long := longFinish ordered
  constructor
  · intro holds
    have := holds.finishes
    exact long.2.mp (by omega)
  · intro gapless
    refine ⟨by simpa using @gaplessItems _ _ _ gapless [] rfl,fun i before free => ?_⟩
    obtain ⟨e,mem,covers⟩ := gaplessCovers gapless (Nat.zero_le i) before
    exact absurd covers (free e mem)

end Extent
end LxRunOffline
