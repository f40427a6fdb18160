import LxRunOffline.Postponed

/-! The order in which postponed values leave. A gift is put somewhere among those that are out
or waiting and never overtakes any of them, so what waits below a stretch of gifts comes after
all of them. -/
namespace LxRunOffline.Postponed

variable {κ β : Type}

def Gift.pair (g : Gift κ β) : κ × β := (g.key,g.value)

def State.line (s : State κ β) : List (κ × β) := s.delivered ++ s.waiting

section
variable (inside : κ → κ → Prop) [DecidableRel inside]

theorem everythingLine (gifts : List (Gift κ β)) :
    everything inside gifts = (giveAll inside ⟨[],[]⟩ gifts).line := rfl

theorem giveInserts (s : State κ β) (g : Gift κ β) : ∃ front back,
    s.line = front ++ back ∧ (give inside s g).line = front ++ g.pair :: back := by
  cases late : g.late with
  | false => exact ⟨s.delivered,s.waiting,rfl,by simp [give,late,State.line,Gift.pair]⟩
  | true =>
    refine ⟨s.delivered ++ outsiders inside g.key s.waiting,holders inside g.key s.waiting,?_,?_⟩
    · rw [List.append_assoc,outsidersHolders]
      rfl
    · simp [give,late,State.line,Gift.pair]

theorem givePerm (s : State κ β) (gifts : List (Gift κ β)) :
    (giveAll inside s gifts).line.Perm (s.line ++ gifts.map Gift.pair) := by
  induction gifts generalizing s with
  | nil =>
    rw [List.map_nil,List.append_nil]
    exact .refl _
  | cons g gifts ih =>
    obtain ⟨front,back,old,new⟩ := giveInserts inside s g
    refine (ih (give inside s g)).trans ?_
    rw [new,old,List.map_cons]
    exact (List.perm_middle.append_right _).trans List.perm_middle.symm

theorem aroundPerm {before after : List (Gift κ β)} {d : Gift κ β} {front back : List (κ × β)}
    (split : everything inside (before ++ d :: after) = front ++ d.pair :: back) :
    (front ++ back).Perm ((before ++ after).map Gift.pair) := by
  have all : (front ++ d.pair :: back).Perm ((before ++ d :: after).map Gift.pair) :=
    split ▸ givePerm inside ⟨[],[]⟩ (before ++ d :: after)
  have own := List.perm_middle.symm.trans (all.trans (List.perm_middle.map Gift.pair))
  exact own.cons_inv

theorem giveSplit {s : State κ β} {before after : List (κ × β)} {x : κ × β}
    (split : s.line = before ++ x :: after) (gifts : List (Gift κ β)) : ∃ before' after',
      (giveAll inside s gifts).line = before' ++ x :: after' ∧
        ∀ y ∈ after', y ∈ after ∨ ∃ g ∈ gifts, y = g.pair := by
  induction gifts generalizing s before after with
  | nil => exact ⟨before,after,split,fun y mem => .inl mem⟩
  | cons g gifts ih =>
    have next : ∃ before' after', (give inside s g).line = before' ++ x :: after' ∧
        ∀ y ∈ after', y ∈ after ∨ y = g.pair := by
      obtain ⟨front,back,old,new⟩ := giveInserts inside s g
      rw [split] at old
      rcases List.append_eq_append_iff.mp old with ⟨gap,rfl,rest⟩ | ⟨gap,rfl,rest⟩
      · cases gap with
        | nil =>
          obtain rfl : x :: after = back := rest
          exact ⟨before ++ [g.pair],after,by simp [new],fun y mem => .inl mem⟩
        | cons first gap =>
          obtain ⟨rfl,rfl⟩ := List.cons.inj rest
          refine ⟨before,gap ++ g.pair :: back,by simp [new],fun y mem => ?_⟩
          rcases List.mem_append.mp mem with early | late
          · exact .inl (List.mem_append_left _ early)
          · exact (List.mem_cons.mp late).elim .inr fun last => .inl (List.mem_append_right _ last)
      · exact ⟨front ++ g.pair :: gap,after,by simp [new,rest],fun y mem => .inl mem⟩
    obtain ⟨before₁,after₁,line,behind⟩ := next
    obtain ⟨before₂,after₂,all,later⟩ := ih line
    refine ⟨before₂,after₂,all,fun y mem => ?_⟩
    rcases later y mem with early | ⟨h,given,same⟩
    · exact (behind y early).imp_right fun same => ⟨g,List.mem_cons_self,same⟩
    · exact .inr ⟨h,List.mem_cons_of_mem _ given,same⟩

variable {inside}

theorem waitingLate {gifts : List (Gift κ β)} {y : κ × β}
    (waits : y ∈ (giveAll inside ⟨[],[]⟩ gifts).waiting) : ∃ g ∈ gifts, g.late = true ∧ y = g.pair := by
  induction gifts using List.reverseRecOn with
  | nil => cases waits
  | append_singleton gifts g ih =>
    have before (h : y ∈ (giveAll inside ⟨[],[]⟩ gifts).waiting) :
        ∃ h ∈ gifts ++ [g], h.late = true ∧ y = h.pair :=
      (ih h).imp fun h given => ⟨List.mem_append_left _ given.1,given.2⟩
    rw [giveAllConcat] at waits
    cases late : g.late with
    | false =>
      simp only [give,late,Bool.false_eq_true,if_false] at waits
      exact before waits
    | true =>
      simp only [give,late,if_true] at waits
      rcases List.mem_cons.mp waits with same | lower
      · exact ⟨g,by simp,late,same⟩
      · exact before ((List.dropWhile_sublist _).mem lower)

theorem waitsBelow {s : State κ β} {upper lower : List (κ × β)} {x : κ × β}
    (waits : s.waiting = upper ++ x :: lower) {gifts : List (Gift κ β)}
    (below : ∀ g ∈ gifts, g.late = true → inside g.key x.1) :
    ∃ upper', (giveAll inside s gifts).waiting = upper' ++ x :: lower := by
  induction gifts generalizing s upper with
  | nil => exact ⟨upper,waits⟩
  | cons g gifts ih =>
    have next : ∃ upper', (give inside s g).waiting = upper' ++ x :: lower := by
      cases late : g.late with
      | false => exact ⟨upper,by simp [give,late,waits]⟩
      | true =>
        have held := below g List.mem_cons_self late
        refine ⟨g.pair :: upper.dropWhile (fun e => ¬ inside g.key e.1),?_⟩
        simp only [give,late,if_true,holders,waits,List.dropWhile_append]
        split
        · rename_i all
          rw [List.isEmpty_iff.mp all,List.dropWhile_cons_of_neg (by simpa using held)]
          rfl
        · rfl
    obtain ⟨upper',waits'⟩ := next
    exact ih waits' fun h given => below h (List.mem_cons_of_mem _ given)

/- A late gift leaves after all that is given while it waits. Behind it come only late gifts from
before it, and gifts from after. -/
theorem heldUntil {before inner after : List (Gift κ β)} {d : Gift κ β} (late : d.late = true)
    (below : ∀ g ∈ inner, g.late = true → inside g.key d.key) : ∃ front back,
      everything inside (before ++ d :: inner ++ after) = front ++ d.pair :: back ∧
        ∀ y ∈ back, (∃ g ∈ before, g.late = true ∧ y = g.pair) ∨ ∃ g ∈ after, y = g.pair := by
  let start : State κ β := giveAll inside ⟨[],[]⟩ before
  have pushed : (give inside start d).waiting = [] ++ d.pair :: holders inside d.key start.waiting := by
    simp [give,late,Gift.pair]
  obtain ⟨upper,waits⟩ := @waitsBelow _ _ inside _ _ _ _ d.pair pushed inner below
  let reached : State κ β := giveAll inside (give inside start d) inner
  have line : reached.line = reached.delivered ++ upper ++ d.pair :: holders inside d.key start.waiting := by
    rw [State.line,waits,List.append_assoc]
  obtain ⟨front,back,all,behind⟩ := giveSplit inside line after
  refine ⟨front,back,?_,fun y mem => (behind y mem).imp_left fun lower => ?_⟩
  · rw [everythingLine,giveAllAppend,giveAllAppend]
    exact all
  · exact waitingLate ((List.dropWhile_sublist _).mem lower)

end
end LxRunOffline.Postponed
