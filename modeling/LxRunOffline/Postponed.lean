import Mathlib.Data.List.DropRight

/-! Values that are given under keys. A late one waits on a stack and leaves from the top as
soon as another late one comes whose key does not lie in its own; at the end all the others
leave, from the top down. What is not late is delivered at once. -/
namespace LxRunOffline.Postponed

structure Gift (κ β : Type) where
  key : κ
  value : β
  late : Bool

/- The top of the stack comes first. -/
structure State (κ β : Type) where
  waiting : List (κ × β)
  delivered : List (κ × β)

variable {κ β : Type}

def lastOf [DecidableEq κ] (d : κ) (entries : List (κ × β)) : Option β :=
  (entries.filterMap fun e => if e.1 = d then some e.2 else none).getLast?

section
variable [DecidableEq κ]

theorem lastOfAppend (d : κ) (first rest : List (κ × β)) :
    lastOf d (first ++ rest) = (lastOf d rest).or (lastOf d first) := by
  simp only [lastOf,List.filterMap_append,List.getLast?_append]

theorem lastOfCons (d k : κ) (b : β) (rest : List (κ × β)) :
    lastOf d ((k,b) :: rest) = (lastOf d rest).or (if k = d then some b else none) := by
  by_cases same : k = d <;> simp [lastOf,same,List.getLast?_cons,Option.or_some]

theorem lastOfNone {d : κ} {entries : List (κ × β)} (h : ∀ e ∈ entries, e.1 ≠ d) :
    lastOf d entries = none := by
  have none' : entries.filterMap (fun e => if e.1 = d then some e.2 else none) = [] := by
    simpa [List.filterMap_eq_nil_iff] using h
  rw [lastOf,none',List.getLast?_nil]

def lastGift (d : κ) (gifts : List (Gift κ β)) : Option β :=
  lastOf d (gifts.map fun g => (g.key,g.value))

theorem lastGiftAfter {d : κ} {before after : List (Gift κ β)} {g : Gift κ β} (names : g.key = d)
    (silent : ∀ h ∈ after, h.key ≠ d) : lastGift d (before ++ g :: after) = some g.value := by
  have quiet : lastOf d (after.map fun g => (g.key,g.value)) = none := by
    refine lastOfNone fun e mem => ?_
    obtain ⟨h,inAfter,rfl⟩ := List.mem_map.mp mem
    exact silent h inAfter
  rw [lastGift,List.map_append,List.map_cons,lastOfAppend,lastOfCons,quiet,if_pos names]
  rfl

theorem lastGiftSplit {d : κ} {gifts : List (Gift κ β)} {b : β} (last : lastGift d gifts = some b) :
    ∃ before g after, gifts = before ++ g :: after ∧ g.key = d ∧ g.value = b ∧
      ∀ h ∈ after, h.key ≠ d := by
  induction gifts with
  | nil => simp [lastGift,lastOf] at last
  | cons g rest ih =>
    rw [lastGift,List.map_cons,lastOfCons,← lastGift] at last
    cases later : lastGift d rest with
    | some c =>
      rw [later] at last
      obtain ⟨before,h,after,rfl,names,value,silent⟩ := ih (later.trans last)
      exact ⟨g :: before,h,after,rfl,names,value,silent⟩
    | none =>
      rw [later,Option.none_or,Option.ite_none_right_eq_some] at last
      refine ⟨[],g,rest,rfl,last.1,Option.some.inj last.2,fun h mem same => ?_⟩
      obtain ⟨before,after,rfl⟩ := List.append_of_mem mem
      rw [lastGift,List.map_append,List.map_cons,lastOfAppend,lastOfCons,if_pos same] at later
      simp at later

end
section
variable (inside : κ → κ → Prop) [DecidableRel inside]

def outsiders (k : κ) (waiting : List (κ × β)) : List (κ × β) :=
  waiting.takeWhile fun e => ¬ inside k e.1
def holders (k : κ) (waiting : List (κ × β)) : List (κ × β) :=
  waiting.dropWhile fun e => ¬ inside k e.1

def give (s : State κ β) (g : Gift κ β) : State κ β :=
  if g.late then ⟨(g.key,g.value) :: holders inside g.key s.waiting,
    s.delivered ++ outsiders inside g.key s.waiting⟩
  else ⟨s.waiting,s.delivered ++ [(g.key,g.value)]⟩

def giveAll : State κ β → List (Gift κ β) → State κ β := List.foldl (give inside)

def everything (gifts : List (Gift κ β)) : List (κ × β) :=
  (giveAll inside ⟨[],[]⟩ gifts).delivered ++ (giveAll inside ⟨[],[]⟩ gifts).waiting

theorem giveAllConcat (s : State κ β) (gifts : List (Gift κ β)) (g : Gift κ β) :
    giveAll inside s (gifts ++ [g]) = give inside (giveAll inside s gifts) g := List.foldl_concat ..

theorem giveAllFrom (s : State κ β) (gifts : List (Gift κ β)) : giveAll inside s gifts =
    ⟨(giveAll inside ⟨s.waiting,[]⟩ gifts).waiting,
      s.delivered ++ (giveAll inside ⟨s.waiting,[]⟩ gifts).delivered⟩ := by
  induction gifts using List.reverseRecOn with
  | nil => simp [giveAll]
  | append_singleton gifts g ih =>
    rw [giveAllConcat,giveAllConcat,ih]
    unfold give
    split <;> simp

theorem giveAllAppend (s : State κ β) (gifts more : List (Gift κ β)) :
    giveAll inside s (gifts ++ more) = giveAll inside (giveAll inside s gifts) more :=
  List.foldl_append ..

/- Every key on the stack lies in all those below it. -/
def Nested (waiting : List (κ × β)) : Prop :=
  waiting.Pairwise fun upper lower => inside upper.1 lower.1

variable {inside}

theorem holdersHold (trans : ∀ a b c, inside a b → inside b c → inside a c) {k : κ}
    {waiting : List (κ × β)} (nested : Nested inside waiting) :
    ∀ e ∈ holders inside k waiting, inside k e.1 := by
  induction waiting with
  | nil => simp [holders]
  | cons top rest ih =>
    obtain ⟨above,nested⟩ := List.pairwise_cons.mp nested
    by_cases held : inside k top.1
    · have all : holders inside k (top :: rest) = top :: rest := by simp [holders,held]
      rw [all]
      exact List.forall_mem_cons.mpr ⟨held,fun e mem => trans _ _ _ held (above e mem)⟩
    · have fewer : holders inside k (top :: rest) = holders inside k rest := by
        simp [holders,held]
      rw [fewer]
      exact ih nested

theorem outsidersOutside (k : κ) (waiting : List (κ × β)) :
    ∀ e ∈ outsiders inside k waiting, ¬ inside k e.1 :=
  fun _ mem => by simpa using List.mem_takeWhile_imp mem

theorem outsidersHolders (k : κ) (waiting : List (κ × β)) :
    outsiders inside k waiting ++ holders inside k waiting = waiting :=
  List.takeWhile_append_dropWhile

theorem giveNested (trans : ∀ a b c, inside a b → inside b c → inside a c) {s : State κ β}
    (nested : Nested inside s.waiting) (g : Gift κ β) : Nested inside (give inside s g).waiting := by
  unfold give
  split
  · exact List.pairwise_cons.mpr ⟨holdersHold trans nested,
      nested.sublist (List.dropWhile_sublist _)⟩
  · exact nested

theorem giveAllNested (trans : ∀ a b c, inside a b → inside b c → inside a c) {s : State κ β}
    (nested : Nested inside s.waiting) (gifts : List (Gift κ β)) :
    Nested inside (giveAll inside s gifts).waiting := by
  induction gifts generalizing s with
  | nil => exact nested
  | cons g rest ih => exact ih (giveNested trans nested g)

end
section
variable (inside : κ → κ → Prop) [DecidableRel inside] [DecidableEq κ]

def since (d : κ) (gifts : List (Gift κ β)) : List (Gift κ β) :=
  gifts.rtakeWhile fun g => !g.late || inside g.key d

def oldest (d : κ) (gifts : List (Gift κ β)) : Option β :=
  (since inside d gifts).findSome? fun g => if g.late ∧ g.key = d then some g.value else none

variable {inside}

theorem oldestConcat (d : κ) (gifts : List (Gift κ β)) (g : Gift κ β) :
    oldest inside d (gifts ++ [g]) =
      if g.late then
        if inside g.key d then (oldest inside d gifts).or (if g.key = d then some g.value else none)
        else none
      else oldest inside d gifts := by
  unfold oldest since
  rw [List.rtakeWhile_concat]
  cases late : g.late with
  | false => simp [List.findSome?_append,late]
  | true => by_cases held : inside g.key d <;> simp [List.findSome?_append,late,held]

variable (trans : ∀ a b c, inside a b → inside b c → inside a c)
include trans

theorem holdersOf {waiting : List (κ × β)} (nested : Nested inside waiting) (k d : κ) :
    lastOf d (holders inside k waiting) = if inside k d then lastOf d waiting else none := by
  by_cases held : inside k d
  · have stay : lastOf d (outsiders inside k waiting) = none :=
      lastOfNone fun e mem same => outsidersOutside _ _ e mem (same ▸ held)
    have whole := lastOfAppend d (outsiders inside k waiting) (holders inside k waiting)
    rw [outsidersHolders,stay,Option.or_none] at whole
    rw [if_pos held,whole]
  · rw [if_neg held]
    exact lastOfNone fun e mem same => held (same ▸ holdersHold trans nested e mem)

variable (refl : ∀ k, inside k k)
include refl

theorem waitingOldest (d : κ) (gifts : List (Gift κ β)) :
    lastOf d (giveAll inside ⟨[],[]⟩ gifts).waiting = oldest inside d gifts := by
  induction gifts using List.reverseRecOn with
  | nil => rfl
  | append_singleton gifts g ih =>
    have nested := @giveAllNested _ _ inside _ trans ⟨[],[]⟩ .nil gifts
    rw [giveAllConcat,oldestConcat,← ih]
    cases late : g.late with
    | false => simp [give,late]
    | true =>
      have next (s : State κ β) :
          (give inside s g).waiting = (g.key,g.value) :: holders inside g.key s.waiting := by
        simp [give,late]
      rw [next,lastOfCons,holdersOf trans nested]
      by_cases held : inside g.key d
      · simp [held]
      · have other : g.key ≠ d := fun same => held (same ▸ refl g.key)
        simp [held,other]

theorem totalAfter {s : State κ β} (nested : Nested inside s.waiting) (g : Gift κ β) (d : κ) :
    lastOf d ((give inside s g).delivered ++ (give inside s g).waiting) =
      if g.key = d then some ((lastOf d s.waiting).getD g.value)
      else lastOf d (s.delivered ++ s.waiting) := by
  have whole := lastOfAppend d (outsiders inside g.key s.waiting) (holders inside g.key s.waiting)
  rw [outsidersHolders] at whole
  unfold give
  cases late : g.late with
  | false =>
    by_cases same : g.key = d <;> cases waits : lastOf d s.waiting <;>
      simp [lastOfAppend,lastOfCons,same,waits]
  | true =>
    by_cases same : g.key = d
    · have held : inside d d := refl d
      cases waits : lastOf d s.waiting <;>
        simp [lastOfAppend,lastOfCons,holdersOf trans nested,held,same,waits]
    · simp [lastOfAppend,lastOfCons,same,whole,Option.or_assoc]

/- The value that is delivered last is the oldest one that the last gift finds waiting. -/
theorem lastEverything {d : κ} {before after : List (Gift κ β)} {g : Gift κ β} (names : g.key = d)
    (silent : ∀ h ∈ after, h.key ≠ d) : lastOf d (everything inside (before ++ g :: after)) =
      some ((oldest inside d before).getD g.value) := by
  have nested (gifts : List (Gift κ β)) := @giveAllNested _ _ inside _ trans ⟨[],[]⟩ .nil gifts
  induction after using List.reverseRecOn with
  | nil =>
    rw [everything,giveAllConcat,totalAfter trans refl (nested before),if_pos names,
      ← waitingOldest trans refl]
  | append_singleton after h ih =>
    have other : h.key ≠ d := silent h (by simp)
    rw [← ih fun x mem => silent x (by simp [mem])]
    rw [← List.cons_append,← List.append_assoc,everything,giveAllConcat,
      totalAfter trans refl (nested _),if_neg other]
    rfl

end
end LxRunOffline.Postponed
