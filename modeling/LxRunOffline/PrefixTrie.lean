import Mathlib.Logic.Function.Basic

/-! Tries that decide whether an input starts with one of finitely many patterns, over any
alphabet. A node is a number; the value zero on an edge ends a pattern, which is why the root
is never the target of an edge. Patterns are non-empty and none is a proper prefix of another. -/
namespace LxRunOffline

variable {α : Type}

structure Trie (α : Type) where
  size : Nat
  next : Nat → α → Option Nat

namespace Trie

def empty : Trie α := ⟨1,fun _ _ => none⟩

def link [DecidableEq α] (t : Trie α) (node : Nat) (a : α) (target : Nat) : Trie α :=
  {t with next := fun i b => if i = node ∧ b = a then some target else t.next i b}

def grow (t : Trie α) : Trie α := {t with size := t.size+1}

def insert [DecidableEq α] (t : Trie α) (node : Nat) : List α → Trie α
  | [] => t
  | [a] => t.link node a 0
  | a :: b :: rest => match t.next node a with
    | some target => t.insert target (b :: rest)
    | none => (t.link node a t.size).grow.insert t.size (b :: rest)

def build [DecidableEq α] (patterns : List (List α)) : Trie α :=
  patterns.foldl (fun t pattern => t.insert 0 pattern) empty

def Extends (patterns : List (List α)) (word : List α) : Prop :=
  ∃ pattern ∈ patterns, word <+: pattern ∧ word ≠ pattern

structure PrefixFree (patterns : List (List α)) : Prop where
  nonempty : [] ∉ patterns
  free : ∀ pattern ∈ patterns, ¬ Extends patterns pattern

/-- Every node stands for the word that leads to it. The patterns in `whole` may occur in the
trie, those in `stored` all do. -/
structure Labels (whole stored : List (List α)) (t : Trie α) (word : Nat → List α) : Prop where
  root : word 0 = []
  inhabited : 0 < t.size
  blank : ∀ i a, t.size ≤ i → t.next i a = none
  stop : ∀ i a, t.next i a = some 0 → word i ++ [a] ∈ whole
  step : ∀ i a j, t.next i a = some j → j ≠ 0 →
    j < t.size ∧ word j = word i ++ [a] ∧ Extends whole (word j)
  parent : ∀ j, 0 < j → j < t.size → ∃ i a, t.next i a = some j
  unique : ∀ i j, i < t.size → j < t.size → word i = word j → i = j
  full : ∀ i a, i < t.size → t.next i a = none → ∀ pattern ∈ stored, ¬ word i ++ [a] <+: pattern

theorem emptyLabels (whole : List (List α)) : Labels whole [] (empty : Trie α) (fun _ => []) where
  root := rfl
  inhabited := by simp [empty]
  blank := by simp [empty]
  stop := by simp [empty]
  step := by simp [empty]
  parent := by intro j positive bound; simp only [empty] at bound; omega
  unique := by intro i j hi hj _; simp only [empty] at hi hj; omega
  full := by simp

variable {whole stored : List (List α)} {t : Trie α} {word : Nat → List α}

theorem Labels.inside (h : Labels whole stored t word) {i a j} (edge : t.next i a = some j) :
    i < t.size := by
  by_contra outside
  rw [h.blank i a (by omega)] at edge
  contradiction

theorem Labels.fails (h : Labels whole whole t word) {i a} (inside : i < t.size)
    (absent : t.next i a = none) : word i ++ [a] ∉ whole ∧ ¬ Extends whole (word i ++ [a]) := by
  have none' := h.full i a inside absent
  exact ⟨fun mem => none' _ mem (List.prefix_refl _),fun ⟨p,mem,starts,_⟩ => none' p mem starts⟩

theorem sameEdge {u v : List α} {a b : α} (h : u ++ [a] = v ++ [b]) : u = v ∧ a = b := by
  simpa using List.append_inj' h rfl

theorem wordOfPrefix {u v rest : List α} {a b : α} (inside : u ++ [a] <+: v ++ b :: rest)
    (length : u.length = v.length) : u = v ∧ a = b := by
  have same := (List.prefix_of_prefix_length_le inside
    (⟨rest,by simp⟩ : v ++ [b] <+: v ++ b :: rest) (by simp [length])).eq_of_length
      (by simp [length])
  exact sameEdge same

theorem Labels.freshWord (h : Labels whole stored t word) {node : Nat} {a : α}
    (bound : node < t.size) (absent : t.next node a = none) {j : Nat} (inside : j < t.size) :
    word j ≠ word node ++ [a] := by
  intro same
  by_cases zero : j = 0
  · rw [zero,h.root] at same; simp at same
  · obtain ⟨i,b,edge⟩ := h.parent j (by omega) inside
    have through := (h.step i b j edge zero).2.1
    have ends := sameEdge (through.symm.trans same)
    have inode : i = node := h.unique i node (h.inside edge) bound ends.1
    rw [inode,ends.2,absent] at edge
    contradiction

def Along (t : Trie α) (word : Nat → List α) (node : Nat) (text : List α) : Prop :=
  ∀ i b, i < t.size → t.next i b = none → word i ++ [b] <+: text →
    (word node).length ≤ (word i).length

theorem Labels.deeper (h : Labels whole stored t word) {node : Nat} (bound : node < t.size)
    {a : α} {rest : List α} (along : Along t word node (word node ++ a :: rest)) {i : Nat} {c : α}
    (inside : i < t.size) (none' : t.next i c = none) (off : i = node → c ≠ a)
    (starts : word i ++ [c] <+: word node ++ a :: rest) :
    (word node).length + 1 ≤ (word i).length := by
  have long := along i c inside none' starts
  by_contra short
  have ends := wordOfPrefix starts (by omega)
  exact off (h.unique i node inside bound ends.1) ends.2

variable [DecidableEq α]

theorem growLabels (h : Labels whole stored t word) {node : Nat} {a : α} (bound : node < t.size)
    (absent : t.next node a = none) (extends' : Extends whole (word node ++ [a])) :
    Labels whole stored (t.link node a t.size).grow
      (Function.update word t.size (word node ++ [a])) := by
  have positive := h.inhabited
  have old : ∀ i, i < t.size → Function.update word t.size (word node ++ [a]) i = word i :=
    fun i hi => Function.update_of_ne (by omega) _ _
  have fresh : ∀ j, j < t.size → word j ≠ word node ++ [a] :=
    fun _ => h.freshWord bound absent
  constructor
  case root => rw [old 0 positive,h.root]
  case inhabited => simp [grow]
  case blank =>
    intro i b outside
    simp only [grow,link] at outside ⊢
    rw [if_neg (by omega)]
    exact h.blank i b (by omega)
  case stop =>
    intro i b edge
    simp only [grow,link] at edge
    split at edge
    · simp only [Option.some.injEq] at edge; omega
    · rw [old i (h.inside edge)]; exact h.stop i b edge
  case step =>
    intro i b j edge nonzero
    simp only [grow,link] at edge ⊢
    split at edge
    · rename_i here
      cases Option.some.inj edge
      rw [Function.update_self,old i (by omega),here.1,here.2]
      exact ⟨by omega,rfl,extends'⟩
    · have inside := h.step i b j edge nonzero
      rw [old j inside.1,old i (h.inside edge)]
      exact ⟨by omega,inside.2⟩
  case parent =>
    intro j hpos hj
    simp only [grow,link] at hj ⊢
    by_cases last : j = t.size
    · exact ⟨node,a,by simp [last]⟩
    · obtain ⟨i,b,edge⟩ := h.parent j hpos (by omega)
      refine ⟨i,b,?_⟩
      rw [if_neg]
      · exact edge
      · rintro ⟨rfl,rfl⟩
        rw [absent] at edge
        contradiction
  case unique =>
    intro i j hi hj same
    simp only [grow,link] at hi hj
    by_cases li : i = t.size <;> by_cases lj : j = t.size
    · omega
    · rw [li,Function.update_self,old j (by omega)] at same
      exact absurd same.symm (fresh j (by omega))
    · rw [lj,Function.update_self,old i (by omega)] at same
      exact absurd same (fresh i (by omega))
    · rw [old i (by omega),old j (by omega)] at same
      exact h.unique i j (by omega) (by omega) same
  -- A pattern behind the new node would lie behind the edge that its parent lacked.
  case full =>
    intro i b hi none' pattern mem
    simp only [grow,link] at hi none'
    split at none'
    · contradiction
    · by_cases last : i = t.size
      · rw [last,Function.update_self]
        intro inside
        exact h.full node a bound absent pattern mem
          ((List.prefix_append (word node ++ [a]) [b]).trans inside)
      · rw [old i (by omega)]
        exact h.full i b (by omega) none' pattern mem

theorem stopLabels (h : Labels whole stored t word) (free : PrefixFree whole) {node : Nat} {a : α}
    (bound : node < t.size) (pattern : word node ++ [a] ∈ whole)
    (along : Along t word node (word node ++ [a])) :
    Labels whole ((word node ++ [a]) :: stored) (t.link node a 0) word where
  root := h.root
  inhabited := h.inhabited
  blank := by
    intro i b outside
    simp only [link] at outside ⊢
    rw [if_neg (by omega)]
    exact h.blank i b outside
  stop := by
    intro i b edge
    simp only [link] at edge
    split at edge
    · rename_i here; rw [here.1,here.2]; exact pattern
    · exact h.stop i b edge
  step := by
    intro i b j edge nonzero
    simp only [link] at edge
    split at edge
    · cases Option.some.inj edge; contradiction
    · exact h.step i b j edge nonzero
  parent := by
    intro j positive inside
    obtain ⟨i,b,edge⟩ := h.parent j positive inside
    refine ⟨i,b,?_⟩
    simp only [link]
    rw [if_neg]
    · exact edge
    · rintro ⟨rfl,rfl⟩
      have through := h.step i b j edge (by omega)
      rw [through.2.1] at through
      exact free.free _ pattern through.2.2
  unique := h.unique
  full := by
    intro i b inside none' p mem
    simp only [link] at inside none'
    split at none'
    · contradiction
    · rename_i elsewhere
      rcases List.mem_cons.mp mem with rfl | old
      · intro starts
        have long := along i b inside none' starts
        have short := starts.length_le
        simp only [List.length_append,List.length_singleton] at short
        have ends := wordOfPrefix starts (by omega)
        exact elsewhere ⟨h.unique i node inside bound ends.1,ends.2⟩
      · exact h.full i b inside none' p old

theorem insertLabels (free : PrefixFree whole) (t : Trie α) (word : Nat → List α) (node : Nat)
    (rest : List α) (some' : rest ≠ []) (h : Labels whole stored t word) (bound : node < t.size)
    (pattern : word node ++ rest ∈ whole) (along : Along t word node (word node ++ rest)) :
    ∃ word', Labels whole ((word node ++ rest) :: stored) (t.insert node rest) word' := by
  induction rest generalizing t node word with
  | nil => contradiction
  | cons a rest ih =>
    cases rest with
    | nil => exact ⟨word,stopLabels h free bound pattern along⟩
    | cons b rest =>
      have regroup : word node ++ a :: b :: rest = (word node ++ [a]) ++ b :: rest := by simp
      have extends' : Extends whole (word node ++ [a]) :=
        ⟨_,pattern,⟨b :: rest,by simp⟩,by simp⟩
      cases edge : t.next node a with
      | some target =>
        have nonzero : target ≠ 0 := by
          intro zero
          rw [zero] at edge
          exact free.free _ (h.stop node a edge) extends'
        have through := h.step node a target edge nonzero
        have result := ih t word target (by simp) h through.1
          (by rw [through.2.1,← regroup]; exact pattern)
          (by
            intro i c inside none' starts
            rw [through.2.1] at starts ⊢
            rw [← regroup] at starts
            have off : i = node → c ≠ a := by
              rintro rfl rfl
              rw [edge] at none'
              contradiction
            simpa using h.deeper bound along inside none' off starts)
        rw [through.2.1,← regroup] at result
        simpa only [insert,edge] using result
      | none =>
        have grown := growLabels h bound edge extends'
        have label : Function.update word t.size (word node ++ [a]) t.size = word node ++ [a] :=
          Function.update_self ..
        have result := ih (t.link node a t.size).grow
          (Function.update word t.size (word node ++ [a])) t.size (by simp) grown
          (by simp [grow,link])
          (by rw [label,← regroup]; exact pattern)
          (by
            intro i c inside none' starts
            rw [label] at starts ⊢
            rw [← regroup] at starts
            simp only [grow,link] at inside none'
            split at none'
            · contradiction
            · rename_i elsewhere
              by_cases last : i = t.size
              · exact Nat.le_of_eq (by rw [last,label])
              · rw [Function.update_of_ne last] at starts ⊢
                simpa using h.deeper bound along (by omega) none'
                  (fun hi hc => elsewhere ⟨hi,hc⟩) starts)
        rw [label,← regroup] at result
        simpa only [insert,edge] using result

theorem foldLabels (free : PrefixFree whole) (patterns : List (List α))
    (inside : ∀ pattern ∈ patterns, pattern ∈ whole) (h : Labels whole stored t word) :
    ∃ word', Labels whole (patterns.reverse ++ stored)
      (patterns.foldl (fun t pattern => t.insert 0 pattern) t) word' := by
  induction patterns generalizing t stored word with
  | nil => exact ⟨word,h⟩
  | cons pattern rest ih =>
    have mem := inside pattern (by simp)
    have inserted := insertLabels free t word 0 pattern
      (fun nil => free.nonempty (nil ▸ mem)) h h.inhabited (by rw [h.root]; exact mem)
      (by intro i b _ _ _; rw [h.root]; exact Nat.zero_le _)
    rw [h.root] at inserted
    obtain ⟨word',labels⟩ := inserted
    obtain ⟨word'',done⟩ := ih (fun p hp => inside p (by simp [hp])) labels
    exact ⟨word'',by simpa using done⟩

theorem buildLabels {patterns : List (List α)} (free : PrefixFree patterns) :
    ∃ word, Labels patterns patterns (build patterns) word := by
  obtain ⟨word,h⟩ := foldLabels free patterns (fun _ mem => mem) (emptyLabels patterns)
  rw [List.append_nil] at h
  have full := fun i a inside none' p mem => h.full i a inside none' p (List.mem_reverse.mpr mem)
  exact ⟨word,{h with full := full}⟩

end Trie
end LxRunOffline
