import LxRunOffline.PrefixTrie
import LxRunOffline.Units

/-! `prefix_matcher` of path.cpp: a trie with a cursor that is decided at most once. -/
namespace LxRunOffline

inductive MatchResult where
  | failed
  | succeeded
  | unknown
  deriving DecidableEq, Repr

structure PrefixMatcher where
  trie : Trie WChar
  done : Bool
  pos : Nat

namespace PrefixMatcher

def new (patterns : List Wstr) : PrefixMatcher := ⟨Trie.build patterns,false,0⟩

def move (m : PrefixMatcher) (c : WChar) : MatchResult × PrefixMatcher :=
  if m.done then (.unknown,m) else
    match m.trie.next m.pos c with
    | none => (.failed,{m with done := true})
    | some 0 => (.succeeded,{m with done := true})
    | some (pos+1) => (.unknown,{m with pos := pos+1})

def reset (m : PrefixMatcher) : PrefixMatcher := {m with done := false, pos := 0}

@[simp] theorem resetReset (m : PrefixMatcher) : m.reset.reset = m.reset := rfl

@[simp] theorem resetMove (m : PrefixMatcher) (c : WChar) : (m.move c).2.reset = m.reset := by
  unfold move
  split
  · rfl
  · split <;> rfl

@[simp] theorem moveDone {m : PrefixMatcher} (h : m.done = true) (c : WChar) :
    m.move c = (.unknown,m) := by
  simp [move,h]

structure Tracks (patterns : List Wstr) (m : PrefixMatcher) (word : Wstr) : Prop where
  trie : m.trie = Trie.build patterns
  running : m.done = false
  label : ∃ words, Trie.Labels patterns patterns m.trie words ∧ m.pos < m.trie.size ∧
    words m.pos = word

theorem newTracks {patterns : List Wstr} (free : Trie.PrefixFree patterns) :
    Tracks patterns (new patterns) [] := by
  obtain ⟨words,h⟩ := Trie.buildLabels free
  exact ⟨rfl,rfl,words,h,h.inhabited,h.root⟩

/- The input has come to the end of a pattern, or has left every pattern. -/
def Hits (patterns : List Wstr) (word : Wstr) : Prop := ∃ q ∈ patterns, q <+: word
def Leaves (patterns : List Wstr) (word : Wstr) : Prop :=
  ∀ q ∈ patterns, ¬ q <+: word ∧ ¬ word <+: q

instance (patterns word) : Decidable (Hits patterns word) := by unfold Hits; infer_instance
instance (patterns word) : Decidable (Leaves patterns word) := by unfold Leaves; infer_instance

theorem Hits.extend {patterns : List Wstr} {word : Wstr} (h : Hits patterns word) (rest : Wstr) :
    Hits patterns (word ++ rest) := by
  obtain ⟨q,mem,starts⟩ := h
  exact ⟨q,mem,starts.trans (List.prefix_append word rest)⟩

theorem Leaves.extend {patterns : List Wstr} {word : Wstr} (h : Leaves patterns word)
    (rest : Wstr) : Leaves patterns (word ++ rest) := by
  intro q mem
  refine ⟨fun starts => ?_,fun starts => (h q mem).2 ((List.prefix_append word rest).trans starts)⟩
  rcases List.prefix_or_prefix_of_prefix starts (List.prefix_append word rest) with shorter | longer
  · exact (h q mem).1 shorter
  · exact (h q mem).2 longer

theorem Leaves.notHits {patterns : List Wstr} {word : Wstr} (h : Leaves patterns word) :
    ¬ Hits patterns word := fun ⟨q,mem,starts⟩ => (h q mem).1 starts

theorem Hits.notLeaves {patterns : List Wstr} {word : Wstr} (h : Hits patterns word) :
    ¬ Leaves patterns word := fun leaves => leaves.notHits h

theorem hitsOfExtends {patterns : List Wstr} (free : Trie.PrefixFree patterns) {word : Wstr}
    (h : Trie.Extends patterns word) : ¬ Hits patterns word ∧ ¬ Leaves patterns word := by
  obtain ⟨s,hs,starts,proper⟩ := h
  refine ⟨fun ⟨q,mem,under⟩ => ?_,fun leaves => (leaves s hs).2 starts⟩
  refine free.free q mem ⟨s,hs,under.trans starts,fun same => proper ?_⟩
  exact starts.eq_of_length_le (by rw [← same]; exact under.length_le)

theorem hitsSnoc {patterns : List Wstr} {word : Wstr} {c : WChar} (open' : ¬ Hits patterns word) :
    Hits patterns (word ++ [c]) ↔ word ++ [c] ∈ patterns := by
  refine ⟨fun ⟨q,mem,starts⟩ => ?_,fun mem => ⟨_,mem,List.prefix_refl _⟩⟩
  rcases List.prefix_concat_iff.mp starts with same | under
  · rw [← same]; exact mem
  · exact absurd ⟨q,mem,under⟩ open'

inductive Reading (patterns : List Wstr) (m : PrefixMatcher) (word : Wstr) : Prop
  | running (tracks : Tracks patterns m word) (early : ¬ Hits patterns word)
      (near : ¬ Leaves patterns word)
  | stopped (done : m.done = true) (decided : Hits patterns word ∨ Leaves patterns word)

theorem newReading {patterns : List Wstr} (free : Trie.PrefixFree patterns)
    (some' : patterns ≠ []) : Reading patterns (new patterns) [] := by
  obtain ⟨q,mem⟩ := List.exists_mem_of_ne_nil patterns some'
  refine .running (newTracks free) ?_ (fun leaves => (leaves q mem).2 (List.nil_prefix))
  rintro ⟨p,hp,starts⟩
  rw [List.prefix_nil.mp starts] at hp
  exact free.nonempty hp

structure Verdict (patterns : List Wstr) (m : PrefixMatcher) (word : Wstr) (c : WChar) : Prop where
  next : Reading patterns (m.move c).2 (word ++ [c])
  succeeds : (m.move c).1 = .succeeded ↔ ¬ Hits patterns word ∧ Hits patterns (word ++ [c])
  fails : (m.move c).1 = .failed ↔ ¬ Leaves patterns word ∧ Leaves patterns (word ++ [c])

theorem moveVerdict {patterns : List Wstr} (free : Trie.PrefixFree patterns) {m : PrefixMatcher}
    {word : Wstr} (h : Reading patterns m word) (c : WChar) : Verdict patterns m word c := by
  cases h with
  | stopped done decided =>
    have silent := moveDone done c
    refine ⟨?_,?_,?_⟩
    · rw [silent]
      exact .stopped done (decided.imp (fun h => h.extend [c]) (fun h => h.extend [c]))
    · rw [silent]
      rcases decided with hits | leaves
      · simp [hits]
      · simp [(leaves.extend [c]).notHits]
    · rw [silent]
      rcases decided with hits | leaves
      · simp [(hits.extend [c]).notLeaves]
      · simp [leaves]
  | running tracks early near =>
    obtain ⟨trie,running,words,labels,inside,rfl⟩ := tracks
    cases edge : m.trie.next m.pos c with
    | none =>
      have lost : m.move c = (.failed,{m with done := true}) := by simp [move,running,edge]
      obtain ⟨absent,apart⟩ := labels.fails inside edge
      have leaves : Leaves patterns (words m.pos ++ [c]) := fun q mem =>
        ⟨fun starts => absent ((hitsSnoc early).mp ⟨q,mem,starts⟩),
          fun starts => apart ⟨q,mem,starts,fun same => absent (same ▸ mem)⟩⟩
      exact ⟨lost ▸ .stopped rfl (.inr leaves),by simp [lost,leaves.notHits],
        by simp [lost,near,leaves]⟩
    | some target =>
      cases target with
      | zero =>
        have found : m.move c = (.succeeded,{m with done := true}) := by simp [move,running,edge]
        have hits := (hitsSnoc early).mpr (labels.stop m.pos c edge)
        exact ⟨found ▸ .stopped rfl (.inl hits),by simp [found,early,hits],
          by simp [found,hits.notLeaves]⟩
      | succ target =>
        have on : m.move c = (.unknown,{m with pos := target+1}) := by simp [move,running,edge]
        obtain ⟨bound,label,longer⟩ := labels.step m.pos c _ edge (by omega)
        rw [label] at longer
        obtain ⟨open',near'⟩ := hitsOfExtends free longer
        exact ⟨on ▸ .running ⟨trie,running,words,labels,bound,label⟩ open' near',
          by simp [on,open'],by simp [on,near']⟩

end PrefixMatcher
end LxRunOffline
