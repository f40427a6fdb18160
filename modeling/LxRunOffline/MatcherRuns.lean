import LxRunOffline.PrefixMatcher

/-! What `prefix_matcher` answers to a whole input, when it is new or has been reset: it speaks up
once, at the first unit that completes a pattern or can belong to none. -/
namespace LxRunOffline.PrefixMatcher

def feed (m : PrefixMatcher) (input : Wstr) : PrefixMatcher := input.foldl (fun m c => (m.move c).2) m

inductive Used (patterns : List Wstr) : PrefixMatcher → Prop
  | new : Used patterns (new patterns)
  | move {m : PrefixMatcher} (h : Used patterns m) (c : WChar) : Used patterns (m.move c).2
  | reset {m : PrefixMatcher} (h : Used patterns m) : Used patterns m.reset

theorem Used.renewed {patterns : List Wstr} {m : PrefixMatcher} (h : Used patterns m) :
    m.reset = PrefixMatcher.new patterns := by
  induction h with
  | new => rfl
  | move h c ih => rw [resetMove,ih]
  | reset h ih => rw [resetReset,ih]

def Decides (patterns : List Wstr) (word : Wstr) : Prop :=
  word ∈ patterns ∨ ∀ q ∈ patterns, ¬ word <+: q

def Decided (patterns : List Wstr) (input : Wstr) : Prop :=
  ∃ word, word ≠ [] ∧ word <+: input ∧ Decides patterns word

/- The answer to the unit `c` behind the input. After a success nothing begins a pattern any more,
and the matcher keeps silent all the same. -/
structure Answers (patterns : List Wstr) (input : Wstr) (c : WChar) (result : MatchResult) : Prop where
  succeeded : result = .succeeded ↔ ¬ Decided patterns input ∧ input ++ [c] ∈ patterns
  failed : result = .failed ↔ ¬ Decided patterns input ∧ ∀ q ∈ patterns, ¬ input ++ [c] <+: q
  unknown : result = .unknown ↔ Decided patterns input ∨ ¬ Decides patterns (input ++ [c])

variable {patterns : List Wstr} {m : PrefixMatcher} {input : Wstr}

theorem answersRest {c : WChar} {result : MatchResult}
    (succeeded : result = .succeeded ↔ ¬ Decided patterns input ∧ input ++ [c] ∈ patterns)
    (failed : result = .failed ↔ ¬ Decided patterns input ∧ ∀ q ∈ patterns, ¬ input ++ [c] <+: q) :
    Answers patterns input c result := by
  refine ⟨succeeded,failed,?_⟩
  have others : result = .unknown ↔ ¬ (result = .succeeded ∨ result = .failed) := by
    cases result <;> decide
  rw [others,succeeded,failed,← and_or_left,not_and_or,not_not]
  rfl

theorem feedReading (free : Trie.PrefixFree patterns) {word : Wstr} (h : Reading patterns m word)
    (input : Wstr) : Reading patterns (m.feed input) (word ++ input) := by
  induction input generalizing m word with
  | nil => rwa [List.append_nil]
  | cons c rest ih =>
    have next := ih (moveVerdict free h c).next
    rwa [List.append_assoc,List.singleton_append] at next

theorem decidedReading (free : Trie.PrefixFree patterns) (some' : patterns ≠ []) :
    Decided patterns input ↔ Hits patterns input ∨ Leaves patterns input := by
  constructor
  · rintro ⟨word,-,starts,decides⟩
    by_cases hits : Hits patterns input
    · exact .inl hits
    · refine .inr fun q mem => ⟨fun under => hits ⟨q,mem,under⟩,fun longer => ?_⟩
      rcases decides with own | apart
      · exact hits ⟨word,own,starts⟩
      · exact apart q mem (starts.trans longer)
  · rintro (⟨q,mem,under⟩ | leaves)
    · exact ⟨q,fun empty => free.nonempty (empty ▸ mem),under,.inl mem⟩
    · obtain ⟨q,mem⟩ := List.exists_mem_of_ne_nil patterns some'
      refine ⟨input,fun empty => (leaves q mem).2 ?_,List.prefix_refl _,.inr fun p inside => (leaves p inside).2⟩
      exact empty ▸ List.nil_prefix

theorem answersReading (free : Trie.PrefixFree patterns) (some' : patterns ≠ [])
    (h : Reading patterns m input) (c : WChar) : Answers patterns input c (m.move c).1 := by
  have verdict := moveVerdict free h c
  refine answersRest (verdict.succeeds.trans ?_) (verdict.fails.trans ?_)
  · rw [decidedReading free some',not_or]
    refine ⟨fun ⟨early,hits⟩ => ?_,fun ⟨open',mem⟩ => ⟨open'.1,(hitsSnoc open'.1).mpr mem⟩⟩
    exact ⟨⟨early,fun leaves => (leaves.extend [c]).notHits hits⟩,(hitsSnoc early).mp hits⟩
  · rw [decidedReading free some',not_or]
    refine ⟨fun ⟨near,leaves⟩ => ?_,fun ⟨open',apart⟩ => ⟨open'.2,fun q mem => ⟨fun under => ?_,apart q mem⟩⟩⟩
    · exact ⟨⟨fun hits => (hits.extend [c]).notLeaves leaves,near⟩,fun q mem => (leaves q mem).2⟩
    · have whole := (hitsSnoc open'.1).mp ⟨q,mem,under⟩
      exact apart _ whole (List.prefix_refl _)

theorem feedDone (h : m.done = true) (input : Wstr) : m.feed input = m := by
  induction input with
  | nil => rfl
  | cons c rest ih =>
    have silent : (m.move c).2 = m := congrArg Prod.snd (moveDone h c)
    rw [feed,List.foldl_cons,silent]
    exact ih

theorem answersNothing (input : Wstr) (c : WChar) :
    Answers [] input c (((new []).feed input).move c).1 := by
  cases input with
  | nil =>
    have early : ¬ Decided [] [] := fun ⟨word,some',starts,_⟩ => some' (List.prefix_nil.mp starts)
    have refused : ((new []).move c).1 = .failed := rfl
    exact answersRest (by simp [feed,refused]) (by simp [feed,refused,early])
  | cons d rest =>
    have silent : (((new []).feed (d :: rest)).move c).1 = .unknown := by
      change ((((new []).move d).2.feed rest).move c).1 = .unknown
      rw [feedDone rfl,moveDone rfl]
    have decided : Decided [] (d :: rest) := ⟨[d],by simp,by simp,.inr (by simp)⟩
    exact answersRest (by simp [silent,decided]) (by simp [silent,decided])

/- The matcher decides at exactly the first unit that leaves no choice, whatever it was used for
before. -/
theorem decidesExactly (free : Trie.PrefixFree patterns) :
    (∀ m, Used patterns m → m.reset = new patterns) ∧
      ∀ input c, Answers patterns input c (((new patterns).feed input).move c).1 := by
  refine ⟨fun _ used => used.renewed,fun input c => ?_⟩
  by_cases none' : patterns = []
  · subst none'
    exact answersNothing input c
  · exact answersReading free none' (feedReading free (newReading free none') input) c

def homes : List Wstr := [wstr "home/",wstr "hosts",wstr "home/"]

theorem homesDecided :
    Answers homes (wstr "home") slash (((new homes).feed (wstr "home")).move slash).1 := by
  have free : Trie.PrefixFree homes := ⟨by decide,by unfold Trie.Extends; decide⟩
  exact (decidesExactly free).2 _ _

end LxRunOffline.PrefixMatcher
