import LxRunOffline.PathCode

/-! What the units fed into an output object leave in it, and the units a source object feeds.
Every conversion starts by resetting its output, so an output that has served any conversions
before, successful or not, receives the same units as a newly built one. -/
namespace LxRunOffline
open PrefixMatcher (Hits Leaves Reading moveVerdict newReading)

namespace LinuxPath

theorem patternsFree : Trie.PrefixFree patterns where
  nonempty := by decide
  free := by unfold Trie.Extends; decide

def dataAfter (word : Wstr) : Wstr :=
  (if Hits patterns word then word.drop 7 else word).filter (· != 0)

theorem hitsOnly {word : Wstr} : Hits patterns word ↔ wstr "rootfs/" <+: word := by
  simp [Hits,patterns]

theorem dataAfterSnoc {word : Wstr} {c : WChar} (steady : Hits patterns (word ++ [c]) ↔
    Hits patterns word) : dataAfter (word ++ [c]) =
      if c ≠ 0 then dataAfter word ++ [c] else dataAfter word := by
  unfold dataAfter
  by_cases hits : Hits patterns word
  · have long : 7 ≤ word.length := (hitsOnly.mp hits).length_le
    rw [if_pos hits,if_pos (steady.mpr hits),List.drop_append_of_le_length long]
    by_cases zero : c = 0 <;> simp [zero]
  · rw [if_neg hits,if_neg (fun h => hits (steady.mp h))]
    by_cases zero : c = 0 <;> simp [zero]

theorem dataAfterHit {word : Wstr} {c : WChar} (early : ¬ Hits patterns word)
    (hits : Hits patterns (word ++ [c])) : dataAfter (word ++ [c]) = [] := by
  have whole : word ++ [c] = wstr "rootfs/" := by
    simpa [patterns] using (PrefixMatcher.hitsSnoc early).mp hits
  rw [dataAfter,if_pos hits,whole]
  decide

structure After (skip : Bool) (word : Wstr) (p : LinuxPath) : Prop where
  matcher : Reading patterns p.matcher word
  kept : ¬ Leaves patterns word
  data : p.data = dataAfter word
  skip : p.skip = skip

theorem newAfter : After false [] new :=
  ⟨newReading patternsFree (by decide),by decide,rfl,rfl⟩

theorem appendAfter {skip : Bool} {word : Wstr} {p : LinuxPath} (h : After skip word p) (c : WChar) :
    if Leaves patterns (word ++ [c]) then (p.append c).1 = false
    else (p.append c).1 = true ∧ After skip (word ++ [c]) (p.append c).2 := by
  have v := moveVerdict patternsFree h.matcher c
  have next := v.next
  have hFail := v.fails
  have hHit := v.succeeds
  unfold append
  cases hm : p.matcher.move c with
  | mk result m =>
    rw [hm] at next hFail hHit
    cases result with
    | failed => rw [if_pos (hFail.mp rfl).2]
    | succeeded =>
      have hits := hHit.mp rfl
      rw [if_neg hits.2.notLeaves]
      exact ⟨rfl,next,hits.2.notLeaves,(dataAfterHit hits.1 hits.2).symm,h.skip⟩
    | unknown =>
      have stays : ¬ Leaves patterns (word ++ [c]) := fun leaves => by
        simp [h.kept,leaves] at hFail
      have steady : Hits patterns (word ++ [c]) ↔ Hits patterns word :=
        ⟨fun hits => by_contra fun early => by simp [early,hits] at hHit,
          fun hits => hits.extend [c]⟩
      rw [if_neg stays]
      refine ⟨rfl,next,stays,?_,h.skip⟩
      rw [dataAfterSnoc steady,← h.data]

theorem feedAfter {skip : Bool} {word : Wstr} {p : LinuxPath} (h : After skip word p) (s : Wstr) :
    if Leaves patterns (word ++ s) then ((FilePath.linux p).appendText s).1 = false
    else ∃ q, (FilePath.linux p).appendText s = (true,.linux q) ∧ After skip (word ++ s) q := by
  induction s generalizing word p with
  | nil => simpa [h.kept,FilePath.appendText] using h
  | cons c s ih =>
    have one := appendAfter h c
    have regroup : word ++ c :: s = (word ++ [c]) ++ s := by simp
    split at one
    · rename_i leaves
      have all : Leaves patterns (word ++ c :: s) := by rw [regroup]; exact leaves.extend s
      simp [if_pos all,FilePath.appendText,FilePath.append,one]
    · have rest := ih one.2
      rw [← regroup] at rest
      simpa [FilePath.appendText,FilePath.append,one.1] using rest

theorem feedRooted {s : Wstr} (noNul : 0 ∉ s) :
    ∃ q, (FilePath.linux new).appendText (wstr "rootfs/" ++ s ++ [0]) = (true,.linux q) ∧
      q.data = s ∧ q.skip = false := by
  have hits : Hits patterns (wstr "rootfs/" ++ s ++ [0]) := by
    rw [hitsOnly,List.append_assoc]
    exact List.prefix_append _ _
  have fed := feedAfter newAfter (wstr "rootfs/" ++ s ++ [0])
  rw [List.nil_append,if_neg hits.notLeaves] at fed
  obtain ⟨q,same,after⟩ := fed
  have kept : s.filter (· != 0) = s :=
    List.filter_eq_self.mpr fun c mem => by simpa using ne_of_mem_of_not_mem mem noNul
  have data : dataAfter (wstr "rootfs/" ++ s ++ [0]) = s := by
    rw [dataAfter,if_pos hits,List.append_assoc,List.drop_left' (by decide),List.filter_append,kept]
    exact List.append_nil _
  exact ⟨q,same,after.data.trans data,after.skip⟩

end LinuxPath

namespace WslPath

theorem feedV1 (p : WslPath) (s : Wstr) : (FilePath.wslV1 p).appendText s =
    (true,.wslV1 {p with rel := p.rel ++ WslV1Path.code.encode s}) := by
  induction s generalizing p with
  | nil => simp [FilePath.appendText]
  | cons c s ih =>
    simp only [FilePath.appendText,FilePath.append,WslV1Path.append,appendCode,ih,
      PrefixCode.encodeCons,List.append_assoc]
    rfl

theorem feedV2 (p : WslPath) (s : Wstr) : (FilePath.wslV2 p).appendText s =
    (true,.wslV2 {p with rel := p.rel ++ WslV2Path.code.encode s}) := by
  induction s generalizing p with
  | nil => simp [FilePath.appendText]
  | cons c s ih =>
    simp only [FilePath.appendText,FilePath.append,WslV2Path.append,appendCode,ih,
      PrefixCode.encodeCons,List.append_assoc]
    rfl

end WslPath

namespace WslLegacyPath

theorem patterns1Free : Trie.PrefixFree patterns1 where
  nonempty := by decide
  free := by unfold Trie.Extends; decide

theorem patterns2Free : Trie.PrefixFree patterns2 where
  nonempty := by decide
  free := by unfold Trie.Extends; decide

def relAfter (word : Wstr) : Wstr :=
  if Hits patterns2 word then (WslV1Path.code.encode word).drop 7 else WslV1Path.code.encode word

theorem longEncoding {word : Wstr} (hits : Hits patterns2 word) :
    7 ≤ (WslV1Path.code.encode word).length := by
  obtain ⟨q,mem,rest,same⟩ := hits
  have all : ∀ q ∈ patterns2, 7 ≤ (WslV1Path.code.encode q).length := by decide
  have long := all q mem
  rw [← same,PrefixCode.encodeAppend,List.length_append]
  omega

structure After (base word : Wstr) (p : WslLegacyPath) : Prop where
  matcher1 : Reading patterns1 p.matcher1 word
  matcher2 : Reading patterns2 p.matcher2 word
  free : ¬ Hits patterns1 word
  base : p.base = base
  rel : p.rel = relAfter word

theorem newAfter (base : Wstr) : After base [] (new base) :=
  ⟨newReading patterns1Free (by decide),newReading patterns2Free (by decide),by decide,rfl,rfl⟩

theorem relAfterSnoc {word : Wstr} {c : WChar} (steady : Hits patterns2 (word ++ [c]) ↔
    Hits patterns2 word) : relAfter (word ++ [c]) = relAfter word ++ WslV1Path.code.code c := by
  unfold relAfter
  by_cases hits : Hits patterns2 word
  · rw [if_pos hits,if_pos (steady.mpr hits),PrefixCode.encodeAppend,
      List.drop_append_of_le_length (longEncoding hits)]
    simp
  · rw [if_neg hits,if_neg (fun h => hits (steady.mp h)),PrefixCode.encodeAppend]
    simp

theorem relAfterHit {word : Wstr} {c : WChar} (early : ¬ Hits patterns2 word)
    (hits : Hits patterns2 (word ++ [c])) :
    relAfter (word ++ [c]) = (relAfter word ++ WslV1Path.code.code c).drop 7 := by
  rw [relAfter,relAfter,if_pos hits,if_neg early,PrefixCode.encodeAppend]
  simp

theorem appendAfter {base word : Wstr} {p : WslLegacyPath} (h : After base word p) (c : WChar) :
    if Hits patterns1 (word ++ [c]) then (p.append c).1 = false
    else (p.append c).1 = true ∧ After base (word ++ [c]) (p.append c).2 := by
  have v1 := moveVerdict patterns1Free h.matcher1 c
  have v2 := moveVerdict patterns2Free h.matcher2 c
  have coded : WslV1Path.append p.toWslPath c =
      {p.toWslPath with rel := p.rel ++ WslV1Path.code.code c} := WslPath.appendCode ..
  unfold append
  rw [coded]
  obtain ⟨next1,hit1,_⟩ := v1
  obtain ⟨next2,hit2,_⟩ := v2
  cases hm1 : p.matcher1.move c with
  | mk result1 m1 =>
    cases hm2 : p.matcher2.move c with
    | mk result2 m2 =>
      rw [hm1] at next1 hit1
      rw [hm2] at next2 hit2
      by_cases stop : Hits patterns1 (word ++ [c])
      · have found : result1 = .succeeded := hit1.mpr ⟨h.free,stop⟩
        simp [if_pos stop,found]
      · have quiet : result1 ≠ .succeeded := fun same => stop (hit1.mp same).2
        have reached (rel : Wstr) (same : rel = relAfter (word ++ [c])) :
            After base (word ++ [c]) ⟨⟨p.base,rel⟩,m1,m2⟩ := ⟨next1,next2,stop,h.base,same⟩
        rw [if_neg stop]
        by_cases move : result2 = .succeeded
        · have hits := hit2.mp move
          have cut := relAfterHit hits.1 hits.2
          rw [← h.rel] at cut
          subst move
          cases result1 <;> first | contradiction | exact ⟨rfl,reached _ cut.symm⟩
        · have steady : Hits patterns2 (word ++ [c]) ↔ Hits patterns2 word :=
            ⟨fun hits => by_contra fun early => move (hit2.mpr ⟨early,hits⟩),
              fun hits => hits.extend [c]⟩
          have longer := relAfterSnoc steady
          rw [← h.rel] at longer
          cases result1 <;> cases result2 <;>
            first | contradiction | exact ⟨rfl,reached _ longer.symm⟩

theorem feedAfter {base word : Wstr} {p : WslLegacyPath} (h : After base word p) (s : Wstr) :
    if Hits patterns1 (word ++ s) then ((FilePath.wslLegacy p).appendText s).1 = false
    else ∃ q, (FilePath.wslLegacy p).appendText s = (true,.wslLegacy q) ∧
      After base (word ++ s) q := by
  induction s generalizing word p with
  | nil => simpa [h.free,FilePath.appendText] using h
  | cons c s ih =>
    have one := appendAfter h c
    have regroup : word ++ c :: s = (word ++ [c]) ++ s := by simp
    split at one
    · rename_i hits
      have all : Hits patterns1 (word ++ c :: s) := by rw [regroup]; exact hits.extend s
      simp [if_pos all,FilePath.appendText,FilePath.append,one]
    · have rest := ih one.2
      rw [← regroup] at rest
      simpa [FilePath.appendText,FilePath.append,one.1] using rest

theorem freeRootfs (s : Wstr) : ¬ Hits patterns1 (wstr "rootfs/" ++ s) := by
  rintro ⟨q,mem,starts⟩
  have all : ∀ q ∈ patterns1, q.length ≤ 7 ∧ ¬ q <+: wstr "rootfs/" := by decide
  obtain ⟨short,apart⟩ := all q mem
  exact apart (List.prefix_of_prefix_length_le starts (List.prefix_append _ _) short)

theorem feedRooted (base s : Wstr) :
    ∃ q, (FilePath.wslLegacy (new base)).appendText (wstr "rootfs/" ++ s ++ [0]) =
      (true,.wslLegacy q) ∧ After base (wstr "rootfs/" ++ s ++ [0]) q := by
  have fed := feedAfter (newAfter base) (wstr "rootfs/" ++ s ++ [0])
  rw [List.nil_append,List.append_assoc,if_neg (freeRootfs _),← List.append_assoc] at fed
  exact fed

end WslLegacyPath

namespace FilePath

@[simp] theorem resetAppend (p : FilePath) (c : WChar) : (p.append c).2.reset = p.reset := by
  cases p with
  | linux p =>
    have matcher := PrefixMatcher.resetMove p.matcher c
    simp only [append,LinuxPath.append,reset,LinuxPath.reset]
    split <;> simp_all
  | wslV1 p => simp [append,reset,WslV1Path.append,WslPath.appendCode,WslPath.reset]
  | wslV2 p => simp [append,reset,WslV2Path.append,WslPath.appendCode,WslPath.reset]
  | wslLegacy p =>
    have m1 := PrefixMatcher.resetMove p.matcher1 c
    have m2 := PrefixMatcher.resetMove p.matcher2 c
    simp only [append,reset,WslLegacyPath.append,WslLegacyPath.reset,WslV1Path.append,
      WslPath.appendCode,WslPath.reset]
    split
    · simp_all
    · split <;> simp_all

theorem resetAppendText (p : FilePath) (s : Wstr) : (p.appendText s).2.reset = p.reset := by
  induction s generalizing p with
  | nil => rfl
  | cons c s ih =>
    have one := resetAppend p c
    rw [appendText]
    cases h : p.append c with
    | mk ok next =>
      rw [h] at one
      cases ok with
      | true => exact (ih next).trans one
      | false => exact one

theorem resetReset (p : FilePath) : p.reset.reset = p.reset := by
  cases p <;> rfl

theorem keepsBoth {inv : FilePath → Prop} {x y : Program Stop FilePath Bool}
    (hx : Program.Keeps inv x) (hy : Program.Keeps inv y) :
    Program.Keeps inv (Program.both x y) :=
  Program.Triple.bind hx fun _ => Program.Triple.ite (fun _ => hy) (fun _ => fun _ h => h)

theorem realConvertKeeps (special : WChar → Bool)
    (convertSpecial : WChar → Wstr → Except Stop (WChar × Nat)) (skipped : Nat) (rel : Wstr)
    (start : FilePath) :
    Program.Keeps (fun out => out.reset = start) (realConvert special convertSpecial skipped rel) := by
  have unit : ∀ c, Program.Keeps (fun out => out.reset = start) (put c) :=
    fun c out h => (resetAppend out c).trans h
  induction rel generalizing skipped with
  | nil => simpa [realConvert] using unit 0
  | cons c rest ih =>
    cases skipped with
    | succ skipped => exact ih skipped
    | zero =>
      unfold realConvert
      refine Program.Triple.ite (fun _ => ?_) (fun _ => keepsBoth (unit _) (ih 0))
      split
      · exact fun _ h => h
      · exact keepsBoth (unit _) (ih _)

theorem convertKeeps (src start : FilePath) :
    Program.Keeps (fun out => out.reset = start) src.convert := by
  have text : ∀ s, Program.Keeps (fun out => out.reset = start) (putText s) :=
    fun s out h => (resetAppendText out s).trans h
  have unit : ∀ c, Program.Keeps (fun out => out.reset = start) (put c) :=
    fun c out h => (resetAppend out c).trans h
  have clear : Program.Keeps (fun out => out.reset = start)
      (Program.modify reset : Program Stop FilePath Unit) :=
    fun out h => (resetReset out).trans h
  cases src with
  | linux p =>
    refine Program.Triple.ite (fun _ => fun _ h => h) (fun _ => Program.Triple.bind clear fun _ => ?_)
    exact keepsBoth (text _) (keepsBoth (text _) (unit 0))
  | wslV1 p => exact Program.Triple.bind clear fun _ => realConvertKeeps _ _ _ _ _
  | wslV2 p => exact Program.Triple.bind clear fun _ => realConvertKeeps _ _ _ _ _
  | wslLegacy p =>
    refine Program.Triple.ite (fun _ => fun _ h => h) (fun _ => Program.Triple.bind clear fun _ => ?_)
    exact Program.Triple.ite (fun _ => keepsBoth (text _) (realConvertKeeps _ _ _ _ _))
      (fun _ => realConvertKeeps _ _ _ _ _)

/- An object of the given format that has been the output of any conversions since it was built. -/
inductive Served (format : Format) (base : Wstr) : FilePath → Prop
  | fresh : Served format base (format.fresh base)
  | used (src : FilePath) {out : FilePath} (before : Served format base out) :
      Served format base (src.convert out).2

theorem servedReset {format : Format} {base : Wstr} {out : FilePath} (h : Served format base out) :
    out.reset = format.fresh base := by
  induction h with
  | fresh => cases format <;> rfl
  | @used src out before ih =>
    have kept := convertKeeps src (format.fresh base) out ih
    revert kept
    cases src.convert out with
    | mk outcome t => cases outcome <;> exact id

def Streams (src : FilePath) (s : Wstr) : Prop := ∀ out, src.convert out = putText s out.reset

theorem linuxStreams {p : LinuxPath} (shown : p.skip = false) :
    Streams (.linux p) (wstr "rootfs/" ++ p.data ++ [0]) := by
  intro out
  simp only [convert,linuxConvert,shown,Bool.false_eq_true,↓reduceIte]
  rw [← putTextSingle,putTextAppend,putTextAppend,Program.bindRun]
  simp

theorem encodedStreams {special : WChar → Bool}
    {convertSpecial : WChar → Wstr → Except Stop (WChar × Nat)} {k : PrefixCode WChar WChar}
    (reads : k.read = WslPath.read special convertSpecial) {s : Wstr}
    (exact' : ∀ c ∈ s, k.Exact c) :
    realConvert special convertSpecial 0 (k.encode s) = putText (s ++ [0]) := by
  have whole := realConvertEncoded reads exact' []
  rw [List.append_nil] at whole
  rw [whole,← putTextAppend,putTextSingle]
  rfl

theorem v1Streams {p : WslPath} {s : Wstr} (noNul : 0 ∉ s) (coded : p.rel = WslV1Path.code.encode s) :
    Streams (.wslV1 p) (s ++ [0]) := by
  intro out
  have text : realConvertV1 p.rel = putText (s ++ [0]) := by
    rw [coded]
    exact encodedStreams rfl fun c hc => WslV1Path.codeExact (ne_of_mem_of_not_mem hc noNul)
  simp only [convert,text,Program.bindRun,Program.modifyRun]

theorem v2Streams {p : WslPath} {s : Wstr} (noNul : 0 ∉ s)
    (clear : ∀ c ∈ s, WslPath.isSpecialInput (c ^^^ 0xf000) = false)
    (coded : p.rel = WslV2Path.code.encode s) : Streams (.wslV2 p) (s ++ [0]) := by
  intro out
  have text : realConvertV2 p.rel = putText (s ++ [0]) := by
    rw [coded]
    exact encodedStreams rfl fun c hc =>
      WslV2Path.codeExact (ne_of_mem_of_not_mem hc noNul) (clear c hc)
  simp only [convert,text,Program.bindRun,Program.modifyRun]

end FilePath
end LxRunOffline
