import LxRunOffline.DiskName

/-! The names on the disk as the v1 format reads them. It takes any four units behind a `#` for a
number, so it reads names that it never writes: some of them end the conversion with an exception
of the library, and others become the names of other files. -/
namespace LxRunOffline
namespace WslV1Path
open WslV2Path (RelUnit)

/- What the loop of `real_convert` passes over behind each `#`. -/
def taken : Nat → Wstr → List Wstr
  | _,[] => []
  | skipped+1,_ :: rest => taken skipped rest
  | 0,c :: rest => if isSpecialOutput c then rest.take 4 :: taken 4 rest else taken 0 rest

def Digits (window : Wstr) : Prop := window.length = 4 ∧ ∀ c ∈ window, (hexValue c).isSome

/- The conversion of a name ends without any exception but `lro_error`, it takes four digits for
each escape, and a path of the same base is given the same name. -/
structure Decodes (base rel : Wstr) : Prop where
  total : ∀ out e t, (FilePath.wslV1 ⟨base,rel⟩).convert out = (.error e,t) → ∃ l, e = .lro l
  digits : ∀ out t, (FilePath.wslV1 ⟨base,rel⟩).convert out = (.ok true,t) →
    ∀ window ∈ taken 0 rel, Digits window
  back : ∀ held t, (FilePath.wslV1 ⟨base,rel⟩).convert (.wslV1 ⟨base,held⟩) = (.ok true,t) →
    t = .wslV1 ⟨base,rel⟩

def Escaped (rel : Wstr) : Prop := ∀ pre post, rel = pre ++ hash :: post →
  ∃ c, isSpecialInput c = true ∧ appendSpecial c <+: hash :: post

theorem takenSkip (skipped : Nat) (rest : Wstr) : taken skipped rest = taken 0 (rest.drop skipped) := by
  induction rest generalizing skipped with
  | nil => simp [taken]
  | cons c rest ih =>
    cases skipped with
    | zero => rfl
    | succ skipped => simpa [taken] using ih skipped

theorem takenEscape (rest : Wstr) : taken 0 (hash :: rest) = rest.take 4 :: taken 0 (rest.drop 4) := by
  rw [taken,if_pos (by decide),takenSkip]

theorem takenPlain {c : WChar} (plain : c ≠ hash) (rest : Wstr) : taken 0 (c :: rest) = taken 0 rest := by
  rw [taken,if_neg (by simpa [isSpecialOutput] using plain)]

theorem putV1 (p : WslPath) (c : WChar) : FilePath.put c (.wslV1 p) =
    (.ok true,.wslV1 {p with rel := p.rel ++ code.code c}) := by
  simp only [FilePath.put,FilePath.append,append,WslPath.appendCode]
  rfl

def reads (skipped : Nat) (rel : Wstr) (p : WslPath) : Except Stop Bool × FilePath :=
  FilePath.realConvert isSpecialOutput convertSpecial skipped rel (.wslV1 p)

theorem readsSkip (skipped : Nat) (rel : Wstr) (p : WslPath) :
    reads skipped rel p = reads 0 (rel.drop skipped) p := by
  rw [reads,FilePath.realConvertSkip,reads]

theorem readsBad {rest : Wstr} (bad : stoi (rest.take 4) = none) (p : WslPath) :
    reads 0 (hash :: rest) p = (.error .invalidArgument,.wslV1 p) := by
  have special : isSpecialOutput hash = true := by decide
  simp only [reads,FilePath.realConvert,special,if_true,convertSpecial,bad]
  rfl

theorem readsEscape {rest : Wstr} {n : Int} (number : stoi (rest.take 4) = some n) (p : WslPath) :
    reads 0 (hash :: rest) p = reads 0 (rest.drop 4)
      {p with rel := p.rel ++ code.code (n % 65536).toNat.toUInt16} := by
  have special : isSpecialOutput hash = true := by decide
  rw [← readsSkip]
  simp only [reads,FilePath.realConvert,special,if_true,convertSpecial,number,Program.both,
    Program.bindOk (putV1 p _)]

theorem readsPlain {c : WChar} (plain : c ≠ hash) (rest : Wstr) (p : WslPath) :
    reads 0 (c :: rest) p = reads 0 rest
      {p with rel := p.rel ++ code.code (if c == backslash then slash else c)} := by
  have special : isSpecialOutput c = false := by simpa [isSpecialOutput] using plain
  simp only [reads,FilePath.realConvert,special,Bool.false_eq_true,if_false,Program.both,
    Program.bindOk (putV1 p _),if_true]

theorem readsEnds (skipped : Nat) (rel : Wstr) (p : WslPath) :
    (∃ q, reads skipped rel p = (.ok true,.wslV1 q)) ∨
      ∃ t, reads skipped rel p = (.error .invalidArgument,t) := by
  induction rel generalizing skipped p with
  | nil => exact .inl ⟨_,by rw [reads,FilePath.realConvert,putV1]⟩
  | cons c rest ih =>
    cases skipped with
    | succ skipped => exact ih skipped p
    | zero =>
      by_cases escape : c = hash
      · subst escape
        cases number : stoi (rest.take 4) with
        | none => exact .inr ⟨_,readsBad number p⟩
        | some n =>
          rw [readsEscape number,← readsSkip]
          exact ih 4 _
      · rw [readsPlain escape]
        exact ih 0 _

theorem codeSpecial {c : WChar} (special : isSpecialInput c = true) : code.code c = appendSpecial c := by
  simp [code,WslPath.code,special]

theorem codeUnit {c : WChar} (special : isSpecialInput c ≠ true) (separator : c ≠ slash)
    (nonzero : c ≠ 0) : code.code c = [c] := by simp [code,WslPath.code,special,separator,nonzero]

theorem codeLength (c : WChar) : (code.code c).length ≤ 5 ∧
    ((code.code c).length = 5 → isSpecialInput c = true ∧ code.code c = appendSpecial c) := by
  by_cases special : isSpecialInput c = true
  · rw [codeSpecial special]
    exact ⟨by simp [appendSpecial],fun _ => ⟨special,rfl⟩⟩
  · by_cases separator : c = slash
    · subst separator
      exact ⟨by decide,by decide⟩
    · by_cases zero : c = 0
      · subst zero
        exact ⟨by decide,by decide⟩
      · simp [codeUnit special separator zero]

theorem codePlain {c : WChar} (unit : RelUnit c) (plain : c ≠ hash) :
    code.code (if c == backslash then slash else c) = [c] := by
  rcases unit with rfl | ⟨nonzero,notSlash,clear⟩
  · decide
  · have other : c ≠ backslash := fun same => by
      rw [same] at clear
      exact absurd clear (by decide)
    have special : isSpecialInput c ≠ true := by simp [isSpecialInput,clear,plain]
    simp [other,codeUnit special notSlash nonzero]

theorem escapedNil : Escaped [] := fun pre post split => by simp at split

theorem escapedCons {c : WChar} {window rest : Wstr} (digits : Digits window)
    (same : code.code c = hash :: window) (h : Escaped rest) : Escaped (hash :: (window ++ rest)) := by
  have length : (code.code c).length = 5 := by rw [same,List.length_cons,digits.1]
  obtain ⟨special,word⟩ := (codeLength c).2 length
  intro pre post split
  cases pre with
  | nil =>
    refine ⟨c,special,?_⟩
    rw [← word,same,List.nil_append] at *
    exact split ▸ ⟨rest,rfl⟩
  | cons d pre =>
    have noHash : hash ∉ window := fun mem => absurd (digits.2 hash mem) (by decide)
    obtain ⟨between,rfl,tail⟩ | ⟨more,window',tail⟩ := List.append_eq_append_iff.mp (List.cons.inj split).2
    · exact h between post tail
    · cases more with
      | nil => exact h [] post tail.symm
      | cons e more =>
        rw [← (List.cons.inj tail).1] at window'
        exact absurd (by simp [window']) noHash

theorem plainCons {c : WChar} (plain : c ≠ hash) {rest : Wstr} (h : Escaped rest) :
    Escaped (c :: rest) := by
  intro pre post split
  cases pre with
  | nil => exact absurd (List.cons.inj split).1 plain
  | cons d pre => exact h pre post (List.cons.inj split).2

theorem readsBack {rel : Wstr} (units : ∀ c ∈ rel, RelUnit c)
    (good : ∀ window ∈ taken 0 rel, Digits window) {p q : WslPath}
    (run : reads 0 rel p = (.ok true,.wslV1 q)) :
    ∃ added, q = {p with rel := p.rel ++ added} ∧ added.length ≤ rel.length ∧
      (added = rel → Escaped rel) := by
  induction size : rel.length using Nat.strongRecOn generalizing rel p with
  | ind size ih =>
    cases rel with
    | nil =>
      rw [reads,FilePath.realConvert,putV1] at run
      simp only [Prod.mk.injEq,FilePath.wslV1.injEq,true_and] at run
      refine ⟨[],?_,Nat.zero_le _,fun _ => escapedNil⟩
      rw [← run]
      rfl
    | cons c rest =>
      have later : ∀ c ∈ rest, RelUnit c := fun c mem => units c (by simp [mem])
      by_cases escape : c = hash
      · subst escape
        rw [takenEscape,List.forall_mem_cons] at good
        have window := List.take_append_drop 4 rest
        have four := good.1.1
        cases number : stoi (rest.take 4) with
        | none => cases (readsBad number p).symm.trans run
        | some n =>
          rw [readsEscape number] at run
          generalize (n % 65536).toNat.toUInt16 = unit at run
          obtain ⟨added,rfl,short,back⟩ := ih (rest.drop 4).length (by
            rw [← size,List.length_drop,List.length_cons]
            omega) (fun c mem => later c (List.mem_of_mem_drop mem)) good.2 run rfl
          have parts := congrArg List.length window
          rw [List.length_append,four] at parts
          have word := codeLength unit
          refine ⟨code.code unit ++ added,by simp,?_,fun same => ?_⟩
          · rw [List.length_append,← size,List.length_cons]
            omega
          · rw [← window] at same ⊢
            have total := congrArg List.length same
            simp only [List.length_append,List.length_cons] at total
            -- Read and written escape are of one length, so the texts agree part by part.
            have five : (code.code unit).length = (hash :: rest.take 4).length := by
              rw [List.length_cons,four]
              omega
            rw [← List.cons_append] at same
            obtain ⟨written,kept⟩ := List.append_inj same five
            exact escapedCons good.1 written (back kept)
      · rw [takenPlain escape] at good
        rw [readsPlain escape,codePlain (units c (by simp)) escape] at run
        obtain ⟨added,rfl,short,back⟩ := ih rest.length (by
          rw [← size,List.length_cons]
          omega) later good run rfl
        refine ⟨c :: added,by simp,?_,fun same => plainCons escape (back (List.cons.inj same).2)⟩
        rw [← size,List.length_cons,List.length_cons]
        omega

theorem escapedText {rel : Wstr} (units : ∀ c ∈ rel, RelUnit c) (escaped : Escaped rel) :
    ∃ text, 0 ∉ text ∧ rel = code.encode text := by
  induction size : rel.length using Nat.strongRecOn generalizing rel with
  | ind size ih =>
    cases rel with
    | nil => exact ⟨[],by simp,rfl⟩
    | cons c rest =>
      by_cases escape : c = hash
      · subst escape
        obtain ⟨u,special,tail,same⟩ := escaped [] rest rfl
        have shorter : tail.length < (hash :: rest).length := by
          rw [← same,List.length_append]
          exact Nat.lt_add_of_pos_left (by simp [appendSpecial])
        have inside : Escaped tail := fun pre post split =>
          escaped (appendSpecial u ++ pre) post (by rw [← same,split,List.append_assoc])
        obtain ⟨text,noNul,rfl⟩ := ih _ (size ▸ shorter) (fun c mem => units c (by simp [← same,mem])) inside rfl
        have nonzero : u ≠ 0 := fun zero => by
          rw [zero] at special
          exact absurd special (by decide)
        refine ⟨u :: text,by simp [noNul,Ne.symm nonzero],?_⟩
        rw [← same,PrefixCode.encodeCons,codeSpecial special]
      · have inside : Escaped rest := fun pre post split => escaped (c :: pre) post (by rw [split]; rfl)
        obtain ⟨text,noNul,rfl⟩ := ih rest.length (by rw [← size]; exact Nat.lt_succ_self _)
          (fun c mem => units c (by simp [mem])) inside rfl
        have unit := units c (by simp)
        refine ⟨(if c == backslash then slash else c) :: text,?_,?_⟩
        · have nonzero : (if c == backslash then slash else c) ≠ 0 := by
            split
            · decide
            · rename_i other
              rcases unit with same | plain
              · exact absurd (by simp [same]) other
              · exact plain.1
          rw [List.mem_cons,not_or]
          exact ⟨Ne.symm nonzero,noNul⟩
        · rw [PrefixCode.encodeCons,codePlain unit escape]
          rfl

theorem takenDigits (text : Wstr) : ∀ window ∈ taken 0 (code.encode text), Digits window := by
  induction text with
  | nil => exact fun window none' => by cases none'
  | cons c text ih =>
    rw [PrefixCode.encodeCons]
    by_cases special : isSpecialInput c = true
    · have bound : c.toNat < 65536 := c.toNat_lt
      have digit {n : Nat} (small : n < 16) : (hexValue (hexDigit n)).isSome := by
        rw [(hexDigitFacts n small).1]
        rfl
      rw [codeSpecial special,appendSpecial,List.cons_append,takenEscape]
      refine List.forall_mem_cons.mpr ⟨⟨rfl,?_⟩,ih⟩
      simp only [List.cons_append,List.nil_append,List.take_succ_cons,List.take_zero,
        List.forall_mem_cons]
      exact ⟨digit (by omega),digit (by omega),digit (by omega),digit (by omega),by simp⟩
    · by_cases separator : c = slash
      · subst separator
        exact ih
      · by_cases zero : c = 0
        · subst zero
          exact ih
        · have plain : c ≠ hash := fun same => special (by rw [same]; decide)
          rw [codeUnit special separator zero,List.singleton_append,takenPlain plain]
          exact ih

theorem convertReads (base rel held : Wstr) : (FilePath.wslV1 ⟨base,rel⟩).convert (.wslV1 ⟨base,held⟩) =
    reads 0 rel ⟨base,[]⟩ := rfl

/- A name is read as it should be exactly when it could have been written. -/
theorem decodesEscaped (base : Wstr) {rel : Wstr} (units : ∀ c ∈ rel, RelUnit c) :
    Decodes base rel ↔ Escaped rel := by
  constructor
  · intro decodes
    obtain ⟨q,run⟩ | ⟨t,run⟩ := readsEnds 0 rel ⟨base,[]⟩
    · have good := decodes.digits _ _ ((convertReads base rel []).trans run)
      obtain ⟨added,rfl,-,back⟩ := readsBack units good run
      have same := decodes.back [] _ ((convertReads base rel []).trans run)
      simp only [List.nil_append,FilePath.wslV1.injEq,WslPath.mk.injEq,true_and] at same
      exact back same
    · obtain ⟨l,no⟩ := decodes.total _ _ _ ((convertReads base rel []).trans run)
      cases no
  · intro escaped
    obtain ⟨text,noNul,rfl⟩ := escapedText units escaped
    have streams := @FilePath.v1Streams ⟨base,code.encode text⟩ text noNul rfl
    refine ⟨fun out e t run => ?_,fun _ _ _ => takenDigits text,fun held t run => ?_⟩
    · rw [streams out] at run
      cases (Prod.mk.inj run).1
    · rw [streams,FilePath.putText] at run
      have fed := WslPath.feedV1 ⟨base,[]⟩ (text ++ [0])
      have ended : code.encode (text ++ [0]) = code.encode text := WslLegacyPath.encodedEnd _
      rw [ended] at fed
      change (Except.ok ((FilePath.wslV1 ⟨base,[]⟩).appendText (text ++ [0])).1,
        ((FilePath.wslV1 ⟨base,[]⟩).appendText (text ++ [0])).2) = _ at run
      rw [fed] at run
      exact (Prod.mk.inj run).2.symm

theorem decodesEscapedColon : Decodes (wstr "C:\\s\\") (wstr "a#003Ab") := by
  have units : ∀ c ∈ wstr "a#003Ab", RelUnit c := by
    unfold RelUnit
    exact everyUnit (by decide)
  have last : Escaped (wstr "b") := plainCons (by decide) escapedNil
  have digits : Digits (wstr "003A") := ⟨by decide,everyUnit (by decide)⟩
  have colon : code.code 0x3a = hash :: wstr "003A" := codeSpecial (by decide)
  exact (decodesEscaped _ units).mpr (plainCons (by decide) (escapedCons digits colon last))

/- A number is expected behind every `#`. -/
theorem noNumberThrows : ¬ ∀ base rel : Wstr, (∀ c ∈ rel, RelUnit c) → Decodes base rel := by
  intro always
  have units : ∀ c ∈ wstr "#zz", RelUnit c := by
    unfold RelUnit
    exact everyUnit (by decide)
  have thrown : (FilePath.wslV1 ⟨[],wstr "#zz"⟩).convert (.wslV1 ⟨[],[]⟩) =
      (.error .invalidArgument,.wslV1 ⟨[],[]⟩) := rfl
  obtain ⟨l,no⟩ := (always [] _ units).total _ _ _ thrown
  cases no

end WslV1Path
end LxRunOffline
