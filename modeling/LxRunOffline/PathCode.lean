import LxRunOffline.FilePath
import LxRunOffline.PrefixCode

/-! The escapes of the wsl formats as prefix codes: what `append` writes for one unit, the
loop of `real_convert` reads back. The v1 code is exact on every unit but NUL, the v2 code on
every unit that does not already look like an escape. -/
namespace LxRunOffline

namespace WslPath

/- The units that one call of `append` adds to the data. -/
def code (special : WChar → Bool) (appendSpecial : WChar → Wstr) (c : WChar) : Wstr :=
  if special c then appendSpecial c
  else if c == slash then [backslash]
  else if c ≠ 0 then [c]
  else []

theorem appendCode (special : WChar → Bool) (appendSpecial : WChar → Wstr) (p : WslPath)
    (c : WChar) : append special appendSpecial p c =
      {p with rel := p.rel ++ code special appendSpecial c} := by
  unfold append code
  split
  · rfl
  · split
    · rfl
    · split
      · rfl
      · simp

def takeUnit (special : WChar → Bool) (convertSpecial : WChar → Wstr → Except Stop (WChar × Nat))
    (c : WChar) (rest : Wstr) : Except Stop (WChar × Wstr) :=
  if special c then (convertSpecial c rest).map fun used => (used.1,rest.drop used.2)
  else .ok (if c == backslash then slash else c,rest)

def read (special : WChar → Bool) (convertSpecial : WChar → Wstr → Except Stop (WChar × Nat)) :
    Wstr → Option (WChar × Wstr)
  | [] => none
  | c :: rest => (takeUnit special convertSpecial c rest).toOption

theorem specialSmall {c : WChar} (h : isSpecialInput c = true) : c.toNat < 128 := by
  simp only [isSpecialInput,Bool.or_eq_true,Bool.and_eq_true,decide_eq_true_eq,
    List.contains_iff_mem] at h
  rcases h with ⟨_,low⟩ | listed
  · have bound : c.toNat ≤ 31 := UInt16.le_iff_toNat_le.mp low
    omega
  · have all : ∀ x ∈ wstr "<>:\"\\|*?", x.toNat < 128 := everyUnit (by decide)
    exact all c listed

end WslPath

namespace FilePath

theorem realConvertSkip (special : WChar → Bool)
    (convertSpecial : WChar → Wstr → Except Stop (WChar × Nat)) (skipped : Nat) (rest : Wstr) :
    realConvert special convertSpecial skipped rest =
      realConvert special convertSpecial 0 (rest.drop skipped) := by
  induction rest generalizing skipped with
  | nil => simp [realConvert]
  | cons c rest ih =>
    cases skipped with
    | zero => rfl
    | succ skipped => simpa [realConvert] using ih skipped

theorem realConvertCons (special : WChar → Bool)
    (convertSpecial : WChar → Wstr → Except Stop (WChar × Nat)) (c : WChar) (rest : Wstr) :
    realConvert special convertSpecial 0 (c :: rest) =
      match WslPath.takeUnit special convertSpecial c rest with
      | .error e => Program.raise e
      | .ok (unit,tail) => Program.both (put unit) (realConvert special convertSpecial 0 tail) := by
  simp only [realConvert,WslPath.takeUnit]
  split
  · cases convertSpecial c rest with
    | error e => rfl
    | ok used => simp only [Except.map]; rw [realConvertSkip]
  · rfl

theorem putTextCons (c : WChar) (s : Wstr) :
    putText (c :: s) = Program.both (put c) (putText s) := by
  funext out
  simp only [putText,appendText,Program.both,Program.bindRun,put]
  cases h : out.append c with
  | mk ok next => cases ok <;> rfl

theorem putTextSingle (c : WChar) : putText [c] = put c := by
  funext out
  simp only [putText,appendText,put]
  cases h : out.append c with
  | mk ok next => cases ok <;> rfl

theorem bothAssoc (x y z : Program Stop FilePath Bool) :
    Program.both (Program.both x y) z = Program.both x (Program.both y z) := by
  funext out
  simp only [Program.both,Program.bindRun]
  cases h : x out with
  | mk outcome t =>
    cases outcome with
    | error e => rfl
    | ok ok => cases ok <;> rfl

theorem putTextAppend (s t : Wstr) :
    Program.both (putText s) (putText t) = putText (s ++ t) := by
  induction s with
  | nil => rfl
  | cons c s ih => rw [putTextCons,bothAssoc,ih,List.cons_append,putTextCons]

theorem realConvertEncoded {special : WChar → Bool}
    {convertSpecial : WChar → Wstr → Except Stop (WChar × Nat)} {k : PrefixCode WChar WChar}
    (reads : k.read = WslPath.read special convertSpecial) {s : Wstr} (exact' : ∀ c ∈ s, k.Exact c)
    (rest : Wstr) : realConvert special convertSpecial 0 (k.encode s ++ rest) =
      Program.both (putText s) (realConvert special convertSpecial 0 rest) := by
  induction s with
  | nil => rfl
  | cons c s ih =>
    have h := exact' c (by simp)
    have here := h.read (k.encode s ++ rest)
    rw [k.encodeCons,List.append_assoc,putTextCons,bothAssoc,← ih fun d hd => exact' d (by simp [hd])]
    cases hc : k.code c with
    | nil => exact absurd hc h.nonempty
    | cons first more =>
      rw [hc,reads] at here
      simp only [List.cons_append,WslPath.read] at here
      rw [List.cons_append,realConvertCons]
      cases taken : WslPath.takeUnit special convertSpecial first (more ++ (k.encode s ++ rest)) with
      | error e => simp [taken,Except.toOption] at here
      | ok used =>
        simp only [taken,Except.toOption,Option.some.injEq] at here
        subst here
        rfl

end FilePath

namespace WslV1Path

def code : PrefixCode WChar WChar :=
  ⟨WslPath.code isSpecialInput appendSpecial,WslPath.read isSpecialOutput convertSpecial⟩

theorem hexDigitFacts : ∀ n < 16, hexValue (hexDigit n) = some n ∧ isSpace (hexDigit n) = false ∧
    hexDigit n ≠ 0x2d ∧ hexDigit n ≠ 0x2b ∧ hexDigit n ≠ 0x78 ∧ hexDigit n ≠ 0x58 := by decide

theorem stoiDigits {a b c d : Nat} (ha : a < 16) (hb : b < 16) (hc : c < 16) (hd : d < 16) :
    stoi [hexDigit a,hexDigit b,hexDigit c,hexDigit d] =
      some (Int.ofNat (((a*16+b)*16+c)*16+d)) := by
  have fa := hexDigitFacts a ha
  have fb := hexDigitFacts b hb
  have fc := hexDigitFacts c hc
  have fd := hexDigitFacts d hd
  have noPrefix : hexPrefix [hexDigit a,hexDigit b,hexDigit c,hexDigit d] =
      [hexDigit a,hexDigit b,hexDigit c,hexDigit d] := by
    have plain : ∀ x : WChar, x ≠ hexDigit b → ([hexDigit a,hexDigit b] == [0x30,x]) = false := by
      intro x hx
      simpa using fun _ => Ne.symm hx
    have lower : wstr "0x" = [0x30,0x78] := by decide
    have upper : wstr "0X" = [0x30,0x58] := by decide
    simp [hexPrefix,lower,upper,plain _ (Ne.symm fb.2.2.2.2.1),plain _ (Ne.symm fb.2.2.2.2.2)]
  simp [stoi,List.dropWhile,fa.2.1,fa.2.2.1,fa.2.2.2.1,noPrefix,hexRun,fa.1,fb.1,fc.1,fd.1]

theorem convertSpecialExact (c : WChar) (rest : Wstr) :
    convertSpecial hash ((appendSpecial c).drop 1 ++ rest) = .ok (c,4) := by
  have bound : c.toNat < 65536 := c.toNat_lt
  have value : ((c.toNat/4096*16+c.toNat/256%16)*16+c.toNat/16%16)*16+c.toNat%16 = c.toNat := by
    omega
  have digits := stoiDigits (show c.toNat/4096 < 16 by omega) (show c.toNat/256%16 < 16 by omega)
    (show c.toNat/16%16 < 16 by omega) (show c.toNat%16 < 16 by omega)
  simp only [convertSpecial,appendSpecial,List.drop_succ_cons,List.drop_zero,List.cons_append,
    List.nil_append,List.take_succ_cons,List.take_zero,digits,value]
  have small : (Int.ofNat c.toNat % 65536).toNat = c.toNat := by
    rw [Int.ofNat_eq_natCast]; omega
  rw [small]
  simp

theorem codeExact {c : WChar} (nonzero : c ≠ 0) : code.Exact c := by
  unfold code
  by_cases special : isSpecialInput c = true
  · have word : WslPath.code isSpecialInput appendSpecial c = appendSpecial c := by
      simp [WslPath.code,special]
    refine ⟨by simp [word,appendSpecial],fun rest => ?_⟩
    have exact' := convertSpecialExact c rest
    simp only [appendSpecial,List.drop_succ_cons,List.drop_zero,List.cons_append,
      List.nil_append] at exact'
    simp [word,appendSpecial,WslPath.read,WslPath.takeUnit,isSpecialOutput,exact',Except.map,
      Except.toOption]
  · by_cases separator : c = slash
    · subst separator
      exact ⟨by decide,fun rest => rfl⟩
    · have word : WslPath.code isSpecialInput appendSpecial c = [c] := by
        simp [WslPath.code,special,separator,nonzero]
      have plain : c ≠ hash ∧ c ≠ backslash := by
        refine ⟨fun h => special ?_,fun h => special ?_⟩ <;> subst h <;> decide
      refine ⟨by simp [word],fun rest => ?_⟩
      simp [word,WslPath.read,WslPath.takeUnit,isSpecialOutput,plain.1,plain.2,Except.toOption]

end WslV1Path

namespace WslV2Path

def code : PrefixCode WChar WChar :=
  ⟨WslPath.code WslPath.isSpecialInput appendSpecial,WslPath.read isSpecialOutput convertSpecial⟩

theorem xorTwice (c : WChar) : c ^^^ 0xf000 ^^^ 0xf000 = c := by
  rw [UInt16.xor_assoc,UInt16.xor_self,UInt16.xor_zero]

theorem orIsXor {c : WChar} (small : c.toNat < 128) : c ||| 0xf000 = c ^^^ 0xf000 := by
  have all : ∀ n < 128, n.toUInt16 ||| 0xf000 = n.toUInt16 ^^^ 0xf000 := by decide
  have h := all c.toNat small
  simpa using h

theorem codeExact {c : WChar} (nonzero : c ≠ 0)
    (clear : WslPath.isSpecialInput (c ^^^ 0xf000) = false) : code.Exact c := by
  unfold code
  by_cases special : WslPath.isSpecialInput c = true
  · have word : WslPath.code WslPath.isSpecialInput appendSpecial c = [c ^^^ 0xf000] := by
      simp [WslPath.code,special,appendSpecial,orIsXor (WslPath.specialSmall special)]
    refine ⟨by simp [word],fun rest => ?_⟩
    have output : isSpecialOutput (c ^^^ 0xf000) = true := by rw [isSpecialOutput,xorTwice,special]
    simp only [word,WslPath.read,WslPath.takeUnit,List.cons_append,List.nil_append,output,if_pos,convertSpecial,
      Except.map,xorTwice]
    rfl
  · by_cases separator : c = slash
    · subst separator
      exact ⟨by decide,fun rest => rfl⟩
    · have word : WslPath.code WslPath.isSpecialInput appendSpecial c = [c] := by
        simp [WslPath.code,special,separator,nonzero]
      have plain : c ≠ backslash := fun h => special (by subst h; decide)
      refine ⟨by simp [word],fun rest => ?_⟩
      simp [word,WslPath.read,WslPath.takeUnit,isSpecialOutput,clear,plain,Except.toOption]

end WslV2Path
end LxRunOffline
