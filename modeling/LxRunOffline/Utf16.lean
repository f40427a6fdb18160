import Mathlib.Data.Char

/-! Texts in UTF-16. A character above the first plane is a pair of surrogates, and a unit that is
one half of a pair stands for nothing by itself. -/
namespace LxRunOffline
namespace Utf16

def isHigh (u : UInt16) : Bool := 0xd800 ≤ u && u < 0xdc00
def isLow (u : UInt16) : Bool := 0xdc00 ≤ u && u < 0xe000

def pair (high low : UInt16) : Char :=
  Char.ofNat (0x10000+(high.toNat-0xd800)*0x400+(low.toNat-0xdc00))

def decode : List UInt16 → Option (List Char)
  | [] => some []
  | [u] => if isHigh u || isLow u then none else some [Char.ofNat u.toNat]
  | u :: next :: rest =>
    if isHigh u then
      if isLow next then (decode rest).map (pair u next :: ·) else none
    else if isLow u then none
    else (decode (next :: rest)).map (Char.ofNat u.toNat :: ·)

def encodeChar (c : Char) : List UInt16 :=
  if c.toNat < 0x10000 then [c.toNat.toUInt16]
  else [(0xd800+(c.toNat-0x10000)/0x400).toUInt16,(0xdc00+(c.toNat-0x10000)%0x400).toUInt16]

def encode (text : List Char) : List UInt16 := text.flatMap encodeChar

theorem highRange {u : UInt16} : isHigh u = true ↔ 0xd800 ≤ u.toNat ∧ u.toNat < 0xdc00 := by
  simp [isHigh,UInt16.le_iff_toNat_le,UInt16.lt_iff_toNat_lt]

theorem lowRange {u : UInt16} : isLow u = true ↔ 0xdc00 ≤ u.toNat ∧ u.toNat < 0xe000 := by
  simp [isLow,UInt16.le_iff_toNat_le,UInt16.lt_iff_toNat_lt]

theorem scalarNumber {n : Nat} (valid : n.isValidChar) : (Char.ofNat n).toNat = n := by
  rw [Char.ofNat,dif_pos valid]
  rfl

theorem encodePlain {u : UInt16} (plain : ¬ (isHigh u || isLow u) = true) :
    encodeChar (Char.ofNat u.toNat) = [u] := by
  rw [Bool.or_eq_true,highRange,lowRange] at plain
  have below := u.toNat_lt
  have valid : u.toNat.isValidChar := by
    unfold Nat.isValidChar
    omega
  have number : (Char.ofNat u.toNat).toNat = u.toNat := scalarNumber valid
  rw [encodeChar,number,if_pos below]
  simp

theorem encodePair {high low : UInt16} (first : isHigh high = true) (second : isLow low = true) :
    encodeChar (pair high low) = [high,low] := by
  obtain ⟨floor,ceiling⟩ := highRange.mp first
  obtain ⟨floor',ceiling'⟩ := lowRange.mp second
  have valid : (0x10000+(high.toNat-0xd800)*0x400+(low.toNat-0xdc00)).isValidChar := by
    unfold Nat.isValidChar
    omega
  have number : (pair high low).toNat = 0x10000+(high.toNat-0xd800)*0x400+(low.toNat-0xdc00) := by
    rw [pair,scalarNumber valid]
  have upper : 0xd800+((pair high low).toNat-0x10000)/0x400 = high.toNat := by omega
  have lower : 0xdc00+((pair high low).toNat-0x10000)%0x400 = low.toNat := by omega
  rw [encodeChar,if_neg (by omega),upper,lower]
  simp

theorem encodeDecode {units : List UInt16} {text : List Char} (h : decode units = some text) :
    encode text = units := by
  induction units using decode.induct generalizing text with
  | case1 =>
    cases h
    rfl
  | case2 u surrogate => simp [decode,surrogate] at h
  | case3 u plain =>
    rw [decode,if_neg plain,Option.some.injEq] at h
    rw [← h,encode,List.flatMap_singleton,encodePlain plain]
  | case4 u next rest first second ih =>
    rw [decode,if_pos first,if_pos second,Option.map_eq_some_iff] at h
    obtain ⟨tail,tailed,rfl⟩ := h
    rw [encode,List.flatMap_cons,encodePair first second,← encode,ih tailed]
    rfl
  | case5 u next rest first other => simp [decode,first,other] at h
  | case6 u next rest other second => simp [decode,other,second] at h
  | case7 u next rest other other' ih =>
    rw [decode,if_neg other,if_neg other',Option.map_eq_some_iff] at h
    obtain ⟨tail,tailed,rfl⟩ := h
    rw [encode,List.flatMap_cons,encodePlain (by simp [other,other']),← encode,ih tailed]
    rfl

theorem encodeCharSize (c : Char) : (encodeChar c).length ≤ c.utf8Size := by
  by_cases small : c.toNat < 0x10000
  · rw [encodeChar,if_pos small]
    exact c.utf8Size_pos
  · have four : c.utf8Size = 4 := by
      rw [Char.utf8Size_eq_four_iff,UInt32.lt_iff_toNat_lt]
      exact Nat.lt_of_succ_le (Nat.le_of_not_lt small)
    rw [encodeChar,if_neg small,four]
    exact Nat.le_add_left 2 2

end Utf16
end LxRunOffline
