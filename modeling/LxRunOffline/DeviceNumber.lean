import LxRunOffline.ReadRecord

/-! The device numbers as the two formats pack them: twelve and twenty bits of one word in
`LXATTRB`, two words of 32 bits, the other way round, in `$LXDEV`. -/
namespace LxRunOffline

theorem packedParts {k high low : Nat} (small : low < Nat.pow 2 k) :
    (high <<< k ||| low) >>> k = high ∧ (high <<< k ||| low) % Nat.pow 2 k = low := by
  have positive : 0 < Nat.pow 2 k := Nat.two_pow_pos k
  have sum : high <<< k ||| low = Nat.pow 2 k*high + low := by
    have added := Nat.shiftLeft_add_eq_or_of_lt small high
    rw [← added,Nat.shiftLeft_eq,Nat.mul_comm]
    rfl
  have halved : (high <<< k ||| low) >>> k = (high <<< k ||| low) / Nat.pow 2 k :=
    Nat.shiftRight_eq_div_pow ..
  rw [halved,sum]
  constructor
  · rw [Nat.mul_add_div positive,Nat.div_eq_of_lt small,Nat.add_zero]
  · rw [Nat.mul_add_mod,Nat.mod_eq_of_lt small]

namespace FileAttr

def device (attr : FileAttr) : Prop := WslReader.isDevice attr.mode

instance (attr : FileAttr) : Decidable attr.device :=
  inferInstanceAs (Decidable (WslReader.isDevice attr.mode))

def Narrow (attr : FileAttr) : Prop := attr.devMajor < 4096 ∧ attr.devMinor < 1048576

theorem narrowPacked {attr : FileAttr} (narrow : attr.Narrow) :
    (WslV1Writer.record attr).rdev >>> 20 = attr.devMajor ∧
    (WslV1Writer.record attr).rdev &&& 0xfffff = attr.devMinor := by
  obtain ⟨major,minor⟩ := narrow
  have bigMajor : attr.devMajor.toNat < 4096 := UInt32.lt_iff_toNat_lt.mp major
  have bigMinor : attr.devMinor.toNat < 1048576 := UInt32.lt_iff_toNat_lt.mp minor
  have fits : attr.devMajor.toNat <<< 20 % 4294967296 = attr.devMajor.toNat <<< 20 := by
    rw [Nat.shiftLeft_eq]
    omega
  have low (n : Nat) : n &&& 1048575 = n%1048576 := Nat.and_two_pow_sub_one_eq_mod n 20
  have number : (WslV1Writer.record attr).rdev.toNat =
      attr.devMajor.toNat <<< 20 ||| attr.devMinor.toNat := by
    have masked : attr.devMinor.toNat &&& 1048575 = attr.devMinor.toNat := by
      rw [low,Nat.mod_eq_of_lt bigMinor]
    rw [WslV1Writer.record,UInt32.toNat_or,UInt32.toNat_and,UInt32.toNat_shiftLeft]
    exact congrArg₂ (· ||| ·) fits masked
  have parts := @packedParts 20 attr.devMajor.toNat attr.devMinor.toNat bigMinor
  rw [← number] at parts
  constructor
  · exact UInt32.toNat_inj.mp ((UInt32.toNat_shiftRight ..).trans parts.1)
  · refine UInt32.toNat_inj.mp ((UInt32.toNat_and ..).trans ?_)
    exact (low _).trans parts.2

def packed (attr : FileAttr) : UInt64 := (attr.devMinor.toUInt64 <<< 32) ||| attr.devMajor.toUInt64

theorem packedBack (attr : FileAttr) :
    attr.packed.toUInt32 = attr.devMajor ∧ (attr.packed >>> 32).toUInt32 = attr.devMinor := by
  have bigMajor : attr.devMajor.toNat < 4294967296 := attr.devMajor.toNat_lt
  have bigMinor : attr.devMinor.toNat < 4294967296 := attr.devMinor.toNat_lt
  have fits : attr.devMinor.toNat <<< 32 % 18446744073709551616 = attr.devMinor.toNat <<< 32 := by
    rw [Nat.shiftLeft_eq]
    omega
  have number : attr.packed.toNat = attr.devMinor.toNat <<< 32 ||| attr.devMajor.toNat := by
    rw [packed,UInt64.toNat_or,UInt64.toNat_shiftLeft]
    exact congrArg (· ||| attr.devMajor.toNat) fits
  have parts := @packedParts 32 attr.devMinor.toNat attr.devMajor.toNat bigMajor
  rw [← number] at parts
  constructor
  · exact UInt32.toNat_inj.mp ((UInt64.toNat_toUInt32 _).trans parts.2)
  · have high : (attr.packed >>> 32).toNat = attr.devMinor.toNat :=
      (UInt64.toNat_shiftRight ..).trans parts.1
    refine UInt32.toNat_inj.mp ((UInt64.toNat_toUInt32 _).trans ?_)
    rw [high,Nat.mod_eq_of_lt bigMinor]

end FileAttr
end LxRunOffline
