import LxRunOffline.WslReader

/-! The two conversions between UNIX times and the times of NTFS. The source counts ticks of
100 ns from 1601 and divides a signed number, which rounds towards 1970 and not down. -/
namespace LxRunOffline

def unixEpoch : Int := 116444736000000000
def ticksPerSecond : Int := 10000000

/- Some tick of a non-negative time of NTFS falls in the second. -/
def UnixTime.Expressible (ts : UnixTime) : Prop :=
  ∃ ticks : Int, 0 ≤ ticks ∧ ticks < 9223372036854775808 ∧
    (ticks - unixEpoch)/ticksPerSecond = ts.sec.toInt64.toInt

def UnixTime.rounded (ts : UnixTime) : UnixTime := {ts with nsec := ts.nsec/100*100}

theorem UnixTime.same {a b : UnixTime} :
    a = b ↔ a.sec.toInt64.toInt = b.sec.toInt64.toInt ∧ a.nsec.toNat = b.nsec.toNat := by
  constructor
  · intro equal
    rw [equal]
    exact ⟨rfl,rfl⟩
  · intro ⟨sec,nsec⟩
    have seconds : a.sec.toInt64 = b.sec.toInt64 := Int64.toInt_inj.mp sec
    have first : a.sec = b.sec := by simpa using congrArg Int64.toUInt64 seconds
    have second : a.nsec = b.nsec := UInt32.toNat_inj.mp nsec
    cases a
    cases b
    simp_all

theorem UnixTime.expressibleRange {ts : UnixTime} (fine : ts.Expressible) :
    -11644473600 ≤ ts.sec.toInt64.toInt ∧ ts.sec.toInt64.toInt ≤ 910692730085 := by
  obtain ⟨ticks,least,most,second⟩ := fine
  unfold unixEpoch ticksPerSecond at second
  omega

theorem signedInRange {n : Int} (least : -9223372036854775808 ≤ n)
    (most : n < 9223372036854775808) : n.bmod 18446744073709551616 = n :=
  Int.bmod_eq_of_le (by omega) (by omega)

theorem wordNat (x : Int64) : x.toUInt64.toUInt32.toNat = (x.toInt % 4294967296).toNat := by
  have bits : x.toInt = (x.toUInt64.toNat : Int).bmod 18446744073709551616 := by
    rw [← Int64.toInt_toBitVec,BitVec.toInt_eq_toNat_bmod]
    rfl
  have size := x.toUInt64.toNat_lt
  rw [UInt64.toNat_toUInt32,bits]
  simp only [Int.bmod]
  split <;> omega

theorem truncatedFloor (t : Int) :
    (0 ≤ t ∨ t%ticksPerSecond = 0) ∧ t.tdiv ticksPerSecond = t/ticksPerSecond ∧
      t.tmod ticksPerSecond = t%ticksPerSecond ∨
    t < 0 ∧ t%ticksPerSecond ≠ 0 ∧ t.tdiv ticksPerSecond = t/ticksPerSecond+1 ∧
      t.tmod ticksPerSecond = t%ticksPerSecond-ticksPerSecond := by
  unfold ticksPerSecond
  rw [Int.tdiv_eq_ediv,Int.tmod_eq_emod]
  split
  · left
    omega
  · right
    have sign : Int.sign 10000000 = 1 := rfl
    rw [sign]
    omega

def fromTicks (t : Int64) : UnixTime :=
  ⟨(t/10000000).toUInt64,(t%10000000*100).toUInt64.toUInt32⟩

theorem timeF2uTicks (ft : UInt64) :
    timeF2u ft = fromTicks (ft.toInt64-116444736000000000) := rfl

theorem fromTicksSec (t : Int64) :
    (fromTicks t).sec.toInt64.toInt = t.toInt.tdiv ticksPerSecond :=
  Int64.toInt_div_of_ne_right t 10000000 (by decide)

theorem fromTicksNsec (t : Int64) :
    (fromTicks t).nsec.toNat = (t.toInt.tmod ticksPerSecond*100 % 4294967296).toNat := by
  have part : (t%10000000*100).toInt = t.toInt.tmod ticksPerSecond*100 := by
    have small := truncatedFloor t.toInt
    have ten : (10000000 : Int64).toInt = ticksPerSecond := rfl
    have hundred : (100 : Int64).toInt = 100 := rfl
    rw [Int64.toInt_mul,Int64.toInt_mod,ten,hundred]
    unfold ticksPerSecond at small ⊢
    exact signedInRange (by omega) (by omega)
  unfold fromTicks
  rw [wordNat,part]

theorem timeU2fTicks (ts : UnixTime) :
    (timeU2f ts).toInt64-116444736000000000 =
      ts.sec.toInt64*10000000 + (ts.nsec/100).toUInt64.toInt64 := by
  have split : (timeU2f ts).toInt64 =
      ts.sec.toInt64*10000000 + (ts.nsec/100).toUInt64.toInt64 + 116444736000000000 := rfl
  rw [split,Int64.add_sub_cancel]

theorem timeU2fSigned {ts : UnixTime} (fine : ts.Expressible) (below : ts.nsec.toNat < 1000000000) :
    ((timeU2f ts).toInt64-116444736000000000).toInt =
      ts.sec.toInt64.toInt*ticksPerSecond + (ts.nsec.toNat/100 : Nat) := by
  have range := UnixTime.expressibleRange fine
  have ten : (10000000 : Int64).toInt = ticksPerSecond := rfl
  have tick : (ts.nsec/100).toUInt64.toInt64.toInt = (ts.nsec.toNat/100 : Nat) := by
    have value : (ts.nsec/100).toUInt64.toNat = ts.nsec.toNat/100 := by simp
    have bits : (ts.nsec/100).toUInt64.toInt64.toInt =
        ((ts.nsec/100).toUInt64.toNat : Int).bmod 18446744073709551616 := by
      rw [← Int64.toInt_toBitVec,BitVec.toInt_eq_toNat_bmod]
      rfl
    rw [bits,value]
    exact signedInRange (by omega) (by omega)
  rw [timeU2fTicks,Int64.toInt_add,Int64.toInt_mul,tick,ten]
  unfold ticksPerSecond
  have seconds := @signedInRange (ts.sec.toInt64.toInt*10000000) (by omega) (by omega)
  rw [seconds,signedInRange (by omega) (by omega)]

theorem ticksSplit (sec : Int) (nsec : Nat) (below : nsec < 1000000000) :
    (sec*ticksPerSecond + (nsec/100 : Nat)).tdiv ticksPerSecond = sec ∧
      ((sec*ticksPerSecond + (nsec/100 : Nat)).tmod ticksPerSecond*100 % 4294967296).toNat =
        nsec/100*100 ↔ 0 ≤ sec ∨ nsec < 100 := by
  have quotient : (sec*ticksPerSecond + (nsec/100 : Nat))/ticksPerSecond = sec := by
    unfold ticksPerSecond
    omega
  have remainder : (sec*ticksPerSecond + (nsec/100 : Nat))%ticksPerSecond = (nsec/100 : Nat) := by
    unfold ticksPerSecond
    omega
  have cases := truncatedFloor (sec*ticksPerSecond + (nsec/100 : Nat))
  rw [quotient,remainder] at cases
  rcases cases with ⟨floor,div,mod⟩ | ⟨negative,part,div,mod⟩
  · rw [div,mod]
    unfold ticksPerSecond at floor
    have value : (((nsec/100 : Nat) : Int)*100 % 4294967296).toNat = nsec/100*100 := by omega
    rw [value]
    exact iff_of_true ⟨rfl,rfl⟩ (by omega)
  · rw [div]
    unfold ticksPerSecond at negative
    exact iff_of_false (fun fine => by omega) (by omega)

theorem timesRounded {ts : UnixTime} (fine : ts.Expressible)
    (below : ts.nsec.toNat < 1000000000) :
    timeF2u (timeU2f ts) = ts.rounded ↔ 0 ≤ ts.sec.toInt64 ∨ ts.nsec < 100 := by
  have hundreds : ts.rounded.nsec.toNat = ts.nsec.toNat/100*100 := by
    simp [UnixTime.rounded]
    omega
  have sec : ts.rounded.sec = ts.sec := rfl
  have positive : 0 ≤ ts.sec.toInt64 ↔ 0 ≤ ts.sec.toInt64.toInt := Int64.le_iff_toInt_le
  have small : ts.nsec < 100 ↔ ts.nsec.toNat < 100 := UInt32.lt_iff_toNat_lt
  rw [timeF2uTicks,UnixTime.same,fromTicksSec,fromTicksNsec,hundreds,sec,positive,small,
    timeU2fSigned fine below]
  exact ticksSplit _ _ below

theorem remainderSmall (t : Int) :
    (t.tmod ticksPerSecond*100 % 4294967296).toNat < 1000000000 ↔
      0 ≤ t ∨ t%ticksPerSecond = 0 := by
  have floor : 0 ≤ t%ticksPerSecond ∧ t%ticksPerSecond < ticksPerSecond := by
    unfold ticksPerSecond
    omega
  rcases truncatedFloor t with ⟨fine,_,mod⟩ | ⟨negative,part,_,mod⟩
  · rw [mod]
    unfold ticksPerSecond at floor fine ⊢
    have word : t%10000000*100 % 4294967296 = t%10000000*100 :=
      Int.emod_eq_of_lt (by omega) (by omega)
    rw [word]
    exact iff_of_true (by omega) fine
  · rw [mod]
    unfold ticksPerSecond at floor part ⊢
    have word : (t%10000000-10000000)*100 % 4294967296 =
        (t%10000000-10000000)*100 + 4294967296 := by
      rw [← Int.add_emod_right]
      exact Int.emod_eq_of_lt (by omega) (by omega)
    rw [word]
    exact iff_of_false (by omega) (by omega)

theorem sinceEpoch {ft : UInt64} (nonneg : 0 ≤ ft.toInt64) :
    (ft.toInt64-116444736000000000).toInt = ft.toInt64.toInt-unixEpoch := by
  have least : 0 ≤ ft.toInt64.toInt := Int64.le_iff_toInt_le.mp nonneg
  have most := ft.toInt64.toInt_lt
  have epoch : (116444736000000000 : Int64).toInt = unixEpoch := rfl
  rw [Int64.toInt_sub,epoch]
  unfold unixEpoch
  exact signedInRange (by omega) (by omega)

theorem wholeTicks {t : Int} (floor : 0 ≤ t ∨ t%ticksPerSecond = 0) :
    t.tdiv ticksPerSecond = t/ticksPerSecond ∧
      (t.tmod ticksPerSecond*100 % 4294967296).toNat = (t%ticksPerSecond*100).toNat := by
  rcases truncatedFloor t with ⟨_,div,mod⟩ | ⟨negative,part,_,_⟩
  · rw [div,mod]
    unfold ticksPerSecond
    exact ⟨rfl,by omega⟩
  · exact absurd floor (by omega)

theorem ticksBack {ft : UInt64} (nonneg : 0 ≤ ft.toInt64)
    (floor : 0 ≤ ft.toInt64.toInt-unixEpoch ∨
      (ft.toInt64.toInt-unixEpoch)%ticksPerSecond = 0) : timeU2f (timeF2u ft) = ft := by
  have since := sinceEpoch nonneg
  have least : 0 ≤ ft.toInt64.toInt := Int64.le_iff_toInt_le.mp nonneg
  have most := ft.toInt64.toInt_lt
  obtain ⟨div,mod⟩ := wholeTicks floor
  have seconds : (timeF2u ft).sec.toInt64.toInt =
      (ft.toInt64.toInt-unixEpoch)/ticksPerSecond := by
    rw [timeF2uTicks,fromTicksSec,since,div]
  have rest : (timeF2u ft).nsec.toNat =
      ((ft.toInt64.toInt-unixEpoch)%ticksPerSecond*100).toNat := by
    rw [timeF2uTicks,fromTicksNsec,since,mod]
  have fine : (timeF2u ft).Expressible := ⟨ft.toInt64.toInt,least,most,seconds.symm⟩
  have below : (timeF2u ft).nsec.toNat < 1000000000 := by
    rw [rest]
    unfold ticksPerSecond
    omega
  have equal : ((timeU2f (timeF2u ft)).toInt64-116444736000000000).toInt =
      (ft.toInt64-116444736000000000).toInt := by
    rw [timeU2fSigned fine below,since,seconds,rest]
    unfold ticksPerSecond
    omega
  have shifted : (timeU2f (timeF2u ft)).toInt64 = ft.toInt64 := by
    simpa using Int64.toInt_inj.mp equal
  simpa using congrArg Int64.toUInt64 shifted

theorem ticksKept {ft : UInt64} (nonneg : 0 ≤ ft.toInt64) :
    (timeF2u ft).nsec < 1000000000 ∧ timeU2f (timeF2u ft) = ft ↔
      unixEpoch ≤ ft.toInt64.toInt ∨ (ft.toInt64.toInt-unixEpoch)%ticksPerSecond = 0 := by
  have below : (timeF2u ft).nsec < 1000000000 ↔
      0 ≤ ft.toInt64.toInt-unixEpoch ∨ (ft.toInt64.toInt-unixEpoch)%ticksPerSecond = 0 := by
    have natural : (timeF2u ft).nsec < 1000000000 ↔ (timeF2u ft).nsec.toNat < 1000000000 :=
      UInt32.lt_iff_toNat_lt
    rw [natural,timeF2uTicks,fromTicksNsec,sinceEpoch nonneg]
    exact remainderSmall _
  have order : 0 ≤ ft.toInt64.toInt-unixEpoch ↔ unixEpoch ≤ ft.toInt64.toInt := Int.sub_nonneg
  rw [← order,below]
  exact ⟨And.left,fun floor => ⟨floor,ticksBack nonneg floor⟩⟩

/- Times from 1970 on are kept; earlier ones only where nothing is left over below a second. -/
theorem timesKept (ts : UnixTime) (ft : UInt64) :
    (ts.Expressible → ts.nsec < 1000000000 →
      (timeF2u (timeU2f ts) = ts.rounded ↔ 0 ≤ ts.sec.toInt64 ∨ ts.nsec < 100)) ∧
    (0 ≤ ft.toInt64 →
      ((timeF2u ft).nsec < 1000000000 ∧ timeU2f (timeF2u ft) = ft ↔
        unixEpoch ≤ ft.toInt64.toInt ∨ (ft.toInt64.toInt-unixEpoch)%ticksPerSecond = 0)) :=
  ⟨fun fine below => timesRounded fine (UInt32.lt_iff_toNat_lt.mp below),
    fun nonneg => ticksKept nonneg⟩

def beforeEpoch : UnixTime where
  sec := (-1 : Int64).toUInt64
  nsec := 500000000

theorem beforeEpochExpressible : beforeEpoch.Expressible := by
  refine ⟨116444735990000000,by decide,by decide,?_⟩
  decide

theorem timesKeptUse :
    (timeF2u (timeU2f beforeEpoch) = beforeEpoch.rounded ↔
      0 ≤ beforeEpoch.sec.toInt64 ∨ beforeEpoch.nsec < 100) ∧
    ((timeF2u 116444735995000000).nsec < 1000000000 ∧
      timeU2f (timeF2u 116444735995000000) = 116444735995000000 ↔
        unixEpoch ≤ (116444735995000000 : UInt64).toInt64.toInt ∨
          ((116444735995000000 : UInt64).toInt64.toInt-unixEpoch)%ticksPerSecond = 0) :=
  ⟨(timesKept beforeEpoch 116444735995000000).1 beforeEpochExpressible (by decide),
    (timesKept beforeEpoch 116444735995000000).2 (by decide)⟩

theorem halfSecondLost :
    beforeEpoch.Expressible ∧ beforeEpoch.nsec < 1000000000 ∧
    timeF2u (timeU2f beforeEpoch) = ⟨0,3794967296⟩ ∧
    beforeEpoch.rounded = beforeEpoch ∧
    timeF2u (timeU2f beforeEpoch) ≠ beforeEpoch.rounded ∧
    ¬ (timeF2u 116444735995000000).nsec < 1000000000 :=
  ⟨beforeEpochExpressible,by decide,by decide,by decide,by decide,by decide⟩

end LxRunOffline
