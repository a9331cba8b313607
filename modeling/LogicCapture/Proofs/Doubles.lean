import Mathlib
import LogicCapture.Binary.Chunk

/-!
# Whole numbers as doubles

The step between two samples is a quotient of whole numbers taken as doubles. A positive whole
number below 2 ^ 64 is nearest to a double that is neither zero nor infinite
(`exists_normal_ofNat`): rounding keeps 53 digits and leaves the exponent small, and what is packed
with such digits and exponent is unpacked again. So the distance of samples is always defined where
the rate and the downsampling are positive.
-/

namespace LogicCapture

open Float.Model (UnpackedFloat totalExponent)
open Float.Model.UnpackedFloat

namespace Doubles

/-- A double with all its 53 digits and an exponent in this range. -/
def NormalIn (low high : Int) (value : UnpackedFloat) : Prop :=
  ∃ sign mantissa exponent positive, value = .finite sign mantissa exponent positive ∧
    mantissa.log2 = 52 ∧ low ≤ exponent ∧ exponent ≤ high

abbrev format : Float.Model.Format := .binary64

/-! ## Rounding -/

theorem mantissa_shiftRight (m : ExtendedMantissa) (k : Nat) :
    (m >>> k).mantissa = m.mantissa / 2 ^ k := by
  change (k.repeat ExtendedMantissa.shiftRightOne m).mantissa = _
  induction k with
  | zero => simp [Nat.repeat]
  | succ k ih =>
      have hstep : ((k + 1).repeat ExtendedMantissa.shiftRightOne m).mantissa
          = (k.repeat ExtendedMantissa.shiftRightOne m).mantissa / 2 := rfl
      rw [hstep, ih, Nat.div_div_eq_div_mul, Nat.pow_succ]

theorem roundedMantissa_cases (m : ExtendedMantissa) :
    m.roundedMantissa = m.mantissa ∨ m.roundedMantissa = m.mantissa + 1 := by
  obtain ⟨mantissa, roundBit, stickyBit⟩ := m
  cases roundBit <;> cases stickyBit <;>
    simp only [ExtendedMantissa.roundedMantissa, ExtendedMantissa.accuracy,
      Accuracy.roundToNearestEven, true_or, or_true]
  omega

theorem targetExponent_eq {m : Nat} {e : Int} (h : -1074 ≤ (m.log2 : Int) - 52 + e) :
    format.targetExponent (totalExponent m e) = m.log2 - 52 + e := by
  have hbits : (format.mantissaBits : Int) = 53 := rfl
  have hmin : format.minExponent = -1074 := rfl
  rw [Float.Model.Format.targetExponent, totalExponent, hbits, hmin]
  omega

theorem shiftToTargetExponent_eq {m k : Nat} {e : Int} (hm : m.log2 = 52 + k) (he : -1074 ≤ e + k) :
    (shiftToTargetExponent format m e .exact).1.mantissa = m / 2 ^ k ∧
      (shiftToTargetExponent format m e .exact).2 = e + k := by
  have htarget : format.targetExponent (totalExponent m e) = e + k := by
    rw [targetExponent_eq (by omega)]
    omega
  have hshift : (e + k - e).toNat = k := by omega
  simp only [shiftToTargetExponent, shiftToExponent, htarget, hshift, mantissa_shiftRight]
  exact ⟨rfl, trivial⟩

theorem log2_div_two_pow {m k : Nat} (hm : m.log2 = 52 + k) :
    (m / 2 ^ k).log2 = 52 := by
  have hpos : m ≠ 0 := by rintro rfl; rw [Nat.log2_zero] at hm; omega
  have hlow := Nat.log2_self_le hpos
  have hhigh := Nat.lt_log2_self (n := m)
  rw [hm, Nat.pow_add] at hlow
  rw [hm, show 52 + k + 1 = 53 + k by omega, Nat.pow_add] at hhigh
  have hkept : 2 ^ 52 ≤ m / 2 ^ k := (Nat.le_div_iff_mul_le (Nat.two_pow_pos k)).mpr hlow
  have hlt : m / 2 ^ k < 2 ^ 53 := (Nat.div_lt_iff_lt_mul (Nat.two_pow_pos k)).mpr hhigh
  exact (Nat.log2_eq_iff (by omega)).mpr ⟨hkept, hlt⟩

/-- Rounding up makes a digit more only where all digits are ones. -/
theorem log2_succ_cases {m : Nat} (hm : m.log2 = 52) :
    (m + 1).log2 = 52 ∨ m + 1 = 2 ^ 53 := by
  have hpos : m ≠ 0 := by rintro rfl; cases hm
  have hlow := Nat.log2_self_le hpos
  have hhigh := Nat.lt_log2_self (n := m)
  rw [hm] at hlow hhigh
  by_cases hcarry : m + 1 = 2 ^ 53
  · exact .inr hcarry
  · exact .inl ((Nat.log2_eq_iff (by omega)).mpr ⟨by omega, by omega⟩)

/-- Rounding a number of 53 digits or more. The carry of rounding up may cost one more digit. -/
theorem normalIn_roundWithAccuracy {m k : Nat} {e : Int} (low high : Int)
    (sign : Float.Model.UnpackedFloat.Sign) (hm : m.log2 = 52 + k) (hlow : low ≤ e + k)
    (hhigh : e + k ≤ high) (hnormal : -1074 ≤ low) :
    NormalIn low (high + 1) (roundWithAccuracy format sign m e .exact) := by
  obtain ⟨hfirst, hexp⟩ := shiftToTargetExponent_eq (e := e) hm (by omega)
  generalize hshift : shiftToTargetExponent format m e .exact = shifted at hfirst hexp
  obtain ⟨kept, e'⟩ := shifted
  dsimp only at hfirst hexp
  subst hexp
  -- the second shift drops the carry if there is one, and nothing else
  have hsecond : ∃ j : Nat, j ≤ 1 ∧ (kept.roundedMantissa).log2 = 52 + j := by
    have hkept : kept.mantissa.log2 = 52 := by rw [hfirst, log2_div_two_pow hm]
    rcases roundedMantissa_cases kept with h | h
    · exact ⟨0, by omega, by rw [h, hkept]⟩
    · rcases log2_succ_cases hkept with h' | h'
      · exact ⟨0, by omega, by rw [h, h']⟩
      · exact ⟨1, le_refl 1, by rw [h, h', Nat.log2_two_pow]⟩
  obtain ⟨j, hj, hrounded⟩ := hsecond
  obtain ⟨hfinal, hexp⟩ :=
    shiftToTargetExponent_eq (e := e + k) (m := kept.roundedMantissa) hrounded (by omega)
  have hdigits : (shiftToTargetExponent format kept.roundedMantissa (e + k) .exact).1.mantissa.log2
      = 52 := by rw [hfinal, log2_div_two_pow hrounded]
  have hpos :
      (shiftToTargetExponent format kept.roundedMantissa (e + k) .exact).1.mantissa ≠ 0 := by
    intro hzero
    rw [hzero] at hdigits
    cases hdigits
  have heq : roundWithAccuracy format sign m e .exact
      = .finite sign _ (e + k + j) (Nat.pos_of_ne_zero hpos) := by
    simp only [roundWithAccuracy, hshift]
    rw [dif_neg hpos, hexp]
  exact ⟨sign, _, _, _, heq, hdigits, by omega, by omega⟩

/-! ## Packing -/

theorem toNat_one_append {m : Nat} (hm : m.log2 = 52) :
    (1#1 ++ BitVec.ofNat 52 m).toNat = m := by
  have hpos : m ≠ 0 := by rintro rfl; cases hm
  have hlow := Nat.log2_self_le hpos
  have hhigh := Nat.lt_log2_self (n := m)
  rw [hm] at hlow hhigh
  rw [BitVec.toNat_append, BitVec.toNat_ofNat, Nat.shiftLeft_eq, Nat.mul_comm,
    BitVec.toNat_ofNat, ← Nat.two_pow_add_eq_or_of_lt (Nat.mod_lt _ (Nat.two_pow_pos 52))]
  omega

/-- What is packed with all its digits and an exponent in range is unpacked again. -/
theorem normalIn_unpack_pack {value : UnpackedFloat} {low high : Int}
    (h : NormalIn low high value) (hlow : -1074 ≤ low) (hhigh : high ≤ 971) :
    NormalIn low high (Float.Model.pack value).unpack := by
  obtain ⟨sign, m, e, positive, rfl, hm, hle, hge⟩ := h
  have hbias : (format.exponentBias : Int) = 1023 := rfl
  -- the exponent as it is stored is neither of the two reserved ones
  obtain ⟨stored, hstored⟩ : ∃ stored : Nat, e + 1075 = stored :=
    ⟨(e + 1075).toNat, by omega⟩
  have hraw : (e + format.exponentBias + format.mantissaBitsWithoutImplicit).toNat = stored := by
    rw [hbias]
    change (e + 1023 + 52).toNat = stored
    omega
  have hpack : pack format (.finite sign m e positive)
      = packComponents format sign (BitVec.ofNat _ stored) (BitVec.ofNat _ m) := by
    have hfull : m.log2 + 1 = format.mantissaBits := by rw [hm]; rfl
    have hrange : ¬ 2 ^ format.exponentBits ≤ stored + 1 := by
      change ¬ 2 ^ 11 ≤ stored + 1
      omega
    simp only [pack, hraw, if_neg hrange, if_pos hfull]
  have hmantissa := toNat_one_append hm
  have hnotAll : BitVec.ofNat format.exponentBits stored ≠ -1#_ := by
    intro h
    have hbits := congrArg BitVec.toNat h
    change stored % 2 ^ 11 = 2 ^ 11 - 1 at hbits
    omega
  have hnotZero : BitVec.ofNat format.exponentBits stored ≠ 0#_ := by
    intro h
    have hbits := congrArg BitVec.toNat h
    change stored % 2 ^ 11 = 0 at hbits
    omega
  have hunpack : unpack format (pack format (.finite sign m e positive)) = .finite
      (Sign.ofBitVec (unpackSign (pack format (.finite sign m e positive)))) m e positive := by
    rw [hpack]
    simp only [unpack, unpackMantissa_packComponents, unpackExponent_packComponents,
      if_neg hnotAll, if_neg hnotZero]
    congr 1
    change ((stored % 2 ^ 11 : Nat) : Int) - (1023 + 52) = e
    omega
  exact ⟨_, m, e, positive, hunpack, hm, hle, hge⟩

/-! ## Whole numbers -/

theorem log2_mul_two_pow {n : Nat} (hn : n ≠ 0) (k : Nat) : (n * 2 ^ k).log2 = n.log2 + k := by
  have hlow := Nat.log2_self_le hn
  have hhigh := Nat.lt_log2_self (n := n)
  refine (Nat.log2_eq_iff (Nat.mul_ne_zero hn (Nat.two_pow_pos k).ne')).mpr ⟨?_, ?_⟩
  · rw [Nat.pow_add]
    exact Nat.mul_le_mul_right _ hlow
  · rw [show n.log2 + k + 1 = n.log2 + 1 + k by omega, Nat.pow_add]
    exact Nat.mul_lt_mul_of_pos_right hhigh (Nat.two_pow_pos k)

/-- A whole number of at most 53 digits. -/
theorem normalIn_toFloat {n : Nat} (hn : n ≠ 0) (hlt : n < 2 ^ 53) :
    NormalIn (-52) 1 n.toUInt64.toFloat.toModel.unpack := by
  have hlog : n.log2 ≤ 52 := Nat.le_of_lt_succ ((Nat.log2_lt hn).mpr hlt)
  have hword : n.toUInt64.toNat = n := Nat.mod_eq_of_lt (by omega)
  have hround : ofUInt64 format n.toUInt64
      = roundWithAccuracy format .positive (n * 2 ^ (52 - n.log2)) (n.log2 - 52) .exact := by
    have hcompare : compare (n : Int) 0 = .gt := Int.compare_eq_gt.mpr (by omega)
    have htarget : format.targetExponent (totalExponent n 0) = n.log2 - 52 := by
      rw [targetExponent_eq (by omega)]
      omega
    have hshift : (0 - ((n.log2 : Int) - 52)).toNat = 52 - n.log2 := by omega
    have hexp : (0 : Int) - ((52 - n.log2 : Nat) : Int) = n.log2 - 52 := by omega
    simp only [ofUInt64, ofNat, ofInt, hword, UnpackedFloat.normalize, hcompare,
      UnpackedFloat.round, Int.toNat_natCast, htarget, decreaseExponent, hshift, hexp,
      Nat.shiftLeft_eq]
  have hdigits : (n * 2 ^ (52 - n.log2)).log2 = 52 + 0 := by
    rw [log2_mul_two_pow hn]
    omega
  have hnormal := normalIn_roundWithAccuracy (e := n.log2 - 52) (-52) 0 .positive hdigits
    (by omega) (by omega) (by omega)
  rw [← hround] at hnormal
  exact normalIn_unpack_pack hnormal (by omega) (by omega)

theorem ofNat_eq_mul_one {n : Nat} (hlt : n < 2 ^ 53) :
    Float.ofNat n = n.toUInt64.toFloat * Float.ofBits 0x3FF0000000000000 := by
  unfold Float.ofNat
  change Float.ofScientific n false 0 = _
  unfold Float.ofScientific
  rw [dif_pos ⟨hlt, by decide⟩]
  rfl

theorem unpack_one : (Float.ofBits 0x3FF0000000000000).toModel.unpack
    = .finite .positive (2 ^ 52) (-52) (Nat.two_pow_pos 52) := rfl

theorem normalIn_ofNat_short {n : Nat} (hn : n ≠ 0) (hlt : n < 2 ^ 53) :
    NormalIn (-52) 2 (Float.ofNat n).toModel.unpack := by
  obtain ⟨sign, m, e, positive, hunpack, hm, hlow, hhigh⟩ := normalIn_toFloat hn hlt
  have hdigits : (m * 2 ^ 52).log2 = 52 + 52 := by rw [log2_mul_two_pow positive.ne', hm]
  have hnormal := normalIn_roundWithAccuracy (e := e + -52) (-52) 1 (sign * .positive) hdigits
    (by omega) (by omega) (by omega)
  have hmul : (Float.ofNat n).toModel = Float.Model.pack
      (roundWithAccuracy format (sign * .positive) (m * 2 ^ 52) (e + -52) .exact) := by
    rw [ofNat_eq_mul_one hlt]
    change Float.Model.pack (mul format n.toUInt64.toFloat.toModel.unpack
      (Float.ofBits 0x3FF0000000000000).toModel.unpack) = _
    rw [hunpack, unpack_one]
    rfl
  rw [hmul]
  exact normalIn_unpack_pack hnormal (by omega) (by omega)

/-- A longer number is rounded from its exact value. -/
theorem ofNat_eq_pack {n : Nat} (hge : 2 ^ 53 ≤ n) :
    (Float.ofNat n).toModel = Float.Model.pack
      (roundWithAccuracy format .positive (n * 2 ^ 53 * 1) (-53 + 0) .exact) := by
  unfold Float.ofNat
  change (Float.ofScientific n false 0).toModel = _
  unfold Float.ofScientific
  rw [dif_neg (fun h => Nat.not_lt.mpr hge h.1)]
  change Float.Model.pack (ofScientific format n 0) = _
  -- neither of the two guards against powers of ten beyond all doubles applies
  have hnotLarge : ¬ (0 : Int) > 2 ^ format.exponentBits := by decide
  have hnotSmall : ¬ (0 : Int) < -(2 ^ format.exponentBits + n.log2) := by
    change ¬ (0 : Int) < -(2 ^ 11 + n.log2)
    omega
  rw [ofScientific, dif_neg (by omega), if_neg hnotLarge, if_neg hnotSmall, if_pos (le_refl 0),
    ← Nat.shiftLeft_eq]
  rfl

theorem normalIn_ofNat_long {n : Nat} (hge : 2 ^ 53 ≤ n) (hlt : n < 2 ^ 64) :
    NormalIn 0 12 (Float.ofNat n).toModel.unpack := by
  have hn : n ≠ 0 := by omega
  have hlog : 53 ≤ n.log2 ∧ n.log2 ≤ 63 :=
    ⟨(Nat.le_log2 hn).mpr hge, Nat.le_of_lt_succ ((Nat.log2_lt hn).mpr hlt)⟩
  have hdigits : (n * 2 ^ 53 * 1).log2 = 52 + (n.log2 + 1) := by
    rw [Nat.mul_one, log2_mul_two_pow hn]
    omega
  have hnormal := normalIn_roundWithAccuracy (e := -53 + 0) 0 11 .positive hdigits
    (by omega) (by omega) (by omega)
  rw [ofNat_eq_pack hge]
  exact normalIn_unpack_pack hnormal (by omega) (by omega)

theorem exists_normal_ofNat {n : Nat} (hn : n ≠ 0) (hlt : n < 2 ^ 64) :
    ∃ low high, NormalIn low high (Float.ofNat n).toModel.unpack := by
  by_cases hshort : n < 2 ^ 53
  · exact ⟨_, _, normalIn_ofNat_short hn hshort⟩
  · exact ⟨_, _, normalIn_ofNat_long (Nat.le_of_not_lt hshort) hlt⟩

theorem NormalIn.isFinite {x : Float} {low high : Int} (h : NormalIn low high x.toModel.unpack) :
    x.isFinite = true := by
  obtain ⟨sign, m, e, positive, hunpack, -⟩ := h
  change x.toModel.unpack.isFinite = true
  rw [hunpack]
  rfl

theorem NormalIn.beq_zero {x : Float} {low high : Int} (h : NormalIn low high x.toModel.unpack) :
    (x == 0) = false := by
  obtain ⟨sign, m, e, positive, hunpack, -⟩ := h
  have hzero : (0 : Float).toModel.unpack = .zero .positive := rfl
  change x.toModel.unpack.beq (0 : Float).toModel.unpack = false
  rw [hunpack, hzero]
  cases sign <;> rfl

theorem isFinite_ofNat {n : Nat} (h : n < 2 ^ 64) : (Float.ofNat n).isFinite = true := by
  rcases Nat.eq_zero_or_pos n with rfl | hpos
  · rfl
  · obtain ⟨low, high, hnormal⟩ := exists_normal_ofNat hpos.ne' h
    exact hnormal.isFinite

theorem ofNat_beq_zero {n : Nat} (hn : n ≠ 0) (h : n < 2 ^ 64) :
    (Float.ofNat n == 0) = false := by
  obtain ⟨low, high, hnormal⟩ := exists_normal_ofNat hn h
  exact hnormal.beq_zero

theorem beq_zero_of_pos {x : Float} (h : 0 < x) : (x == 0) = false := by
  have hzero : (0 : Float).toModel.unpack = .zero .positive := rfl
  have h : (0 : Float).toModel.unpack.lt x.toModel.unpack = true := of_decide_eq_true h
  change x.toModel.unpack.beq (0 : Float).toModel.unpack = false
  rw [hzero] at h ⊢
  generalize x.toModel.unpack = value at h ⊢
  cases value with
  | notANumber => rfl
  | infinity sign => cases sign <;> rfl
  | zero sign => cases h
  | finite sign m e positive => cases sign <;> rfl

end Doubles

end LogicCapture
