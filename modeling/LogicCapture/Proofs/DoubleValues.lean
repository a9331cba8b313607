import Mathlib
import LogicCapture.Proofs.Doubles

/-!
# The values of doubles

A double that is a number has one *canonical* pair of mantissa and exponent, and its value is a
whole number of units of a power of two. The same holds the other way around: a number that has 53
digits or fewer, in units within the range of exponents, is the value of a double. Rounding leaves
such a number as it is (`round_exact`), so a difference of doubles that is one of these numbers is
computed without an error (`Canonical.sub`). The order of doubles is the order of their values
(`Canonical.le_iff`).
-/

namespace LogicCapture

/-- The number that a double stands for, if it is one. -/
def Binary64.value? : Binary64 → Option Rat
  | .finite negative mantissa exponent =>
    some (if negative then -(mantissa * 2 ^ exponent) else mantissa * 2 ^ exponent)
  | _ => none

namespace Doubles

open Float.Model (UnpackedFloat totalExponent)
open Float.Model.UnpackedFloat

/-! ## Canonical pairs -/

/-- Mantissa and exponent as a double has them: all 53 digits, or the least exponent of all. -/
structure CanonicalPair (m : Nat) (e : Int) : Prop where
  lt : m < 2 ^ 53
  full : 2 ^ 52 ≤ m ∨ e = -1074
  least : -1074 ≤ e
  most : e ≤ 971

/-- A double that is a number, as it is stored. -/
def Canonical : UnpackedFloat → Prop
  | .zero _ => True
  | .finite _ m e _ => CanonicalPair m e
  | _ => False

def value : UnpackedFloat → Rat
  | .finite .positive m e _ => m * 2 ^ e
  | .finite .negative m e _ => -(m * 2 ^ e)
  | _ => 0

theorem totalExponent_mul_two_pow {m : Nat} (hm : m ≠ 0) (e : Int) (k : Nat) :
    totalExponent (m * 2 ^ k) (e - k) = totalExponent m e := by
  rw [totalExponent, totalExponent, log2_mul_two_pow hm]
  omega

theorem CanonicalPair.targetExponent_eq {m : Nat} {e : Int} (h : CanonicalPair m e) (hm : m ≠ 0) :
    format.targetExponent (totalExponent m e) = e := by
  have hbits : (format.mantissaBits : Int) = 53 := rfl
  have hmin : format.minExponent = -1074 := rfl
  have hlog : m.log2 < 53 := (Nat.log2_lt hm).mpr h.lt
  have hleast := h.least
  rw [Float.Model.Format.targetExponent, totalExponent, hbits, hmin]
  rcases h.full with hfull | hlow
  · have hdigits : 52 ≤ m.log2 := (Nat.le_log2 hm).mpr hfull
    omega
  · omega

/-! ## Rounding nothing -/

theorem shiftRight_mul_two_pow (m k : Nat) :
    ExtendedMantissa.ofMantissaAndAccuracy (m * 2 ^ k) .exact >>> k
      = ExtendedMantissa.ofMantissaAndAccuracy m .exact := by
  change k.repeat ExtendedMantissa.shiftRightOne _ = _
  induction k generalizing m with
  | zero => rw [Nat.pow_zero, Nat.mul_one]; rfl
  | succ k ih =>
      have hstep : m * 2 ^ (k + 1) = m * 2 * 2 ^ k := by rw [Nat.pow_succ']; ring
      rw [hstep]
      change ExtendedMantissa.shiftRightOne (k.repeat ExtendedMantissa.shiftRightOne _) = _
      rw [ih]
      simp [ExtendedMantissa.ofMantissaAndAccuracy, ExtendedMantissa.shiftRightOne]

theorem shiftToTargetExponent_exact {m : Nat} {e : Int} (hm : m ≠ 0)
    (h : format.targetExponent (totalExponent m e) = e) (k : Nat) :
    shiftToTargetExponent format (m * 2 ^ k) (e - k) .exact
      = (ExtendedMantissa.ofMantissaAndAccuracy m .exact, e) := by
  have hshift : (e - (e - k)).toNat = k := by omega
  rw [shiftToTargetExponent, totalExponent_mul_two_pow hm, h, shiftToExponent, hshift]
  rw [shiftRight_mul_two_pow, Int.sub_add_cancel]

theorem roundWithAccuracy_exact {m : Nat} {e : Int} (hm : 0 < m)
    (h : format.targetExponent (totalExponent m e) = e) (s : Sign) (k : Nat) :
    roundWithAccuracy format s (m * 2 ^ k) (e - k) .exact = .finite s m e hm := by
  have hagain : shiftToTargetExponent format m e .exact
      = (ExtendedMantissa.ofMantissaAndAccuracy m .exact, e) := by
    simpa using shiftToTargetExponent_exact hm.ne' h 0
  have hrounded : (ExtendedMantissa.ofMantissaAndAccuracy m .exact).roundedMantissa = m := rfl
  simp only [roundWithAccuracy, shiftToTargetExponent_exact hm.ne' h k, hrounded, hagain]
  exact dif_neg hm.ne'

theorem mul_two_zpow_sub_eq_iff {m m' : Nat} {e : Int} {k : Nat} :
    (m : Rat) * 2 ^ (e - k) = m' * 2 ^ e ↔ m = m' * 2 ^ k := by
  have hunit : (2 : Rat) ^ e = 2 ^ k * 2 ^ (e - k) := by
    rw [← zpow_natCast, ← zpow_add₀ two_ne_zero]
    congr 1
    omega
  have hpos : (2 : Rat) ^ (e - k) ≠ 0 := zpow_ne_zero _ two_ne_zero
  rw [hunit, ← mul_assoc, mul_left_inj' hpos]
  norm_cast

/-- A number that is the value of a double is rounded to that double. -/
theorem round_exact {m m' : Nat} {e e' : Int} (h : CanonicalPair m' e') (hm' : 0 < m')
    (hvalue : (m : Rat) * 2 ^ e = m' * 2 ^ e') (s : Sign) :
    UnpackedFloat.round format s m e = .finite s m' e' hm' := by
  have htarget' := h.targetExponent_eq hm'.ne'
  rcases Int.le_total e e' with hle | hle
  · obtain ⟨k, rfl⟩ : ∃ k : Nat, e = e' - k := ⟨(e' - e).toNat, by omega⟩
    obtain rfl := mul_two_zpow_sub_eq_iff.mp hvalue
    have hshift : (e' - k - e').toNat = 0 := by omega
    rw [UnpackedFloat.round, totalExponent_mul_two_pow hm'.ne', htarget', decreaseExponent, hshift]
    simpa using roundWithAccuracy_exact hm' htarget' s k
  · obtain ⟨k, rfl⟩ : ∃ k : Nat, e' = e - k := ⟨(e - e').toNat, by omega⟩
    obtain rfl := mul_two_zpow_sub_eq_iff.mp hvalue.symm
    have hm : m ≠ 0 := by rintro rfl; simp at hm'
    have hshift : (e - (e - k)).toNat = k := by omega
    rw [totalExponent_mul_two_pow hm] at htarget'
    rw [UnpackedFloat.round, htarget', decreaseExponent, hshift, Nat.shiftLeft_eq]
    have hexact := roundWithAccuracy_exact hm' (e := e - k)
      (by rw [totalExponent_mul_two_pow hm, htarget']) s 0
    simpa using hexact

/-- A number with 53 digits or fewer, in units that are not too small or too large, is the value of
a double. -/
theorem exists_canonicalPair {n : Nat} (hn : n ≠ 0) (hlt : n < 2 ^ 53) {e : Int}
    (hleast : -1074 ≤ e) (hmost : e ≤ 971) :
    ∃ (m : Nat) (e' : Int), CanonicalPair m e' ∧ 0 < m ∧ (m : Rat) * 2 ^ e' = n * 2 ^ e := by
  have hlog : n.log2 ≤ 52 := Nat.le_of_lt_succ ((Nat.log2_lt hn).mpr hlt)
  -- as many digits are added as there are missing, or as the least exponent allows
  let k : Nat := min (52 - n.log2) (e + 1074).toNat
  have hk : k ≤ 52 - n.log2 := Nat.min_le_left _ _
  refine ⟨n * 2 ^ k, e - k, ⟨?_, ?_, by omega, by omega⟩,
    Nat.mul_pos (Nat.pos_of_ne_zero hn) (Nat.two_pow_pos k), mul_two_zpow_sub_eq_iff.mpr rfl⟩
  · have hdigits : (n * 2 ^ k).log2 < 53 := by rw [log2_mul_two_pow hn]; omega
    exact (Nat.log2_lt (Nat.mul_ne_zero hn (Nat.two_pow_pos k).ne')).mp hdigits
  · rcases Nat.le_total (52 - n.log2) (e + 1074).toNat with h | h
    · have hdigits : 52 ≤ (n * 2 ^ k).log2 := by rw [log2_mul_two_pow hn]; omega
      exact Or.inl ((Nat.le_log2 (Nat.mul_ne_zero hn (Nat.two_pow_pos k).ne')).mp hdigits)
    · exact Or.inr (by omega)

/-! ## Storing doubles -/

/-- Components of a double with all its digits. -/
theorem unpack_packComponents_normal (s : Sign) {stored m : Nat} (hpos : 0 < stored)
    (hlt : stored < 2047) (hm : m.log2 = 52) (hm' : 0 < m) :
    unpack format (packComponents format s (BitVec.ofNat _ stored) (BitVec.ofNat _ m))
      = .finite s m (stored - 1075) hm' := by
  have hnotAll : BitVec.ofNat format.exponentBits stored ≠ -1#_ := by
    intro h
    have hbits := congrArg BitVec.toNat h
    change stored % 2 ^ 11 = 2 ^ 11 - 1 at hbits
    omega
  have hnotZero : BitVec.ofNat format.exponentBits stored ≠ 0#_ := by
    intro h
    have hbits := congrArg BitVec.toNat h
    change stored % 2 ^ 11 = 0 at hbits
    omega
  have hmantissa := toNat_one_append hm
  simp only [unpack, unpackMantissa_packComponents, unpackExponent_packComponents,
    unpackSign_packComponents, Sign.ofBitVec_toBitVec, if_neg hnotAll, if_neg hnotZero]
  congr 1
  change ((stored % 2 ^ 11 : Nat) : Int) - (1023 + 52) = stored - 1075
  omega

theorem unpack_packComponents_subnormal (s : Sign) {m : Nat} (hm : 0 < m) (hlt : m < 2 ^ 52) :
    unpack format (packComponents format s 0#_ (BitVec.ofNat _ m)) = .finite s m (-1074) hm := by
  have hnotAll : (0#_ : BitVec format.exponentBits) ≠ -1#_ := by decide
  have hdigits : (BitVec.ofNat format.mantissaBitsWithoutImplicit m).toNat = m :=
    Nat.mod_eq_of_lt hlt
  have hnotZero : BitVec.ofNat format.mantissaBitsWithoutImplicit m ≠ 0#_ := by
    intro h
    have hbits := congrArg BitVec.toNat h
    rw [hdigits] at hbits
    exact hm.ne' hbits
  simp only [unpack, unpackMantissa_packComponents, unpackExponent_packComponents,
    unpackSign_packComponents, Sign.ofBitVec_toBitVec, if_neg hnotAll, if_true, dif_neg hnotZero,
    hdigits]
  rfl

/-- All of a double is stored. -/
theorem unpack_pack {v : UnpackedFloat} (h : Canonical v) : (Float.Model.pack v).unpack = v := by
  cases v with
  | notANumber => exact h.elim
  | infinity s => exact h.elim
  | zero s => cases s <;> rfl
  | finite s m e hm =>
      have hpair : CanonicalPair m e := h
      have hleast := hpair.least
      have hmost := hpair.most
      obtain ⟨stored, hstored⟩ : ∃ stored : Nat, e + 1075 = stored :=
        ⟨(e + 1075).toNat, by omega⟩
      have hraw :
          (e + format.exponentBias + format.mantissaBitsWithoutImplicit).toNat = stored := by
        change (e + 1023 + 52).toNat = stored
        omega
      have hrange : ¬ 2 ^ format.exponentBits ≤ stored + 1 := by
        change ¬ 2 ^ 11 ≤ stored + 1
        omega
      change unpack format (pack format (.finite s m e hm)) = _
      simp only [pack, hraw, if_neg hrange]
      split
      · next hfull =>
        have hlog : m.log2 = 52 := Nat.succ.inj hfull
        rw [unpack_packComponents_normal s (by omega) (by omega) hlog hm]
        congr 1
        omega
      · next hnot =>
        have hlog : ¬2 ^ 52 ≤ m := fun hfull => by
          have hdigits := (Nat.le_log2 hm.ne').mpr hfull
          have hlt := (Nat.log2_lt hm.ne').mpr hpair.lt
          exact hnot (by change m.log2 + 1 = 53; omega)
        rw [unpack_packComponents_subnormal s hm (Nat.lt_of_not_le hlog)]
        congr 1
        exact (hpair.full.resolve_left hlog).symm

theorem toNat_implicit (m : BitVec 52) : (1#1 ++ m).toNat = 0x10000000000000 + m.toNat := by
  rw [BitVec.toNat_append, Nat.shiftLeft_eq, Nat.mul_comm, ← Nat.two_pow_add_eq_or_of_lt m.isLt]
  rfl

section Bits

variable (b : BitVec format.numBits)

theorem toNat_unpackMantissa : (unpackMantissa b).toNat = b.toNat % 0x10000000000000 := by
  simp [unpackMantissa]

theorem toNat_unpackExponent :
    (unpackExponent b).toNat = b.toNat / 0x10000000000000 % 0x800 := by
  simp [unpackExponent, Nat.shiftRight_eq_div_pow]

theorem toNat_unpackSign : (unpackSign b).toNat = b.toNat / 0x8000000000000000 % 2 := by
  simp [unpackSign, Nat.shiftRight_eq_div_pow]

theorem unpackExponent_eq_neg_one_iff :
    unpackExponent b = -1#_ ↔ b.toNat / 0x10000000000000 % 0x800 = 2047 := by
  rw [← toNat_unpackExponent, ← BitVec.toNat_inj]
  rfl

theorem unpackExponent_eq_zero_iff :
    unpackExponent b = 0#_ ↔ b.toNat / 0x10000000000000 % 0x800 = 0 := by
  rw [← toNat_unpackExponent, ← BitVec.toNat_inj]
  rfl

theorem unpackMantissa_eq_zero_iff :
    unpackMantissa b = 0#_ ↔ b.toNat % 0x10000000000000 = 0 := by
  rw [← toNat_unpackMantissa, ← BitVec.toNat_inj]
  rfl

end Bits

def negative : Sign → Bool
  | .negative => true
  | .positive => false

theorem negative_ofBitVec (b : BitVec format.numBits) :
    negative (Sign.ofBitVec (unpackSign b)) = (b.toNat / 0x8000000000000000 % 2 == 1) := by
  rw [← toNat_unpackSign]
  generalize unpackSign b = sign
  revert sign
  decide

def reading : UnpackedFloat → Binary64
  | .notANumber => .nan
  | .infinity s => .infinite (negative s)
  | .zero s => .finite (negative s) 0 (-1074)
  | .finite s m e _ => .finite (negative s) m e

theorem ofBits_eq_reading (b : BitVec format.numBits) :
    Binary64.ofBits b.toNat = reading (unpack format b) := by
  have hmantissa := toNat_unpackMantissa b
  have hexponent := toNat_unpackExponent b
  unfold Binary64.ofBits unpack
  dsimp only
  rw [← negative_ofBitVec]
  by_cases hall : unpackExponent b = -1#_
  · rw [if_pos ((unpackExponent_eq_neg_one_iff b).mp hall), if_pos hall]
    by_cases hzero : unpackMantissa b = 0#_
    · rw [if_pos ((unpackMantissa_eq_zero_iff b).mp hzero), if_pos hzero]
      rfl
    · rw [if_neg (mt (unpackMantissa_eq_zero_iff b).mpr hzero), if_neg hzero]
      rfl
  · rw [if_neg (mt (unpackExponent_eq_neg_one_iff b).mpr hall), if_neg hall]
    by_cases hnone : unpackExponent b = 0#_
    · rw [if_pos ((unpackExponent_eq_zero_iff b).mp hnone), if_pos hnone]
      by_cases hzero : unpackMantissa b = 0#_
      · rw [dif_pos hzero, (unpackMantissa_eq_zero_iff b).mp hzero]
        rfl
      · rw [dif_neg hzero, ← hmantissa]
        have : (unpackExponent b).toNat = 0 := by rw [hnone]; rfl
        simp only [reading, this]
        rfl
    · rw [if_neg (mt (unpackExponent_eq_zero_iff b).mpr hnone), if_neg hnone, ← hmantissa,
        ← hexponent]
      simp only [reading, toNat_implicit]
      rfl

theorem ofFloat_eq_reading (x : Float) : Binary64.ofFloat x = reading x.toModel.unpack :=
  ofBits_eq_reading x.toModel.toBits.toBitVec

theorem canonical_unpack_of_isFinite {b : BitVec format.numBits}
    (h : (unpack format b).isFinite = true) : Canonical (unpack format b) := by
  have hexponent : (unpackExponent b).toNat < 2 ^ 11 := (unpackExponent b).isLt
  have hmantissa : (unpackMantissa b).toNat < 2 ^ 52 := (unpackMantissa b).isLt
  unfold unpack at h ⊢
  dsimp only at h ⊢
  by_cases hall : unpackExponent b = -1#_
  · rw [if_pos hall] at h
    split at h <;> cases h
  · rw [if_neg hall]
    by_cases hnone : unpackExponent b = 0#_
    · rw [if_pos hnone]
      by_cases hzero : unpackMantissa b = 0#_
      · rw [dif_pos hzero]
        trivial
      · rw [dif_neg hzero]
        have hleast : ((unpackExponent b).toNat : Int)
            - (format.exponentBias + format.mantissaBitsWithoutImplicit) + 1 = -1074 := by
          rw [hnone]
          rfl
        exact ⟨by omega, Or.inr hleast, hleast.ge, hleast.le.trans (by decide)⟩
    · rw [if_neg hnone]
      have hpos : (unpackExponent b).toNat ≠ 0 :=
        fun h => hnone (BitVec.toNat_inj.mp h)
      have hless : (unpackExponent b).toNat ≠ 2047 :=
        fun h => hall (BitVec.toNat_inj.mp h)
      have hbias : (format.exponentBias : Int) = 1023 := rfl
      have hbits : (format.mantissaBitsWithoutImplicit : Int) = 52 := rfl
      have hdigits := toNat_implicit (unpackMantissa b)
      refine ⟨?_, Or.inl ?_, ?_, ?_⟩ <;> omega

theorem canonical_unpack {x : Float} (h : x.isFinite = true) : Canonical x.toModel.unpack :=
  canonical_unpack_of_isFinite h

/-! ## The number a double stands for -/

def valueOf (x : Float) : Rat :=
  value x.toModel.unpack

theorem value?_reading {v : UnpackedFloat} (h : v.isFinite = true → Canonical v) {q : Rat} :
    (reading v).value? = some q ↔ Canonical v ∧ value v = q := by
  cases v with
  | notANumber => exact ⟨nofun, fun hq => hq.1.elim⟩
  | infinity s => exact ⟨nofun, fun hq => hq.1.elim⟩
  | zero s =>
      have hzero : (reading (.zero s)).value? = some 0 := by
        cases s with
        | negative => norm_num [reading, Binary64.value?, negative]
        | positive => norm_num [reading, Binary64.value?, negative]
      rw [hzero, Option.some.injEq]
      exact ⟨fun hq => ⟨trivial, hq⟩, fun hq => hq.2⟩
  | finite s m e hm =>
      have hfinite : (reading (.finite s m e hm)).value? = some (value (.finite s m e hm)) := by
        cases s <;> rfl
      rw [hfinite, Option.some.injEq]
      exact ⟨fun hq => ⟨h rfl, hq⟩, fun hq => hq.2⟩

theorem value?_eq_some_iff {x : Float} {q : Rat} :
    (Binary64.ofFloat x).value? = some q ↔ Canonical x.toModel.unpack ∧ valueOf x = q := by
  rw [ofFloat_eq_reading]
  exact value?_reading canonical_unpack_of_isFinite

theorem isFinite_iff_canonical {x : Float} :
    (Binary64.ofFloat x).isFinite = true ↔ Canonical x.toModel.unpack := by
  have hcanonical := canonical_unpack (x := x)
  change x.toModel.unpack.isFinite = true → _ at hcanonical
  rw [ofFloat_eq_reading]
  cases hv : x.toModel.unpack with
  | notANumber => exact ⟨nofun, False.elim⟩
  | infinity s => exact ⟨nofun, False.elim⟩
  | zero s => exact ⟨fun _ => trivial, fun _ => rfl⟩
  | finite s m e hm =>
      rw [hv] at hcanonical
      exact ⟨fun _ => hcanonical rfl, fun _ => rfl⟩

theorem canonicalPair_of_finite {x : Float} {negative : Bool} {m : Nat} {e : Int}
    (h : Binary64.ofFloat x = .finite negative m e) : CanonicalPair m e := by
  have hfinite : (Binary64.ofFloat x).isFinite = true := by rw [h]; rfl
  have hcanonical := isFinite_iff_canonical.mp hfinite
  rw [ofFloat_eq_reading] at h
  cases hv : x.toModel.unpack with
  | notANumber => rw [hv] at h; cases h
  | infinity s => rw [hv] at h; cases h
  | zero s =>
      rw [hv] at h
      cases h
      exact ⟨by decide, Or.inr rfl, by decide, by decide⟩
  | finite s m' e' hm =>
      rw [hv] at h hcanonical
      cases h
      exact hcanonical

/-! ## Exact differences -/

/-- The number has 53 digits or fewer, in units that are not too small or too large. -/
def Short (q : Rat) : Prop :=
  ∃ (n : Nat) (e : Int), n < 2 ^ 53 ∧ -1074 ≤ e ∧ e ≤ 971 ∧ |q| = n * 2 ^ e

theorem short_neg_iff {q : Rat} : Short (-q) ↔ Short q := by
  rw [Short, Short, abs_neg]

theorem two_zpow_pos (e : Int) : (0 : Rat) < 2 ^ e := zpow_pos two_pos e

/-- A short number is rounded to itself. -/
theorem exists_round_eq {m : Nat} {e : Int} (hm : 0 < m) (h : Short (m * 2 ^ e)) (s : Sign) :
    ∃ (m' : Nat) (e' : Int) (hm' : 0 < m'), UnpackedFloat.round format s m e = .finite s m' e' hm'
      ∧ CanonicalPair m' e' ∧ (m' : Rat) * 2 ^ e' = m * 2 ^ e := by
  obtain ⟨n, j, hlt, hleast, hmost, hn⟩ := h
  have hpos : (0 : Rat) < m * 2 ^ e := mul_pos (Nat.cast_pos.mpr hm) (two_zpow_pos e)
  rw [abs_of_pos hpos] at hn
  have hn0 : n ≠ 0 := by
    rintro rfl
    rw [hn, Nat.cast_zero, zero_mul] at hpos
    exact lt_irrefl _ hpos
  obtain ⟨m', e', hpair, hm', hvalue⟩ := exists_canonicalPair hn0 hlt hleast hmost
  exact ⟨m', e', hm', round_exact hpair hm' (hn.trans hvalue.symm) s, hpair, hvalue.trans hn.symm⟩

theorem normalize_exact {m e : Int} {q : Rat} (hq : q = m * 2 ^ e) (hshort : Short q)
    (zero : Sign) :
    Canonical (UnpackedFloat.normalize format m e zero)
      ∧ value (UnpackedFloat.normalize format m e zero) = q := by
  unfold UnpackedFloat.normalize
  rcases lt_trichotomy m 0 with hm | rfl | hm
  · rw [Int.compare_eq_lt.mpr hm]
    obtain ⟨k, hk, rfl⟩ : ∃ k : Nat, 0 < k ∧ m = -(k : Int) := ⟨(-m).toNat, by omega, by omega⟩
    have hneg : q = -(k * 2 ^ e) := by rw [hq]; push_cast; ring
    have habs : Short ((k : Rat) * 2 ^ e) := short_neg_iff.mp (hneg ▸ hshort)
    obtain ⟨m', e', hm', hround, hpair, hvalue⟩ := exists_round_eq hk habs .negative
    rw [neg_neg, Int.toNat_natCast, hround]
    exact ⟨hpair, by rw [value, hvalue, hneg]⟩
  · rw [hq]
    exact ⟨trivial, by simp [value]⟩
  · rw [Int.compare_eq_gt.mpr hm]
    obtain ⟨k, hk, rfl⟩ : ∃ k : Nat, 0 < k ∧ m = (k : Int) := ⟨m.toNat, by omega, by omega⟩
    rw [Int.cast_natCast] at hq
    subst hq
    obtain ⟨m', e', hm', hround, hpair, hvalue⟩ := exists_round_eq hk hshort .positive
    rw [Int.toNat_natCast, hround]
    exact ⟨hpair, hvalue⟩

theorem value_finite (s : Sign) (m : Nat) (e : Int) (hm : 0 < m) :
    value (.finite s m e hm) = (s.apply m : Int) * 2 ^ e := by
  cases s with
  | negative => simp [value, Sign.apply]
  | positive => simp [value, Sign.apply]

theorem apply_shiftLeft (s : Sign) (m : Nat) {e t : Int} (h : t ≤ e) :
    ((s.apply (m <<< (e - t).toNat : Nat) : Int) : Rat) * 2 ^ t = (s.apply m : Int) * 2 ^ e := by
  obtain ⟨k, rfl⟩ : ∃ k : Nat, t = e - k := ⟨(e - t).toNat, by omega⟩
  have hshift : (e - (e - k)).toNat = k := by omega
  have hvalue : ((m * 2 ^ k : Nat) : Rat) * 2 ^ (e - k) = m * 2 ^ e :=
    mul_two_zpow_sub_eq_iff.mpr rfl
  rw [hshift, Nat.shiftLeft_eq]
  cases s with
  | negative =>
      simpa only [Sign.apply, Int.cast_neg, Int.cast_natCast, neg_mul, neg_inj] using hvalue
  | positive => simpa only [Sign.apply, Int.cast_natCast] using hvalue

/-- A short difference of doubles is computed exactly. -/
theorem Canonical.sub {a b : UnpackedFloat} (ha : Canonical a) (hb : Canonical b)
    (hshort : Short (value a - value b)) :
    Canonical (UnpackedFloat.sub format a b)
      ∧ value (UnpackedFloat.sub format a b) = value a - value b := by
  cases a with
  | notANumber => exact ha.elim
  | infinity s => exact ha.elim
  | zero s =>
      cases b with
      | notANumber => exact hb.elim
      | infinity s' => exact hb.elim
      | zero s' =>
          rw [UnpackedFloat.sub]
          split <;> exact ⟨trivial, (sub_zero _).symm⟩
      | finite s' m e hm =>
          refine ⟨hb, ?_⟩
          cases s' with
          | negative => exact ((zero_sub _).trans (neg_neg _)).symm
          | positive => exact (zero_sub _).symm
  | finite s m e hm =>
      cases b with
      | notANumber => exact hb.elim
      | infinity s' => exact hb.elim
      | zero s' => exact ⟨ha, (sub_zero _).symm⟩
      | finite s' m' e' hm' =>
          refine normalize_exact ?_ hshort .positive
          rw [value_finite, value_finite, Int.cast_sub, sub_mul,
            apply_shiftLeft s m (Int.min_le_left e e'),
            apply_shiftLeft s' m' (Int.min_le_right e e')]

theorem sub_exact {x y : Float} (hx : Canonical x.toModel.unpack) (hy : Canonical y.toModel.unpack)
    (hshort : Short (valueOf x - valueOf y)) :
    Canonical (x - y).toModel.unpack ∧ valueOf (x - y) = valueOf x - valueOf y := by
  obtain ⟨hsub, hvalue⟩ := hx.sub hy hshort
  have hunpack : (x - y).toModel.unpack
      = UnpackedFloat.sub format x.toModel.unpack y.toModel.unpack := unpack_pack hsub
  rw [valueOf, hunpack]
  exact ⟨hsub, hvalue⟩

/-! ## Order -/

/-- Of two numbers with canonical pairs the one with the greater exponent is greater, and with the
same exponent the one with the greater mantissa. -/
theorem CanonicalPair.lt_of_exponent_lt {m m' : Nat} {e e' : Int} (h : CanonicalPair m e)
    (h' : CanonicalPair m' e') (hlt : e < e') : (m : Rat) * 2 ^ e < m' * 2 ^ e' := by
  have hfull : 2 ^ 52 ≤ m' := h'.full.resolve_right (by have := h.least; omega)
  calc (m : Rat) * 2 ^ e < 2 ^ 53 * 2 ^ e :=
        mul_lt_mul_of_pos_right (by exact_mod_cast h.lt) (two_zpow_pos e)
    _ = 2 ^ 52 * 2 ^ (e + 1) := by rw [zpow_add₀ two_ne_zero]; ring
    _ ≤ m' * 2 ^ (e + 1) :=
        mul_le_mul_of_nonneg_right (by exact_mod_cast hfull) (two_zpow_pos _).le
    _ ≤ m' * 2 ^ e' :=
        mul_le_mul_of_nonneg_left (zpow_le_zpow_right₀ one_le_two (by omega)) (Nat.cast_nonneg _)

theorem CanonicalPair.compare_isLE_iff {m m' : Nat} {e e' : Int} (h : CanonicalPair m e)
    (h' : CanonicalPair m' e') :
    ((compare e e').then (compare m m')).isLE = true ↔ (m : Rat) * 2 ^ e ≤ m' * 2 ^ e' := by
  rcases lt_trichotomy e e' with hlt | rfl | hlt
  · rw [Int.compare_eq_lt.mpr hlt]
    exact ⟨fun _ => (h.lt_of_exponent_lt h' hlt).le, fun _ => rfl⟩
  · rw [Int.compare_eq_eq.mpr rfl, mul_le_mul_iff_left₀ (two_zpow_pos e), Nat.cast_le,
      Ordering.eq_then, Nat.isLE_compare]
  · rw [Int.compare_eq_gt.mpr hlt]
    exact ⟨nofun, fun hle => absurd (h'.lt_of_exponent_lt h hlt) hle.not_gt⟩

theorem value_pos {m : Nat} (hm : 0 < m) (e : Int) : (0 : Rat) < m * 2 ^ e :=
  mul_pos (Nat.cast_pos.mpr hm) (two_zpow_pos e)

/-- The order of doubles is the order of their values. -/
theorem Canonical.le_iff {a b : UnpackedFloat} (ha : Canonical a) (hb : Canonical b) :
    a.le b = true ↔ value a ≤ value b := by
  cases a with
  | notANumber => exact ha.elim
  | infinity s => exact ha.elim
  | zero s =>
      cases b with
      | notANumber => exact hb.elim
      | infinity s' => exact hb.elim
      | zero s' => exact ⟨fun _ => le_refl _, fun _ => rfl⟩
      | finite s' m' e' hm' =>
          have hpos := value_pos hm' e'
          cases s' with
          | positive => exact ⟨fun _ => hpos.le, fun _ => rfl⟩
          | negative => exact ⟨nofun, fun hle => absurd hpos (neg_nonneg.mp hle).not_gt⟩
  | finite s m e hm =>
      have hpos := value_pos hm e
      cases b with
      | notANumber => exact hb.elim
      | infinity s' => exact hb.elim
      | zero s' =>
          cases s with
          | positive => exact ⟨nofun, fun hle => absurd hpos hle.not_gt⟩
          | negative => exact ⟨fun _ => neg_nonpos.mpr hpos.le, fun _ => rfl⟩
      | finite s' m' e' hm' =>
          have hpos' := value_pos hm' e'
          have hpair : CanonicalPair m e := ha
          have hpair' : CanonicalPair m' e' := hb
          cases s <;> cases s'
          · change ((compare e e').then (compare m m')).swap.isLE = true ↔ -(_ : Rat) ≤ -_
            rw [Ordering.swap_then, Int.compare_swap, Nat.compare_swap,
              hpair'.compare_isLE_iff hpair, neg_le_neg_iff]
          · exact ⟨fun _ => (neg_neg_of_pos hpos).le.trans hpos'.le, fun _ => rfl⟩
          · exact ⟨nofun, fun hle => absurd (hpos.trans_le hle) (neg_neg_of_pos hpos').not_gt⟩
          · exact hpair.compare_isLE_iff hpair'

theorem le_iff_valueOf {x y : Float} (hx : Canonical x.toModel.unpack)
    (hy : Canonical y.toModel.unpack) : x ≤ y ↔ valueOf x ≤ valueOf y :=
  decide_eq_true_iff.trans (hx.le_iff hy)

/-! ## Signs -/

theorem Canonical.neg {v : UnpackedFloat} (h : Canonical v) :
    Canonical v.neg ∧ value v.neg = -value v := by
  cases v with
  | notANumber => exact h.elim
  | infinity s => exact h.elim
  | zero s => exact ⟨trivial, neg_zero.symm⟩
  | finite s m e hm =>
      refine ⟨h, ?_⟩
      cases s with
      | negative => exact (neg_neg _).symm
      | positive => rfl

theorem neg_exact {x : Float} (hx : Canonical x.toModel.unpack) :
    Canonical (-x).toModel.unpack ∧ valueOf (-x) = -valueOf x := by
  obtain ⟨hneg, hvalue⟩ := hx.neg
  have hunpack : (-x).toModel.unpack = x.toModel.unpack.neg := unpack_pack hneg
  rw [valueOf, hunpack]
  exact ⟨hneg, hvalue⟩

theorem unpack_packComponents_neg (s : Sign) (e : BitVec format.exponentBits)
    (m : BitVec format.mantissaBitsWithoutImplicit) :
    unpack format (packComponents format (-s) e m)
      = (unpack format (packComponents format s e m)).neg := by
  simp only [unpack, unpackMantissa_packComponents, unpackExponent_packComponents,
    unpackSign_packComponents, Sign.ofBitVec_toBitVec]
  split
  · split <;> rfl
  · split
    · split <;> rfl
    · rfl

theorem unpack_pack_neg (v : UnpackedFloat) :
    (Float.Model.pack v.neg).unpack = (Float.Model.pack v).unpack.neg := by
  cases v with
  | notANumber => rfl
  | infinity s => exact unpack_packComponents_neg s _ _
  | zero s => exact unpack_packComponents_neg s _ _
  | finite s m e hm =>
      change unpack format (pack format (.finite (-s) m e hm))
        = (unpack format (pack format (.finite s m e hm))).neg
      simp only [pack]
      split
      · exact unpack_packComponents_neg s _ _
      · split <;> exact unpack_packComponents_neg s _ _

theorem roundWithAccuracy_neg (s : Sign) (m : Nat) (e : Int) (accuracy : Accuracy) :
    roundWithAccuracy format (-s) m e accuracy
      = (roundWithAccuracy format s m e accuracy).neg := by
  simp only [roundWithAccuracy]
  split <;> rfl

/-- A product changes its sign with its first factor. -/
theorem Canonical.neg_mul {a b : UnpackedFloat} (ha : Canonical a) (hb : Canonical b) :
    mul format a.neg b = (mul format a b).neg := by
  have hsign : ∀ s t : Sign, -s * t = -(s * t) := by
    intro s t
    cases s <;> cases t <;> rfl
  cases a with
  | notANumber => exact ha.elim
  | infinity s => exact ha.elim
  | zero s =>
      cases b with
      | notANumber => exact hb.elim
      | infinity s' => exact hb.elim
      | zero s' => exact congrArg UnpackedFloat.zero (hsign s s')
      | finite s' m' e' hm' => exact congrArg UnpackedFloat.zero (hsign s s')
  | finite s m e hm =>
      cases b with
      | notANumber => exact hb.elim
      | infinity s' => exact hb.elim
      | zero s' => exact congrArg UnpackedFloat.zero (hsign s s')
      | finite s' m' e' hm' =>
          change roundWithAccuracy format (-s * s') _ _ _ = _
          rw [hsign, roundWithAccuracy_neg]
          rfl

/-! ## Whole numbers -/

theorem short_natCast {n : Nat} (h : n < 2 ^ 53) : Short n :=
  ⟨n, 0, h, by decide, by decide, by rw [zpow_zero, mul_one, Nat.abs_cast]⟩

theorem mul_one_exact {v : UnpackedFloat} (h : Canonical v) :
    UnpackedFloat.mul format v (.finite .positive (2 ^ 52) (-52) (Nat.two_pow_pos 52)) = v := by
  cases v with
  | notANumber => rfl
  | infinity s => exact h.elim
  | zero s => cases s <;> rfl
  | finite s m e hm =>
      have hpair : CanonicalPair m e := h
      have hexact := roundWithAccuracy_exact hm (hpair.targetExponent_eq hm.ne') s 52
      cases s <;> exact hexact

theorem ofNat_exact_of_lt {n : Nat} (hlt : n < 2 ^ 53) :
    Canonical (Float.ofNat n).toModel.unpack ∧ valueOf (Float.ofNat n) = n := by
  have hword : n.toUInt64.toNat = n := Nat.mod_eq_of_lt (by omega)
  have hvalue : (n : Rat) = ((n : Int) : Rat) * 2 ^ (0 : Int) := by simp
  obtain ⟨hcanonical, hn⟩ := normalize_exact hvalue (short_natCast hlt) .positive
  have hunpack : n.toUInt64.toFloat.toModel.unpack
      = UnpackedFloat.normalize format n 0 .positive := by
    have hpack : n.toUInt64.toFloat.toModel
        = Float.Model.pack (UnpackedFloat.normalize format n.toUInt64.toNat 0 .positive) := rfl
    rw [hpack, hword, unpack_pack hcanonical]
  have hofNat : (Float.ofNat n).toModel.unpack
      = UnpackedFloat.normalize format n 0 .positive := by
    rw [ofNat_eq_mul_one hlt]
    change (Float.Model.pack (UnpackedFloat.mul format n.toUInt64.toFloat.toModel.unpack
      (Float.ofBits 0x3FF0000000000000).toModel.unpack)).unpack = _
    rw [hunpack, unpack_one, mul_one_exact hcanonical, unpack_pack hcanonical]
  rw [valueOf, hofNat]
  exact ⟨hcanonical, hn⟩

theorem ofNat_exact_of_le {n : Nat} (hle : 2 ^ 53 ≤ n) (hshort : Short n) :
    Canonical (Float.ofNat n).toModel.unpack ∧ valueOf (Float.ofNat n) = n := by
  have hn : (n : Rat) = n * 2 ^ (0 : Int) := by simp
  rw [hn] at hshort
  obtain ⟨m, e, hm, -, hpair, hvalue⟩ := exists_round_eq (by omega) hshort .positive
  rw [← hn] at hvalue
  -- the number is longer than its mantissa, so its units are whole
  have he : 0 ≤ e := by
    by_contra hneg
    have hunit : (2 : Rat) ^ e ≤ 1 := zpow_le_one_of_nonpos₀ one_le_two (by omega)
    have hless : (m : Rat) * 2 ^ e ≤ m * 1 :=
      mul_le_mul_of_nonneg_left hunit (Nat.cast_nonneg m)
    rw [hvalue, mul_one, Nat.cast_le] at hless
    exact absurd hpair.lt (by omega)
  obtain ⟨k, hk⟩ : ∃ k : Nat, (k : Int) = e + 53 := ⟨(e + 53).toNat, by omega⟩
  have hunits : n * 2 ^ 53 = m * 2 ^ k := by
    have hscaled : ((n * 2 ^ 53 : Nat) : Rat) * 2 ^ (e - k) = m * 2 ^ e := by
      have hexp : e - k = -53 := by omega
      have hinv : (2 : Rat) ^ 53 * 2 ^ (-53 : Int) = 1 := by norm_num
      rw [hexp, hvalue, Nat.cast_mul, Nat.cast_pow, Nat.cast_ofNat, mul_assoc, hinv, mul_one]
    exact mul_two_zpow_sub_eq_iff.mp hscaled
  have hround : roundWithAccuracy format .positive (n * 2 ^ 53 * 1) (-53 + 0) .exact
      = .finite .positive m e hm := by
    have hexp : (-53 : Int) + 0 = e - k := by omega
    rw [Nat.mul_one, hunits, hexp]
    exact roundWithAccuracy_exact hm (hpair.targetExponent_eq hm.ne') .positive k
  have hcanonical : Canonical (.finite .positive m e hm) := hpair
  have hofNat : (Float.ofNat n).toModel.unpack = .finite .positive m e hm := by
    rw [ofNat_eq_pack hle, hround, unpack_pack hcanonical]
  rw [valueOf, hofNat]
  exact ⟨hcanonical, hvalue⟩

/-- A short whole number is the value of its double. -/
theorem ofInt_exact {n : Int} (hshort : Short n) :
    Canonical (Float.ofInt n).toModel.unpack ∧ valueOf (Float.ofInt n) = n := by
  have hnat : ∀ n : Nat, Short n →
      Canonical (Float.ofNat n).toModel.unpack ∧ valueOf (Float.ofNat n) = n := fun n h => by
    rcases Nat.lt_or_ge n (2 ^ 53) with hlt | hle
    · exact ofNat_exact_of_lt hlt
    · exact ofNat_exact_of_le hle h
  cases n with
  | ofNat n => exact hnat n hshort
  | negSucc n =>
      have habs : Short (n + 1 : Nat) := by
        rwa [Int.cast_negSucc, short_neg_iff] at hshort
      obtain ⟨hcanonical, hvalue⟩ := hnat (n + 1) habs
      obtain ⟨hneg, hvalue'⟩ := neg_exact hcanonical
      refine ⟨hneg, hvalue'.trans ?_⟩
      rw [hvalue, Int.cast_negSucc]

end Doubles

end LogicCapture
