import Mathlib
import LogicCapture.Proofs.DoubleValues

/-!
# Widening short numbers

A sample is kept in 32 bits and read as a double. Each 32-bit pattern is widened to the double that
stands for the same: for no number, for the same infinity, or for the same number with the same sign
(`same_widen`). A number with all of its 24 digits gets zeros behind them. One with fewer digits is
moved up until its first digit is where a double leaves it out, which a double has room for.
-/

namespace LogicCapture

namespace Binary64

/-- The reading of a 32-bit pattern: a sign, eight bits of exponent, and a fraction of 23 bits whose
leading one is left out unless the exponent bits are all zero. -/
def ofSingle (bits : Nat) : Binary64 :=
  let negative := bits / 0x80000000 % 2 == 1
  let exponent : Nat := bits / 0x800000 % 0x100
  let fraction := bits % 0x800000
  if exponent = 255 then
    if fraction = 0 then .infinite negative else .nan
  else if exponent = 0 then .finite negative fraction (-149)
  else .finite negative (0x800000 + fraction) ((exponent : Int) - 150)

/-- Both stand for no number, for the same infinity, or for the same number with the same sign. -/
def Same : Binary64 → Binary64 → Prop
  | nan, nan => True
  | infinite negative, infinite negative' => negative = negative'
  | finite negative m e, finite negative' m' e' =>
    negative = negative' ∧ (m : Rat) * 2 ^ e = m' * 2 ^ e'
  | _, _ => False

/-! ## Patterns of doubles -/

/-- A double stands for what its pattern does. All patterns of no number make the same double. -/
theorem ofFloat_ofBits (bits : UInt64) : ofFloat (Float.ofBits bits) = ofBits bits.toNat := by
  have hbits : ofBits bits.toNat
      = Doubles.reading (Float.Model.UnpackedFloat.unpack Doubles.format bits.toBitVec) :=
    Doubles.ofBits_eq_reading bits.toBitVec
  rw [Doubles.ofFloat_eq_reading, hbits]
  have hcanonical := Doubles.canonical_unpack_of_isFinite (b := bits.toBitVec)
  change Doubles.reading
    (Float.Model.pack (Float.Model.UnpackedFloat.unpack Doubles.format bits.toBitVec)).unpack = _
  generalize Float.Model.UnpackedFloat.unpack Doubles.format bits.toBitVec = v at hcanonical ⊢
  cases v with
  | notANumber => rfl
  | infinity s => cases s <;> rfl
  | zero s => rw [Doubles.unpack_pack (hcanonical rfl)]
  | finite s m e hm => rw [Doubles.unpack_pack (hcanonical rfl)]

theorem ofFloat_fields (sign exponent fraction : Nat) (hsign : sign < 2)
    (hexponent : exponent < 0x800) (hfraction : fraction < 0x10000000000000) :
    ofFloat (Float.ofBits (UInt64.ofNat
        (sign * 0x8000000000000000 + (exponent * 0x10000000000000 + fraction))))
      = if exponent = 2047 then
          if fraction = 0 then .infinite (sign == 1) else .nan
        else if exponent = 0 then .finite (sign == 1) fraction (-1074)
        else .finite (sign == 1) (0x10000000000000 + fraction) ((exponent : Int) - 1075) := by
  generalize hbits : sign * 0x8000000000000000 + (exponent * 0x10000000000000 + fraction) = bits
  have hsign' : bits / 0x8000000000000000 % 2 = sign := by omega
  have hexponent' : bits / 0x10000000000000 % 0x800 = exponent := by omega
  have hfraction' : bits % 0x10000000000000 = fraction := by omega
  rw [ofFloat_ofBits, UInt64.toNat_ofNat', Nat.mod_eq_of_lt (by omega), ofBits, hsign',
    hexponent', hfraction']

end Binary64

/-! ## Patterns of short numbers -/

/-- A number with fewer than 24 digits, moved up until its first digit is the fifty-third. -/
theorem moved_up {m : Nat} (hpos : m ≠ 0) (hlt : m < 2 ^ 23) :
    m.log2 ≤ 22 ∧ 0x10000000000000 + (m - 1 <<< m.log2) <<< (52 - m.log2) = m * 2 ^ (52 - m.log2)
      ∧ (m - 1 <<< m.log2) <<< (52 - m.log2) < 0x10000000000000 := by
  have htop : m.log2 < 23 := (Nat.log2_lt hpos).mpr hlt
  have hfirst : 2 ^ m.log2 ≤ m := Nat.log2_self_le hpos
  have hnext : m < 2 ^ (m.log2 + 1) := Nat.lt_log2_self
  have hunit : 2 ^ m.log2 * 2 ^ (52 - m.log2) = 0x10000000000000 := by
    rw [← Nat.pow_add, Nat.add_sub_of_le (by omega)]
  have hmoved : (m - 1 <<< m.log2) <<< (52 - m.log2)
      = m * 2 ^ (52 - m.log2) - 0x10000000000000 := by
    rw [Nat.shiftLeft_eq, Nat.one_shiftLeft, Nat.sub_mul, hunit]
  have hleast : 0x10000000000000 ≤ m * 2 ^ (52 - m.log2) := by
    rw [← hunit]
    exact Nat.mul_le_mul_right _ hfirst
  have hmost : m * 2 ^ (52 - m.log2) < 2 * 0x10000000000000 := by
    rw [← hunit, ← Nat.mul_assoc, ← Nat.pow_succ']
    exact Nat.mul_lt_mul_of_pos_right hnext (Nat.two_pow_pos _)
  omega

/-- Widening changes nothing in what a pattern stands for. -/
theorem same_widen (bits : Nat) : Binary64.Same (.ofFloat (widen bits)) (.ofSingle bits) := by
  unfold widen Binary64.ofSingle
  dsimp only
  have hsign : bits / 0x80000000 % 2 < 2 := Nat.mod_lt _ (by decide)
  have hexponent : bits / 0x800000 % 0x100 < 0x100 := Nat.mod_lt _ (by decide)
  have hfraction : bits % 0x800000 < 2 ^ 23 := Nat.mod_lt _ (by decide)
  generalize bits / 0x80000000 % 2 = sign at hsign ⊢
  generalize bits / 0x800000 % 0x100 = exponent at hexponent ⊢
  generalize bits % 0x800000 = fraction at hfraction ⊢
  by_cases hall : exponent = 255
  · rw [if_pos hall, if_pos hall]
    by_cases hzero : fraction = 0
    · have hfields := Binary64.ofFloat_fields sign 2047 0 hsign (by decide) (by decide)
      rw [if_pos hzero, if_pos hzero]
      exact hfields ▸ rfl
    · have hfields :=
        Binary64.ofFloat_fields sign 2047 0x8000000000000 hsign (by decide) (by decide)
      rw [if_neg hzero, if_neg hzero]
      exact hfields ▸ trivial
  · rw [if_neg hall, if_neg hall]
    by_cases hleast : exponent = 0
    · rw [if_pos hleast, if_pos hleast]
      by_cases hzero : fraction = 0
      · have hfields := Binary64.ofFloat_fields sign 0 0 hsign (by decide) (by decide)
        rw [if_pos hzero, hzero]
        exact hfields ▸ ⟨rfl, by simp⟩
      · -- the first digit has a place of its own now, so the exponent says where it is
        obtain ⟨htop, hmoved, hlt⟩ := moved_up hzero hfraction
        rw [if_neg hzero, Binary64.ofFloat_fields sign _ _ hsign (by omega) hlt,
          if_neg (by omega), if_neg (by omega), hmoved]
        have hunit : ((fraction.log2 + 874 : Nat) : Int) - 1075
            = -149 - ((52 - fraction.log2 : Nat) : Int) := by omega
        rw [hunit]
        exact ⟨rfl, Doubles.mul_two_zpow_sub_eq_iff.mpr rfl⟩
    · have hmoved : 0x10000000000000 + fraction * 0x20000000 = (0x800000 + fraction) * 2 ^ 29 := by
        omega
      have hunit : ((exponent + 896 : Nat) : Int) - 1075
          = ((exponent : Int) - 150) - (29 : Nat) := by omega
      rw [if_neg hleast, if_neg hleast,
        Binary64.ofFloat_fields sign _ _ hsign (by omega) (by omega), if_neg (by omega),
        if_neg (by omega), hmoved, hunit]
      exact ⟨rfl, Doubles.mul_two_zpow_sub_eq_iff.mpr rfl⟩

end LogicCapture
