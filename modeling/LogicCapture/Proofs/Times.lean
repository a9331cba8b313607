import Mathlib
import LogicCapture.Proofs.DoubleValues
import LogicCapture.Proofs.Failures
import LogicCapture.Proofs.Nearest

/-!
# Seconds to nanoseconds

A time in seconds is a double, and so is its product with a thousand million. The nanoseconds are
the whole number nearest to that product. Doubles alone are enough to find it: what is left over
when the product is cut to a whole number is a double again, so its comparison with a half is exact
and says whether the whole number has to be corrected (`isNearest_corrected`). A time whose
nanoseconds do not fit a signed 64-bit word, and one that is no number, cannot be converted
(`ofSeconds_nearest`).
-/

namespace LogicCapture.Time

open Doubles
open Float.Model (UnpackedFloat)
open Float.Model.UnpackedFloat

/-! ## Cutting to a whole number -/

/-- What is left over has no more digits than the number. -/
theorem wholeBelow_short {m : Nat} {e : Int} (h : CanonicalPair m e) :
    Short (wholeBelow m e) ∧ Short (m * 2 ^ e - wholeBelow m e) := by
  have hlt := h.lt
  cases e with
  | ofNat up =>
      rw [wholeBelow_ofNat, sub_self]
      refine ⟨⟨m, _, hlt, h.least, h.most, abs_of_nonneg ?_⟩, 0, 0, by decide, by decide, by decide,
        by simp⟩
      exact mul_nonneg (Nat.cast_nonneg m) (two_zpow_pos _).le
  | negSucc down =>
      rw [wholeBelow_negSucc]
      refine ⟨short_natCast ((Nat.div_le_self _ _).trans_lt hlt), m % 2 ^ (down + 1),
        .negSucc down, (Nat.mod_le _ _).trans_lt hlt, h.least, h.most, ?_⟩
      have hunit : (2 : Rat) ^ (down + 1) * 2 ^ (Int.negSucc down) = 1 := by
        rw [zpow_negSucc]
        exact mul_inv_cancel₀ (pow_ne_zero _ two_ne_zero)
      have hdiv : (m : Rat) = 2 ^ (down + 1) * (m / 2 ^ (down + 1) : Nat)
          + (m % 2 ^ (down + 1) : Nat) := by
        exact_mod_cast (Nat.div_add_mod m (2 ^ (down + 1))).symm
      have hrest : (m : Rat) * 2 ^ (Int.negSucc down) - (m / 2 ^ (down + 1) : Nat)
          = (m % 2 ^ (down + 1) : Nat) * 2 ^ (Int.negSucc down) := by
        calc (m : Rat) * 2 ^ (Int.negSucc down) - (m / 2 ^ (down + 1) : Nat)
            = 2 ^ (down + 1) * 2 ^ (Int.negSucc down) * (m / 2 ^ (down + 1) : Nat)
              + (m % 2 ^ (down + 1) : Nat) * 2 ^ (Int.negSucc down)
              - (m / 2 ^ (down + 1) : Nat) := by
                nth_rewrite 1 [hdiv]
                ring
          _ = (m % 2 ^ (down + 1) : Nat) * 2 ^ (Int.negSucc down) := by rw [hunit]; ring
      rw [hrest]
      exact abs_of_nonneg (mul_nonneg (Nat.cast_nonneg _) (two_zpow_pos _).le)

/-- The whole number and what is left over of the value of a double are values of doubles. -/
theorem truncate_short {x : Float} {q : Rat} (h : (Binary64.ofFloat x).value? = some q) :
    Short (truncate (Binary64.ofFloat x)) ∧ Short (q - truncate (Binary64.ofFloat x)) := by
  cases hx : Binary64.ofFloat x with
  | nan => rw [hx] at h; cases h
  | infinite negative => rw [hx] at h; cases h
  | finite negative m e =>
      have hshort := wholeBelow_short (canonicalPair_of_finite hx)
      rw [hx] at h
      rw [← Option.some.inj h]
      cases negative with
      | false => exact hshort
      | true =>
          have hrest : -((m : Rat) * 2 ^ e) - (-(wholeBelow m e : Int) : Int)
              = -(m * 2 ^ e - wholeBelow m e) := by push_cast; ring
          have hwhole : ((-(wholeBelow m e : Int) : Int) : Rat) = -(wholeBelow m e : Rat) := by
            push_cast
            rfl
          change Short ((-(wholeBelow m e : Int) : Int) : Rat)
            ∧ Short (-((m : Rat) * 2 ^ e) - (-(wholeBelow m e : Int) : Int))
          rwa [hrest, hwhole, short_neg_iff, short_neg_iff]

theorem isNearest_truncate {d : Binary64} {q : Rat} (h : d.value? = some q) :
    IsNearest q (if 1 / 2 ≤ q - truncate d then truncate d + 1
      else if q - truncate d ≤ -(1 / 2) then truncate d - 1 else truncate d) := by
  cases d with
  | nan => cases h
  | infinite negative => cases h
  | finite negative m e =>
      obtain ⟨hlow, hhigh⟩ := wholeBelow_bounds m e
      have hpos : (0 : Rat) ≤ m * 2 ^ e := mul_nonneg (Nat.cast_nonneg m) (two_zpow_pos e).le
      cases negative with
      | false =>
          obtain rfl : (m * 2 ^ e : Rat) = q := Option.some.inj h
          have htruncate : truncate (.finite false m e) = wholeBelow m e := rfl
          have hno : ¬(m : Rat) * 2 ^ e - (wholeBelow m e : Int) ≤ -(1 / 2) := by
            push_cast
            linarith
          rw [htruncate, if_neg hno]
          exact IsNearest.of_cut hpos hlow hhigh
      | true =>
          obtain rfl : (-(m * 2 ^ e) : Rat) = q := Option.some.inj h
          have htruncate : truncate (.finite true m e) = -(wholeBelow m e : Int) := rfl
          have hno : ¬1 / 2 ≤ -((m : Rat) * 2 ^ e) - (-(wholeBelow m e : Int) : Int) := by
            push_cast
            linarith
          rw [htruncate, if_neg hno]
          exact IsNearest.of_cut_neg (neg_nonpos.mpr hpos) (by push_cast; linarith)
            (by push_cast; linarith)

theorem half_exact : Canonical (0.5 : Float).toModel.unpack ∧ valueOf 0.5 = 1 / 2 := by
  have hunpack : (0.5 : Float).toModel.unpack
      = .finite .positive (2 ^ 52) (-53) (Nat.two_pow_pos 52) := by rfl
  rw [valueOf, hunpack]
  refine ⟨⟨by decide, Or.inl le_rfl, by decide, by decide⟩, ?_⟩
  rw [value]
  norm_num

/-- Doubles alone compute the nearest whole number. -/
theorem isNearest_corrected {scaled : Float} {q : Rat}
    (h : (Binary64.ofFloat scaled).value? = some q) : IsNearest q (corrected scaled) := by
  obtain ⟨hcanonical, hvalue⟩ := value?_eq_some_iff.mp h
  obtain ⟨hwhole, hrest⟩ := truncate_short h
  obtain ⟨hint, hintValue⟩ := ofInt_exact hwhole
  rw [← hvalue, ← hintValue] at hrest
  -- what is left over is the value of a double, so nothing is lost where it is computed
  obtain ⟨hsub, hsubValue⟩ := sub_exact hcanonical hint hrest
  rw [hvalue, hintValue] at hsubValue
  obtain ⟨hhalf, hhalfValue⟩ := half_exact
  obtain ⟨hneg, hnegValue⟩ := neg_exact hhalf
  rw [hhalfValue] at hnegValue
  have hnearest := isNearest_truncate h
  simp only [corrected, le_iff_valueOf hhalf hsub, le_iff_valueOf hsub hneg, hsubValue,
    hhalfValue, hnegValue]
  exact hnearest

/-! ## Signs -/

theorem canonical_billion : Canonical (1e9 : Float).toModel.unpack :=
  canonical_unpack rfl

theorem neg_mul_billion {seconds : Float} (hs : Canonical seconds.toModel.unpack) {q : Rat}
    (hq : (Binary64.ofFloat (seconds * 1e9)).value? = some q) :
    (Binary64.ofFloat (-seconds * 1e9)).value? = some (-q) := by
  have hneg : (-seconds).toModel.unpack = seconds.toModel.unpack.neg := unpack_pack hs.neg.1
  have hproduct : (-seconds * 1e9).toModel.unpack = (seconds * 1e9).toModel.unpack.neg := by
    change (Float.Model.pack (mul format (-seconds).toModel.unpack _)).unpack
      = (Float.Model.pack (mul format seconds.toModel.unpack _)).unpack.neg
    rw [hneg, hs.neg_mul canonical_billion, unpack_pack_neg]
  obtain ⟨hcanonical, hvalue⟩ := value?_eq_some_iff.mp hq
  obtain ⟨hneg', hvalue'⟩ := hcanonical.neg
  refine value?_eq_some_iff.mpr ⟨hproduct ▸ hneg', ?_⟩
  rw [valueOf, hproduct, hvalue', ← hvalue, valueOf]

/-! ## Converting -/

/-- The time, whose product with a thousand million is `q`, converts to the whole number nearest to
`q` if that fits. -/
structure Converts (seconds : Float) (q : Rat) (n : Int) : Prop where
  nearest : IsNearest q n
  only : ∀ m, IsNearest q m → m = n
  inRange : -2 ^ 63 ≤ n → n ≤ 2 ^ 63 - 1 → ofSeconds seconds = .ok n
  outOfRange : ¬(-2 ^ 63 ≤ n ∧ n ≤ 2 ^ 63 - 1) →
    ofSeconds seconds = .error (.timeOutOfRange seconds)
      ∧ (Failure.timeOutOfRange seconds).Malformed
  half : |q - n| ≤ 1 / 2
  belowHalf : ∀ m : Int, |q - m| < 1 / 2 → n = m
  odd : -2 ^ 63 < n → n ≤ 2 ^ 63 - 1 → ofSeconds (-seconds) = .ok (-n)
  mono : ∀ seconds' q' n', (Binary64.ofFloat (seconds' * 1e9)).value? = some q' → q ≤ q' →
    ofSeconds seconds' = .ok n' → n ≤ n'
  corrects : corrected (seconds * 1e9) = n

theorem isNearest_round {negative : Bool} {m : Nat} {e : Int} {q : Rat}
    (h : (Binary64.finite negative m e).value? = some q) :
    IsNearest q (round negative m e) := by
  rw [← Option.some.inj h]
  cases negative with
  | false => exact isNearest_nearestWhole m e
  | true => exact (isNearest_nearestWhole m e).neg

theorem ofSeconds_eq {seconds : Float} (hfinite : (Binary64.ofFloat seconds).isFinite = true)
    {q : Rat} (hq : (Binary64.ofFloat (seconds * 1e9)).value? = some q) {n : Int}
    (hn : IsNearest q n) :
    ofSeconds seconds = if fitsWord64 n then .ok n else .error (.timeOutOfRange seconds) := by
  rw [ofSeconds, if_pos hfinite]
  cases hproduct : Binary64.ofFloat (seconds * 1e9) with
  | nan => rw [hproduct] at hq; cases hq
  | infinite negative => rw [hproduct] at hq; cases hq
  | finite negative m e =>
      rw [hproduct] at hq
      rw [hn.unique (isNearest_round hq)]

theorem isFinite_of_ofSeconds {seconds : Float} {n : Int} (h : ofSeconds seconds = .ok n) :
    (Binary64.ofFloat seconds).isFinite = true := by
  by_contra hnot
  rw [ofSeconds, if_neg hnot] at h
  cases h

theorem exists_isNearest {d : Binary64} {q : Rat} (h : d.value? = some q) :
    ∃ n, IsNearest q n := by
  cases d with
  | nan => cases h
  | infinite negative => cases h
  | finite negative m e => exact ⟨_, isNearest_round h⟩

theorem isNearest_of_ofSeconds {seconds : Float} {q : Rat} {n : Int}
    (hq : (Binary64.ofFloat (seconds * 1e9)).value? = some q) (h : ofSeconds seconds = .ok n) :
    IsNearest q n := by
  obtain ⟨m, hm⟩ := exists_isNearest hq
  rw [ofSeconds_eq (isFinite_of_ofSeconds h) hq hm] at h
  split at h
  · cases h
    exact hm
  · cases h

theorem fitsWord64_iff_range {n : Int} :
    fitsWord64 n = true ↔ -2 ^ 63 ≤ n ∧ n ≤ 2 ^ 63 - 1 := by
  rw [fitsWord64_iff]
  omega

/-- A time that is no number is refused. Of any other whose product with a thousand million is a
number, the nearest whole number of nanoseconds is the result wherever it fits. -/
theorem ofSeconds_nearest (seconds : Float) :
    ((Binary64.ofFloat seconds).isFinite = false →
        ofSeconds seconds = .error (.timeNotFinite seconds)
          ∧ (Failure.timeNotFinite seconds).Malformed)
      ∧ ∀ q, (Binary64.ofFloat seconds).isFinite = true →
          (Binary64.ofFloat (seconds * 1e9)).value? = some q → ∃ n, Converts seconds q n := by
  refine ⟨fun hnot => ⟨?_, rfl⟩, fun q hfinite hq => ?_⟩
  · rw [ofSeconds, hnot]
    rfl
  · obtain ⟨n, hn⟩ := exists_isNearest hq
    have hresult := ofSeconds_eq hfinite hq hn
    have hcanonical := isFinite_iff_canonical.mp hfinite
    exact ⟨n, {
      nearest := hn
      only := fun m hm => hm.unique hn
      inRange := fun hlow hhigh => by
        rw [hresult, if_pos (fitsWord64_iff_range.mpr ⟨hlow, hhigh⟩)]
      outOfRange := fun hout => by
        rw [hresult, if_neg (mt fitsWord64_iff_range.mp hout)]
        exact ⟨rfl, rfl⟩
      half := hn.le_half
      belowHalf := fun m => hn.eq_of_lt_half
      odd := fun hlow hhigh => by
        have hfinite' := isFinite_iff_canonical.mpr (neg_exact hcanonical).1
        have hfits : fitsWord64 (-n) = true := fitsWord64_iff_range.mpr ⟨by omega, by omega⟩
        rw [ofSeconds_eq hfinite' (neg_mul_billion hcanonical hq) hn.neg, if_pos hfits]
      mono := fun seconds' q' n' hq' hle hok => hn.mono (isNearest_of_ofSeconds hq' hok) hle
      corrects := (isNearest_corrected hq).unique hn }⟩

/-- A product of `0.49999999999999994`, the last double below a half, and a time that is no
number. -/
theorem ofSeconds_nearest_belowHalf :
    ((Binary64.ofFloat (.ofBits 0x3E012E0BE826D694)).isFinite = true
        ∧ (Binary64.ofFloat (.ofBits 0x3E012E0BE826D694 * 1e9)).value?
            = some (9007199254740991 * 2 ^ (-54 : Int))
        ∧ ofSeconds (.ofBits 0x3E012E0BE826D694) = .ok 0)
      ∧ (Binary64.ofFloat (.ofBits 0x7FF8000000000000)).isFinite = false
      ∧ ofSeconds (.ofBits 0x7FF8000000000000)
          = .error (.timeNotFinite (.ofBits 0x7FF8000000000000)) := by
  have hfinite : (Binary64.ofFloat (.ofBits 0x3E012E0BE826D694)).isFinite = true := by rfl
  have hproduct : (Binary64.ofFloat (.ofBits 0x3E012E0BE826D694 * 1e9)).value?
      = some (9007199254740991 * 2 ^ (-54 : Int)) := by rfl
  have hnan : (Binary64.ofFloat (.ofBits 0x7FF8000000000000)).isFinite = false := by rfl
  obtain ⟨n, hn⟩ := (ofSeconds_nearest (.ofBits 0x3E012E0BE826D694)).2 _ hfinite hproduct
  obtain rfl : n = 0 := hn.belowHalf 0 (by norm_num)
  exact ⟨⟨hfinite, hproduct, hn.inRange (by decide) (by decide)⟩, hnan,
    ((ofSeconds_nearest (.ofBits 0x7FF8000000000000)).1 hnan).1⟩

end LogicCapture.Time
