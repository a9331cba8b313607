import Mathlib
import LogicCapture.Number.Rounding

/-!
# The nearest whole number

Every number has one nearest whole number, where of two that are equally near the one further from
zero is taken (`IsNearest`). It is never further away than a half, changes its sign with the number,
and grows with it. A number that is cut toward zero is corrected by one if a half or more was cut
(`IsNearest.of_cut`, `IsNearest.of_cut_neg`), and a shift computes the nearest whole number of a
number of units of a power of two (`isNearest_nearestWhole`).
-/

namespace LogicCapture

/-- No whole number is nearer, and none that is as near is further from zero. -/
structure IsNearest (q : Rat) (n : Int) : Prop where
  nearest : ∀ m : Int, |q - n| ≤ |q - m|
  away : ∀ m : Int, |q - m| = |q - n| → |m| ≤ |n|

namespace IsNearest

variable {q q' : Rat} {n n' : Int}

theorem le_half (h : IsNearest q n) : |q - n| ≤ 1 / 2 :=
  (h.nearest (round q)).trans (abs_sub_round q)

theorem unique (h : IsNearest q n) (h' : IsNearest q n') : n = n' := by
  have hsame : |q - n'| = |q - n| := le_antisymm (h'.nearest n) (h.nearest n')
  rcases abs_eq_abs.mp (le_antisymm (h'.away n hsame.symm) (h.away n' hsame)) with heq | heq
  · exact heq
  · -- both are within a half, and so is zero
    have hhalf := h.le_half
    have hhalf' := h'.le_half
    rw [heq] at hhalf
    push_cast at hhalf
    rw [abs_le] at hhalf hhalf'
    have hlow : (-1 : Rat) ≤ 2 * n' := by linarith [hhalf.1, hhalf'.2]
    have hhigh : (2 : Rat) * n' ≤ 1 := by linarith [hhalf.2, hhalf'.1]
    have hlow' : (-1 : Int) ≤ 2 * n' := by exact_mod_cast hlow
    have hhigh' : 2 * n' ≤ (1 : Int) := by exact_mod_cast hhigh
    omega

theorem neg (h : IsNearest q n) : IsNearest (-q) (-n) := by
  have hflip : ∀ m : Int, |-q - m| = |q - (-m : Int)| := fun m => by
    rw [← abs_neg]
    push_cast
    ring_nf
  refine ⟨fun m => ?_, fun m hm => ?_⟩
  · rw [hflip, hflip, neg_neg]
    exact h.nearest (-m)
  · rw [hflip, hflip, neg_neg] at hm
    rw [abs_neg, ← abs_neg m]
    exact h.away (-m) hm

theorem mono (h : IsNearest q n) (h' : IsNearest q' n') (hle : q ≤ q') : n ≤ n' := by
  by_contra hlt
  have hstep : ((n' + 1 : Int) : Rat) ≤ n := Int.cast_le.mpr (by omega)
  push_cast at hstep
  have hlow := (abs_le.mp h.le_half).1
  have hhigh := (abs_le.mp h'.le_half).2
  -- there is room only for one number, half way between the two
  obtain rfl : q = q' := le_antisymm hle (by linarith)
  exact hlt (h.unique h').le

/-- Nearer than a half is nearest. -/
theorem of_lt_half (h : |q - n| < 1 / 2) : IsNearest q n := by
  have hother : ∀ m : Int, m ≠ n → |q - n| < |q - m| := by
    intro m hm
    have hapart : (1 : Rat) ≤ |((m - n : Int) : Rat)| := by
      exact_mod_cast Int.one_le_abs (sub_ne_zero.mpr hm)
    have hsum : |((m - n : Int) : Rat)| ≤ |q - n| + |q - m| := by
      have hsplit : ((m - n : Int) : Rat) = (q - n) - (q - m) := by push_cast; ring
      rw [hsplit]
      exact abs_sub _ _
    linarith
  refine ⟨fun m => ?_, fun m hm => ?_⟩
  · by_cases hm : m = n
    · rw [hm]
    · exact (hother m hm).le
  · by_cases hne : m = n
    · rw [hne]
    · exact absurd hm (hother m hne).ne'

/-- Of the two whole numbers that are half a unit away the upper one is nearest to a number that is
not negative. -/
theorem of_sub_half (hq : 0 ≤ q) (h : q = n - 1 / 2) : IsNearest q n := by
  have hpos : 0 < n := by
    have : (0 : Rat) < n := by linarith
    exact_mod_cast this
  have hdist : |q - n| = 1 / 2 := by rw [h]; norm_num
  refine ⟨fun m => ?_, fun m hm => ?_⟩
  · rw [hdist, le_abs']
    rcases le_or_gt n m with hle | hlt
    · have hcast : (n : Rat) ≤ m := Int.cast_le.mpr hle
      exact Or.inl (by linarith)
    · have hcast : ((m + 1 : Int) : Rat) ≤ n := Int.cast_le.mpr hlt
      push_cast at hcast
      exact Or.inr (by linarith)
  · rw [hdist, h] at hm
    have hcases : (m : Rat) = n ∨ (m : Rat) = n - 1 := by
      rcases eq_or_eq_neg_of_abs_eq hm with hm | hm
      · exact Or.inr (by linarith)
      · exact Or.inl (by linarith)
    rcases hcases with hm | hm
    · rw [Int.cast_inj.mp hm]
    · have hless : m = n - 1 := by exact_mod_cast hm
      rw [hless, abs_of_pos hpos, abs_of_nonneg (by omega)]
      omega

theorem eq_of_lt_half (h : IsNearest q n) {m : Int} (hm : |q - m| < 1 / 2) : n = m :=
  h.unique (of_lt_half hm)

/-- Cut downward, a number is nearest to the next whole number exactly if a half or more is cut. -/
theorem of_cut (hq : 0 ≤ q) (hlow : n ≤ q) (hhigh : q < n + 1) :
    IsNearest q (if 1 / 2 ≤ q - n then n + 1 else n) := by
  split
  · next hhalf =>
    rcases hhalf.eq_or_lt with heq | hlt
    · exact of_sub_half hq (by push_cast; linarith)
    · refine of_lt_half (abs_lt.mpr ⟨?_, ?_⟩)
      · push_cast
        linarith
      · push_cast
        linarith
  · next hless => exact of_lt_half (abs_lt.mpr ⟨by linarith, not_le.mp hless⟩)

theorem of_cut_neg (hq : q ≤ 0) (hlow : (n : Rat) - 1 < q) (hhigh : q ≤ n) :
    IsNearest q (if q - n ≤ -(1 / 2) then n - 1 else n) := by
  have hturned : IsNearest (-q) (if 1 / 2 ≤ -q - (-n : Int) then -n + 1 else -n) :=
    of_cut (neg_nonneg.mpr hq) (by push_cast; linarith) (by push_cast; linarith)
  have hhalf : 1 / 2 ≤ -q - ((-n : Int) : Rat) ↔ q - n ≤ -(1 / 2) := by
    push_cast
    constructor <;> intro <;> linarith
  have hback := hturned.neg
  rw [neg_neg, apply_ite Neg.neg, neg_neg, neg_add, neg_neg, if_congr hhalf rfl rfl] at hback
  exact hback

end IsNearest

theorem wholeBelow_ofNat (m up : Nat) :
    (wholeBelow m (.ofNat up) : Rat) = m * 2 ^ (Int.ofNat up) := by
  simp [wholeBelow, Nat.shiftLeft_eq]

theorem wholeBelow_negSucc (m down : Nat) :
    wholeBelow m (.negSucc down) = m / 2 ^ (down + 1) :=
  Nat.shiftRight_eq_div_pow m (down + 1)

theorem wholeBelow_bounds (m : Nat) (e : Int) :
    (wholeBelow m e : Rat) ≤ m * 2 ^ e ∧ (m : Rat) * 2 ^ e < wholeBelow m e + 1 := by
  cases e with
  | ofNat up =>
      rw [wholeBelow_ofNat]
      exact ⟨le_refl _, lt_add_one _⟩
  | negSucc down =>
      have hq : (m : Rat) * 2 ^ (Int.negSucc down) = m / (2 ^ (down + 1) : Nat) := by
        rw [zpow_negSucc, div_eq_mul_inv]
        push_cast
        rfl
      rw [hq, wholeBelow_negSucc]
      refine ⟨Nat.cast_div_le, ?_⟩
      rw [div_lt_iff₀' (Nat.cast_pos.mpr (Nat.two_pow_pos _))]
      exact_mod_cast Nat.lt_mul_div_succ m (Nat.two_pow_pos (down + 1))

/-- The shift that computes it. -/
theorem isNearest_nearestWhole (m : Nat) (e : Int) :
    IsNearest (m * 2 ^ e) (nearestWhole m e : Int) := by
  cases e with
  | ofNat up =>
      refine IsNearest.of_lt_half ?_
      rw [nearestWhole, Nat.shiftLeft_eq]
      simp
  | negSucc down =>
      have hnat : nearestWhole m (.negSucc down) = (m + 2 ^ down) / 2 ^ (down + 1) := by
        rw [nearestWhole, Nat.shiftRight_eq_div_pow, Nat.shiftLeft_eq, Nat.one_mul]
      rw [hnat]
      generalize hn : (m + 2 ^ down) / 2 ^ (down + 1) = n
      -- in units of half a step the number lies between the one before `2 * n` and the one after
      have hunit : (0 : Rat) < 2 ^ down := by positivity
      have hlow : (2 * n : Rat) * 2 ^ down ≤ m + 2 ^ down := by
        have hdiv := Nat.div_mul_le_self (m + 2 ^ down) (2 ^ (down + 1))
        rw [hn, Nat.pow_succ', ← Nat.mul_assoc, Nat.mul_comm n] at hdiv
        exact_mod_cast hdiv
      have hhigh : (m + 2 ^ down : Rat) < (2 * n + 2) * 2 ^ down := by
        have hdiv := Nat.lt_mul_div_succ (m + 2 ^ down) (Nat.two_pow_pos (down + 1))
        rw [hn, Nat.pow_succ'] at hdiv
        have hring : 2 * 2 ^ down * (n + 1) = (2 * n + 2) * 2 ^ down := by ring
        rw [hring] at hdiv
        exact_mod_cast hdiv
      have hq : (m : Rat) * 2 ^ (Int.negSucc down) = m / (2 * 2 ^ down) := by
        rw [zpow_negSucc, pow_succ', div_eq_mul_inv]
      rw [hq]
      have habove : (n : Rat) - 1 / 2 ≤ m / (2 * 2 ^ down) := by
        rw [le_div_iff₀ (by positivity)]
        linarith
      have hbelow : m / (2 * 2 ^ down) < (n : Rat) + 1 / 2 := by
        rw [div_lt_iff₀ (by positivity)]
        linarith
      rcases habove.eq_or_lt with heq | hlt
      · exact IsNearest.of_sub_half (by positivity) heq.symm
      · refine IsNearest.of_lt_half (abs_lt.mpr ⟨?_, ?_⟩)
        · push_cast
          linarith
        · push_cast
          linarith

end LogicCapture
