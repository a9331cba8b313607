/-!
# Signed 64-bit words

Times, durations and identifiers are whole numbers without bound while a trace is being built, and
signed 64-bit words in the tables it is exported through.
-/

namespace LogicCapture

def fitsWord64 (n : Int) : Bool :=
  -0x8000000000000000 ≤ n && n < 0x8000000000000000

def fitsWord128 (n : Int) : Bool :=
  -0x80000000000000000000000000000000 ≤ n && n < 0x100000000000000000000000000000000

/-- The signed 64-bit word with the same lower bits. -/
def wrapWord64 (n : Int) : Int :=
  n.bmod 0x10000000000000000

theorem fitsWord64_iff {n : Int} :
    fitsWord64 n = true ↔ -0x8000000000000000 ≤ n ∧ n < 0x8000000000000000 := by
  simp [fitsWord64]

theorem wrapWord64_of_fits {n : Int} (h : fitsWord64 n = true) : wrapWord64 n = n := by
  rw [fitsWord64_iff] at h
  unfold wrapWord64
  exact Int.bmod_eq_of_le (by omega) (by omega)

end LogicCapture
