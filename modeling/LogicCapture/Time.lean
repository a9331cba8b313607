import LogicCapture.Failure
import LogicCapture.Number.Binary64
import LogicCapture.Number.Rounding
import LogicCapture.Number.Word64

/-!
# Times in nanoseconds

Captures give times in seconds, as doubles; a trace keeps them in whole nanoseconds. One
multiplication of doubles scales the time. From there on everything is exact: the nearest whole
number is taken, a half away from zero, and it has to fit a signed 64-bit word.
-/

namespace LogicCapture.Time

/-- The whole number of nanoseconds nearest to a finite product of seconds and a thousand
million. -/
def round (negative : Bool) (mantissa : Nat) (exponent : Int) : Int :=
  if negative then -(nearestWhole mantissa exponent : Int) else nearestWhole mantissa exponent

def ofSeconds (seconds : Float) : Except Failure Int :=
  if (Binary64.ofFloat seconds).isFinite then
    match Binary64.ofFloat (seconds * 1e9) with
    | .finite negative mantissa exponent =>
      let ns := round negative mantissa exponent
      if fitsWord64 ns then .ok ns else .error (.timeOutOfRange seconds)
    | _ => .error .timeOverflow
  else .error (.timeNotFinite seconds)

/-- Cut to a whole number, toward zero. -/
def truncate : Binary64 → Int
  | .finite negative mantissa exponent =>
    let whole := wholeBelow mantissa exponent
    if negative then -(whole : Int) else whole
  | _ => 0

/-- The same nearest whole number by doubles alone: the product is cut, and corrected where what is
left over is a half or more. -/
def corrected (scaled : Float) : Int :=
  let whole := truncate (Binary64.ofFloat scaled)
  let rest := scaled - Float.ofInt whole
  if 0.5 ≤ rest then whole + 1 else if rest ≤ -0.5 then whole - 1 else whole

/-- A time that could be converted fits a signed 64-bit word. -/
theorem fitsWord64_of_ofSeconds {seconds : Float} {ns : Int} (h : ofSeconds seconds = .ok ns) :
    fitsWord64 ns = true := by
  unfold ofSeconds at h
  split at h
  · split at h
    · dsimp only at h
      split at h
      · next hfits => exact Except.ok.inj h ▸ hfits
      · simp at h
    · simp at h
  · simp at h

end LogicCapture.Time
