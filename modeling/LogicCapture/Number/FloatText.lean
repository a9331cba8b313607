import LogicCapture.Number.Binary64
import LogicCapture.Number.Decimal
import LogicCapture.Number.FixedWidth

/-!
# Writing doubles as text

A style says how chosen digits are laid out: which magnitudes are written with the point in place
and which with a power of ten, whether a whole number keeps a fractional zero, how many digits the
exponent has at least, and the words for what is not a number. The styles in use are values at the
end of the file.
-/

namespace LogicCapture

inductive Precision where
  /-- the fewest that are read back as the same double -/
  | readBack
  /-- a fixed number of significant digits, zeros at the end left out -/
  | digits (count : Nat)
  deriving Repr, DecidableEq

/-- The decisions of a way to write doubles. A number whose leading digit stands for
`10 ^ e` has its point in place when `leastInPlace ≤ e ≤ mostInPlace`. -/
structure FloatStyle where
  precision : Precision
  leastInPlace : Int
  mostInPlace : Int
  fractionalZero : Bool
  exponentWidth : Nat
  nan : String
  infinity : String
  deriving Repr, DecidableEq

namespace FloatStyle

/-- The digits with the point in place, the leading one standing for `10 ^ lead`. -/
def inPlace (style : FloatStyle) (digits : String) (lead : Int) : String :=
  let zeros := fun n => String.ofList (List.replicate n '0')
  if lead < 0 then "0." ++ zeros (-lead - 1).toNat ++ digits
  else
    let whole := lead.toNat + 1
    if digits.length ≤ whole then
      digits ++ zeros (whole - digits.length) ++ (if style.fractionalZero then ".0" else "")
    else
      String.ofList (digits.toList.take whole) ++ "." ++ String.ofList (digits.toList.drop whole)

/-- The digits with one of them before the point, and the power of ten after them. -/
def withPower (style : FloatStyle) (digits : String) (lead : Int) : String :=
  let rest := String.ofList (digits.toList.drop 1)
  String.ofList (digits.toList.take 1) ++ (if rest.isEmpty then "" else "." ++ rest) ++ "e" ++
    (if lead < 0 then "-" else "+") ++ padZeros style.exponentWidth (toString lead.natAbs)

def magnitude (style : FloatStyle) (mantissa : Nat) (exponent : Int) : String :=
  let number :=
    match style.precision with
    | .readBack => Decimal.shortest mantissa exponent
    | .digits count => Decimal.significant count mantissa exponent
  let digits := toString number.digits
  let lead : Int := number.exponent + digits.length - 1
  if style.leastInPlace ≤ lead && lead ≤ style.mostInPlace then style.inPlace digits lead
  else style.withPower digits lead

def write (style : FloatStyle) (x : Float) : String :=
  match Binary64.ofFloat x with
  | .nan => style.nan
  | .infinite negative => (if negative then "-" else "") ++ style.infinity
  | .finite negative mantissa exponent =>
    (if negative then "-" else "") ++ style.magnitude mantissa exponent

def message : FloatStyle where
  precision := .readBack
  leastInPlace := -4
  mostInPlace := 15
  fractionalZero := true
  exponentWidth := 2
  nan := "nan"
  infinity := "inf"

def jsonLines : FloatStyle :=
  { message with nan := "NaN", infinity := "Infinity" }

/-- Numbers in a table of comma-separated values. -/
def commaSeparated : FloatStyle where
  precision := .readBack
  leastInPlace := -5
  mostInPlace := 15
  fractionalZero := true
  exponentWidth := 1
  nan := "NaN"
  infinity := "inf"

def summary : FloatStyle where
  precision := .digits 6
  leastInPlace := -4
  mostInPlace := 5
  fractionalZero := false
  exponentWidth := 2
  nan := "nan"
  infinity := "inf"

end FloatStyle

end LogicCapture
