import LogicCapture.Text.Blank
import LogicCapture.Text.DecimalDigit

/-!
# Numerals

Reading the decimal numerals that people write. White space around a numeral is ignored, digits
of every script count, and a single low line may stand between two digits. `readFloat?` reads a
finite double, `readInt?` a whole number.
-/

namespace LogicCapture.Numeral

/-- The white space that may surround a numeral, after that of other scripts has become a
space. -/
def isOuterSpace (c : Char) : Bool :=
  (9 ≤ c.toNat && c.toNat ≤ 13) || c == ' '

/-- A character in its ASCII spelling: digits of every script and all wide spaces have one. -/
def plain (c : Char) : Char :=
  if c.toNat < 128 then c
  else if Text.isSpace c then ' '
  else
    match Text.digitValue? c with
    | some d => Char.ofNat (48 + d)
    | none => c

/-- The characters without low lines, each of which must stand between two digits. The first
argument says whether a digit came just before. -/
def joinDigits? : Bool → List Char → Option (List Char)
  | _, [] => some []
  | afterDigit, '_' :: c :: cs =>
    if afterDigit && c.isDigit then (joinDigits? true cs).map (c :: ·) else none
  | _, ['_'] => none
  | _, c :: cs => (joinDigits? c.isDigit cs).map (c :: ·)

/-- The characters of a numeral: ASCII spelling, no white space around, low lines taken out. -/
def characters? (text : String) : Option (List Char) :=
  joinDigits? false (Text.trimBy isOuterSpace (text.toList.map plain))

/-- A leading sign: whether it is a minus, and what follows. -/
def readSign : List Char → Bool × List Char
  | '+' :: cs => (false, cs)
  | '-' :: cs => (true, cs)
  | cs => (false, cs)

def ofDigits (digits : List Char) : Nat :=
  digits.foldl (fun n c => n * 10 + (c.toNat - 48)) 0

/-- The number written by decimal digits, or a bound that it exceeds. The work is in proportion to
the digits however many they are. -/
def ofDigitsUpTo (bound : Nat) (digits : List Char) : Nat :=
  digits.foldl (fun n c => min bound (n * 10 + (c.toNat - 48))) 0

def mostDigits : Nat := 4300

def readInt? (text : String) : Option Int := do
  let (negative, digits) := readSign (← characters? text)
  if digits.isEmpty || mostDigits < digits.length || !digits.all Char.isDigit then none
  else if negative then some (-(ofDigits digits : Int))
  else some (ofDigits digits)

/-- The power of ten at the end of a numeral: nothing, or a letter e and a whole number, which
counts up to a bound. -/
def readPower? (bound : Nat) : List Char → Option Int
  | [] => some 0
  | c :: cs =>
    let (negative, digits) := readSign cs
    if !(c == 'e' || c == 'E') || digits.isEmpty || !digits.all Char.isDigit then none
    else if negative then some (-(ofDigitsUpTo bound digits : Int))
    else some (ofDigitsUpTo bound digits)

/-- The leading digits that decide how a numeral is rounded. Halfway between two doubles there is
never a number with more than 768 digits, so of the digits behind these it only matters whether
they are all zero. -/
def decidingDigits : Nat := 800

/-- The digits of a numeral as a whole number and a power of ten, with a single digit one in the
place of all that follow the deciding digits and are not zero. -/
def condense (digits : List Char) (power : Int) : Nat × Int :=
  let rest := digits.drop decidingDigits
  let more := if rest.all (· == '0') then 0 else 1
  (ofDigits (digits.take decidingDigits) * 10 + more, power + rest.length - 1)

/-- The double nearest to `digits * 10 ^ power`, if it is finite. Beyond the powers that a double
can hold the answer is known without computing it. -/
def nearestFloat? (digits : List Char) (power : Int) : Option Float :=
  let digits := digits.dropWhile (· == '0')
  let lead := power + digits.length
  if digits.isEmpty || lead < -330 then some 0.0
  else if 310 < lead then none
  else
    let x :=
      match condense digits power with
      | (mantissa, .ofNat up) => Float.ofScientific mantissa false up
      | (mantissa, .negSucc down) => Float.ofScientific mantissa true (down + 1)
    if x.isFinite then some x else none

/-- A finite number: a sign, digits with an optional point, and an optional power of ten. At least
one digit stands before the power. A power that exceeds the number of digits by 1000 takes the
number out of the range of the doubles, however much it exceeds it. -/
def readFloat? (text : String) : Option Float := do
  let (negative, cs) := readSign (← characters? text)
  let whole := cs.takeWhile Char.isDigit
  let cs := cs.dropWhile Char.isDigit
  let (fraction, cs) :=
    match cs with
    | '.' :: cs => (cs.takeWhile Char.isDigit, cs.dropWhile Char.isDigit)
    | cs => ([], cs)
  if whole.isEmpty && fraction.isEmpty then none
  let digits := whole ++ fraction
  let power ← readPower? (digits.length + 1000) cs
  let x ← nearestFloat? digits (power - fraction.length)
  return if negative then -x else x

end LogicCapture.Numeral
