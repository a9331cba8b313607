/-!
# The value of a double

A double stands for nothing, for an infinity, or for a whole number of units of a power of two.
All exact work on doubles, such as rounding a time to nanoseconds or choosing the digits of a
printed number, starts from this reading of the bit pattern.
-/

namespace LogicCapture

/-- What a double stands for. A finite one is `mantissa * 2 ^ exponent`, with a sign. -/
inductive Binary64 where
  | nan
  | infinite (negative : Bool)
  | finite (negative : Bool) (mantissa : Nat) (exponent : Int)
  deriving Repr, DecidableEq

namespace Binary64

/-- The reading of a 64-bit pattern: a sign, eleven bits of exponent, and a fraction of 52 bits
whose leading one is left out unless the exponent bits are all zero. -/
def ofBits (bits : Nat) : Binary64 :=
  let negative := bits / 0x8000000000000000 % 2 == 1
  let exponent : Nat := bits / 0x10000000000000 % 0x800
  let fraction := bits % 0x10000000000000
  if exponent = 2047 then
    if fraction = 0 then .infinite negative else .nan
  else if exponent = 0 then .finite negative fraction (-1074)
  else .finite negative (0x10000000000000 + fraction) ((exponent : Int) - 1075)

def ofFloat (x : Float) : Binary64 :=
  ofBits x.toBits.toNat

def isFinite : Binary64 → Bool
  | .finite .. => true
  | _ => false

end Binary64

/-- The double of the value that a 32-bit pattern stands for. Every such value is a double, so
nothing is rounded. -/
def widen (bits : Nat) : Float :=
  let sign := bits / 0x80000000 % 2
  let exponent := bits / 0x800000 % 0x100
  let fraction := bits % 0x800000
  let magnitude :=
    if exponent = 255 then
      if fraction = 0 then 0x7FF0000000000000 else 0x7FF8000000000000
    else if exponent = 0 then
      if fraction = 0 then 0
      else
        let top := fraction.log2
        (top + 874) * 0x10000000000000 + (fraction - 1 <<< top) <<< (52 - top)
    else (exponent + 896) * 0x10000000000000 + fraction * 0x20000000
  Float.ofBits (UInt64.ofNat (sign * 0x8000000000000000 + magnitude))

end LogicCapture
