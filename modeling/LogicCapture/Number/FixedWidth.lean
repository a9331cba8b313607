/-!
# Numbers of a fixed width

Digits with zeros in front, so that every number takes at least a given number of places.
-/

namespace LogicCapture

def padZeros (width : Nat) (digits : String) : String :=
  String.ofList (List.replicate (width - digits.length) '0') ++ digits

def hexadecimal (width n : Nat) : String :=
  padZeros width (String.ofList (Nat.toDigits 16 n))

end LogicCapture
