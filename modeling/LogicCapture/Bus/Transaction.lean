import LogicCapture.Trace.Store

/-!
# Bus transactions

A transaction on an I2C bus: when it began and how long it took, which device it was addressed to,
and the bytes that went each way.
-/

namespace LogicCapture.Bus

open Trace (Arg)

/-- A finished transaction. -/
structure Transaction where
  start : Int
  duration : Int
  address : String
  writeBytes : List String
  readBytes : List String
  fallbackName : String := "i2c"
  deriving Repr, DecidableEq

namespace Transaction

/-- The address and the bytes of each direction that has any. -/
def name (t : Transaction) : String :=
  let device := if t.address.isEmpty then t.fallbackName else t.address
  let written := if t.writeBytes.isEmpty then [] else "W:" :: t.writeBytes
  let read := if t.readBytes.isEmpty then [] else "R:" :: t.readBytes
  " ".intercalate (device :: written ++ read)

/-- The arguments of the interval of a transaction. What is empty is left out. -/
def args (t : Transaction) : List Arg :=
  let arg := fun (key text : String) => ({ key, value := .text text } : Arg)
  (if t.address.isEmpty then [] else [arg "address" t.address]) ++
    (if t.writeBytes.isEmpty then [] else [arg "write_bytes" (" ".intercalate t.writeBytes)]) ++
    (if t.readBytes.isEmpty then [] else [arg "read_bytes" (" ".intercalate t.readBytes)])

end Transaction

end LogicCapture.Bus
