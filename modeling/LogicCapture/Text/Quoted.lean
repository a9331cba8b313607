import LogicCapture.Number.FixedWidth
import LogicCapture.Text.Printable

/-!
# Quoted texts

A text as a message quotes it, so that it can be read without doubt: in single quotes, or in double
quotes if it holds single quotes only, with a backslash before the mark and before a backslash, and
with characters that leave no mark of their own written by number.
-/

namespace LogicCapture.Text

def quoteMark (cs : List Char) : Char :=
  if cs.contains '\'' && !cs.contains '"' then '"' else '\''

def quotedChar (mark c : Char) : String :=
  let n := c.toNat
  if c == mark || c == '\\' then String.ofList ['\\', c]
  else if c == '\t' then "\\t"
  else if c == '\n' then "\\n"
  else if c == '\r' then "\\r"
  else if !unprintable.contains c then String.singleton c
  else if n < 0x100 then "\\x" ++ hexadecimal 2 n
  else if n < 0x10000 then "\\u" ++ hexadecimal 4 n
  else "\\U" ++ hexadecimal 8 n

def quoted (text : String) : String :=
  let mark := quoteMark text.toList
  String.singleton mark ++ String.join (text.toList.map (quotedChar mark)) ++ String.singleton mark

end LogicCapture.Text
