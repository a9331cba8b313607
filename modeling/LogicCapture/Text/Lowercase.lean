import LogicCapture.Text.CaseData

/-!
# Small letters

The small-letter form by which names are compared. Each character has its own small letter, with
two exceptions: a capital I with a dot becomes two characters, and a capital sigma that ends a word
takes the final form.
-/

namespace LogicCapture.Text

/-- The small letter of one character, taken alone. -/
def smallLetter (c : Char) : Char :=
  if c.toNat < 128 then c.toLower
  else
    match capitals.find? (·.contains c.toNat) with
    | some run => Char.ofNat (c.toNat + run.offset).toNat
    | none => c

/-- The next character that does not merely stand inside a word is a cased one. -/
def meetsCased (cs : List Char) : Bool :=
  match cs.dropWhile caseIgnorable.contains with
  | [] => false
  | c :: _ => cased.contains c

/-- The small-letter form of the characters `cs` that follow those of `before`, nearest first. -/
def lowercaseAfter (before : List Char) : List Char → List Char
  | [] => []
  | c :: cs =>
    let small :=
      if c == 'Σ' then [if meetsCased before && !meetsCased cs then 'ς' else 'σ']
      else if c == 'İ' then ['i', '\u0307']
      else [smallLetter c]
    small ++ lowercaseAfter (c :: before) cs

def lowercase (text : String) : String :=
  String.ofList (lowercaseAfter [] text.toList)

end LogicCapture.Text
