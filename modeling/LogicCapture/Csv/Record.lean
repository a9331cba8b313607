/-!
# Records

One line of an export as a list of fields. Commas separate fields; inside double quotes a comma is
text and a quote is written twice. Quotes may open and close anywhere, also in the middle of a
field, and a quote that is never closed holds the rest of the line. Every line is a record, so
nothing can fail here.
-/

namespace LogicCapture.Csv

/-- The fields of the characters that follow, the first one being under way, inside or outside
quotes. -/
def fieldsFrom : (quoted : Bool) → List Char → List (List Char)
  | _, [] => [[]]
  | true, '"' :: '"' :: cs => (fieldsFrom true cs).modifyHead ('"' :: ·)
  | true, c :: cs =>
    if c = '"' then fieldsFrom false cs else (fieldsFrom true cs).modifyHead (c :: ·)
  | false, c :: cs =>
    if c = '"' then fieldsFrom true cs
    else if c = ',' then [] :: fieldsFrom false cs
    else (fieldsFrom false cs).modifyHead (c :: ·)

theorem fieldsFrom_ne_nil (quoted : Bool) (cs : List Char) : fieldsFrom quoted cs ≠ [] := by
  fun_induction fieldsFrom quoted cs <;> simp_all [List.modifyHead_eq_nil_iff]

/-- The fields of a line; an empty line has one empty field. -/
def fields (line : String) : List String :=
  (fieldsFrom false line.toList).map String.ofList

theorem fields_ne_nil (line : String) : fields line ≠ [] := by
  simp [fields, fieldsFrom_ne_nil]

def stripMark (text : String) : String :=
  match text.toList with
  | '\uFEFF' :: cs => String.ofList cs
  | _ => text

end LogicCapture.Csv
