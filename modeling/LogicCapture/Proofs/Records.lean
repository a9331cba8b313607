import Mathlib
import LogicCapture.Proofs.Effects
import LogicCapture.Proofs.Feeding

/-!
# Records of an export

Blank lines leave no trace, so to read an export line by line is to read its records one by one
(`Session.readAll_eq`): the first of them is the header, which fixes the schema once and for all,
and each further one is a row.
-/

namespace LogicCapture.Csv

/-- The cells of each line that is not blank. -/
def records (lines : List String) : List (List String) :=
  ((lines.map Session.stripReturn).filter fun line => !Text.isBlank line).map fields

theorem records_of_blank {line : String} (h : Text.isBlank (Session.stripReturn line) = true)
    (lines : List String) : records (line :: lines) = records lines := by
  rw [records, List.map_cons, List.filter_cons_of_neg (by simp [h]), records]

theorem records_of_not_blank {line : String} (h : Text.isBlank (Session.stripReturn line) ≠ true)
    (lines : List String) :
    records (line :: lines) = fields (Session.stripReturn line) :: records lines := by
  rw [records, List.map_cons, List.filter_cons_of_pos (by simp [h]), List.map_cons, records]

namespace Session

/-- Read a record as a session has to, which depends on whether there is a header. -/
def readRecord (s : Session) (cells : List String) : Except Failure Entry :=
  match s.schema with
  | none => .header <$> Schema.ofFields cells
  | some schema => Entry.ofCells s.config schema cells

/-- Read records one by one, up to one that cannot be read. -/
def readRecords (s : Session) : List (List String) → Option Failure × Session
  | [] => (none, s)
  | cells :: rest =>
    match s.readRecord cells with
    | .ok entry => (s.add entry).readRecords rest
    | .error failure => (some failure, s)

theorem read_eq (s : Session) (line : String) :
    s.read line = if Text.isBlank (stripReturn line) then .ok .blank
      else s.readRecord (fields (stripReturn line)) := rfl

/-- Reading lines is reading the records in them. -/
theorem readAll_eq (s : Session) (lines : List String) :
    s.readAll lines = s.readRecords (records lines) := by
  induction lines generalizing s with
  | nil => rfl
  | cons line lines ih =>
      rw [readAll, takeLine_eq, read_eq]
      by_cases hblank : Text.isBlank (stripReturn line) = true
      · rw [records_of_blank hblank, if_pos hblank]
        exact ih s
      · rw [records_of_not_blank hblank, if_neg hblank, readRecords]
        cases s.readRecord (fields (stripReturn line)) with
        | error failure => rfl
        | ok entry => exact ih (s.add entry)

section Record

variable {s : Session} {schema : Schema}

theorem readRecords_header (h : s.schema = none) (cells : List String)
    (rest : List (List String)) :
    s.readRecords (cells :: rest) =
      match Schema.ofFields cells with
      | .ok schema => (s.setSchema schema).readRecords rest
      | .error failure => (some failure, s) := by
  rw [readRecords, readRecord, h]
  cases Schema.ofFields cells <;> rfl

theorem readRecords_row (h : s.schema = some schema) (cells : List String)
    (rest : List (List String)) :
    s.readRecords (cells :: rest) =
      match Entry.ofCells s.config schema cells with
      | .ok entry => (s.add entry).readRecords rest
      | .error failure => (some failure, s) := by
  rw [readRecords, readRecord, h]

theorem schema_readRecords (h : s.schema = some schema) (rows : List (List String)) :
    (s.readRecords rows).2.schema = some schema := by
  induction rows generalizing s with
  | nil => exact h
  | cons cells rows ih =>
      obtain ⟨args, -, hcells⟩ := ofCells_eq s.config schema cells
      rw [readRecords_row h, hcells]
      cases Event.ofRow s.config schema (schema.pad cells) with
      | error failure => exact h
      | ok event => exact ih ((s.frame_onRow event args).2.trans h)

end Record

end Session

end LogicCapture.Csv
