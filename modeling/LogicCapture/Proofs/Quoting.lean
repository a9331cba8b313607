import Mathlib
import LogicCapture.Csv.Record
import LogicCapture.Trace.TableFile

/-!
# Records that are written down

A field is written in quotes, with the quotes in it doubled, or as it is if it holds neither a comma
nor a quote. A field that stands before a comma or at the end is read back as it was written
(`Written.fieldsFrom_append`), so a record is read back field by field (`fields_of_written`). In
particular the lines of a table file are records of their cells (`fields_map_text`).
-/

namespace LogicCapture.Csv

open Trace.CommaSeparated (doubleQuotes)

/-! ## One field -/

def inQuotes (field : String) : String :=
  String.ofList ('"' :: (doubleQuotes field.toList ++ ['"']))

/-- The texts by which a field can be written. -/
inductive Written (field : String) : String → Prop
  | quoted : Written field (inQuotes field)
  | bare (hcomma : ',' ∉ field.toList) (hquote : '"' ∉ field.toList) : Written field field

theorem fieldsFrom_close {rest : List Char} (h : rest.head? ≠ some '"') :
    fieldsFrom true ('"' :: rest) = fieldsFrom false rest := by
  rw [fieldsFrom, if_pos rfl]
  rintro cs - rfl
  exact h rfl

/-- Inside quotes everything up to the quote that closes them is one field. -/
theorem fieldsFrom_doubleQuotes (cs : List Char) {rest : List Char} (h : rest.head? ≠ some '"') :
    fieldsFrom true (doubleQuotes cs ++ '"' :: rest)
      = (fieldsFrom false rest).modifyHead (cs ++ ·) := by
  induction cs with
  | nil =>
      rw [doubleQuotes, List.nil_append, fieldsFrom_close h]
      exact (congrFun List.modifyHead_id _).symm
  | cons c cs ih =>
      by_cases hc : c = '"'
      · subst hc
        rw [doubleQuotes, if_pos rfl, List.cons_append, List.cons_append, fieldsFrom, ih,
          List.modifyHead_modifyHead]
        rfl
      · rw [doubleQuotes, if_neg hc, List.cons_append, fieldsFrom, if_neg hc, ih,
          List.modifyHead_modifyHead]
        · rfl
        · exact fun _ hquote _ => hc hquote

theorem fieldsFrom_bare {cs : List Char} (hcomma : ',' ∉ cs) (hquote : '"' ∉ cs)
    (rest : List Char) :
    fieldsFrom false (cs ++ rest) = (fieldsFrom false rest).modifyHead (cs ++ ·) := by
  induction cs with
  | nil => exact (congrFun List.modifyHead_id _).symm
  | cons c cs ih =>
      obtain ⟨hc, hcs⟩ := not_or.mp fun hmem => hcomma (List.mem_cons.mpr hmem)
      obtain ⟨hd, hds⟩ := not_or.mp fun hmem => hquote (List.mem_cons.mpr hmem)
      rw [List.cons_append, fieldsFrom, if_neg (Ne.symm hd), if_neg (Ne.symm hc), ih hcs hds,
        List.modifyHead_modifyHead]
      rfl

/-- A written field is read as the field; no quote may follow, which would belong to it. -/
theorem Written.fieldsFrom_append {field text : String} (h : Written field text) {rest : List Char}
    (hrest : rest.head? ≠ some '"') :
    fieldsFrom false (text.toList ++ rest)
      = (fieldsFrom false rest).modifyHead (field.toList ++ ·) := by
  cases h with
  | quoted =>
      rw [inQuotes, String.toList_ofList, List.cons_append, List.append_assoc, fieldsFrom,
        if_pos rfl]
      exact fieldsFrom_doubleQuotes field.toList hrest
  | bare hcomma hquote => exact fieldsFrom_bare hcomma hquote rest

/-! ## Records -/

theorem Written.fields_eq {field text : String} (h : Written field text) :
    fields text = [field] := by
  have hread := @Written.fieldsFrom_append field text h [] (by simp)
  rw [List.append_nil] at hread
  rw [fields, hread]
  simp [fieldsFrom]

theorem Written.fields_append {field text : String} (h : Written field text) (rest : String) :
    fields (text ++ "," ++ rest) = field :: fields rest := by
  have hline : (text ++ "," ++ rest).toList = text.toList ++ ',' :: rest.toList := by simp
  have hcomma : fieldsFrom false (',' :: rest.toList) = [] :: fieldsFrom false rest.toList := by
    rw [fieldsFrom, if_neg (by decide), if_pos rfl]
  rw [fields, hline, h.fieldsFrom_append (by simp), hcomma, List.modifyHead_cons, List.append_nil,
    List.map_cons, String.ofList_toList, fields]

/-- Fields that are written and put together with commas are read back. -/
theorem fields_of_written {cells texts : List String} (h : List.Forall₂ Written cells texts)
    (hne : cells ≠ []) : fields (",".intercalate texts) = cells := by
  induction h with
  | nil => exact absurd rfl hne
  | @cons cell text cells texts hcell hcells ih =>
      cases hcells with
      | nil => rw [String.intercalate_singleton, hcell.fields_eq]
      | cons hnext hcells =>
          rw [String.intercalate_cons_cons, hcell.fields_append, ih (List.cons_ne_nil _ _)]

def writeField (quotes : Bool) (field : String) : String :=
  if quotes then inQuotes field else field

/-- Reading undoes writing. Whatever the fields of a record are, and whichever of them are put in
quotes, the record is read back, as long as no field with a comma or a quote is left without. -/
theorem fields_writeField {choices : List (Bool × String)} (hne : choices ≠ [])
    (hbare : ∀ choice ∈ choices, choice.1 = false →
      ',' ∉ choice.2.toList ∧ '"' ∉ choice.2.toList) :
    fields (",".intercalate (choices.map fun (quotes, field) => writeField quotes field))
      = choices.map (·.2) := by
  refine fields_of_written ?_ (mt List.map_eq_nil_iff.mp hne)
  rw [List.forall₂_map_left_iff, List.forall₂_map_right_iff, List.forall₂_same]
  rintro ⟨quotes, field⟩ hchoice
  cases quotes with
  | true => exact .quoted
  | false =>
      obtain ⟨hcomma, hquote⟩ := hbare _ hchoice rfl
      exact .bare hcomma hquote

/-- An empty field, a lone quote, a field that is in quotes itself, a comma between line ends, a
plain field and an empty one in quotes. -/
def mixedChoices : List (Bool × String) :=
  [(false, ""), (true, "\""), (true, "\"x\""), (true, "\r,\n"), (false, "y"), (true, "")]

theorem fields_writeField_mixed :
    fields ",\"\"\"\",\"\"\"x\"\"\",\"\r,\n\",y,\"\"" = ["", "\"", "\"x\"", "\r,\n", "y", ""] := by
  have hline : ",".intercalate (mixedChoices.map fun (quotes, field) => writeField quotes field)
      = ",\"\"\"\",\"\"\"x\"\"\",\"\r,\n\",y,\"\"" := by decide +kernel
  rw [← hline]
  exact fields_writeField (by decide) (by decide)

/-! ## Records in quotes -/

def quotedLine (record : List String) : String :=
  ",".intercalate (record.map inQuotes)

theorem fields_quotedLine {record : List String} (hne : record ≠ []) :
    fields (quotedLine record) = record :=
  fields_of_written
    (List.forall₂_map_right_iff.mpr (List.forall₂_same.mpr fun _ _ => .quoted)) hne

theorem quotedLine_cons (field next : String) (record : List String) :
    quotedLine (field :: next :: record)
      = inQuotes field ++ "," ++ quotedLine (next :: record) := by
  rw [quotedLine, List.map_cons, List.map_cons, String.intercalate_cons_cons, quotedLine,
    List.map_cons]

theorem getLast?_quotedLine {record : List String} (hne : record ≠ []) :
    (quotedLine record).toList.getLast? = some '"' := by
  induction record with
  | nil => exact absurd rfl hne
  | cons field record ih =>
      cases record with
      | nil =>
          rw [quotedLine, List.map_singleton, String.intercalate_singleton, inQuotes,
            String.toList_ofList, ← List.cons_append, List.getLast?_concat]
      | cons next record =>
          rw [quotedLine_cons, String.toList_append, List.getLast?_append,
            ih (List.cons_ne_nil _ _), Option.some_or]

theorem mem_doubleQuotes {c : Char} {cs : List Char} (h : c ∈ doubleQuotes cs) : c ∈ cs := by
  induction cs with
  | nil => exact h
  | cons d cs ih =>
      rw [doubleQuotes] at h
      split at h
      · next hd =>
        simp only [hd, List.mem_cons] at h ⊢
        rcases h with hc | hc | hcs
        · exact Or.inl hc
        · exact Or.inl hc
        · exact Or.inr (ih hcs)
      · rw [List.mem_cons] at h ⊢
        exact h.imp_right ih

theorem mem_inQuotes {c : Char} {field : String} (h : c ∈ (inQuotes field).toList) :
    c = '"' ∨ c ∈ field.toList := by
  rw [inQuotes, String.toList_ofList, List.mem_cons, List.mem_append, List.mem_singleton] at h
  rcases h with hc | hfield | hc
  · exact Or.inl hc
  · exact Or.inr (mem_doubleQuotes hfield)
  · exact Or.inl hc

/-- Nothing but quotes and commas is added to the fields. -/
theorem mem_quotedLine {c : Char} {record : List String} (h : c ∈ (quotedLine record).toList) :
    c = '"' ∨ c = ',' ∨ ∃ field ∈ record, c ∈ field.toList := by
  induction record with
  | nil => cases h
  | cons field record ih =>
      have hfirst : c ∈ (inQuotes field).toList →
          c = '"' ∨ c = ',' ∨ ∃ other ∈ field :: record, c ∈ other.toList := fun hc =>
        (mem_inQuotes hc).imp_right fun hmem => Or.inr ⟨field, List.mem_cons_self, hmem⟩
      cases record with
      | nil =>
          rw [quotedLine, List.map_singleton, String.intercalate_singleton] at h
          exact hfirst h
      | cons next record =>
          rw [quotedLine_cons, String.toList_append, String.toList_append, List.mem_append,
            List.mem_append] at h
          rcases h with (hc | hc) | hc
          · exact hfirst hc
          · exact Or.inr (Or.inl (List.mem_singleton.mp hc))
          · rcases ih hc with hquote | hcomma | ⟨other, hother, hmem⟩
            · exact Or.inl hquote
            · exact Or.inr (Or.inl hcomma)
            · exact Or.inr (Or.inr ⟨other, List.mem_cons_of_mem _ hother, hmem⟩)

/-! ## Lines of table files -/

theorem written_text (value : String) : Written value (Trace.CommaSeparated.text value) := by
  unfold Trace.CommaSeparated.text
  split
  · exact .quoted
  · next hplain =>
    rw [Bool.or_eq_true, not_or, List.any_eq_true] at hplain
    refine .bare (fun hcomma => hplain.2 ⟨_, hcomma, rfl⟩) fun hquote => hplain.2 ⟨_, hquote, rfl⟩

theorem fields_map_text {cells : List String} (hne : cells ≠ []) :
    fields (",".intercalate (cells.map Trace.CommaSeparated.text)) = cells :=
  fields_of_written
    (List.forall₂_map_right_iff.mpr (List.forall₂_same.mpr fun cell _ => written_text cell)) hne

end LogicCapture.Csv
