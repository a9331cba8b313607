import Mathlib
import LogicCapture.Csv.Session

/-!
# Header lines

The names of columns are trimmed, and a trimmed text has nothing left to trim. A line without a
comma is a single field, and a single field cannot be a header, for a column has one role and four
are needed; in particular a blank line is none (`not_blank_of_ofFields`). A byte order mark in front
of a line goes to the first field, where one mark is taken away before the name is trimmed again: a
field that begins with a mark itself then keeps it (`columnNames_marked`).
-/

namespace LogicCapture

/-! ## Trimmed texts -/

namespace Text

theorem trimBy_trimBy (p : Char → Bool) (cs : List Char) :
    trimBy p (trimBy p cs) = trimBy p cs := by
  have hright : trimBy p cs = (cs.dropWhile p).rdropWhile p := rfl
  have hleft : (trimBy p cs).dropWhile p = trimBy p cs := by
    rw [List.dropWhile_eq_self_iff]
    intro hlength
    have hbegin : trimBy p cs <+: cs.dropWhile p := hright ▸ List.rdropWhile_prefix p _
    rw [hbegin.getElem hlength]
    exact List.dropWhile_get_zero_not p cs (hlength.trans_le hbegin.length_le)
  conv_lhs => rw [trimBy, hleft]
  change (trimBy p cs).rdropWhile p = trimBy p cs
  rw [hright, List.rdropWhile_idempotent]

theorem rdropWhile_cons {p : Char → Bool} {c : Char} (h : p c = false) (cs : List Char) :
    (c :: cs).rdropWhile p = c :: cs.rdropWhile p := by
  rw [List.rdropWhile, List.rdropWhile, List.reverse_cons, List.dropWhile_append]
  split
  · next hnone =>
    rw [List.isEmpty_iff.mp hnone, List.dropWhile_cons_of_neg (by simp [h])]
    rfl
  · rw [List.reverse_append]
    rfl

/-- What has been taken from the end already makes no difference. -/
theorem trimBy_rdropWhile (p : Char → Bool) (cs : List Char) :
    trimBy p (cs.rdropWhile p) = trimBy p cs := by
  induction cs using List.reverseRecOn with
  | nil => rfl
  | append_singleton cs c ih =>
      by_cases hc : p c = true
      · rw [List.rdropWhile_concat_pos p cs c hc, ih]
        change (cs.dropWhile p).rdropWhile p = ((cs ++ [c]).dropWhile p).rdropWhile p
        rw [List.dropWhile_append]
        split
        · next hnone =>
          rw [List.isEmpty_iff.mp hnone, List.dropWhile_cons_of_pos hc]
          rfl
        · rw [List.rdropWhile_concat_pos p _ c hc]
      · rw [List.rdropWhile_concat_neg p cs c hc]

theorem trim_trim (text : String) : trim (trim text) = trim text := by
  rw [trim, trim, String.toList_ofList, trimBy_trimBy]

theorem length_trim_le (text : String) : (trim text).toList.length ≤ text.toList.length := by
  rw [trim, String.toList_ofList]
  exact (List.rdropWhile_prefix isSpace _).length_le.trans (List.dropWhile_sublist _).length_le

theorem trim_of_blank {text : String} (h : isBlank text = true) : trim text = "" := by
  have hleft : text.toList.dropWhile isSpace = [] :=
    List.dropWhile_eq_nil_iff.mpr (List.all_eq_true.mp h)
  rw [trim, trimBy, hleft]
  rfl

end Text

namespace Csv

/-! ## Names of columns -/

theorem columns_of_ofFields {cells : List String} {schema : Schema}
    (h : Schema.ofFields cells = .ok schema) : schema.columns = Schema.columnNames cells := by
  unfold Schema.ofFields at h
  split at h
  · cases h
  · dsimp only at h
    split at h
    · exact (Except.ok.inj h) ▸ rfl
    · cases h

theorem trim_column {cells : List String} {schema : Schema} (h : Schema.ofFields cells = .ok schema)
    {column : String} (hcolumn : column ∈ schema.columns) : Text.trim column = column := by
  rw [columns_of_ofFields h] at hcolumn
  cases cells with
  | nil => cases hcolumn
  | cons first rest =>
      rcases List.mem_cons.mp hcolumn with rfl | hrest
      · exact Text.trim_trim _
      · obtain ⟨cell, -, rfl⟩ := List.mem_map.mp hrest
        exact Text.trim_trim cell

theorem ofFields_congr {first first' : String} {rest rest' : List String}
    (h : Schema.columnNames (first :: rest) = Schema.columnNames (first' :: rest')) :
    Schema.ofFields (first :: rest) = Schema.ofFields (first' :: rest') := by
  unfold Schema.ofFields
  rw [h]
  rfl

/-! ## Single fields -/

theorem fieldsFrom_of_not_mem {cs : List Char} (h : ',' ∉ cs) (quoted : Bool) :
    ∃ field, fieldsFrom quoted cs = [field] := by
  fun_induction fieldsFrom quoted cs with
  | case1 quoted => exact ⟨[], rfl⟩
  | case2 cs ih =>
      obtain ⟨field, hfield⟩ := ih fun hmem =>
        h (List.mem_cons_of_mem _ (List.mem_cons_of_mem _ hmem))
      exact ⟨_, by rw [hfield]; rfl⟩
  | case3 cs _ ih => exact ih fun hmem => h (List.mem_cons_of_mem _ hmem)
  | case4 c cs _ _ ih =>
      obtain ⟨field, hfield⟩ := ih fun hmem => h (List.mem_cons_of_mem _ hmem)
      exact ⟨_, by rw [hfield]; rfl⟩
  | case5 cs ih => exact ih fun hmem => h (List.mem_cons_of_mem _ hmem)
  | case6 cs ih => exact absurd List.mem_cons_self h
  | case7 c cs _ _ ih =>
      obtain ⟨field, hfield⟩ := ih fun hmem => h (List.mem_cons_of_mem _ hmem)
      exact ⟨_, by rw [hfield]; rfl⟩

theorem fieldsFrom_of_blank {cs : List Char} (h : cs.all Text.isSpace = true) :
    fieldsFrom false cs = [cs] := by
  induction cs with
  | nil => rfl
  | cons c cs ih =>
      obtain ⟨hc, hcs⟩ := Bool.and_eq_true_iff.mp (List.all_cons.symm.trans h)
      have hquote : c ≠ '"' := by
        rintro rfl
        exact absurd hc (by decide)
      have hcomma : c ≠ ',' := by
        rintro rfl
        exact absurd hc (by decide)
      rw [fieldsFrom, if_neg hquote, if_neg hcomma, ih hcs]
      rfl

theorem fields_of_blank {line : String} (h : Text.isBlank line = true) : fields line = [line] := by
  rw [fields, fieldsFrom_of_blank h, List.map_singleton, String.ofList_toList]

theorem lastIndex?_singleton (found : Option Role) (role : Role) :
    Schema.lastIndex? [found] role = if found = some role then some 0 else none := by
  unfold Schema.lastIndex?
  by_cases h : found = some role
  · simp [h]
  · simp [h]

/-- One column has one role, which is not enough. -/
theorem ofFields_singleton (cell : String) :
    ∃ failure, Schema.ofFields [cell] = .error failure := by
  have hroles : Schema.rolesOf (Schema.columnNames [cell])
      = [Role.ofColumnName? (Text.lowercase (Text.trim (stripMark (Text.trim cell))))] := rfl
  unfold Schema.ofFields
  rw [if_neg (by simp)]
  dsimp only
  rw [hroles]
  simp only [lastIndex?_singleton]
  generalize Role.ofColumnName? _ = found
  by_cases hname : found = some .name
  · subst hname
    exact ⟨_, rfl⟩
  · simp only [if_neg hname]
    exact ⟨_, rfl⟩

theorem comma_of_ofFields {line : String} {schema : Schema}
    (h : Schema.ofFields (fields line) = .ok schema) : ',' ∈ line.toList := by
  by_contra hcomma
  obtain ⟨field, hfield⟩ := fieldsFrom_of_not_mem hcomma false
  obtain ⟨failure, hfails⟩ := ofFields_singleton (String.ofList field)
  rw [fields, hfield, List.map_singleton, hfails] at h
  cases h

theorem not_blank_of_ofFields {line : String} {schema : Schema}
    (h : Schema.ofFields (fields line) = .ok schema) : Text.isBlank line = false := by
  refine Bool.eq_false_of_not_eq_true fun hblank => ?_
  exact absurd (List.all_eq_true.mp hblank ',' (comma_of_ofFields h)) (by decide)

/-! ## Marks -/

def marked (text : String) : String :=
  String.ofList ('\uFEFF' :: text.toList)

theorem toList_marked (text : String) : (marked text).toList = '\uFEFF' :: text.toList :=
  String.toList_ofList

theorem not_blank_marked (text : String) : Text.isBlank (marked text) = false := by
  rw [Text.isBlank, toList_marked, List.all_cons]
  rfl

theorem stripMark_marked (text : String) : stripMark (marked text) = text := by
  rw [stripMark, toList_marked]
  exact String.ofList_toList

theorem stripMark_eq_self {text : String} (h : text.toList.head? ≠ some '\uFEFF') :
    stripMark text = text := by
  unfold stripMark
  split
  · next heq => rw [heq] at h; exact absurd rfl h
  · rfl

/-- The mark in front of a field is taken away again, and with it nothing but white space. -/
theorem trim_stripMark_marked (text : String) :
    Text.trim (stripMark (Text.trim (marked text))) = Text.trim text := by
  have hfirst : Text.trim (marked text)
      = marked (String.ofList (text.toList.rdropWhile Text.isSpace)) := by
    rw [Text.trim, marked, marked, String.toList_ofList, String.toList_ofList]
    exact congrArg String.ofList (Text.rdropWhile_cons (by decide) text.toList)
  rw [hfirst, stripMark_marked, Text.trim, String.toList_ofList, Text.trimBy_rdropWhile, Text.trim]

theorem fields_marked {line cell : String} {cells : List String} (h : fields line = cell :: cells) :
    fields (marked line) = marked cell :: cells := by
  obtain ⟨field, rest, hfields, rfl, rfl⟩ := List.map_eq_cons_iff.mp h
  rw [fields, toList_marked, fieldsFrom, if_neg (by decide), if_neg (by decide), hfields,
    List.modifyHead_cons, List.map_cons, marked, String.toList_ofList]

/-- The names of a header with a mark in front are those without it, unless the first name begins
with a mark of its own. -/
theorem columnNames_marked (cell : String) (cells : List String) :
    Schema.columnNames (marked cell :: cells) = Schema.columnNames (cell :: cells)
      ↔ (Text.trim cell).toList.head? ≠ some '\uFEFF' := by
  rw [Schema.columnNames, Schema.columnNames, trim_stripMark_marked, List.cons.injEq,
    and_iff_left rfl]
  constructor
  · intro h hmark
    obtain ⟨cs, hcs⟩ := List.head?_eq_some_iff.mp hmark
    have hcell : Text.trim cell = marked (String.ofList cs) := by
      rw [marked, String.toList_ofList, ← hcs, String.ofList_toList]
    -- one mark is lost on the right and none on the left
    have hlength := Text.length_trim_le (String.ofList cs)
    rw [hcell, stripMark_marked] at h
    rw [← h, toList_marked, List.length_cons] at hlength
    omega
  · intro h
    rw [stripMark_eq_self h, Text.trim_trim]

theorem ofFields_marked {line cell : String} {cells : List String}
    (hfields : fields line = cell :: cells) (h : (Text.trim cell).toList.head? ≠ some '\uFEFF') :
    Schema.ofFields (fields (marked line)) = Schema.ofFields (fields line) := by
  rw [fields_marked hfields, hfields]
  exact ofFields_congr ((columnNames_marked cell cells).mpr h)

/-- A blank line with a mark in front is a header without names. -/
theorem ofFields_marked_blank {line : String} (h : Text.isBlank line = true) :
    Schema.ofFields (fields (marked line)) = .error (.columnsMissing Role.required) := by
  have hcolumns : Schema.columnNames [marked line] = [""] := by
    rw [Schema.columnNames, trim_stripMark_marked, Text.trim_of_blank h]
    rfl
  rw [fields_marked (fields_of_blank h)]
  unfold Schema.ofFields
  rw [hcolumns]
  rfl

end Csv

end LogicCapture
