import Mathlib
import LogicCapture.Proofs.Quoting

/-!
# Lines cut at a comma

Any line is a record, also one with stray quotes in the middle of a field or behind one that is
closed. Whether a character stands inside quotes depends only on the number of quotes in front of
it: each turns inside and outside around, and a doubled quote, which is read as one, turns them
around twice. So the fields of two texts put together are those of the one followed by those of the
other, with the last field of the first going on in the second (`fieldsFrom_append`). A comma parts
two fields just if the number of quotes in front of it is even, and a quote that is never closed
takes in all that stands behind it and nothing else (`fields_by_parity`).
-/

namespace LogicCapture.Csv

open Trace.CommaSeparated (doubleQuotes)

/-! ## Inside and outside -/

/-- Whether what follows these characters stands inside quotes. -/
def quotedAfter : (quoted : Bool) → List Char → Bool
  | quoted, [] => quoted
  | quoted, c :: cs => quotedAfter (quoted ^^ c == '"') cs

@[simp] theorem quotedAfter_quote (quoted : Bool) (cs : List Char) :
    quotedAfter quoted ('"' :: cs) = quotedAfter (!quoted) cs := by
  rw [quotedAfter, beq_self_eq_true, Bool.xor_true]

@[simp] theorem quotedAfter_cons {c : Char} (h : c ≠ '"') (quoted : Bool) (cs : List Char) :
    quotedAfter quoted (c :: cs) = quotedAfter quoted cs := by
  rw [quotedAfter, beq_eq_false_iff_ne.mpr h, Bool.xor_false]

theorem quotedAfter_append (quoted : Bool) (cs ds : List Char) :
    quotedAfter quoted (cs ++ ds) = quotedAfter (quotedAfter quoted cs) ds := by
  induction cs generalizing quoted with
  | nil => rfl
  | cons c cs ih => rw [List.cons_append, quotedAfter, ih, quotedAfter]

theorem quotedAfter_doubleQuotes (quoted : Bool) (cs : List Char) :
    quotedAfter quoted (doubleQuotes cs) = quoted := by
  induction cs with
  | nil => rfl
  | cons c cs ih =>
      rw [doubleQuotes]
      split
      · rw [quotedAfter_quote, quotedAfter_quote, Bool.not_not, ih]
      · next h => rw [quotedAfter_cons h, ih]

/-- Only the parity of the number of quotes matters. -/
theorem quotedAfter_iff (quoted : Bool) (cs : List Char) :
    quotedAfter quoted cs = quoted ↔ Even (cs.count '"') := by
  induction cs generalizing quoted with
  | nil => simp [quotedAfter]
  | cons c cs ih =>
      by_cases h : c = '"'
      · subst h
        rw [quotedAfter_quote, List.count_cons_self, Nat.even_add_one, ← ih (!quoted)]
        cases quotedAfter (!quoted) cs <;> cases quoted <;> decide
      · rw [quotedAfter_cons h, List.count_cons_of_ne h, ih]

/-! ## Fields of two texts put together -/

/-- The fields of one text and those of another that goes on where the first ends. -/
def splice : List (List Char) → List (List Char) → List (List Char)
  | [], more => more
  | [last], more => more.modifyHead (last ++ ·)
  | field :: next :: fields, more => field :: splice (next :: fields) more

theorem splice_concat (before : List (List Char)) (last first : List Char)
    (more : List (List Char)) :
    splice (before ++ [last]) (first :: more) = before ++ (last ++ first) :: more := by
  induction before with
  | nil => rfl
  | cons field before ih =>
      cases before with
      | nil => rfl
      | cons next before => exact congrArg (field :: ·) ih

theorem splice_cons {fields : List (List Char)} (h : fields ≠ []) (field : List Char)
    (more : List (List Char)) : splice (field :: fields) more = field :: splice fields more := by
  cases fields with
  | nil => exact absurd rfl h
  | cons next fields => rfl

theorem splice_modifyHead {fields : List (List Char)} (h : fields ≠ []) (c : Char)
    (more : List (List Char)) :
    splice (fields.modifyHead (c :: ·)) more = (splice fields more).modifyHead (c :: ·) := by
  cases fields with
  | nil => exact absurd rfl h
  | cons field fields =>
      cases fields with
      | nil =>
          rw [List.modifyHead_cons, splice, splice, List.modifyHead_modifyHead]
          rfl
      | cons next fields => rfl

/-- The cut may lie anywhere but between two quotes, which may be one that is doubled. -/
theorem fieldsFrom_append (quoted : Bool) (cs ds : List Char)
    (h : cs.getLast? ≠ some '"' ∨ ds.head? ≠ some '"') :
    fieldsFrom quoted (cs ++ ds)
      = splice (fieldsFrom quoted cs) (fieldsFrom (quotedAfter quoted cs) ds) := by
  have hlater : ∀ {c : Char} {cs : List Char},
      ((c :: cs).getLast? ≠ some '"' ∨ ds.head? ≠ some '"') →
        cs.getLast? ≠ some '"' ∨ ds.head? ≠ some '"' := by
    intro c cs hcut
    refine hcut.imp_left (mt fun hlast => ?_)
    rw [List.getLast?_cons, hlast]
    rfl
  fun_induction fieldsFrom quoted cs with
  | case1 quoted => exact (congrFun List.modifyHead_id _).symm
  | case2 cs ih =>
      rw [List.cons_append, List.cons_append, fieldsFrom, ih (hlater (hlater h)),
        splice_modifyHead (fieldsFrom_ne_nil _ _), quotedAfter_quote, quotedAfter_quote,
        Bool.not_not]
  | case3 cs hclosed ih =>
      -- the quote closes the field: neither in the text nor behind it does another follow
      have hnext : (cs ++ ds).head? ≠ some '"' := by
        cases cs with
        | nil => exact h.resolve_left (not_not.mpr rfl)
        | cons c cs =>
            rintro hc
            obtain rfl := Option.some.inj hc
            exact hclosed cs rfl rfl
      rw [List.cons_append, fieldsFrom_close hnext, ih (hlater h), quotedAfter_quote, Bool.not_true]
  | case4 c cs hdouble hc ih =>
      rw [List.cons_append, fieldsFrom, if_neg hc, ih (hlater h),
        splice_modifyHead (fieldsFrom_ne_nil _ _), quotedAfter_cons hc]
      exact fun _ hquote _ => hc hquote
  | case5 cs ih =>
      rw [List.cons_append, fieldsFrom, if_pos rfl, ih (hlater h), quotedAfter_quote,
        Bool.not_false]
  | case6 cs _ ih =>
      rw [List.cons_append, fieldsFrom, if_neg (by decide), if_pos rfl, ih (hlater h),
        splice_cons (fieldsFrom_ne_nil _ _), quotedAfter_cons (by decide)]
  | case7 c cs hquote hcomma ih =>
      rw [List.cons_append, fieldsFrom, if_neg hquote, if_neg hcomma, ih (hlater h),
        splice_modifyHead (fieldsFrom_ne_nil _ _), quotedAfter_cons hquote]

/-! ## Commas that part fields -/

def separatorsFrom (quoted : Bool) (cs : List Char) : List Nat :=
  (List.range cs.length).filter fun i => cs[i]? = some ',' ∧ quotedAfter quoted (cs.take i) = false

theorem length_separatorsFrom_cons (quoted : Bool) (c : Char) (cs : List Char) :
    (separatorsFrom quoted (c :: cs)).length
      = (separatorsFrom (quoted ^^ c == '"') cs).length
        + if c = ',' ∧ quoted = false then 1 else 0 := by
  have hrest : ((List.range cs.length).map Nat.succ).filter (fun i =>
        (c :: cs)[i]? = some ',' ∧ quotedAfter quoted ((c :: cs).take i) = false)
      = (separatorsFrom (quoted ^^ c == '"') cs).map Nat.succ :=
    List.filter_map
  rw [separatorsFrom, List.length_cons, List.range_succ_eq_map, List.filter_cons, hrest]
  by_cases h : c = ',' ∧ quoted = false <;> simp [quotedAfter, h]

theorem length_fieldsFrom (quoted : Bool) (cs : List Char) :
    (fieldsFrom quoted cs).length = (separatorsFrom quoted cs).length + 1 := by
  fun_induction fieldsFrom quoted cs with
  | case1 quoted => rfl
  | case2 cs ih => simpa [length_separatorsFrom_cons] using ih
  | case3 cs _ ih => simpa [length_separatorsFrom_cons] using ih
  | case4 c cs _ hc ih => simpa [length_separatorsFrom_cons, beq_eq_false_iff_ne.mpr hc] using ih
  | case5 cs ih => simpa [length_separatorsFrom_cons] using ih
  | case6 cs _ ih => simpa [length_separatorsFrom_cons] using ih
  | case7 c cs hquote hcomma ih =>
      simpa [length_separatorsFrom_cons, beq_eq_false_iff_ne.mpr hquote, hcomma] using ih

/-! ## Quotes that are never closed -/

/-- A quote that opens behind the first characters is never closed, and what it holds is the
text. -/
structure Unclosed (quoted : Bool) (cs opened text : List Char) : Prop where
  eq_append : cs = opened ++ '"' :: doubleQuotes text
  outside : quotedAfter quoted opened = false
  opens : opened.getLast? ≠ some '"'

theorem Unclosed.quote {cs opened text : List Char} {quoted : Bool}
    (h : Unclosed (!quoted) cs opened text) (hne : opened ≠ []) :
    Unclosed quoted ('"' :: cs) ('"' :: opened) text where
  eq_append := congrArg ('"' :: ·) h.eq_append
  outside := by rw [quotedAfter_quote, h.outside]
  opens := by
    cases opened with
    | nil => exact absurd rfl hne
    | cons c opened => exact h.opens

theorem Unclosed.cons {c : Char} (hc : c ≠ '"') {cs opened text : List Char} {quoted : Bool}
    (h : Unclosed quoted cs opened text) : Unclosed quoted (c :: cs) (c :: opened) text where
  eq_append := congrArg (c :: ·) h.eq_append
  outside := by rw [quotedAfter_cons hc, h.outside]
  opens := by
    cases opened with
    | nil => simpa using hc
    | cons d opened => exact h.opens

theorem Unclosed.ne_nil {cs opened text : List Char} (h : Unclosed true cs opened text) :
    opened ≠ [] := by
  rintro rfl
  cases h.outside

/-- Where the end stands inside quotes, all is inside them, or there is a quote that opened. -/
theorem unclosed_of_quotedAfter {quoted : Bool} {cs : List Char}
    (h : quotedAfter quoted cs = true) :
    (quoted = true ∧ ∃ text, cs = doubleQuotes text)
      ∨ ∃ opened text, Unclosed quoted cs opened text := by
  fun_induction fieldsFrom quoted cs with
  | case1 quoted => exact Or.inl ⟨h, [], rfl⟩
  | case2 cs ih =>
      rw [quotedAfter_quote, quotedAfter_quote] at h
      rcases ih h with ⟨-, text, rfl⟩ | ⟨opened, text, hopens⟩
      · exact Or.inl ⟨rfl, '"' :: text, rfl⟩
      · exact Or.inr ⟨_, _, Unclosed.quote (.quote hopens hopens.ne_nil) (List.cons_ne_nil _ _)⟩
  | case3 cs hclosed ih =>
      rw [quotedAfter_quote] at h
      rcases ih h with ⟨hquoted, -⟩ | ⟨opened, text, hopens⟩
      · cases hquoted
      · refine Or.inr ⟨_, _, .quote hopens ?_⟩
        rintro rfl
        exact hclosed _ rfl hopens.eq_append
  | case4 c cs _ hc ih =>
      rw [quotedAfter_cons hc] at h
      rcases ih h with ⟨-, text, rfl⟩ | ⟨opened, text, hopens⟩
      · exact Or.inl ⟨rfl, c :: text, by rw [doubleQuotes, if_neg hc]⟩
      · exact Or.inr ⟨_, _, hopens.cons hc⟩
  | case5 cs ih =>
      rw [quotedAfter_quote] at h
      rcases ih h with ⟨-, text, rfl⟩ | ⟨opened, text, hopens⟩
      · exact Or.inr ⟨[], text, rfl, rfl, by simp⟩
      · exact Or.inr ⟨_, _, .quote hopens hopens.ne_nil⟩
  | case6 cs _ ih =>
      rcases ih h with ⟨hquoted, -⟩ | ⟨opened, text, hopens⟩
      · cases hquoted
      · exact Or.inr ⟨_, _, hopens.cons (by decide)⟩
  | case7 c cs hquote _ ih =>
      rw [quotedAfter_cons hquote] at h
      rcases ih h with ⟨hquoted, -⟩ | ⟨opened, text, hopens⟩
      · cases hquoted
      · exact Or.inr ⟨_, _, hopens.cons hquote⟩

theorem Unclosed.quotedAfter_eq {cs opened text : List Char} {quoted : Bool}
    (h : Unclosed quoted cs opened text) : quotedAfter quoted cs = true := by
  rw [h.eq_append, quotedAfter_append, h.outside, quotedAfter_quote, quotedAfter_doubleQuotes,
    Bool.not_false]

theorem fieldsFrom_of_unclosed (text : List Char) :
    fieldsFrom true (doubleQuotes text) = [text] := by
  induction text with
  | nil => rfl
  | cons c text ih =>
      rw [doubleQuotes]
      split
      · next hc => rw [fieldsFrom, ih, hc, List.modifyHead_cons]
      · next hc =>
        rw [fieldsFrom, if_neg hc, ih, List.modifyHead_cons]
        exact fun _ hquote _ => hc hquote

/-- What an unclosed quote holds belongs to the field that it opens in, which is the last. -/
theorem Unclosed.fieldsFrom_eq {cs opened text : List Char} {quoted : Bool}
    (h : Unclosed quoted cs opened text) :
    fieldsFrom quoted cs = splice (fieldsFrom quoted opened) [text] := by
  rw [h.eq_append, fieldsFrom_append quoted opened _ (Or.inl h.opens), h.outside, fieldsFrom,
    if_pos rfl, fieldsFrom_of_unclosed]

/-! ## Lines -/

def quotes (line : String) : Nat := line.toList.count '"'

/-- The places of the commas with an even number of quotes in front of them. -/
def separators (line : String) : List Nat :=
  (List.range line.toList.length).filter fun i =>
    line.toList[i]? = some ',' ∧ Even ((line.toList.take i).count '"')

/-- Behind the first part of the line comes a quote that opens and is never closed: it is not the
second of a pair, and all that follows is the text, with its quotes doubled. -/
structure NeverClosed (line opened text : String) : Prop where
  line_eq : line = opened ++ "\"" ++ String.ofList (doubleQuotes text.toList)
  even_quotes : Even (quotes opened)
  opens : opened.toList.getLast? ≠ some '"'

variable {line opened text : String}

theorem even_quotes_iff : Even (quotes line) ↔ quotedAfter false line.toList = false :=
  (quotedAfter_iff false line.toList).symm

theorem length_fields (line : String) : (fields line).length = (separators line).length + 1 := by
  have hsame : separators line = separatorsFrom false line.toList :=
    List.filter_congr fun i _ => by rw [decide_eq_decide, quotedAfter_iff]
  rw [fields, List.length_map, length_fieldsFrom, hsame]

theorem exists_last (line : String) :
    ∃ before last, fieldsFrom false line.toList = before ++ [last]
      ∧ fields line = before.map String.ofList ++ [String.ofList last] := by
  obtain ⟨before, last, hfields⟩ :=
    (List.eq_nil_or_concat' _).resolve_left (fieldsFrom_ne_nil false line.toList)
  refine ⟨before, last, hfields, ?_⟩
  rw [fields, hfields, List.map_append, List.map_singleton]

theorem fieldsFrom_comma (line rest : String) :
    fieldsFrom false (line ++ "," ++ rest).toList
      = splice (fieldsFrom false line.toList)
          (fieldsFrom (quotedAfter false line.toList) (',' :: rest.toList)) := by
  have htext : (line ++ "," ++ rest).toList = line.toList ++ ',' :: rest.toList := by simp
  rw [htext]
  exact fieldsFrom_append false line.toList _ (Or.inr (by simp))

theorem fields_comma_of_even (h : Even (quotes line)) (rest : String) :
    fields (line ++ "," ++ rest) = fields line ++ fields rest := by
  obtain ⟨before, last, hchars, hline⟩ := exists_last line
  rw [hline, fields, fieldsFrom_comma, even_quotes_iff.mp h, hchars, fieldsFrom, if_neg (by decide),
    if_pos rfl, splice_concat, List.map_append, List.map_cons, List.append_nil, fields,
    List.append_assoc, List.singleton_append]

/-- A comma inside quotes is text. -/
theorem fields_comma_of_odd (h : ¬Even (quotes line)) (rest : String) :
    ∃ before last first more, fields line = before ++ [last] ∧ fields ("\"" ++ rest) = first :: more
      ∧ fields (line ++ "," ++ rest) = before ++ [last ++ "," ++ first] ++ more := by
  obtain ⟨before, last, hchars, hline⟩ := exists_last line
  obtain ⟨first, more, hrest⟩ := List.exists_cons_of_ne_nil (fieldsFrom_ne_nil true rest.toList)
  have hquoted : quotedAfter false line.toList = true :=
    Bool.eq_true_of_not_eq_false (mt even_quotes_iff.mpr h)
  refine ⟨_, _, String.ofList first, more.map String.ofList, hline, ?_, ?_⟩
  · have htext : ("\"" ++ rest).toList = '"' :: rest.toList := by simp
    rw [fields, htext, fieldsFrom, if_pos rfl, hrest, List.map_cons]
  · rw [fields, fieldsFrom_comma, hquoted, hchars, fieldsFrom, if_neg (by decide), hrest,
      List.modifyHead_cons, splice_concat, List.map_append, List.map_cons, List.append_assoc,
      List.singleton_append]
    · simp [String.ofList_append, String.append_assoc]
    · exact fun _ hquote _ => absurd hquote (by decide)

theorem neverClosed_iff :
    NeverClosed line opened text ↔ Unclosed false line.toList opened.toList text.toList := by
  have htext : (opened ++ "\"" ++ String.ofList (doubleQuotes text.toList)).toList
      = opened.toList ++ '"' :: doubleQuotes text.toList := by simp
  constructor
  · rintro ⟨rfl, heven, hopens⟩
    exact ⟨htext, even_quotes_iff.mp heven, hopens⟩
  · rintro ⟨hline, houtside, hopens⟩
    exact ⟨String.toList_injective (hline.trans htext.symm), even_quotes_iff.mpr houtside, hopens⟩

theorem exists_neverClosed (h : ¬Even (quotes line)) :
    ∃ opened text, NeverClosed line opened text := by
  have hquoted : quotedAfter false line.toList = true :=
    Bool.eq_true_of_not_eq_false (mt even_quotes_iff.mpr h)
  rcases unclosed_of_quotedAfter hquoted with ⟨hfalse, -⟩ | ⟨opened, text, hopens⟩
  · cases hfalse
  · refine ⟨String.ofList opened, String.ofList text, neverClosed_iff.mpr ?_⟩
    rwa [String.toList_ofList, String.toList_ofList]

theorem NeverClosed.exists_fields (h : NeverClosed line opened text) :
    ∃ before last, fields opened = before ++ [last] ∧ fields line = before ++ [last ++ text] := by
  obtain ⟨before, last, hchars, hopened⟩ := exists_last opened
  refine ⟨_, _, hopened, ?_⟩
  rw [fields, (neverClosed_iff.mp h).fieldsFrom_eq, hchars, splice_concat, List.map_append]
  simp [String.ofList_append]

/-- The fields of a line with a comma in it, by what stands in front of the comma and behind it.
Where the number of quotes in front is even, the fields are those of both sides. Where it is odd,
the comma is text, and the right side goes on as if it began with a quote. So there is one field
more than there are commas with an even number of quotes in front. A line with an odd number of
quotes has one that opens and is never closed: all that stands behind it is text of the last field,
with doubled quotes read as one, and the fields in front of it are those of what stands there. -/
theorem fields_by_parity (line rest : String) :
    (Even (quotes line) → fields (line ++ "," ++ rest) = fields line ++ fields rest)
      ∧ (¬Even (quotes line) → ∃ before last first more,
          fields line = before ++ [last] ∧ fields ("\"" ++ rest) = first :: more
            ∧ fields (line ++ "," ++ rest) = before ++ [last ++ "," ++ first] ++ more)
      ∧ (fields line).length = (separators line).length + 1
      ∧ (¬Even (quotes line) ↔ ∃ opened text, NeverClosed line opened text)
      ∧ ∀ opened text, NeverClosed line opened text → ∃ before last,
          fields opened = before ++ [last] ∧ fields line = before ++ [last ++ text] := by
  refine ⟨fun h => fields_comma_of_even h rest, fun h => fields_comma_of_odd h rest,
    length_fields line, ⟨exists_neverClosed, ?_⟩, fun _ _ h => h.exists_fields⟩
  rintro ⟨opened, text, h⟩ heven
  have hquoted := (neverClosed_iff.mp h).quotedAfter_eq
  rw [even_quotes_iff.mp heven] at hquoted
  cases hquoted

/-- A comma behind a field with a stray pair of quotes, and one inside quotes that opened in the
middle of a field. -/
theorem fields_by_parity_stray :
    Even (quotes "a\"b,\"") ∧ fields "a\"b,\",c\"d" = ["ab,", "cd"]
      ∧ ¬Even (quotes "a,b\"c") ∧ fields "a,b\"c,d\"\"e\",f" = ["a", "bc,d\"e", "f"] := by
  have heven : Even (quotes "a\"b,\"") := by decide +kernel
  have hodd : ¬Even (quotes "a,b\"c") := by decide +kernel
  refine ⟨heven, ?_, hodd, ?_⟩
  · have hline : "a\"b,\"" ++ "," ++ "c\"d" = "a\"b,\",c\"d" := by decide +kernel
    rw [← hline, (fields_by_parity "a\"b,\"" "c\"d").1 heven]
    decide +kernel
  · have hline : "a,b\"c" ++ "," ++ "d\"\"e\",f" = "a,b\"c,d\"\"e\",f" := by decide +kernel
    have hleft : fields "a,b\"c" = ["a"] ++ ["bc"] := by decide +kernel
    have hright : fields ("\"" ++ "d\"\"e\",f") = ["d\"e", "f"] := by decide +kernel
    obtain ⟨before, last, first, more, hbefore, hfirst, hboth⟩ :=
      (fields_by_parity "a,b\"c" "d\"\"e\",f").2.1 hodd
    obtain ⟨rfl, hlast⟩ := List.append_inj' (hleft.symm.trans hbefore) rfl
    obtain rfl := (List.cons.inj hlast).1
    obtain ⟨rfl, rfl⟩ := List.cons.inj (hright.symm.trans hfirst)
    rw [← hline, hboth]
    decide +kernel

end LogicCapture.Csv
