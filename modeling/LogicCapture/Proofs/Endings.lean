import Mathlib
import LogicCapture.Proofs.Marks

/-!
# Line endings and blank lines

What is read of a record depends on its cells without the white space around them only: the names
of columns, the values of roles and the arguments are all trimmed before they are used
(`readRecord_trimmed`). A carriage return in front of a line feed goes to the last field of its
line, quoted or not, and whatever the octets before it leave unfinished (`fieldsFrom_return`). So
carriage returns in front of all line feeds, blank lines between any two lines and a line feed at
the end are only other spellings of an export, and all of them are read alike (`respelled_alike`).
-/

namespace LogicCapture

/-! ## Carriage returns in lines -/

namespace Text

theorem trimBy_concat {p : Char → Bool} {c : Char} (hc : p c = true) (cs : List Char) :
    trimBy p (cs ++ [c]) = trimBy p cs := by
  rw [← trimBy_rdropWhile p (cs ++ [c]), List.rdropWhile_concat_pos p cs c hc, trimBy_rdropWhile]

theorem toList_decode_return (line : List UInt8) :
    (Encoding.utf8.decode (line ++ [0x0D])).toList
      = (Encoding.utf8.decode line).toList ++ ['\r'] := by
  rw [Encoding.decode, Encoding.decode, String.toList_ofList, String.toList_ofList, Encoding.scan,
    Encoding.scan, Utf8.scan_of_lt (by decide), List.map_append]
  rfl

/-- The same, or with one more of these behind it. -/
def Extended {α : Type} (last : α) (xs ys : List α) : Prop :=
  ys = xs ∨ ys = xs ++ [last]

theorem Extended.cons {α : Type} {last : α} {xs ys : List α} (h : Extended last xs ys) (x : α) :
    Extended last (x :: xs) (x :: ys) := by
  rcases h with rfl | rfl
  · exact Or.inl rfl
  · exact Or.inr rfl

def withReturns (bytes : List UInt8) : List UInt8 :=
  bytes.flatMap fun b => if b = newline then [0x0D, newline] else [b]

theorem withReturns_of_not_mem {bytes : List UInt8} (h : newline ∉ bytes) :
    withReturns bytes = bytes := by
  induction bytes with
  | nil => rfl
  | cons b bytes ih =>
      obtain ⟨hb, hbytes⟩ := not_or.mp fun hmem => h (List.mem_cons.mpr hmem)
      have hrest := ih hbytes
      rw [withReturns] at hrest ⊢
      rw [List.flatMap_cons, if_neg (Ne.symm hb), hrest, List.singleton_append]

theorem withReturns_line {line : List UInt8} (h : newline ∉ line) (rest : List UInt8) :
    withReturns (line ++ newline :: rest) = (line ++ [0x0D]) ++ newline :: withReturns rest := by
  have hline := withReturns_of_not_mem h
  rw [withReturns] at hline ⊢
  rw [List.flatMap_append, hline, List.flatMap_cons, if_pos rfl, withReturns]
  simp

/-- Each line stays as it is or gets a carriage return behind it. -/
theorem allLines_withReturns (bytes : List UInt8) :
    List.Forall₂ (Extended 0x0D) (allLines bytes) (allLines (withReturns bytes)) := by
  induction bytes using induction_on_lines with
  | hopen bytes h =>
      rw [withReturns_of_not_mem h]
      exact List.forall₂_same.mpr fun line _ => Or.inl rfl
  | hline line rest h ih =>
      have hreturn : newline ∉ line ++ [0x0D] := List.not_mem_append h (by decide)
      rw [withReturns_line h, allLines_line h, allLines_line hreturn]
      exact List.Forall₂.cons (Or.inr rfl) ih

end Text

namespace Csv

open Text (allLines joinLines openLine completeLines newline withReturns Encoding)

/-! ## Cells without white space -/

def trimmed (cells : List String) : List String :=
  cells.map Text.trim

theorem ofFields_trimmed (cells : List String) :
    Schema.ofFields (trimmed cells) = Schema.ofFields cells := by
  cases cells with
  | nil => rfl
  | cons first rest =>
      refine ofFields_congr ?_
      simp [Schema.columnNames, Text.trim_trim, Function.comp_def]

section Row

variable (schema : Schema) (row : List String)

theorem trim_getD_trimmed (index : Nat) :
    Text.trim ((trimmed row)[index]?.getD "") = Text.trim (row[index]?.getD "") := by
  rw [trimmed, List.getElem?_map]
  cases row[index]? with
  | none => rfl
  | some cell => exact Text.trim_trim cell

theorem value_trimmed (role : Role) : schema.value (trimmed row) role = schema.value row role := by
  unfold Schema.value
  split
  · exact trim_getD_trimmed row _
  · rfl

theorem ofRow_trimmed (config : Config) :
    Event.ofRow config schema (trimmed row) = Event.ofRow config schema row :=
  Event.ofRow_congr config fun role => value_trimmed schema row role

theorem pad_trimmed : schema.pad (trimmed row) = trimmed (schema.pad row) := by
  have hempty : Text.trim "" = "" := rfl
  simp only [Schema.pad, trimmed, List.map_append, List.map_replicate, List.length_map, hempty]

theorem args_pad_trimmed :
    schema.args (schema.pad (trimmed row)) = schema.args (schema.pad row) := by
  rw [args_pad, args_pad, pad_trimmed]
  simp only [Schema.arg?, trim_getD_trimmed]

theorem ofCells_trimmed (config : Config) :
    Entry.ofCells config schema (trimmed row) = Entry.ofCells config schema row := by
  unfold Entry.ofCells
  rw [args_pad_trimmed, pad_trimmed, ofRow_trimmed]

end Row

namespace Session

theorem readRecord_trimmed (s : Session) (cells : List String) :
    s.readRecord (trimmed cells) = s.readRecord cells := by
  unfold readRecord
  split
  · rw [ofFields_trimmed]
  · next schema _ => exact ofCells_trimmed schema cells s.config

/-- Records whose cells differ in the white space around them only are read alike. -/
theorem readRecords_congr (s : Session) {rows rows' : List (List String)}
    (h : rows.map trimmed = rows'.map trimmed) : s.readRecords rows = s.readRecords rows' := by
  induction rows generalizing s rows' with
  | nil =>
      rw [List.map_eq_nil_iff.mp h.symm]
  | cons cells rows ih =>
      obtain ⟨cells', rows', rfl, hcells, hrows⟩ := List.map_eq_cons_iff.mp h.symm
      have hsame : s.readRecord cells = s.readRecord cells' := by
        rw [← readRecord_trimmed, ← hcells, readRecord_trimmed]
      rw [readRecords, readRecords, hsame]
      split
      · next entry _ => exact ih (s.add entry) hrows.symm
      · rfl

end Session

/-! ## Returns at the end of a line -/

theorem forall₂_modifyHead {c d : Char} {fs gs : List (List Char)}
    (h : List.Forall₂ (Text.Extended d) fs gs) :
    List.Forall₂ (Text.Extended d) (fs.modifyHead (c :: ·)) (gs.modifyHead (c :: ·)) := by
  cases h with
  | nil => exact List.Forall₂.nil
  | cons hhead htail => exact List.Forall₂.cons (hhead.cons c) htail

/-- Each field stays as it is or gets the carriage return behind it. -/
theorem fieldsFrom_return (quoted : Bool) (cs : List Char) :
    List.Forall₂ (Text.Extended '\r') (fieldsFrom quoted cs)
      (fieldsFrom quoted (cs ++ ['\r'])) := by
  fun_induction fieldsFrom quoted cs with
  | case1 quoted =>
      have hreturn : fieldsFrom quoted ['\r'] = [['\r']] := by cases quoted <;> rfl
      rw [List.nil_append, hreturn]
      exact List.Forall₂.cons (Or.inr rfl) List.Forall₂.nil
  | case2 cs ih =>
      rw [List.cons_append, List.cons_append, fieldsFrom]
      exact forall₂_modifyHead ih
  | case3 cs hquote ih =>
      -- no second quote comes with the carriage return
      have hreturn : ∀ ds, '"' = '"' → cs ++ ['\r'] = '"' :: ds → False := by
        intro ds _ heq
        cases cs with
        | nil => exact absurd (List.cons.inj heq).1 (by decide)
        | cons c cs => exact hquote cs rfl (by rw [(List.cons.inj heq).1])
      rw [List.cons_append, fieldsFrom, if_pos rfl]
      · exact ih
      · exact hreturn
  | case4 c cs _ hc ih =>
      rw [List.cons_append, fieldsFrom, if_neg hc]
      · exact forall₂_modifyHead ih
      · exact fun _ hquote _ => hc hquote
  | case5 cs ih =>
      rw [List.cons_append, fieldsFrom, if_pos rfl]
      exact ih
  | case6 cs _ ih =>
      rw [List.cons_append, fieldsFrom, if_neg (by decide), if_pos rfl]
      exact List.Forall₂.cons (Or.inl rfl) ih
  | case7 c cs hc hcomma ih =>
      rw [List.cons_append, fieldsFrom, if_neg hc, if_neg hcomma]
      exact forall₂_modifyHead ih

/-- So the cells of a line with one more carriage return are the same when they are trimmed. -/
theorem trimmed_fields_return (cs : List Char) :
    trimmed (fields (String.ofList (cs ++ ['\r']))) = trimmed (fields (String.ofList cs)) := by
  rw [trimmed, trimmed, fields, fields, String.toList_ofList, String.toList_ofList, List.map_map,
    List.map_map]
  refine Eq.symm ?_
  rw [← List.forall₂_eq_eq_eq, List.forall₂_map_left_iff, List.forall₂_map_right_iff]
  refine (fieldsFrom_return false cs).imp ?_
  rintro f g (rfl | rfl)
  · rfl
  · simp only [Function.comp_apply, Text.trim, String.toList_ofList]
    rw [Text.trimBy_concat (by decide)]

theorem trimmed_fields_stripReturn (line : String) :
    trimmed (fields (Session.stripReturn line)) = trimmed (fields line) := by
  rcases Session.stripReturn_cases line with ⟨cs, hcs, hstrip⟩ | ⟨-, hstrip⟩
  · rw [hstrip, ← trimmed_fields_return, ← hcs, String.ofList_toList]
  · rw [hstrip]

/-- The records that lines amount to, their cells trimmed. -/
def content (lines : List String) : List (List String) :=
  (lines.filter fun line => !Text.isBlank line).map fun line => trimmed (fields line)

theorem content_append (lines lines' : List String) :
    content (lines ++ lines') = content lines ++ content lines' := by
  simp only [content, List.filter_append, List.map_append]

theorem content_cons (line : String) (lines : List String) :
    content (line :: lines) = content [line] ++ content lines :=
  content_append [line] lines

theorem content_eq_nil {lines : List String} (h : ∀ line ∈ lines, Text.isBlank line = true) :
    content lines = [] := by
  rw [content, List.filter_eq_nil_iff.mpr fun line hline => by simp [h line hline], List.map_nil]

theorem content_stripReturn (line : String) :
    content [Session.stripReturn line] = content [line] := by
  simp only [content, List.filter_cons, Session.isBlank_stripReturn, List.filter_nil]
  split
  · rw [List.map_singleton, List.map_singleton, trimmed_fields_stripReturn]
  · rfl

theorem content_map_stripReturn (lines : List String) :
    content (lines.map Session.stripReturn) = content lines := by
  induction lines with
  | nil => rfl
  | cons line lines ih => rw [List.map_cons, content_cons, content_stripReturn, ih, ← content_cons]

theorem trimmed_records (lines : List String) : (records lines).map trimmed = content lines := by
  rw [← content_map_stripReturn, records, content, List.map_map]
  rfl

theorem Session.readAll_congr (s : Session) {lines lines' : List String}
    (h : content lines = content lines') : s.readAll lines = s.readAll lines' := by
  rw [readAll_eq, readAll_eq]
  refine readRecords_congr s ?_
  rw [trimmed_records, trimmed_records, h]

/-! ## Spellings of an export -/

def contentOf (bytes : List UInt8) : List (List String) :=
  content ((allLines bytes).map Encoding.utf8.decode)

/-- Octets that spell an export in another way: with a carriage return in front of every line feed;
with blank lines in front of all lines, between two lines or behind the last one, of which only
those at the very end may do without a line feed; or with one more line feed at the end. -/
inductive Respelling : List UInt8 → List UInt8 → Prop where
  | returns (bytes : List UInt8) : Respelling bytes (withReturns bytes)
  | blanks {first : List UInt8} (hfirst : openLine first = []) (rest : List UInt8)
      {blanks : List (List UInt8)} (hblanks : ∀ line ∈ blanks, line ⊆ Text.blankOctets) :
      Respelling (first ++ rest) (first ++ (joinLines blanks ++ rest))
  | lastBlank {first : List UInt8} (hfirst : openLine first = []) {blank : List UInt8}
      (hblank : blank ⊆ Text.blankOctets) : Respelling first (first ++ blank)
  | feed (bytes : List UInt8) : Respelling bytes (bytes ++ [newline])

theorem content_blanks {blanks : List (List UInt8)}
    (h : ∀ line ∈ blanks, line ⊆ Text.blankOctets) :
    content (blanks.map Encoding.utf8.decode) = [] :=
  content_eq_nil (List.forall_mem_map.mpr fun line hline => Text.isBlank_decode (h line hline))

theorem content_extended {lines lines' : List (List UInt8)}
    (h : List.Forall₂ (Text.Extended 0x0D) lines lines') :
    content (lines'.map Encoding.utf8.decode) = content (lines.map Encoding.utf8.decode) := by
  induction h with
  | nil => rfl
  | @cons line line' lines lines' hline _ ih =>
      rw [List.map_cons, List.map_cons, content_cons, ih, content_cons (Encoding.utf8.decode line)]
      rcases hline with rfl | rfl
      · rfl
      · rw [← content_stripReturn,
          Session.stripReturn_of_return (Text.toList_decode_return line), String.ofList_toList]

theorem contentOf_blank {blank : List UInt8} (h : blank ⊆ Text.blankOctets) :
    contentOf blank = [] := by
  rw [contentOf, Text.allLines_of_not_mem (Text.not_mem_of_blank h)]
  split
  · rfl
  · exact content_blanks (List.forall_mem_singleton.mpr h)

theorem contentOf_append {first : List UInt8} (hfirst : openLine first = []) (rest : List UInt8) :
    contentOf (first ++ rest)
      = content ((completeLines first).map Encoding.utf8.decode) ++ contentOf rest := by
  rw [contentOf, Text.allLines_append, hfirst, List.nil_append, List.map_append, content_append,
    contentOf]

theorem contentOf_feed (bytes : List UInt8) : contentOf (bytes ++ [newline]) = contentOf bytes := by
  have hnone : allLines [] = [] := rfl
  rw [contentOf, contentOf, Text.allLines_append,
    Text.allLines_line (Text.not_mem_openLine bytes) [], hnone, allLines]
  split
  · next hopen =>
    have hnothing : content ([[]].map Encoding.utf8.decode) = [] :=
      content_blanks (List.forall_mem_singleton.mpr (List.nil_subset _))
    rw [hopen, List.map_append, content_append, hnothing, List.append_nil]
  · rfl

theorem Respelling.contentOf_eq {bytes bytes' : List UInt8} (h : Respelling bytes bytes') :
    contentOf bytes' = contentOf bytes := by
  cases h with
  | returns bytes => exact content_extended (Text.allLines_withReturns bytes)
  | @blanks first hfirst rest blanks hblanks =>
      have hnewline : ∀ line ∈ blanks, newline ∉ line := fun line hline =>
        Text.not_mem_of_blank (hblanks line hline)
      have hrest : contentOf (joinLines blanks ++ rest) = contentOf rest := by
        rw [contentOf, Text.allLines_joinLines hnewline, List.map_append, content_append,
          content_blanks hblanks, List.nil_append, contentOf]
      rw [contentOf_append hfirst, contentOf_append hfirst, hrest]
  | @lastBlank first hfirst blank hblank =>
      have hnothing := contentOf_append hfirst []
      rw [List.append_nil, contentOf_blank (List.nil_subset _)] at hnothing
      rw [contentOf_append hfirst, contentOf_blank hblank, hnothing]
  | feed bytes => exact contentOf_feed bytes

namespace Reader

/-- Exports that are spelled in different ways, the pieces they come in included, end in the same
way: with the same failure if there is one, and with the same tables, columns, counts and
transactions under way. -/
theorem respelled_alike {config : Config} {bus : Bus.Config} {store : Trace.Store} {start : Reader}
    (hstart : create config bus store = .ok start) (hutf8 : start.lines.codec = .utf8)
    {pieces others : List (List UInt8)}
    (h : Relation.EqvGen Respelling pieces.flatten others.flatten) :
    outcome ((do others.forM push; finish : EStateM Failure Reader Unit) start)
      = outcome ((do pieces.forM push; finish : EStateM Failure Reader Unit) start) := by
  have hcontent : contentOf others.flatten = contentOf pieces.flatten := by
    generalize pieces.flatten = bytes at h
    generalize others.flatten = bytes' at h
    induction h with
    | rel _ _ hrel => exact hrel.contentOf_eq
    | refl _ => rfl
    | symm _ _ _ ih => exact ih.symm
    | trans _ _ _ _ _ ih₁ ih₂ => exact ih₂.trans ih₁
  rw [Import.outcome_of_create_utf8 hstart hutf8, Import.outcome_of_create_utf8 hstart hutf8]
  exact Session.readAll_congr start.session hcontent

/-- An export with a quote that is never closed. -/
def openQuote : List UInt8 :=
  Import.plainOctets "name,type,start_time,duration,note\nA,b,1,0,\"c, d\nB,b,2,0,e\n"

/-- With carriage returns and two blank lines in front it is read as it is. -/
theorem respelled_alike_openQuote :
    outcome ((do [joinLines [[0x20, 0x09], []] ++ withReturns openQuote].forM push; finish :
        EStateM Failure Reader Unit) {})
      = outcome ((do [openQuote].forM push; finish : EStateM Failure Reader Unit) {})
      ∧ (outcome ((do [openQuote].forM push; finish :
        EStateM Failure Reader Unit) {})).2.rows = 2 := by
  have hcreate : create {} {} {} = .ok {} := rfl
  have hblanks : ∀ line ∈ [[0x20, 0x09], []], line ⊆ Text.blankOctets := by
    simp [Text.blankOctets]
  have hlead : ∀ bytes, Respelling bytes (joinLines [[0x20, 0x09], []] ++ bytes) :=
    fun bytes => @Respelling.blanks [] rfl bytes _ hblanks
  have hspelled : Relation.EqvGen Respelling [openQuote].flatten
      [joinLines [[0x20, 0x09], []] ++ withReturns openQuote].flatten := by
    rw [List.flatten_singleton, List.flatten_singleton]
    exact (Relation.EqvGen.rel _ _ (Respelling.returns openQuote)).trans _ _ _
      (Relation.EqvGen.rel _ _ (hlead _))
  exact ⟨respelled_alike hcreate rfl hspelled, by decide +kernel⟩

end Reader

end Csv

end LogicCapture
