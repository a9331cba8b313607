import Mathlib
import LogicCapture.Detect
import LogicCapture.Proofs.Headers
import LogicCapture.Proofs.Records

/-!
# Marks and blank lines in front of an export

Which line of an export is its header is decided in two places. To tell captures apart each line is
looked at without byte order marks at its start, and the first one that is not blank then counts. A
reader asks of each line as it stands whether it is blank, and takes a mark only from the first name
of the header. Blank lines alone make no difference to either. A mark makes none where it stands
right in front of the header, unless the first name begins with a mark of its own. But where blank
lines follow a mark, the line of the mark is not blank to a reader and becomes a header without
names, though the line that was looked at is still that of the header (`mark_in_front`).
-/

namespace LogicCapture

namespace Text

def markOctets : List UInt8 := [0xEF, 0xBB, 0xBF]

/-- The octets that blank lines in front of an export are made of: spaces, tabs and carriage
returns. -/
def blankOctets : List UInt8 := [0x20, 0x09, 0x0D]

theorem not_mem_markOctets : newline ∉ markOctets := by
  decide

theorem not_mem_of_blank {line : List UInt8} (h : line ⊆ blankOctets) : newline ∉ line :=
  fun hmem => absurd (h hmem) (by decide)

/-! ## Characters of a line -/

theorem scan_mark (bytes : List UInt8) :
    Utf8.scan (markOctets ++ bytes) = some '\uFEFF' :: Utf8.scan bytes := rfl

/-- What is cut off a line can only turn a character into a fault. -/
theorem mem_scanFrom_of_take {c : Char} {state : Utf8.State} {bytes : List UInt8} {n : Nat}
    (h : some c ∈ Utf8.scanFrom state (bytes.take n)) : some c ∈ Utf8.scanFrom state bytes := by
  induction bytes generalizing state n with
  | nil => rwa [List.take_nil] at h
  | cons b bytes ih =>
      cases n with
      | zero =>
          rw [List.take_zero, Utf8.scanFrom] at h
          cases state <;> simp [Utf8.flush] at h
      | succ n =>
          rw [List.take_succ_cons, Utf8.scanFrom, List.mem_append] at h
          rw [Utf8.scanFrom, List.mem_append]
          exact h.imp_right ih

theorem mem_dropWhile_of_not {α : Type} {p : α → Bool} {x : α} {xs : List α} (hx : p x = false)
    (h : x ∈ xs) : x ∈ xs.dropWhile p := by
  rw [← List.takeWhile_append_dropWhile (p := p) (l := xs), List.mem_append] at h
  refine h.resolve_left fun htake => ?_
  rw [List.mem_takeWhile_imp htake] at hx
  cases hx

/-- A line is blank as it stands only if it has nothing but white space, and no fault. -/
theorem space_of_isBlank {bytes : List UInt8} (h : isBlank (Encoding.utf8.decode bytes) = true)
    {c : Char} (hc : some c ∈ Utf8.scan bytes) : isSpace c = true := by
  rw [isBlank, Encoding.decode, String.toList_ofList, List.all_map] at h
  exact List.all_eq_true.mp h (some c) hc

theorem decode_mark (bytes : List UInt8) :
    Encoding.utf8.decode (markOctets ++ bytes) = Csv.marked (Encoding.utf8.decode bytes) := by
  rw [Encoding.decode, Encoding.scan, scan_mark, List.map_cons, Csv.marked, Encoding.decode,
    String.toList_ofList]
  rfl

theorem isBlank_decode {line : List UInt8} (h : line ⊆ blankOctets) :
    isBlank (Encoding.utf8.decode line) = true := by
  induction line with
  | nil => rfl
  | cons b line ih =>
      obtain ⟨hb, hline⟩ := List.cons_subset.mp h
      have hrest := ih hline
      rw [isBlank, Encoding.decode, String.toList_ofList] at hrest ⊢
      have hscan : ∃ c, isSpace c = true ∧ Utf8.scan (b :: line) = some c :: Utf8.scan line := by
        simp only [blankOctets, List.mem_cons, List.not_mem_nil, or_false] at hb
        obtain rfl | rfl | rfl := hb
        · exact ⟨' ', by decide, rfl⟩
        · exact ⟨'\t', by decide, rfl⟩
        · exact ⟨'\r', by decide, rfl⟩
      obtain ⟨c, hc, hscan⟩ := hscan
      rw [Encoding.scan, hscan, List.map_cons, List.all_cons, Bool.and_eq_true]
      exact ⟨hc, hrest⟩

end Text

namespace Detect

open Text (allLines newline markOctets Encoding)

/-! ## The line that is looked at -/

theorem mem_scan_of_mem_lineText {c : Char} {bytes : List UInt8}
    (h : c ∈ (lineText bytes).toList) : some c ∈ Text.Utf8.scan bytes := by
  unfold lineText at h
  dsimp only at h
  rw [String.toList_ofList] at h
  have hleft := (List.dropWhile_sublist _).mem h
  have hright := (List.dropWhile_sublist _).mem (List.mem_reverse.mp hleft)
  rw [List.mem_reverse, Encoding.decodeValid, String.toList_ofList, List.mem_filterMap] at hright
  obtain ⟨_, hscan, rfl⟩ := hright
  exact hscan

theorem isBlank_lineText_take {bytes : List UInt8}
    (h : Text.isBlank (Encoding.utf8.decode bytes) = true) (n : Nat) :
    Text.isBlank (lineText (bytes.take n)) = true :=
  List.all_eq_true.mpr fun _ hc =>
    Text.space_of_isBlank h (Text.mem_scanFrom_of_take (mem_scan_of_mem_lineText hc))

/-- A comma is still there when the line is looked at. -/
theorem comma_mem_lineText {bytes : List UInt8} (h : ',' ∈ (Encoding.utf8.decode bytes).toList) :
    ',' ∈ (lineText bytes).toList := by
  rw [Encoding.decode, String.toList_ofList, List.mem_map] at h
  obtain ⟨found, hscan, hfound⟩ := h
  have hcomma : found = some ',' := by
    cases found with
    | none => exact absurd hfound (by decide)
    | some c => exact congrArg some hfound
  have hvalid : ',' ∈ (Encoding.utf8.decodeValid bytes).toList := by
    rw [Encoding.decodeValid, String.toList_ofList, List.mem_filterMap]
    exact ⟨found, hscan, hcomma⟩
  unfold lineText
  dsimp only
  rw [String.toList_ofList]
  refine Text.mem_dropWhile_of_not (by decide) (List.mem_reverse.mpr ?_)
  exact Text.mem_dropWhile_of_not (by decide) (List.mem_reverse.mpr hvalid)

theorem not_blank_lineText {bytes : List UInt8} (h : ',' ∈ (Encoding.utf8.decode bytes).toList) :
    Text.isBlank (lineText bytes) = false := by
  refine Bool.eq_false_of_not_eq_true fun hblank => ?_
  exact absurd (List.all_eq_true.mp hblank ',' (comma_mem_lineText h)) (by decide)

theorem lineText_mark (bytes : List UInt8) : lineText (markOctets ++ bytes) = lineText bytes := by
  unfold lineText
  dsimp only
  have hvalid : (Encoding.utf8.decodeValid (markOctets ++ bytes)).toList
      = '\uFEFF' :: (Encoding.utf8.decodeValid bytes).toList := by
    rw [Encoding.decodeValid, Encoding.decodeValid, String.toList_ofList, String.toList_ofList,
      Encoding.scan, Text.scan_mark, List.filterMap_cons]
    rfl
  have hright := Text.rdropWhile_cons (p := (· == '\r')) (c := '\uFEFF') (by decide)
    (Encoding.utf8.decodeValid bytes).toList
  rw [List.rdropWhile, List.rdropWhile] at hright
  rw [hvalid, hright, List.dropWhile_cons_of_pos (by decide)]

theorem firstLine?_of_not_mem {bytes : List UInt8} (h : newline ∉ bytes) :
    firstLine? bytes
      = if Text.isBlank (lineText bytes) = true then none else some (lineText bytes) := by
  rw [firstLine?, List.splitOn_eq_singleton h, List.map_singleton, List.find?_singleton]
  cases Text.isBlank (lineText bytes) <;> rfl

theorem firstLine?_line {line : List UInt8} (h : newline ∉ line) (rest : List UInt8) :
    firstLine? (line ++ newline :: rest)
      = if Text.isBlank (lineText line) = true then firstLine? rest else some (lineText line) := by
  rw [firstLine?, List.splitOn_append_cons_self_of_not_mem h, List.map_cons, List.find?_cons]
  cases Text.isBlank (lineText line) <;> rfl

/-- A mark in front makes no difference to the line that is looked at. -/
theorem firstLine?_mark (bytes : List UInt8) :
    firstLine? (markOctets ++ bytes) = firstLine? bytes := by
  have hmark := Text.not_mem_markOctets
  by_cases hmem : newline ∈ bytes
  · obtain ⟨line, rest, rfl, hline⟩ := List.eq_append_cons_of_mem hmem
    rw [← List.append_assoc, firstLine?_line (List.not_mem_append hmark hline),
      firstLine?_line hline, lineText_mark]
  · rw [firstLine?_of_not_mem (List.not_mem_append hmark hmem), firstLine?_of_not_mem hmem,
      lineText_mark]

section Header

variable {before after : List (List UInt8)} {header : List UInt8}

/-- The line that is looked at is the first one that is not blank as it stands, if a comma is in
it. -/
theorem firstLine?_of_header {bytes : List UInt8} (h : allLines bytes = before ++ header :: after)
    (hbefore : ∀ line ∈ before, Text.isBlank (Encoding.utf8.decode line) = true)
    (hcomma : ',' ∈ (Encoding.utf8.decode header).toList) :
    firstLine? bytes = some (lineText header) := by
  have hheader := not_blank_lineText hcomma
  induction before generalizing bytes with
  | nil =>
      obtain ⟨hline, ⟨rfl, -, -⟩ | ⟨rest, rfl, -⟩⟩ := Text.allLines_eq_cons h
      · rw [firstLine?_of_not_mem hline, if_neg (by simp [hheader])]
      · rw [firstLine?_line hline, if_neg (by simp [hheader])]
  | cons line before ih =>
      obtain ⟨hblank, hbefore⟩ := List.forall_mem_cons.mp hbefore
      obtain ⟨hline, ⟨-, -, hnone⟩ | ⟨rest, rfl, hrest⟩⟩ := Text.allLines_eq_cons h
      · exact absurd hnone (List.append_ne_nil_of_right_ne_nil _ (List.cons_ne_nil _ _))
      · have hlooked := isBlank_lineText_take hblank line.length
        rw [List.take_length] at hlooked
        rw [firstLine?_line hline, if_pos hlooked, ih hrest hbefore]

theorem take_line (line rest : List UInt8) (n : Nat) :
    (line ++ newline :: rest).take n = line.take n
      ∨ ∃ m, (line ++ newline :: rest).take n = line ++ newline :: rest.take m := by
  rcases Nat.lt_or_ge line.length n with hlt | hle
  · refine Or.inr ⟨n - line.length - 1, ?_⟩
    rw [List.take_append, List.take_of_length_le hlt.le]
    obtain ⟨k, hk⟩ : ∃ k, n - line.length = k + 1 := ⟨n - line.length - 1, by omega⟩
    rw [hk, List.take_succ_cons, Nat.add_sub_cancel]
  · exact Or.inl (List.take_append_of_le_length hle)

theorem firstLine?_take_of_not_mem {line : List UInt8} (h : newline ∉ line) {n : Nat}
    {text : String} (htext : firstLine? (line.take n) = some text) :
    Text.isBlank (lineText (line.take n)) = false ∧ text = lineText (line.take n) := by
  rw [firstLine?_of_not_mem fun hmem => h (List.mem_of_mem_take hmem)] at htext
  split at htext
  · cases htext
  · next hblank => exact ⟨Bool.eq_false_of_not_eq_true hblank, (Option.some.inj htext).symm⟩

/-- Of the first octets only, it is as much of that line as is among them. -/
theorem firstLine?_take_of_header {bytes : List UInt8}
    (h : allLines bytes = before ++ header :: after)
    (hbefore : ∀ line ∈ before, Text.isBlank (Encoding.utf8.decode line) = true)
    (hcomma : ',' ∈ (Encoding.utf8.decode header).toList) {n : Nat} {text : String}
    (htext : firstLine? (bytes.take n) = some text) :
    ∃ k, text = lineText (header.take k) := by
  have hheader := not_blank_lineText hcomma
  induction before generalizing bytes n with
  | nil =>
      obtain ⟨hline, ⟨rfl, -, -⟩ | ⟨rest, rfl, -⟩⟩ := Text.allLines_eq_cons h
      · exact ⟨n, (firstLine?_take_of_not_mem hline htext).2⟩
      · rcases take_line header rest n with hcut | ⟨m, hcut⟩
        · rw [hcut] at htext
          exact ⟨n, (firstLine?_take_of_not_mem hline htext).2⟩
        · rw [hcut, firstLine?_line hline, if_neg (by simp [hheader])] at htext
          exact ⟨header.length, by rw [List.take_length, Option.some.inj htext]⟩
  | cons line before ih =>
      obtain ⟨hblank, hbefore⟩ := List.forall_mem_cons.mp hbefore
      obtain ⟨hline, ⟨-, -, hnone⟩ | ⟨rest, rfl, hrest⟩⟩ := Text.allLines_eq_cons h
      · exact absurd hnone (List.append_ne_nil_of_right_ne_nil _ (List.cons_ne_nil _ _))
      · rcases take_line line rest n with hcut | ⟨m, hcut⟩
        · -- what is cut off a blank line leaves it blank
          rw [hcut] at htext
          have hlooked := (firstLine?_take_of_not_mem hline htext).1
          rw [isBlank_lineText_take hblank n] at hlooked
          cases hlooked
        · have hlooked := isBlank_lineText_take hblank line.length
          rw [List.take_length] at hlooked
          rw [hcut, firstLine?_line hline, if_pos hlooked] at htext
          exact ih hrest hbefore htext

theorem firstLine?_take_mark {bytes : List UInt8} {n : Nat} {text : String}
    (h : firstLine? ((markOctets ++ bytes).take n) = some text) :
    ∃ m, firstLine? (bytes.take m) = some text := by
  rcases Nat.lt_or_ge n markOctets.length with hlt | hle
  · have hnone : firstLine? (markOctets.take n) = none := by
      have hlt' : n < 3 := hlt
      interval_cases n <;> decide
    rw [List.take_append_of_le_length hlt.le, hnone] at h
    cases h
  · rw [List.take_append, List.take_of_length_le hle, firstLine?_mark] at h
    exact ⟨_, h⟩

end Header

end Detect

namespace Csv

open Text (allLines joinLines newline markOctets Encoding)

namespace Session

/-! ## The line that is read -/

theorem stripReturn_of_return {line : String} {cs : List Char} (h : line.toList = cs ++ ['\r']) :
    stripReturn line = String.ofList cs := by
  rw [stripReturn, h, List.getLast?_concat, List.dropLast_concat]
  rfl

theorem stripReturn_of_not {line : String} (h : line.toList.getLast? ≠ some '\r') :
    stripReturn line = line := by
  unfold stripReturn
  split
  · next heq => exact absurd heq h
  · rfl

theorem stripReturn_cases (line : String) :
    (∃ cs, line.toList = cs ++ ['\r'] ∧ stripReturn line = String.ofList cs)
      ∨ line.toList.getLast? ≠ some '\r' ∧ stripReturn line = line := by
  by_cases h : line.toList.getLast? = some '\r'
  · obtain ⟨cs, hcs⟩ := List.getLast?_eq_some_iff.mp h
    exact Or.inl ⟨cs, hcs, stripReturn_of_return hcs⟩
  · exact Or.inr ⟨h, stripReturn_of_not h⟩

theorem stripReturn_marked (line : String) :
    stripReturn (marked line) = marked (stripReturn line) := by
  rcases stripReturn_cases line with ⟨cs, hcs, hstrip⟩ | ⟨hlast, hstrip⟩
  · have hmarked : marked (String.ofList cs) = String.ofList ('\uFEFF' :: cs) := by
      rw [marked, String.toList_ofList]
    rw [hstrip, hmarked]
    refine stripReturn_of_return ?_
    rw [toList_marked, hcs, List.cons_append]
  · rw [hstrip]
    refine stripReturn_of_not ?_
    rw [toList_marked, List.getLast?_cons]
    cases h : line.toList.getLast? with
    | none => decide
    | some c => rwa [h] at hlast

theorem isBlank_stripReturn (line : String) :
    Text.isBlank (stripReturn line) = Text.isBlank line := by
  rcases stripReturn_cases line with ⟨cs, hcs, hstrip⟩ | ⟨-, hstrip⟩
  · rw [hstrip, Text.isBlank, Text.isBlank, hcs, String.toList_ofList, List.all_append]
    exact (Bool.and_true _).symm
  · rw [hstrip]

theorem mem_of_mem_stripReturn {c : Char} {line : String} (h : c ∈ (stripReturn line).toList) :
    c ∈ line.toList := by
  rcases stripReturn_cases line with ⟨cs, hcs, hstrip⟩ | ⟨-, hstrip⟩
  · rw [hstrip, String.toList_ofList] at h
    rw [hcs]
    exact List.mem_append_left _ h
  · rwa [hstrip] at h

theorem readAll_of_blank {blanks : List String} (h : ∀ line ∈ blanks, Text.isBlank line = true)
    (s : Session) (lines : List String) : s.readAll (blanks ++ lines) = s.readAll lines := by
  induction blanks with
  | nil => rfl
  | cons line blanks ih =>
      obtain ⟨hline, hblanks⟩ := List.forall_mem_cons.mp h
      have hskip := records_of_blank ((isBlank_stripReturn line).trans hline) (blanks ++ lines)
      rw [List.cons_append, readAll_eq, hskip, ← readAll_eq, ih hblanks]

theorem readAll_joinLines (s : Session) {blanks : List (List UInt8)}
    (h : ∀ line ∈ blanks, line ⊆ Text.blankOctets) (data : List UInt8) :
    s.readAll ((allLines (joinLines blanks ++ data)).map Encoding.utf8.decode)
      = s.readAll ((allLines data).map Encoding.utf8.decode) := by
  have hnewline : ∀ line ∈ blanks, newline ∉ line := fun line hline =>
    Text.not_mem_of_blank (h line hline)
  rw [Text.allLines_joinLines hnewline, List.map_append, readAll_of_blank]
  exact List.forall_mem_map.mpr fun line hline => Text.isBlank_decode (h line hline)

theorem readAll_header {s : Session} (h : s.schema = none) {line : String}
    (hline : Text.isBlank line = false) (lines : List String) :
    s.readAll (line :: lines) =
      match Schema.ofFields (fields (stripReturn line)) with
      | .ok schema => (s.setSchema schema).readAll lines
      | .error failure => (some failure, s) := by
  have hrecord : Text.isBlank (stripReturn line) ≠ true := by
    rw [isBlank_stripReturn, hline]
    exact Bool.false_ne_true
  rw [readAll_eq, records_of_not_blank hrecord, readRecords_header h]
  cases Schema.ofFields (fields (stripReturn line)) with
  | error failure => rfl
  | ok schema => exact (readAll_eq _ lines).symm

theorem columns_readAll {s s' : Session} {schema : Schema} {failure : Option Failure}
    {lines : List String} (h : (s.setSchema schema).readAll lines = (failure, s')) :
    s'.schema.map (·.columns) = some schema.columns := by
  have hkept := schema_readRecords (s := s.setSchema schema) rfl (records lines)
  rw [← readAll_eq, h] at hkept
  rw [hkept]
  rfl

/-- A session that ends with a schema has it from the first line that is not blank. -/
theorem exists_header {s s' : Session} (h : s.schema = none) {lines : List String}
    (hread : s.readAll lines = (none, s')) (hschema : s'.schema.isSome = true) :
    ∃ before header after schema, lines = before ++ header :: after
      ∧ (∀ line ∈ before, Text.isBlank line = true)
      ∧ Schema.ofFields (fields (stripReturn header)) = .ok schema
      ∧ s'.schema.map (·.columns) = some schema.columns := by
  induction lines with
  | nil =>
      obtain ⟨-, rfl⟩ := Prod.mk.inj hread
      rw [h] at hschema
      cases hschema
  | cons line lines ih =>
      by_cases hline : Text.isBlank line = true
      · have hskip := readAll_of_blank (List.forall_mem_singleton.mpr hline) s lines
        rw [List.singleton_append, hread] at hskip
        obtain ⟨before, header, after, schema, rfl, hbefore, hheader⟩ := ih hskip.symm
        exact ⟨line :: before, header, after, schema, rfl,
          List.forall_mem_cons.mpr ⟨hline, hbefore⟩, hheader⟩
      · have hline := Bool.eq_false_of_not_eq_true hline
        rw [readAll_header h hline] at hread
        cases hfields : Schema.ofFields (fields (stripReturn line)) with
        | error failure =>
            rw [hfields] at hread
            cases (Prod.mk.inj hread).1
        | ok schema =>
            rw [hfields] at hread
            exact ⟨[], line, lines, schema, rfl, by simp, hfields, columns_readAll hread⟩

theorem readAll_mark_line {s : Session} (h : s.schema = none) {data line : List UInt8}
    {after : List (List UInt8)} (hlines : allLines data = line :: after) :
    s.readAll ((allLines (markOctets ++ data)).map Encoding.utf8.decode) =
      match Schema.ofFields (fields (marked (stripReturn (Encoding.utf8.decode line)))) with
      | .ok schema => (s.setSchema schema).readAll (after.map Encoding.utf8.decode)
      | .error failure => (some failure, s) := by
  rw [Text.allLines_append_of_not_mem Text.not_mem_markOctets hlines, List.map_cons,
    Text.decode_mark, readAll_header h (not_blank_marked _), stripReturn_marked]

end Session

/-! ## Both readings of one header -/

/-- The header of an export in UTF-8: the first line that is not blank as it stands, the blank lines
before it, and its fields. -/
structure Headed (data : List UInt8) (before : List (List UInt8)) (header : List UInt8)
    (cell : String) (cells : List String) : Prop where
  lines : ∃ after, allLines data = before ++ header :: after
  blank : ∀ line ∈ before, Text.isBlank (Encoding.utf8.decode line) = true
  fields : fields (Session.stripReturn (Encoding.utf8.decode header)) = cell :: cells
  schema : ∃ schema, Schema.ofFields (cell :: cells) = .ok schema

namespace Headed

variable {data : List UInt8} {before : List (List UInt8)} {header : List UInt8} {cell : String}
variable {cells : List String} {s s' : Session}

theorem comma (h : Headed data before header cell cells) :
    ',' ∈ (Encoding.utf8.decode header).toList := by
  obtain ⟨schema, hschema⟩ := h.schema
  exact Session.mem_of_mem_stripReturn (comma_of_ofFields (h.fields ▸ hschema))

theorem not_blank (h : Headed data before header cell cells) :
    Text.isBlank (Encoding.utf8.decode header) = false := by
  obtain ⟨schema, hschema⟩ := h.schema
  rw [← Session.isBlank_stripReturn]
  exact not_blank_of_ofFields (h.fields ▸ hschema)

theorem append_blanks (h : Headed data before header cell cells) {blanks : List (List UInt8)}
    (hblanks : ∀ line ∈ blanks, line ⊆ Text.blankOctets) :
    Headed (joinLines blanks ++ data) (blanks ++ before) header cell cells where
  lines := by
    obtain ⟨after, hlines⟩ := h.lines
    have hnewline : ∀ line ∈ blanks, newline ∉ line := fun line hline =>
      Text.not_mem_of_blank (hblanks line hline)
    exact ⟨after, by rw [Text.allLines_joinLines hnewline, hlines, List.append_assoc]⟩
  blank line hline := by
    rcases List.mem_append.mp hline with hline | hline
    · exact Text.isBlank_decode (hblanks line hline)
    · exact h.blank line hline
  fields := h.fields
  schema := h.schema

theorem firstLine?_eq (h : Headed data before header cell cells) :
    Detect.firstLine? data = some (Detect.lineText header) := by
  obtain ⟨after, hlines⟩ := h.lines
  exact Detect.firstLine?_of_header hlines h.blank h.comma

theorem firstLine?_take (h : Headed data before header cell cells) {n : Nat} {text : String}
    (htext : Detect.firstLine? (data.take n) = some text) :
    ∃ k, text = Detect.lineText (header.take k) := by
  obtain ⟨after, hlines⟩ := h.lines
  exact Detect.firstLine?_take_of_header hlines h.blank h.comma htext

/-- With a mark in front of its first name a header names the same columns, and so the export is
read as it is without the mark. -/
theorem readAll_mark (hs : s.schema = none) (h : Headed data [] header cell cells)
    (hcell : (Text.trim cell).toList.head? ≠ some '\uFEFF') :
    s.readAll ((allLines (markOctets ++ data)).map Encoding.utf8.decode)
      = s.readAll ((allLines data).map Encoding.utf8.decode) := by
  obtain ⟨after, hlines⟩ := h.lines
  rw [List.nil_append] at hlines
  rw [Session.readAll_mark_line hs hlines, ofFields_marked h.fields hcell, hlines, List.map_cons,
    Session.readAll_header hs h.not_blank]

/-- If the first name begins with a mark of its own, it keeps that one. -/
theorem columns_readAll_mark (hs : s.schema = none) (h : Headed data [] header cell cells)
    (hcell : (Text.trim cell).toList.head? = some '\uFEFF')
    (hread : s.readAll ((allLines (markOctets ++ data)).map Encoding.utf8.decode) = (none, s')) :
    s'.schema.map (·.columns) ≠ some (Schema.columnNames (cell :: cells)) := by
  obtain ⟨after, hlines⟩ := h.lines
  rw [List.nil_append] at hlines
  rw [Session.readAll_mark_line hs hlines, fields_marked h.fields] at hread
  cases hmarked : Schema.ofFields (marked cell :: cells) with
  | error failure =>
      rw [hmarked] at hread
      cases (Prod.mk.inj hread).1
  | ok schema =>
      rw [hmarked] at hread
      intro hsame
      rw [Session.columns_readAll hread] at hsame
      have hnames : Schema.columnNames (marked cell :: cells)
          = Schema.columnNames (cell :: cells) :=
        (columns_of_ofFields hmarked).symm.trans (Option.some.inj hsame)
      exact (columnNames_marked cell cells).mp hnames hcell

/-- Where a blank line comes before the header, the mark makes that line a header without names. -/
theorem readAll_mark_blank (hs : s.schema = none) (h : Headed data before header cell cells)
    (hbefore : before ≠ []) :
    s.readAll ((allLines (markOctets ++ data)).map Encoding.utf8.decode)
      = (some (.columnsMissing Role.required), s) := by
  obtain ⟨after, hlines⟩ := h.lines
  cases before with
  | nil => exact absurd rfl hbefore
  | cons line before =>
      have hblank : Text.isBlank (Session.stripReturn (Encoding.utf8.decode line)) = true :=
        (Session.isBlank_stripReturn _).trans (h.blank line List.mem_cons_self)
      rw [Session.readAll_mark_line hs hlines, ofFields_marked_blank hblank]

end Headed

namespace Reader

/-- An export that is read without a failure and has a header is headed by it. -/
theorem exists_headed {config : Config} {bus : Bus.Config} {store : Trace.Store}
    {start reader : Reader} (hstart : create config bus store = .ok start)
    (hutf8 : start.lines.codec = .utf8) {pieces : List (List UInt8)}
    (hrun : (do pieces.forM push; finish : EStateM Failure Reader Unit) start = .ok () reader)
    (hschema : reader.session.schema.isSome = true) :
    ∃ before header cell cells, Headed pieces.flatten before header cell cells
      ∧ reader.session.schema.map (·.columns) = some (Schema.columnNames (cell :: cells)) := by
  have houtcome := Import.outcome_of_create_utf8 hstart hutf8 pieces
  have hnone : start.session.schema = none := by rw [session_of_create hstart]
  rw [hrun] at houtcome
  obtain ⟨before, header, after, schema, hlines, hbefore, hfields, hcolumns⟩ :=
    Session.exists_header hnone houtcome.symm hschema
  obtain ⟨before, rest, hsplit, rfl, hrest⟩ := List.map_eq_append_iff.mp hlines
  obtain ⟨header, after, rfl, rfl, rfl⟩ := List.map_eq_cons_iff.mp hrest
  obtain ⟨cell, cells, hcells⟩ := List.exists_cons_of_ne_nil
    (fields_ne_nil (Session.stripReturn (Encoding.utf8.decode header)))
  rw [hcells] at hfields
  refine ⟨before, header, cell, cells, ⟨⟨after, hsplit⟩, ?_, hcells, schema, hfields⟩, ?_⟩
  · exact fun line hline => hbefore _ (List.mem_map_of_mem hline)
  · exact hcolumns.trans (congrArg some (columns_of_ofFields hfields))

/-- What a mark and blank lines in front make of an export in UTF-8 that is read without a failure
and has a header. Blank lines alone make nothing of it. A mark makes nothing of it if it stands
right in front of the header, whose first name has no mark of its own; if that name has one, it
keeps it and is another name. With a blank line between the mark and the header the export is
refused for want of columns, and nothing of it is read. All the while the line that is looked at to
tell captures apart is that of the header, or, of the first octets, as much of it as they hold. -/
theorem mark_in_front {config : Config} {bus : Bus.Config} {store : Trace.Store}
    {start reader : Reader} (hstart : create config bus store = .ok start)
    (hutf8 : start.lines.codec = .utf8) {pieces : List (List UInt8)}
    (hrun : (do pieces.forM push; finish : EStateM Failure Reader Unit) start = .ok () reader)
    (hschema : reader.session.schema.isSome = true) {blanks : List (List UInt8)}
    (hblanks : ∀ line ∈ blanks, line ⊆ Text.blankOctets) :
    ∃ before header cell cells, Headed pieces.flatten before header cell cells
      ∧ reader.session.schema.map (·.columns) = some (Schema.columnNames (cell :: cells))
      ∧ (∀ others : List (List UInt8), others.flatten = joinLines blanks ++ pieces.flatten →
          ∃ other, (do others.forM push; finish : EStateM Failure Reader Unit) start = .ok () other
            ∧ other.session = reader.session)
      ∧ ∀ others : List (List UInt8),
          others.flatten = markOctets ++ (joinLines blanks ++ pieces.flatten) →
          (blanks ++ before = [] → (Text.trim cell).toList.head? ≠ some '\uFEFF' →
              ∃ other, (do others.forM push; finish : EStateM Failure Reader Unit) start
                  = .ok () other ∧ other.session = reader.session)
            ∧ (blanks ++ before = [] → (Text.trim cell).toList.head? = some '\uFEFF' →
              ∀ other, (do others.forM push; finish : EStateM Failure Reader Unit) start
                  = .ok () other →
                other.session.schema.map (·.columns) ≠ reader.session.schema.map (·.columns))
            ∧ (blanks ++ before ≠ [] →
              ∃ left, (do others.forM push; finish : EStateM Failure Reader Unit) start
                  = .error (.columnsMissing Role.required) left ∧ left.session = start.session)
            ∧ Detect.firstLine? others.flatten = some (Detect.lineText header)
            ∧ ∀ n text, Detect.firstLine? (others.flatten.take n) = some text →
              ∃ k, text = Detect.lineText (header.take k) := by
  obtain ⟨before, header, cell, cells, hheaded, hcolumns⟩ :=
    exists_headed hstart hutf8 hrun hschema
  have hnone : start.session.schema = none := by rw [session_of_create hstart]
  have houtcome := Import.outcome_of_create_utf8 hstart hutf8
  have hskip := start.session.readAll_joinLines hblanks pieces.flatten
  rw [← houtcome, hrun] at hskip
  have hlead := hheaded.append_blanks hblanks
  refine ⟨before, header, cell, cells, hheaded, hcolumns, ?_, ?_⟩
  · intro others hothers
    refine eq_ok_of_outcome ?_
    rw [houtcome, hothers, hskip]
    rfl
  · intro others hothers
    refine ⟨?_, ?_, ?_, ?_, ?_⟩
    · intro hempty hcell
      rw [hempty] at hlead
      refine eq_ok_of_outcome ?_
      rw [houtcome, hothers, hlead.readAll_mark hnone hcell, hskip]
      rfl
    · intro hempty hcell other hother
      rw [hempty] at hlead
      have hread := houtcome others
      rw [hother, hothers] at hread
      rw [hcolumns]
      exact hlead.columns_readAll_mark hnone hcell hread.symm
    · intro hne
      refine eq_error_of_outcome ?_
      rw [houtcome, hothers, hlead.readAll_mark_blank hnone hne]
    · rw [hothers, Detect.firstLine?_mark, hlead.firstLine?_eq]
    · intro n text htext
      rw [hothers] at htext
      obtain ⟨m, htext⟩ := Detect.firstLine?_take_mark htext
      exact hlead.firstLine?_take htext

def oneRow : List UInt8 :=
  Import.plainOctets "name,type,start_time,duration\nA,b,1,0\n"

/-- Of one row behind a mark and two blank lines nothing is read, though the line that is looked at
is still that of its header. -/
theorem mark_in_front_oneRow :
    ∃ reader left, (do [oneRow].forM push; finish : EStateM Failure Reader Unit) {} = .ok () reader
      ∧ reader.session.rows = 1
      ∧ (do [markOctets ++ (joinLines [[0x0D], [0x20, 0x20]] ++ oneRow)].forM push; finish :
          EStateM Failure Reader Unit) {} = .error (.columnsMissing Role.required) left
      ∧ left.session.rows = 0
      ∧ Detect.firstLine? (markOctets ++ (joinLines [[0x0D], [0x20, 0x20]] ++ oneRow))
        = Detect.firstLine? oneRow := by
  have hcreate : create {} {} {} = .ok {} := rfl
  have hnone : (outcome ((do [oneRow].forM push; finish : EStateM Failure Reader Unit) {})).1.isNone
      = true := by decide +kernel
  have hread : ((outcome ((do [oneRow].forM push; finish : EStateM Failure Reader Unit) {})).2.rows,
      (outcome ((do [oneRow].forM push; finish :
        EStateM Failure Reader Unit) {})).2.schema.isSome) = (1, true) := by decide +kernel
  obtain ⟨hrows, hschema⟩ := Prod.mk.inj hread
  obtain ⟨reader, hrun, hsession⟩ :=
    eq_ok_of_outcome (Prod.ext (Option.isNone_iff_eq_none.mp hnone) rfl)
  replace hrows := (congrArg Session.rows hsession).trans hrows
  replace hschema := (congrArg (·.schema.isSome) hsession).trans hschema
  have hblanks : ∀ line ∈ [[0x0D], [0x20, 0x20]], line ⊆ Text.blankOctets := by
    simp [Text.blankOctets]
  obtain ⟨before, header, cell, cells, hheaded, -, -, hmarked⟩ :=
    mark_in_front hcreate rfl hrun hschema hblanks
  obtain ⟨-, -, hrefused, hlooked, -⟩ := hmarked
    [markOctets ++ (joinLines [[0x0D], [0x20, 0x20]] ++ oneRow)] (by simp)
  obtain ⟨left, hleft, hnothing⟩ := hrefused (by simp)
  rw [List.flatten_singleton] at hlooked hheaded
  exact ⟨reader, left, hrun, hrows, hleft, by rw [hnothing],
    hlooked.trans hheaded.firstLine?_eq.symm⟩

/-- A mark and one blank line in front turn an export that is read into one that is not. -/
theorem oneRow_behind_mark :
    (∃ reader, (do [oneRow].forM push; finish : EStateM Failure Reader Unit) {} = .ok () reader)
      ∧ ¬∃ reader, (do [markOctets ++ (joinLines [[]] ++ oneRow)].forM push; finish :
          EStateM Failure Reader Unit) {} = .ok () reader := by
  have hplain : (outcome ((do [oneRow].forM push; finish :
      EStateM Failure Reader Unit) {})).1.isNone = true := by decide +kernel
  have hmarked : (outcome ((do [markOctets ++ (joinLines [[]] ++ oneRow)].forM push; finish :
      EStateM Failure Reader Unit) {})).1.isNone = false := by decide +kernel
  constructor
  · obtain ⟨reader, hrun, -⟩ :=
      eq_ok_of_outcome (Prod.ext (Option.isNone_iff_eq_none.mp hplain) rfl)
    exact ⟨reader, hrun⟩
  · rintro ⟨reader, hrun⟩
    rw [hrun] at hmarked
    cases hmarked

end Reader

end Csv

end LogicCapture
