import Mathlib
import LogicCapture.Proofs.LineStream
import LogicCapture.Proofs.Replacement

/-!
# The lines of a text

A line feed is a single octet, and that octet is read as a line feed wherever it stands: it ends
whatever character is under way, and no character of several octets has it (`scan_newline`,
`newline_mem_of_scan`). So octets may be cut at line feeds before they are decoded, and the lines
are those of the whole text (`splitOn_scan`, `splitOn_decode`). A reader of lines therefore gives
the text that all its octets stand for, line by line, whatever pieces they come in and whatever
faults they have (`lines_of_text`).
-/

namespace LogicCapture.Text

/-! ## Pieces between separators -/

section SplitOn

variable {α : Type} [BEq α]

theorem length_splitOn (sep : α) (xs : List α) : (xs.splitOn sep).length = xs.count sep + 1 := by
  induction xs with
  | nil => rfl
  | cons x xs ih =>
      rw [List.splitOn_cons_eq_if_modifyHead, List.count_cons]
      split
      · rw [List.length_cons, ih]
      · rw [List.length_modifyHead, ih, Nat.add_zero]

variable [LawfulBEq α]

theorem sum_count_splitOn {x sep : α} (h : x ≠ sep) (xs : List α) :
    ((xs.splitOn sep).map (List.count x)).sum = xs.count x := by
  induction xs with
  | nil => rfl
  | cons y ys ih =>
      rw [List.splitOn_cons_eq_if_modifyHead, List.count_cons]
      split
      · next heq =>
        obtain rfl := beq_iff_eq.mp heq
        rw [List.map_cons, List.sum_cons, ih, List.count_nil, if_neg (by simpa using h.symm)]
        omega
      · obtain ⟨first, others, hsplit⟩ := List.exists_cons_of_ne_nil (List.splitOn_ne_nil sep ys)
        rw [hsplit, List.map_cons, List.sum_cons] at ih
        rw [hsplit, List.modifyHead_cons, List.map_cons, List.sum_cons, List.count_cons, ← ih]
        omega

theorem splitOn_of_apart {f : List UInt8 → List α} {sep : α}
    (hsep : ∀ before after, f (before ++ newline :: after) = f before ++ sep :: f after)
    (hline : ∀ line, newline ∉ line → sep ∉ f line) (bytes : List UInt8) :
    (f bytes).splitOn sep = (bytes.splitOn newline).map f := by
  induction bytes using induction_on_lines with
  | hopen bytes h => rw [List.splitOn_eq_singleton (hline bytes h), List.splitOn_eq_singleton h,
      List.map_singleton]
  | hline line rest h ih =>
      rw [hsep, List.splitOn_append_cons_self_of_not_mem (hline line h),
        List.splitOn_append_cons_self_of_not_mem h, ih, List.map_cons]

end SplitOn

/-! ## Line feeds among octets -/

namespace Encoding

variable {e : Encoding} {bytes : List UInt8} {text : List (Option Char)}

theorem scan_newline (e : Encoding) (before after : List UInt8) :
    e.scan (before ++ newline :: after) = e.scan before ++ some '\n' :: e.scan after := by
  cases e with
  | utf8 => exact Utf8.scan_of_lt (by decide) before after
  | latin1 => exact List.map_append
  | ascii => exact List.map_append

/-- A line feed is read only where its octet stands. -/
theorem newline_mem_of_scan (h : some '\n' ∈ e.scan bytes) : newline ∈ bytes := by
  have hreads := (e.reads_iff bytes _).mpr rfl
  generalize e.scan bytes = text at h hreads
  induction hreads with
  | nil => cases h
  | @char c octets rest text hc _ ih =>
      rw [List.mem_append]
      rcases List.mem_cons.mp h with hc' | htext
      · obtain rfl := Option.some.inj hc'
        have hoctets : octets = [newline] := by cases e <;> exact (Option.some.inj hc).symm
        exact Or.inl (hoctets ▸ List.mem_singleton_self newline)
      · exact Or.inr (ih htext)
  | @fault part rest text _ _ ih =>
      rcases List.mem_cons.mp h with hnone | htext
      · cases hnone
      · exact List.mem_append_right part (ih htext)

theorem splitOn_scan (e : Encoding) (bytes : List UInt8) :
    (e.scan bytes).splitOn (some '\n') = (bytes.splitOn newline).map e.scan :=
  splitOn_of_apart e.scan_newline (fun _ h hmem => h (newline_mem_of_scan hmem)) bytes

theorem splitOn_decode (e : Encoding) (bytes : List UInt8) :
    (e.decode bytes).toList.splitOn '\n'
      = (bytes.splitOn newline).map fun line => (e.decode line).toList := by
  refine splitOn_of_apart (f := fun line => (e.decode line).toList) ?_ ?_ bytes
  · intro before after
    simp [decode, scan_newline]
  · intro line hline hmem
    rw [decode, String.toList_ofList, List.mem_map] at hmem
    obtain ⟨found, hfound, hfeed⟩ := hmem
    cases found with
    | none => exact absurd hfeed (by decide)
    | some c =>
        obtain rfl : c = '\n' := hfeed
        exact hline (newline_mem_of_scan hfound)

end Encoding

/-! ## The text of a reader -/

/-- The parts of a text between its line feeds. -/
def pieces (text : String) : List String :=
  (text.toList.splitOn '\n').map String.ofList

theorem pieces_decode (e : Encoding) (bytes : List UInt8) :
    pieces (e.decode bytes) = (bytes.splitOn newline).map e.decode := by
  rw [pieces, e.splitOn_decode, List.map_map]
  exact List.map_congr_left fun line _ => String.ofList_toList

theorem splitOn_eq_lines (bytes : List UInt8) :
    bytes.splitOn newline = completeLines bytes ++ [openLine bytes] :=
  (List.dropLast_append_getLast _).symm

theorem passed_codec (encoding : Encoding) (lines : List (List UInt8)) :
    encoding.codec.passed lines = lines :=
  Codec.passed_eq_self fun _ _ => rfl

namespace LineReader

/-- The lines that calls give, the complete lines that are then left, and the last line, empty if
there is none. -/
def textLines (codec : Codec) (calls : List Call) : List Decoded :=
  let (results, r) := (start codec).run calls
  let (others, r) := r.drain
  (History.after {} calls results).given ++ others ++ [r.finish.1.getD (.ok "")]

def textOctets (codec : Codec) (calls : List Call) : List UInt8 :=
  (History.after {} calls ((start codec).run calls).1).pushed

theorem textLines_eq (encoding : Encoding) (calls : List Call) :
    textLines encoding.codec calls
      = ((textOctets encoding.codec calls).splitOn newline).map encoding.codec.decode := by
  obtain ⟨lines, hrecords⟩ := records_run (records_start encoding.codec) calls
  rw [textLines, textOctets]
  generalize (start encoding.codec).run calls = result at *
  obtain ⟨results, r⟩ := result
  dsimp only at *
  generalize History.after {} calls results = history at *
  have hpassed : r.codec.passed (completeLines r.rest) = completeLines r.rest := by
    rw [hrecords.codec_eq, passed_codec]
  obtain ⟨hothers, hdrained⟩ := turns_drain hrecords.sound
  have hopen := rest_drain hrecords.sound hpassed
  rw [hpassed, hrecords.codec_eq] at hothers
  generalize r.drain = drained at *
  obtain ⟨others, r'⟩ := drained
  dsimp only at *
  have hlast : r'.finish.1.getD (.ok "") = encoding.codec.decode (openLine r.rest) := by
    rw [finish_fst, hopen, hdrained.codec, hrecords.codec_eq]
    split
    · next hnil =>
      rw [hnil]
      cases encoding <;> rfl
    · rfl
  rw [splitOn_eq_lines, hrecords.pushed, completeLines_joinLines hrecords.no_newline,
    openLine_joinLines hrecords.no_newline, hrecords.given, hothers, hlast, List.map_append,
    List.map_append, List.map_singleton]

/-- The lines of a reader against the one reading of all its octets. -/
structure Divides (encoding : Encoding) (bytes : List UInt8) (text : List (Option Char))
    (lines : List String) : Prop where
  reads_iff : ∀ other, encoding.Reads bytes other ↔ other = text
  decode_eq : encoding.decode bytes = String.ofList (text.map (·.getD '\uFFFD'))
  lines_eq : lines = pieces (encoding.decode bytes)
  reads_lines : List.Forall₂ encoding.Reads (bytes.splitOn newline) (text.splitOn (some '\n'))
  length_eq : lines.length = bytes.count newline + 1
  count_newline : (encoding.decode bytes).toList.count '\n' = bytes.count newline
  count_replaced : (lines.map fun line => line.toList.count '\uFFFD').sum
    = (encoding.decode bytes).toList.count '\uFFFD'
  count_faults : ((bytes.splitOn newline).map fun line => (encoding.scan line).count none).sum
    = text.count none

/-- Whatever the calls are, the lines given, those then left and the last one are the parts between
the line feeds of the one text that all octets pushed stand for. -/
theorem lines_of_text (encoding : Encoding) (calls : List Call) :
    ∃ text lines, textLines encoding.codec calls = lines.map Except.ok
      ∧ Divides encoding (textOctets encoding.codec calls) text lines := by
  have htext := textLines_eq encoding calls
  generalize textLines encoding.codec calls = given at htext ⊢
  generalize textOctets encoding.codec calls = bytes at htext ⊢
  have hlines : (bytes.splitOn newline).map encoding.decode = pieces (encoding.decode bytes) :=
    (pieces_decode encoding bytes).symm
  refine ⟨encoding.scan bytes, (bytes.splitOn newline).map encoding.decode, ?_, ?_⟩
  · rw [htext, List.map_map]
    rfl
  generalize (bytes.splitOn newline).map encoding.decode = lines at hlines
  refine ⟨encoding.reads_iff bytes, rfl, hlines, ?_, ?_, ?_, ?_, ?_⟩
  · rw [encoding.splitOn_scan, List.forall₂_map_right_iff, List.forall₂_same]
    exact fun line _ => (encoding.reads_iff line _).mpr rfl
  · rw [hlines, pieces_decode, List.length_map, length_splitOn]
  · have hlength := congrArg List.length (encoding.splitOn_decode bytes)
    rw [length_splitOn, List.length_map, length_splitOn] at hlength
    omega
  · rw [hlines, pieces, List.map_map, ← sum_count_splitOn (by decide : '\uFFFD' ≠ '\n')]
    simp [Function.comp_def]
  · rw [← sum_count_splitOn (nofun : (none : Option Char) ≠ some '\n'), encoding.splitOn_scan,
      List.map_map]
    rfl

end LineReader

end LogicCapture.Text
