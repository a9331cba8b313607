import Mathlib
import LogicCapture.Text.LineReader

/-!
# The lines of an export

Splitting at line feeds gives the complete lines and an open one behind them. Where a sequence of
octets is cut makes no difference to its lines: the open line of the first part goes on in the
second (`completeLines_append`). A line reader gives exactly these lines one by one, as long as what
it has already searched holds no line feed (`Sound.next_some`, `Sound.next_none`).
-/

namespace LogicCapture.Text

/-! ## Complete lines and the open one -/

/-- The lines that a line feed ends, each without it. -/
def completeLines (bytes : List UInt8) : List (List UInt8) :=
  (bytes.splitOn newline).dropLast

/-- What is left behind the last line feed. -/
def openLine (bytes : List UInt8) : List UInt8 :=
  (bytes.splitOn newline).getLast (List.splitOn_ne_nil newline bytes)

/-- The complete lines, and the open one if it is not empty. -/
def allLines (bytes : List UInt8) : List (List UInt8) :=
  if openLine bytes = [] then completeLines bytes else completeLines bytes ++ [openLine bytes]

theorem completeLines_of_not_mem {bytes : List UInt8} (h : newline ∉ bytes) :
    completeLines bytes = [] := by
  rw [completeLines, List.splitOn_eq_singleton h, List.dropLast_singleton]

theorem openLine_of_not_mem {bytes : List UInt8} (h : newline ∉ bytes) :
    openLine bytes = bytes := by
  simp only [openLine, List.splitOn_eq_singleton h, List.getLast_singleton]

theorem completeLines_line {line : List UInt8} (h : newline ∉ line) (rest : List UInt8) :
    completeLines (line ++ newline :: rest) = line :: completeLines rest := by
  rw [completeLines, List.splitOn_append_cons_self_of_not_mem h,
    List.dropLast_cons_of_ne_nil (List.splitOn_ne_nil _ _), completeLines]

theorem openLine_line {line : List UInt8} (h : newline ∉ line) (rest : List UInt8) :
    openLine (line ++ newline :: rest) = openLine rest := by
  simp only [openLine, List.splitOn_append_cons_self_of_not_mem h]
  exact List.getLast_cons _

theorem completeLines_eq_nil_iff {bytes : List UInt8} :
    completeLines bytes = [] ↔ newline ∉ bytes := by
  refine ⟨fun hnone hmem => ?_, completeLines_of_not_mem⟩
  obtain ⟨line, rest, rfl, hline⟩ := List.eq_append_cons_of_mem hmem
  rw [completeLines_line hline] at hnone
  exact List.cons_ne_nil _ _ hnone

/-- Every sequence of octets is an open line behind some complete ones. -/
theorem induction_on_lines {P : List UInt8 → Prop} (hopen : ∀ bytes, newline ∉ bytes → P bytes)
    (hline : ∀ line rest, newline ∉ line → P rest → P (line ++ newline :: rest))
    (bytes : List UInt8) : P bytes := by
  induction hn : bytes.length using Nat.strongRecOn generalizing bytes with
  | ind n ih =>
      by_cases hmem : newline ∈ bytes
      · obtain ⟨line, rest, rfl, hline'⟩ := List.eq_append_cons_of_mem hmem
        refine hline line rest hline' (ih rest.length ?_ rest rfl)
        rw [← hn, List.length_append, List.length_cons]
        omega
      · exact hopen bytes hmem

theorem allLines_of_not_mem {bytes : List UInt8} (h : newline ∉ bytes) :
    allLines bytes = if bytes = [] then [] else [bytes] := by
  rw [allLines, completeLines_of_not_mem h, openLine_of_not_mem h, List.nil_append]

theorem allLines_line {line : List UInt8} (h : newline ∉ line) (rest : List UInt8) :
    allLines (line ++ newline :: rest) = line :: allLines rest := by
  rw [allLines, completeLines_line h, openLine_line h, List.cons_append, allLines]
  split <;> rfl

/-- The first line is all there is, or a line feed ends it. -/
theorem allLines_eq_cons {bytes line : List UInt8} {lines : List (List UInt8)}
    (h : allLines bytes = line :: lines) :
    newline ∉ line ∧ (bytes = line ∧ line ≠ [] ∧ lines = []
      ∨ ∃ rest, bytes = line ++ newline :: rest ∧ allLines rest = lines) := by
  by_cases hmem : newline ∈ bytes
  · obtain ⟨first, rest, rfl, hfirst⟩ := List.eq_append_cons_of_mem hmem
    rw [allLines_line hfirst] at h
    obtain ⟨rfl, hrest⟩ := List.cons.inj h
    exact ⟨hfirst, Or.inr ⟨rest, rfl, hrest⟩⟩
  · rw [allLines_of_not_mem hmem] at h
    split at h
    · cases h
    · next hne =>
      obtain ⟨rfl, hnone⟩ := List.cons.inj h
      exact ⟨hmem, Or.inl ⟨rfl, hne, hnone.symm⟩⟩

theorem allLines_append_of_not_mem {lead bytes line : List UInt8} {lines : List (List UInt8)}
    (hlead : newline ∉ lead) (h : allLines bytes = line :: lines) :
    allLines (lead ++ bytes) = (lead ++ line) :: lines := by
  obtain ⟨hline, ⟨rfl, hne, rfl⟩ | ⟨rest, rfl, rfl⟩⟩ := allLines_eq_cons h
  · have hboth : newline ∉ lead ++ bytes := List.not_mem_append hlead hline
    rw [allLines_of_not_mem hboth, if_neg (List.append_ne_nil_of_right_ne_nil lead hne)]
  · rw [← List.append_assoc, allLines_line (List.not_mem_append hlead hline)]

theorem not_mem_openLine (bytes : List UInt8) : newline ∉ openLine bytes := by
  induction bytes using induction_on_lines with
  | hopen bytes h => rwa [openLine_of_not_mem h]
  | hline line rest h ih => rwa [openLine_line h]

/-- The open line of the first part goes on in the second. -/
theorem completeLines_append (first second : List UInt8) :
    completeLines (first ++ second)
      = completeLines first ++ completeLines (openLine first ++ second) := by
  induction first using induction_on_lines with
  | hopen bytes h => rw [completeLines_of_not_mem h, openLine_of_not_mem h, List.nil_append]
  | hline line rest h ih =>
      rw [List.append_assoc, List.cons_append, completeLines_line h, completeLines_line h,
        openLine_line h, ih, List.cons_append]

theorem openLine_append (first second : List UInt8) :
    openLine (first ++ second) = openLine (openLine first ++ second) := by
  induction first using induction_on_lines with
  | hopen bytes h => rw [openLine_of_not_mem h]
  | hline line rest h ih =>
      rw [List.append_assoc, List.cons_append, openLine_line h, openLine_line h, ih]

theorem allLines_append (first second : List UInt8) :
    allLines (first ++ second) = completeLines first ++ allLines (openLine first ++ second) := by
  simp only [allLines, ← openLine_append, completeLines_append first second]
  split <;> simp

/-! ## Lines put together -/

def joinLines (lines : List (List UInt8)) : List UInt8 :=
  lines.flatMap (· ++ [newline])

theorem joinLines_cons (line : List UInt8) (lines : List (List UInt8)) (rest : List UInt8) :
    joinLines (line :: lines) ++ rest = line ++ newline :: (joinLines lines ++ rest) := by
  simp [joinLines]

theorem completeLines_joinLines {lines : List (List UInt8)} (h : ∀ line ∈ lines, newline ∉ line)
    (rest : List UInt8) :
    completeLines (joinLines lines ++ rest) = lines ++ completeLines rest := by
  induction lines with
  | nil => rfl
  | cons line lines ih =>
      obtain ⟨hline, hlines⟩ := List.forall_mem_cons.mp h
      rw [joinLines_cons, completeLines_line hline, ih hlines, List.cons_append]

theorem openLine_joinLines {lines : List (List UInt8)} (h : ∀ line ∈ lines, newline ∉ line)
    (rest : List UInt8) : openLine (joinLines lines ++ rest) = openLine rest := by
  induction lines with
  | nil => rfl
  | cons line lines ih =>
      obtain ⟨hline, hlines⟩ := List.forall_mem_cons.mp h
      rw [joinLines_cons, openLine_line hline, ih hlines]

theorem allLines_joinLines {lines : List (List UInt8)} (h : ∀ line ∈ lines, newline ∉ line)
    (rest : List UInt8) : allLines (joinLines lines ++ rest) = lines ++ allLines rest := by
  rw [allLines, completeLines_joinLines h, openLine_joinLines h, allLines, List.append_assoc]
  split <;> rfl

/-! ## A reader of lines -/

namespace LineReader

/-- What has been searched for a line feed holds none. -/
def Sound (r : LineReader) : Prop := newline ∉ r.searched

theorem sound_start (codec : Codec) : (start codec).Sound := Array.not_mem_empty newline

theorem Sound.push {r : LineReader} (h : r.Sound) (bytes : List UInt8) : (r.push bytes).Sound := by
  unfold LineReader.push release Sound
  dsimp only
  split <;> exact h

theorem codec_push (r : LineReader) (bytes : List UInt8) :
    (r.push bytes).codec = r.codec := by
  unfold LineReader.push release
  dsimp only
  split <;> rfl

theorem not_mem_takeWhile (bytes : List UInt8) : newline ∉ bytes.takeWhile (· != newline) := by
  intro h
  simpa using List.mem_takeWhile_imp h

theorem Sound.search_some {r r' : LineReader} {line : Decoded} (h : r.Sound)
    (heq : r.search = (some line, r')) :
    r'.Sound ∧ ∃ bytes, newline ∉ bytes ∧ line = r.codec.decode bytes
      ∧ r.rest = bytes ++ newline :: r'.rest := by
  obtain ⟨hline, hrest⟩ := rest_search heq
  refine ⟨?_, r.headLine, ?_, hline, hrest⟩
  · unfold LineReader.search at heq
    split at heq
    · cases (Prod.mk.inj heq).1
    · obtain ⟨-, rfl⟩ := Prod.mk.inj heq
      exact Array.not_mem_empty newline
  · rw [headLine, List.mem_append, Array.mem_toList_iff]
    exact not_or.mpr ⟨h, not_mem_takeWhile r.unread⟩

theorem Sound.search_none {r r' : LineReader} (h : r.Sound) (heq : r.search = (none, r')) :
    r'.Sound ∧ r'.unread = [] ∧ r'.arrived = r.arrived := by
  unfold LineReader.search at heq
  split at heq
  · obtain ⟨-, rfl⟩ := Prod.mk.inj heq
    refine ⟨?_, rfl, rfl⟩
    have hboth : newline ∉ r.searched.toList ++ r.unread.takeWhile (· != newline) := by
      rw [List.mem_append, Array.mem_toList_iff]
      exact not_or.mpr ⟨h, not_mem_takeWhile r.unread⟩
    simpa [Sound, ← Array.mem_toList_iff] using hboth
  · cases (Prod.mk.inj heq).1

theorem Sound.next_some {r r' : LineReader} {line : Decoded} (h : r.Sound)
    (heq : r.next = (some line, r')) :
    r'.Sound ∧ ∃ bytes, newline ∉ bytes ∧ line = r.codec.decode bytes
      ∧ r.rest = bytes ++ newline :: r'.rest := by
  unfold LineReader.next at heq
  split at heq
  · next line' left hsearch =>
    obtain ⟨rfl, rfl⟩ : line' = line ∧ left = r' := by
      obtain ⟨hline, hleft⟩ := Prod.mk.inj heq
      exact ⟨Option.some.inj hline, hleft⟩
    exact h.search_some hsearch
  · next left hsearch =>
    obtain ⟨hleft, -, -⟩ := h.search_none hsearch
    have hrefill : left.refill.Sound := hleft
    obtain ⟨hrest, hcodec, -⟩ := rest_search_none hsearch
    obtain ⟨hr', bytes, hbytes, hline, hsplit⟩ := hrefill.search_some heq
    refine ⟨hr', bytes, hbytes, hline.trans (congrArg (·.decode bytes) hcodec), ?_⟩
    rw [← hrest, ← rest_refill left, hsplit]

theorem Sound.next_none {r r' : LineReader} (h : r.Sound) (heq : r.next = (none, r')) :
    r'.Sound ∧ newline ∉ r'.rest := by
  unfold LineReader.next at heq
  split at heq
  · cases (Prod.mk.inj heq).1
  · next left hsearch =>
    have hrefill : left.refill.Sound := (h.search_none hsearch).1
    obtain ⟨hr', hunread, harrived⟩ := hrefill.search_none heq
    have hnone : r'.rest = r'.searched.toList := by
      rw [rest, hunread, harrived]
      simp [refill]
    exact ⟨hr', by rw [hnone]; simpa [Sound] using hr'⟩

end LineReader

end LogicCapture.Text
