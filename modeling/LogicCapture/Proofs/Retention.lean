import Mathlib
import LogicCapture.Proofs.LineStream

/-!
# What a reader of lines holds

Returned octets are released on a push, once they are at least half of what is held. Where fewer are
returned, less than twice the pending octets are held; so a push leaves at most twice the octets
pending before it and those of the piece (`retained_push_le`), whatever the calls before it were.
No other call makes what is held longer (`Call.retained_step_le`). With all complete lines taken
before each push only an open line is pending then, and what is held has a bound that does not grow
with the input (`held_le`).
-/

namespace LogicCapture.Text.LineReader

variable {r r' : LineReader}

/-! ## What one call holds -/

/-- A push leaves at most twice the octets that were pending, and those that it brings. -/
theorem retained_push_le (r : LineReader) (bytes : List UInt8) :
    (r.push bytes).retained ≤ 2 * r.pending + bytes.length := by
  show r.release.returned + (r.release.pending + bytes.length) ≤ _
  unfold release
  split
  · show 0 + (r.pending + bytes.length) ≤ _
    omega
  · next hhalf =>
    rw [retained] at hhalf
    omega

theorem retained_push_of_pending (h : r.pending = 0) (bytes : List UInt8) :
    (r.push bytes).retained = bytes.length := by
  have hle := r.retained_push_le bytes
  have hge : bytes.length ≤ (r.push bytes).retained := by
    show _ ≤ r.release.returned + (r.release.pending + bytes.length)
    omega
  omega

theorem retained_of_next {line : Option Decoded} (h : r.next = (line, r')) :
    r'.retained = r.retained := by
  have hretained := r.retained_next
  rwa [h] at hretained

theorem retained_take (r : LineReader) (n : Nat) : (r.take n).2.retained = r.retained := by
  fun_induction take r n with
  | case1 r => rfl
  | case2 r n r' heq => exact retained_of_next heq
  | case3 r n reason r' heq => exact retained_of_next heq
  | case4 r n line r' heq lines last htake ih =>
      rw [htake] at ih
      exact ih.trans (retained_of_next heq)

theorem retained_drain (r : LineReader) : r.drain.2.retained = r.retained := by
  fun_induction drain r with
  | case1 r r' heq => exact retained_of_next heq
  | case2 r reason r' heq => exact retained_of_next heq
  | case3 r line r' heq lines last hdrain ih =>
      rw [hdrain] at ih
      exact ih.trans (retained_of_next heq)

theorem retained_finish_le (r : LineReader) : r.finish.2.retained ≤ r.retained := by
  unfold finish
  split
  · exact Nat.le_refl _
  · exact Nat.zero_le _

theorem Call.retained_step_le (r : LineReader) {call : Call} (h : ∀ bytes, call ≠ .push bytes) :
    (call.step r).2.retained ≤ r.retained := by
  cases call with
  | push bytes => exact absurd rfl (h bytes)
  | next => exact r.retained_next.le
  | take n => exact (r.retained_take n).le
  | drain => exact r.retained_drain.le
  | finish => exact r.retained_finish_le

/-! ## Short lines -/

/-- No line is longer, with its line feed. -/
structure LinesWithin (limit : Nat) (bytes : List UInt8) : Prop where
  complete : ∀ line ∈ completeLines bytes, line.length + 1 ≤ limit
  last : (openLine bytes).length ≤ limit

/-- What a cut leaves open goes on to be a line. -/
theorem LinesWithin.length_openLine_le {limit : Nat} {first second : List UInt8}
    (h : LinesWithin limit (first ++ second)) : (openLine first).length ≤ limit := by
  by_cases hmem : newline ∈ second
  · obtain ⟨more, rest, rfl, hmore⟩ := List.eq_append_cons_of_mem hmem
    have hline : openLine first ++ more ∈ completeLines (first ++ (more ++ newline :: rest)) := by
      rw [completeLines_append, ← List.append_assoc,
        completeLines_line (List.not_mem_append (not_mem_openLine first) hmore)]
      exact List.mem_append_right _ List.mem_cons_self
    have hlimit := h.complete _ hline
    rw [List.length_append] at hlimit
    omega
  · have hlast := h.last
    rw [openLine_append,
      openLine_of_not_mem (List.not_mem_append (not_mem_openLine first) hmem),
      List.length_append] at hlast
    omega

def octets (calls : List Call) : List UInt8 :=
  calls.flatMap Call.bytes

/-- Octets are pushed only when all complete lines have been taken. -/
def Drains (r : LineReader) : List Call → Prop
  | [] => True
  | call :: calls =>
    ((∃ bytes, call = .push bytes) → newline ∉ r.rest) ∧ (call.step r).2.Drains calls

/-- What is left is the end of what has been pushed. -/
def LeftOf (r : LineReader) (bytes : List UInt8) : Prop := r.Sound ∧ r.rest <:+ bytes

theorem LeftOf.step {bytes : List UInt8} (h : r.LeftOf bytes) (call : Call) :
    (call.step r).2.LeftOf (bytes ++ call.bytes) := by
  obtain ⟨hsound, front, rfl⟩ := h
  by_cases hcall : call = .finish
  · subst hcall
    obtain ⟨hleft, hnone⟩ := hsound.finish
    exact ⟨hleft, by rw [Call.step, hnone]; exact List.nil_suffix⟩
  · obtain ⟨-, hturns⟩ := call.step_spec hsound hcall
    exact ⟨hturns.sound, by
      rw [List.append_assoc, hturns.rest]
      exact (List.suffix_append _ _).trans (List.suffix_append _ _)⟩

theorem length_le_of_suffix {rest bytes : List UInt8} (h : rest <:+ bytes)
    (hopen : newline ∉ rest) : rest.length ≤ (openLine bytes).length := by
  obtain ⟨front, rfl⟩ := h
  rw [openLine_append, openLine_of_not_mem (List.not_mem_append (not_mem_openLine front) hopen),
    List.length_append]
  exact Nat.le_add_left _ _

/-- With lines of this length and pieces of this size, what is held stays within the bound. -/
theorem retained_run_le {limit size : Nat} {before : List UInt8} (h : r.LeftOf before)
    (hheld : r.retained ≤ 2 * limit + size) {calls : List Call} (hdrains : r.Drains calls)
    (hsize : ∀ bytes, .push bytes ∈ calls → bytes.length ≤ size)
    (hlines : LinesWithin limit (before ++ octets calls)) :
    (r.run calls).2.retained ≤ 2 * limit + size := by
  induction calls generalizing r before with
  | nil => exact hheld
  | cons call calls ih =>
      obtain ⟨hnone, hrest⟩ := hdrains
      refine ih (h.step call) ?_ hrest (fun bytes hmem => hsize bytes (List.mem_cons_of_mem _ hmem))
        (by rwa [octets, List.flatMap_cons, ← List.append_assoc] at hlines)
      by_cases hpush : ∃ bytes, call = .push bytes
      · obtain ⟨bytes, rfl⟩ := hpush
        have hle := r.retained_push_le bytes
        have hpiece := hsize bytes List.mem_cons_self
        have hpending := (length_le_of_suffix h.2 (hnone ⟨bytes, rfl⟩)).trans
          hlines.length_openLine_le
        rw [length_rest] at hpending
        show (r.push bytes).retained ≤ _
        omega
      · exact (Call.retained_step_le r fun bytes heq => hpush ⟨bytes, heq⟩).trans hheld

/-! ## The memory of a reader -/

/-- What calls leave of a reader and of the memory that it stands for. -/
structure Compact (run : List (List Decoded) × LineReader)
    (memory : List (List Decoded) × Window) : Prop where
  results_eq : memory.1 = run.1
  pending_eq : memory.2.pending = run.2.pending
  length_octets : memory.2.octets.length = run.2.retained
  length_push : ∀ bytes, (memory.2.push bytes).octets.length = (run.2.push bytes).retained
  push_le : ∀ bytes,
    (memory.2.push bytes).octets.length ≤ 2 * memory.2.pending + bytes.length
  push_of_pending : memory.2.pending = 0 →
    ∀ bytes, (memory.2.push bytes).octets.length = bytes.length

theorem compact_run (codec : Codec) (calls : List Call) :
    Compact ((start codec).run calls) (runWindow codec {} calls) := by
  obtain ⟨hresults, hshows⟩ :
      (runWindow codec {} calls).1 = ((start codec).run calls).1
        ∧ Shows ((start codec).run calls).2 (runWindow codec {} calls).2 :=
    shows_run (shows_start codec) calls
  refine ⟨hresults, hshows.pending, hshows.length_octets, ?_, ?_, ?_⟩
  · exact fun bytes => (hshows.push bytes).length_octets
  · intro bytes
    rw [(hshows.push bytes).length_octets, hshows.pending]
    exact retained_push_le _ bytes
  · intro hpending bytes
    rw [(hshows.push bytes).length_octets]
    exact retained_push_of_pending (hshows.pending.symm.trans hpending) bytes

/-- After any calls a push leaves at most twice the octets pending and those that it brings, and
only these if nothing is pending. So if all complete lines are taken before each push, no more is
ever held than twice the longest line and the longest piece, however many the pieces are. -/
theorem held_le (codec : Codec) (calls : List Call) :
    Compact ((start codec).run calls) (runWindow codec {} calls)
      ∧ ∀ {limit size : Nat}, (∀ bytes, .push bytes ∈ calls → bytes.length ≤ size) →
        LinesWithin limit (octets calls) → (start codec).Drains calls →
          (runWindow codec {} calls).2.octets.length ≤ 2 * limit + size := by
  have hcompact := compact_run codec calls
  refine ⟨hcompact, fun hsize hlines hdrains => ?_⟩
  rw [hcompact.length_octets]
  exact retained_run_le ⟨sound_start codec, List.suffix_rfl⟩ (Nat.zero_le _) hdrains hsize hlines

/-- Two lines in two pieces, the second of which begins in the first piece. -/
def twoPieces : List Call :=
  [.push [0x61, newline, 0x62], .drain, .push [0x63, newline]]

/-- Behind the second piece, with no line taken from it yet, what is held is within the bound. -/
theorem held_le_twoPieces :
    (∀ bytes, .push bytes ∈ twoPieces → bytes.length ≤ 3) ∧ LinesWithin 3 (octets twoPieces)
      ∧ (start .utf8).Drains twoPieces
      ∧ (runWindow .utf8 {} twoPieces).2.octets.length ≤ 2 * 3 + 3 := by
  have hsize : ∀ bytes, .push bytes ∈ twoPieces → bytes.length ≤ 3 := by
    intro bytes hmem
    simp only [twoPieces, List.mem_cons, List.not_mem_nil, or_false, Call.push.injEq, reduceCtorEq,
      false_or] at hmem
    rcases hmem with rfl | rfl <;> decide
  have hlines : LinesWithin 3 (octets twoPieces) := ⟨by decide, by decide⟩
  have hdrains : (start .utf8).Drains twoPieces := by
    have hpiece : ∀ bytes, Call.drain ≠ .push bytes := nofun
    rw [twoPieces, Drains, Drains, Drains]
    exact ⟨fun _ => by decide, fun ⟨bytes, heq⟩ => absurd heq (hpiece bytes),
      fun _ => by decide +kernel, trivial⟩
  exact ⟨hsize, hlines, hdrains, (held_le .utf8 twoPieces).2 hsize hlines hdrains⟩

end LogicCapture.Text.LineReader
