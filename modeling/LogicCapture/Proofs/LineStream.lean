import Mathlib
import LogicCapture.Proofs.Window

/-!
# A reader of lines under any calls

Octets are pushed and lines are asked for in any order: one by one, some lines of a pass that is
left and taken up again later, or all there are. A call gives lines of those that are complete and
leaves the octets behind them (`Turns`), and calls one after another add up, until the end of the
input is asked for and all begins anew (`records_run`). So what has been given is the first complete
lines of all octets pushed so far, whatever the pieces are and whenever the returned octets are
released; no octet is lost, given twice or moved (`splits_run`).

Two readers with the same octets left give the same lines from then on (`alike_of_rest`). A reader
that has been asked for its last line is therefore as good as a new one, although it may still hold
octets that it has returned.
-/

namespace LogicCapture.Text

/-- The lines that a pass comes to: up to the first that the codec refuses, with this one. -/
def Codec.passed (codec : Codec) : List (List UInt8) → List (List UInt8)
  | [] => []
  | line :: lines => if (codec.decode line).isOk then line :: codec.passed lines else [line]

theorem Codec.passed_eq_self {codec : Codec} {lines : List (List UInt8)}
    (h : ∀ line ∈ lines, (codec.decode line).isOk = true) : codec.passed lines = lines := by
  induction lines with
  | nil => rfl
  | cons line lines ih =>
      obtain ⟨hline, hlines⟩ := List.forall_mem_cons.mp h
      rw [passed, if_pos hline, ih hlines]

namespace LineReader

/-! ## What one call gives -/

variable {r r' r'' : LineReader}

/-- Given these octets, a reader gives these lines and is left as the second one. -/
structure Turns (r : LineReader) (bytes : List UInt8) (lines : List (List UInt8))
    (r' : LineReader) : Prop where
  sound : r'.Sound
  codec : r'.codec = r.codec
  no_newline : ∀ line ∈ lines, newline ∉ line
  rest : r.rest ++ bytes = joinLines lines ++ r'.rest

theorem Turns.refl (h : r.Sound) : Turns r [] [] r where
  sound := h
  codec := rfl
  no_newline := List.forall_mem_nil _
  rest := List.append_nil _

theorem Turns.trans {bytes bytes' : List UInt8} {lines lines' : List (List UInt8)}
    (h : Turns r bytes lines r') (h' : Turns r' bytes' lines' r'') :
    Turns r (bytes ++ bytes') (lines ++ lines') r'' where
  sound := h'.sound
  codec := h'.codec.trans h.codec
  no_newline := List.forall_mem_append.mpr ⟨h.no_newline, h'.no_newline⟩
  rest := by
    calc r.rest ++ (bytes ++ bytes')
        = joinLines lines ++ (r'.rest ++ bytes') := by
          rw [← List.append_assoc, h.rest, List.append_assoc]
      _ = joinLines (lines ++ lines') ++ r''.rest := by
          rw [h'.rest, joinLines, joinLines, joinLines, List.flatMap_append, List.append_assoc]

theorem turns_push (h : r.Sound) (bytes : List UInt8) : Turns r bytes [] (r.push bytes) where
  sound := h.push bytes
  codec := r.codec_push bytes
  no_newline := List.forall_mem_nil _
  rest := (r.rest_push bytes).symm

theorem turns_next_some {line : Decoded} (h : r.Sound) (heq : r.next = (some line, r')) :
    ∃ bytes, line = r.codec.decode bytes ∧ completeLines r.rest = bytes :: completeLines r'.rest
      ∧ Turns r [] [bytes] r' := by
  obtain ⟨hr', bytes, hbytes, hline, hrest⟩ := h.next_some heq
  refine ⟨bytes, hline, by rw [hrest, completeLines_line hbytes], hr', codec_of_next heq,
    List.forall_mem_singleton.mpr hbytes, ?_⟩
  rw [List.append_nil, hrest, joinLines_cons]
  rfl

theorem turns_next_none (h : r.Sound) (heq : r.next = (none, r')) :
    completeLines r.rest = [] ∧ Turns r [] [] r' := by
  obtain ⟨hr', hopen⟩ := h.next_none heq
  have hrest := rest_next_none heq
  rw [hrest] at hopen
  refine ⟨completeLines_of_not_mem hopen, hr', codec_of_next heq, List.forall_mem_nil _, ?_⟩
  rw [List.append_nil, hrest]
  rfl

theorem Sound.next_eq (h : r.Sound) :
    r.next.1 = (completeLines r.rest).head?.map r.codec.decode := by
  rcases heq : r.next with ⟨_ | line, r'⟩
  · rw [(turns_next_none h heq).1]
    rfl
  · obtain ⟨bytes, rfl, hcomplete, -⟩ := turns_next_some h heq
    rw [hcomplete]
    rfl

theorem turns_take (h : r.Sound) (n : Nat) :
    (r.take n).1 = (r.codec.passed ((completeLines r.rest).take n)).map r.codec.decode
      ∧ Turns r [] (r.codec.passed ((completeLines r.rest).take n)) (r.take n).2 := by
  fun_induction take r n with
  | case1 r => exact ⟨rfl, Turns.refl h⟩
  | case2 r n r' heq =>
      obtain ⟨hnone, hturns⟩ := turns_next_none h heq
      rw [hnone]
      exact ⟨rfl, hturns⟩
  | case3 r n reason r' heq =>
      obtain ⟨bytes, hbytes, hcomplete, hturns⟩ := turns_next_some h heq
      rw [hcomplete, List.take_succ_cons, Codec.passed, ← hbytes]
      exact ⟨congrArg (fun line => [line]) hbytes, hturns⟩
  | case4 r n line r' heq lines last htake ih =>
      obtain ⟨bytes, hbytes, hcomplete, hturns⟩ := turns_next_some h heq
      obtain ⟨hlines, hlast⟩ := ih hturns.sound
      rw [htake, hturns.codec] at hlines hlast
      rw [hcomplete, List.take_succ_cons, Codec.passed, ← hbytes]
      exact ⟨congrArg₂ List.cons hbytes hlines, hturns.trans hlast⟩

theorem turns_drain (h : r.Sound) :
    r.drain.1 = (r.codec.passed (completeLines r.rest)).map r.codec.decode
      ∧ Turns r [] (r.codec.passed (completeLines r.rest)) r.drain.2 := by
  fun_induction drain r with
  | case1 r r' heq =>
      obtain ⟨hnone, hturns⟩ := turns_next_none h heq
      rw [hnone]
      exact ⟨rfl, hturns⟩
  | case2 r reason r' heq =>
      obtain ⟨bytes, hbytes, hcomplete, hturns⟩ := turns_next_some h heq
      rw [hcomplete, Codec.passed, ← hbytes]
      exact ⟨congrArg (fun line => [line]) hbytes, hturns⟩
  | case3 r line r' heq lines last hdrain ih =>
      obtain ⟨bytes, hbytes, hcomplete, hturns⟩ := turns_next_some h heq
      obtain ⟨hlines, hlast⟩ := ih hturns.sound
      rw [hdrain, hturns.codec] at hlines hlast
      rw [hcomplete, Codec.passed, ← hbytes]
      exact ⟨congrArg₂ List.cons hbytes hlines, hturns.trans hlast⟩

/-- When all complete lines are given, the open one is left. -/
theorem rest_drain (h : r.Sound)
    (hpassed : r.codec.passed (completeLines r.rest) = completeLines r.rest) :
    r.drain.2.rest = openLine r.rest := by
  obtain ⟨-, hturns⟩ := turns_drain h
  rw [hpassed] at hturns
  have hrest : r.rest = joinLines (completeLines r.rest) ++ r.drain.2.rest := by
    have hboth := hturns.rest
    rwa [List.append_nil] at hboth
  have hopen : newline ∉ r.drain.2.rest := by
    have hcomplete := congrArg completeLines hrest
    rw [completeLines_joinLines hturns.no_newline] at hcomplete
    exact completeLines_eq_nil_iff.mp (List.self_eq_append_right.mp hcomplete)
  calc r.drain.2.rest
      = openLine r.drain.2.rest := (openLine_of_not_mem hopen).symm
    _ = openLine (joinLines (completeLines r.rest) ++ r.drain.2.rest) :=
        (openLine_joinLines hturns.no_newline _).symm
    _ = openLine r.rest := congrArg openLine hrest.symm

theorem finish_fst (r : LineReader) :
    r.finish.1 = if r.rest = [] then none else some (r.codec.decode r.rest) := by
  simp only [finish, ← length_rest, List.length_eq_zero_iff]
  split <;> rfl

theorem Sound.finish (h : r.Sound) : r.finish.2.Sound ∧ r.finish.2.rest = [] := by
  unfold LineReader.finish
  split
  · next hzero => exact ⟨h, List.eq_nil_of_length_eq_zero (r.length_rest.trans hzero)⟩
  · exact ⟨sound_start _, rfl⟩

/-! ## Any calls one after another -/

namespace Call

def bytes : Call → List UInt8
  | push bytes => bytes
  | next | take _ | drain | finish => []

/-- The lines that a call gives of those that are complete. -/
def lines (codec : Codec) (complete : List (List UInt8)) : Call → List (List UInt8)
  | push _ | finish => []
  | next => complete.head?.toList
  | take n => codec.passed (complete.take n)
  | drain => codec.passed complete

theorem step_spec (h : r.Sound) {call : Call} (hcall : call ≠ .finish) :
    (call.step r).1 = (call.lines r.codec (completeLines r.rest)).map r.codec.decode
      ∧ Turns r call.bytes (call.lines r.codec (completeLines r.rest)) (call.step r).2 := by
  cases call with
  | push bytes => exact ⟨rfl, turns_push h bytes⟩
  | take n => exact turns_take h n
  | drain => exact turns_drain h
  | finish => exact absurd rfl hcall
  | next =>
      simp only [step, lines, bytes]
      rcases heq : r.next with ⟨_ | line, r'⟩
      · obtain ⟨hnone, hturns⟩ := turns_next_none h heq
        rw [hnone]
        exact ⟨rfl, hturns⟩
      · obtain ⟨bytes, rfl, hcomplete, hturns⟩ := turns_next_some h heq
        rw [hcomplete]
        exact ⟨rfl, hturns⟩

end Call

/-- The octets that have been pushed and the lines that have been given, since the end of the input
was last asked for. -/
structure History where
  pushed : List UInt8 := []
  given : List Decoded := []

namespace History

def add (h : History) : Call × List Decoded → History
  | (.finish, _) => {}
  | (call, lines) => { pushed := h.pushed ++ call.bytes, given := h.given ++ lines }

/-- The history that calls make with what they give. -/
def after (h : History) (calls : List Call) (results : List (List Decoded)) : History :=
  (calls.zip results).foldl add h

theorem add_of_ne {call : Call} (hcall : call ≠ .finish) (h : History) (lines : List Decoded) :
    h.add (call, lines) = { pushed := h.pushed ++ call.bytes, given := h.given ++ lines } := by
  cases call with
  | finish => exact absurd rfl hcall
  | push | next | take | drain => rfl

end History

/-- The lines given are those of the octets pushed, and the rest of these is left. -/
structure Records (codec : Codec) (h : History) (r : LineReader) (lines : List (List UInt8)) :
    Prop where
  sound : r.Sound
  codec_eq : r.codec = codec
  no_newline : ∀ line ∈ lines, newline ∉ line
  given : h.given = lines.map codec.decode
  pushed : h.pushed = joinLines lines ++ r.rest

theorem records_start (codec : Codec) : Records codec {} (start codec) [] where
  sound := sound_start codec
  codec_eq := rfl
  no_newline := List.forall_mem_nil _
  given := rfl
  pushed := rfl

theorem Records.step {codec : Codec} {h : History} {lines : List (List UInt8)}
    (hr : Records codec h r lines) (call : Call) :
    ∃ lines', Records codec (h.add (call, (call.step r).1)) (call.step r).2 lines' := by
  by_cases hcall : call = .finish
  · subst hcall
    obtain ⟨hsound, hrest⟩ := hr.sound.finish
    exact ⟨[], hsound, (Call.codec_step r .finish).trans hr.codec_eq, List.forall_mem_nil _, rfl,
      hrest.symm⟩
  · obtain ⟨hlines, hturns⟩ := call.step_spec hr.sound hcall
    rw [History.add_of_ne hcall]
    refine ⟨_, hturns.sound, hturns.codec.trans hr.codec_eq,
      List.forall_mem_append.mpr ⟨hr.no_newline, hturns.no_newline⟩, ?_, ?_⟩
    · rw [hr.given, hlines, hr.codec_eq, List.map_append]
    · rw [hr.pushed, List.append_assoc, hturns.rest, joinLines, joinLines, joinLines,
        List.flatMap_append, List.append_assoc]

theorem records_run {codec : Codec} {h : History} {lines : List (List UInt8)}
    (hr : Records codec h r lines) (calls : List Call) :
    ∃ lines', Records codec (h.after calls (r.run calls).1) (r.run calls).2 lines' := by
  induction calls generalizing r h lines with
  | nil => exact ⟨lines, hr⟩
  | cons call calls ih =>
      obtain ⟨lines', hstep⟩ := hr.step call
      exact ih hstep

/-! ## Readers with the same octets left -/

/-- No calls tell the two readers apart. -/
def Alike (r r' : LineReader) : Prop :=
  ∀ calls, (r.run calls).1 = (r'.run calls).1
    ∧ (r.run calls).2.pending = (r'.run calls).2.pending

theorem alike_of_rest (h : r.Sound) (h' : r'.Sound) (hcodec : r.codec = r'.codec)
    (hrest : r.rest = r'.rest) : Alike r r' := by
  intro calls
  induction calls generalizing r r' with
  | nil => exact ⟨rfl, by rw [run, run, ← length_rest, hrest, length_rest]⟩
  | cons call calls ih =>
      have hcodecs : (call.step r).2.codec = (call.step r').2.codec := by
        rw [call.codec_step, call.codec_step, hcodec]
      rw [run_cons, run_cons]
      by_cases hcall : call = .finish
      · subst hcall
        obtain ⟨hsound, hnone⟩ := h.finish
        obtain ⟨hsound', hnone'⟩ := h'.finish
        obtain ⟨hothers, hpending⟩ := ih hsound hsound' hcodecs (hnone.trans hnone'.symm)
        refine ⟨congrArg₂ List.cons (congrArg Option.toList ?_) hothers, hpending⟩
        rw [finish_fst, finish_fst, hrest, hcodec]
      · obtain ⟨hlines, hturns⟩ := call.step_spec h hcall
        obtain ⟨hlines', hturns'⟩ := call.step_spec h' hcall
        rw [← hrest, ← hcodec] at hlines' hturns'
        have hleft : (call.step r).2.rest = (call.step r').2.rest :=
          List.append_cancel_left (hturns.rest.symm.trans (hrest ▸ hturns'.rest))
        obtain ⟨hothers, hpending⟩ := ih hturns.sound hturns'.sound hcodecs hleft
        exact ⟨congrArg₂ List.cons (hlines.trans hlines'.symm) hothers, hpending⟩

/-- A reader that has given its last line is as good as a new one. -/
theorem alike_finish (h : r.Sound) : Alike r.finish.2 (start r.codec) := by
  obtain ⟨hsound, hrest⟩ := h.finish
  exact alike_of_rest hsound (sound_start _) (Call.codec_step r .finish) hrest

/-! ## All calls of a new reader -/

/-- The two marks lie in the octets that are held: the first one in front of what is not yet
returned, the second one no further than the first line feed behind it. -/
structure Marked (w : Window) (rest : List UInt8) : Prop where
  returned_le : w.returned ≤ w.searched
  searched_le : w.searched ≤ w.octets.length
  drop_returned : w.octets.drop w.returned = rest
  no_newline : newline ∉ (w.octets.take w.searched).drop w.returned

theorem Shows.marked {w : Window} (h : Shows r w) : Marked w r.rest where
  returned_le := by
    rw [h.returned, h.searched]
    exact Nat.le_add_right _ _
  searched_le := by
    have hpending := r.pending_eq
    rw [h.searched, h.length_octets, scanned, retained]
    omega
  drop_returned := h.drop_returned
  no_newline := by
    rw [List.drop_take, h.drop_returned, h.returned, h.searched, scanned, Nat.add_sub_cancel_left,
      rest, List.append_assoc, List.take_left' Array.length_toList, Array.mem_toList_iff]
    exact h.sound

/-- What a reader has given of these octets, and what it has left of them. -/
structure Splits (codec : Codec) (h : History) (r : LineReader) : Prop where
  given_eq : h.given = ((completeLines h.pushed).take h.given.length).map codec.decode
  pushed_eq : h.pushed = joinLines ((completeLines h.pushed).take h.given.length) ++ r.rest
  pending_eq : r.pending = r.rest.length
  next_eq : r.next.1 = (completeLines h.pushed)[h.given.length]?.map codec.decode
  next_none_iff : r.next.1 = none ↔ newline ∉ r.rest
  finish_eq : r.finish.1 = if r.rest = [] then none else some (codec.decode r.rest)
  alike_start : Alike r.finish.2 (start codec)

theorem Records.splits {codec : Codec} {h : History} {lines : List (List UInt8)}
    (hr : Records codec h r lines) : Splits codec h r := by
  have hlength : h.given.length = lines.length := by rw [hr.given, List.length_map]
  have hcomplete : completeLines h.pushed = lines ++ completeLines r.rest := by
    rw [hr.pushed, completeLines_joinLines hr.no_newline]
  have htake : (completeLines h.pushed).take h.given.length = lines := by
    rw [hcomplete, List.take_left' hlength.symm]
  refine ⟨?_, ?_, r.length_rest.symm, ?_, ?_, ?_, ?_⟩
  · rw [htake]
    exact hr.given
  · rw [htake]
    exact hr.pushed
  · rw [hr.sound.next_eq, hr.codec_eq, hcomplete, hlength,
      List.getElem?_append_right (Nat.le_refl _), Nat.sub_self, List.head?_eq_getElem?]
  · rw [hr.sound.next_eq, Option.map_eq_none_iff, List.head?_eq_none_iff,
      completeLines_eq_nil_iff]
  · rw [finish_fst, hr.codec_eq]
  · rw [← hr.codec_eq]
    exact alike_finish hr.sound

/-- Whatever the calls are, the lines given are the first complete ones of all octets pushed, one
by one and each decoded, and exactly the octets behind their line feeds are left. The memory that
the reader stands for gives the same, and its marks are where they should be. -/
theorem splits_run (codec : Codec) (calls : List Call) :
    Splits codec (History.after {} calls ((start codec).run calls).1) ((start codec).run calls).2
      ∧ (runWindow codec {} calls).1 = ((start codec).run calls).1
      ∧ Marked (runWindow codec {} calls).2 ((start codec).run calls).2.rest := by
  obtain ⟨lines, hrecords⟩ := records_run (records_start codec) calls
  obtain ⟨hsame, hshows⟩ :
      (runWindow codec {} calls).1 = ((start codec).run calls).1
        ∧ Shows ((start codec).run calls).2 (runWindow codec {} calls).2 :=
    shows_run (shows_start codec) calls
  exact ⟨hrecords.splits, hsame, hshows.marked⟩

end LineReader

end LogicCapture.Text
