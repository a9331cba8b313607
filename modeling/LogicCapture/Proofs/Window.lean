import Mathlib
import LogicCapture.Proofs.Lines

/-!
# A reader of lines and its memory

A reader keeps its octets in parts, so that none is looked at twice. What it stands for is one piece
of memory with two marks, up to where its octets are returned and up to where they are searched
(`Window`). Each call of the reader does to its parts what it does to the memory, so the two never
differ in what they give, whatever the calls are and in whatever order they come (`shows_run`). What
is said of a reader in terms of its parts can therefore be said of the memory and its marks.
-/

namespace LogicCapture.Text

/-! ## Octets held in one piece -/

/-- The octets that are held, with two marks: as many are returned, and as many are searched for a
line feed. -/
structure Window where
  octets : List UInt8 := []
  returned : Nat := 0
  searched : Nat := 0
  deriving Repr, DecidableEq

namespace Window

def pending (w : Window) : Nat :=
  w.octets.length - w.returned

/-- Let go of the returned octets once they are at least half of all that is held. -/
def release (w : Window) : Window :=
  if 0 < w.returned ∧ w.octets.length ≤ 2 * w.returned then
    { octets := w.octets.drop w.returned, returned := 0, searched := w.searched - w.returned }
  else w

def push (w : Window) (bytes : List UInt8) : Window :=
  { w.release with octets := w.release.octets ++ bytes }

/-- The next complete line: the octets from the first mark up to the first line feed that lies
behind both marks. -/
def next (codec : Codec) (w : Window) : Option Decoded × Window :=
  let first := max w.searched w.returned
  match (w.octets.drop first).findIdx? (· == newline) with
  | none => (none, { w with searched := w.octets.length })
  | some i =>
    let line := (w.octets.take (first + i)).drop w.returned
    (some (codec.decode line),
      { w with returned := first + i + 1, searched := first + i + 1 })

theorem pending_next {codec : Codec} {w w' : Window} {line : Decoded}
    (h : w.next codec = (some line, w')) : w'.pending < w.pending := by
  unfold next at h
  dsimp only at h
  split at h
  · cases (Prod.mk.inj h).1
  · next i hfound =>
    obtain ⟨-, rfl⟩ := Prod.mk.inj h
    obtain ⟨hi, -⟩ := List.findIdx?_eq_some_iff_getElem.mp hfound
    rw [List.length_drop] at hi
    unfold pending
    dsimp only
    omega

def take (codec : Codec) (w : Window) : Nat → List Decoded × Window
  | 0 => ([], w)
  | n + 1 =>
    match w.next codec with
    | (none, w) => ([], w)
    | (some (.error reason), w) => ([.error reason], w)
    | (some (.ok line), w) =>
      let (lines, w) := w.take codec n
      (.ok line :: lines, w)

def drain (codec : Codec) (w : Window) : List Decoded × Window :=
  match _h : w.next codec with
  | (none, w') => ([], w')
  | (some (.error reason), w') => ([.error reason], w')
  | (some (.ok line), w') =>
    let (lines, w') := w'.drain codec
    (.ok line :: lines, w')
termination_by w.pending
decreasing_by exact pending_next (by assumption)

def finish (codec : Codec) (w : Window) : Option Decoded × Window :=
  if w.pending = 0 then (none, w)
  else (some (codec.decode (w.octets.drop w.returned)), {})

end Window

namespace LineReader

variable {r r' : LineReader} {w w' : Window}

/-! ## Calls -/

/-- One call of a reader of lines. A pass over its lines that is left after `n` of them and taken up
again, maybe with octets pushed in between, is several calls. -/
inductive Call where
  | push (bytes : List UInt8)
  | next
  | take (n : Nat)
  | drain
  | finish
  deriving Repr, DecidableEq

namespace Call

def step (r : LineReader) : Call → List Decoded × LineReader
  | push bytes => ([], r.push bytes)
  | next => (r.next.1.toList, r.next.2)
  | take n => r.take n
  | drain => r.drain
  | finish => (r.finish.1.toList, r.finish.2)

def stepWindow (codec : Codec) (w : Window) : Call → List Decoded × Window
  | push bytes => ([], w.push bytes)
  | next => ((w.next codec).1.toList, (w.next codec).2)
  | take n => w.take codec n
  | drain => w.drain codec
  | finish => ((w.finish codec).1.toList, (w.finish codec).2)

end Call

/-- The lines that each call gives, and the reader behind all calls. -/
def run (r : LineReader) : List Call → List (List Decoded) × LineReader
  | [] => ([], r)
  | call :: calls =>
    let (lines, r) := call.step r
    let (others, r) := r.run calls
    (lines :: others, r)

def runWindow (codec : Codec) (w : Window) : List Call → List (List Decoded) × Window
  | [] => ([], w)
  | call :: calls =>
    let (lines, w) := call.stepWindow codec w
    let (others, w) := runWindow codec w calls
    (lines :: others, w)

theorem run_cons (r : LineReader) (call : Call) (calls : List Call) :
    r.run (call :: calls)
      = ((call.step r).1 :: ((call.step r).2.run calls).1, ((call.step r).2.run calls).2) := rfl

/-! ## What a reader holds -/

/-- How far what is held has been searched for a line feed, from its beginning on. -/
def scanned (r : LineReader) : Nat :=
  r.returned + r.searched.size

theorem retained_search (r : LineReader) : r.search.2.retained = r.retained := by
  have hsplit := r.pending_split
  unfold search
  split
  · rfl
  · next feed unread hdrop =>
    rw [hdrop, List.length_cons] at hsplit
    simp only [retained]
    omega

theorem retained_next (r : LineReader) : r.next.2.retained = r.retained := by
  unfold next
  split
  · next hsearch => simpa [hsearch] using r.retained_search
  · next left hsearch =>
    have hleft := r.retained_search
    rw [hsearch] at hleft
    rw [retained_search]
    exact hleft

/-! ## A reader stands for its memory -/

/-- The reader stands for these octets with these marks. -/
structure Shows (r : LineReader) (w : Window) : Prop where
  sound : r.Sound
  returned : w.returned = r.returned
  searched : w.searched = r.scanned
  length_octets : w.octets.length = r.retained
  drop_returned : w.octets.drop w.returned = r.rest

theorem shows_start (codec : Codec) : Shows (start codec) {} where
  sound := sound_start codec
  returned := rfl
  searched := rfl
  length_octets := rfl
  drop_returned := rfl

theorem Shows.pending (h : Shows r w) : w.pending = r.pending := by
  rw [Window.pending, ← List.length_drop, h.drop_returned, length_rest]

theorem Shows.release (h : Shows r w) : Shows r.release w.release := by
  obtain ⟨hsound, hreturned, hsearched, hlength, hrest⟩ := h
  unfold LineReader.release Window.release
  rw [hreturned, hlength]
  by_cases hhalf : r.retained ≤ 2 * r.returned
  · rw [if_pos hhalf]
    have hpending : r.retained = r.returned + r.pending := rfl
    have hscanned : r.scanned = r.returned + r.searched.size := rfl
    rcases Nat.eq_zero_or_pos r.returned with hzero | hpos
    · rw [if_neg (by omega)]
      refine ⟨hsound, hreturned.trans hzero, ?_, ?_, hrest⟩
      · show w.searched = 0 + r.searched.size
        omega
      · show w.octets.length = 0 + r.pending
        omega
    · rw [if_pos ⟨hpos, hhalf⟩]
      refine ⟨hsound, rfl, ?_, ?_, ?_⟩
      · show w.searched - r.returned = 0 + r.searched.size
        omega
      · show (w.octets.drop r.returned).length = 0 + r.pending
        rw [List.length_drop]
        omega
      · show (w.octets.drop r.returned).drop 0 = r.rest
        rw [List.drop_zero, ← hrest, hreturned]
  · rw [if_neg hhalf, if_neg fun h => hhalf h.2]
    exact ⟨hsound, hreturned, hsearched, hlength, hrest⟩

theorem Shows.returned_le (h : Shows r w) : w.returned ≤ w.octets.length := by
  rw [h.returned, h.length_octets]
  exact Nat.le_add_right _ _

theorem Shows.push (h : Shows r w) (bytes : List UInt8) : Shows (r.push bytes) (w.push bytes) := by
  have hr := h.release
  refine ⟨h.sound.push bytes, hr.returned, hr.searched, ?_, ?_⟩
  · show (w.release.octets ++ bytes).length
      = r.release.returned + (r.release.pending + bytes.length)
    rw [List.length_append, hr.length_octets, retained, Nat.add_assoc]
  · show (w.release.octets ++ bytes).drop w.release.returned = (r.push bytes).rest
    rw [List.drop_append_of_le_length hr.returned_le, hr.drop_returned, rest_push, rest_release]

theorem findIdx?_of_not_mem {bytes : List UInt8} (h : newline ∉ bytes) :
    bytes.findIdx? (· == newline) = none :=
  List.findIdx?_eq_none_iff.mpr fun _ hb => beq_false_of_ne fun heq => h (heq ▸ hb)

theorem findIdx?_line {line : List UInt8} (h : newline ∉ line) (rest : List UInt8) :
    (line ++ newline :: rest).findIdx? (· == newline) = some line.length := by
  rw [List.findIdx?_append, findIdx?_of_not_mem h, Option.none_or, List.findIdx?_cons,
    if_pos (beq_self_eq_true newline)]
  simp

theorem Shows.drop_first (h : Shows r w) :
    max w.searched w.returned = r.scanned
      ∧ w.octets.drop r.scanned = r.rest.drop r.searched.size := by
  have hscanned : r.scanned = r.returned + r.searched.size := rfl
  refine ⟨?_, ?_⟩
  · rw [h.searched, h.returned]
    omega
  · rw [← h.drop_returned, List.drop_drop, h.returned, hscanned]

theorem Sound.searched_prefix (h : r.Sound) {line rest : List UInt8}
    (hrest : r.rest = line ++ newline :: rest) : r.searched.toList <+: line := by
  rw [LineReader.rest, List.append_assoc] at hrest
  rcases List.append_eq_append_iff.mp hrest with ⟨more, hline, -⟩ | ⟨more, hsearched, hmore⟩
  · exact ⟨more, hline.symm⟩
  · cases more with
    | nil => exact ⟨[], by simpa using hsearched⟩
    | cons b more =>
        obtain rfl := (List.cons.inj hmore).1
        have hmem : newline ∈ r.searched.toList := hsearched ▸ by simp
        exact absurd (Array.mem_toList_iff.mp hmem) h

theorem searched_search_some {line : Decoded} (h : r.search = (some line, r')) :
    r'.searched = #[] := by
  unfold search at h
  split at h
  · cases (Prod.mk.inj h).1
  · obtain ⟨-, rfl⟩ := Prod.mk.inj h
    rfl

theorem scanned_next_some {line : Decoded} (h : r.next = (some line, r')) :
    r'.scanned = r'.returned := by
  have hsearched : r'.searched = #[] := by
    unfold next at h
    split at h
    · next hsearch =>
      obtain ⟨-, rfl⟩ := Prod.mk.inj h
      exact searched_search_some hsearch
    · exact searched_search_some h
  rw [scanned, hsearched]
  rfl

theorem Sound.scanned_next_none (h : r.Sound) (heq : r.next = (none, r')) :
    r'.scanned = r'.retained := by
  unfold LineReader.next at heq
  split at heq
  · cases (Prod.mk.inj heq).1
  · next left hsearch =>
    have hrefill : left.refill.Sound := (h.search_none hsearch).1
    obtain ⟨-, hunread, harrived⟩ := hrefill.search_none heq
    have hpending := r'.pending_eq
    rw [hunread, harrived] at hpending
    rw [scanned, retained, hpending]
    rfl

theorem Shows.next_none (h : Shows r w) (heq : r.next = (none, r')) :
    (w.next r.codec).1 = none ∧ Shows r' (w.next r.codec).2 := by
  obtain ⟨hfirst, hdrop⟩ := h.drop_first
  obtain ⟨hr', hopen⟩ := h.sound.next_none heq
  have hrest := rest_next_none heq
  have hscanned := h.sound.scanned_next_none heq
  have hretained := r.retained_next
  rw [heq] at hretained
  dsimp only at hretained
  have hreturned : r'.returned = r.returned := by
    have hlength := congrArg List.length hrest
    rw [length_rest, length_rest] at hlength
    simp only [retained] at hretained
    omega
  have hfound : (w.octets.drop r.scanned).findIdx? (· == newline) = none := by
    rw [hdrop, ← hrest]
    exact findIdx?_of_not_mem fun hmem => hopen (List.mem_of_mem_drop hmem)
  have hwindow : w.next r.codec = (none, { w with searched := w.octets.length }) := by
    simp only [Window.next, hfirst, hfound]
  rw [hwindow]
  exact ⟨rfl, hr', h.returned.trans hreturned.symm,
    h.length_octets.trans (hretained.symm.trans hscanned.symm),
    h.length_octets.trans hretained.symm, h.drop_returned.trans hrest.symm⟩

theorem Shows.next_some {line : Decoded} (h : Shows r w) (heq : r.next = (some line, r')) :
    (w.next r.codec).1 = some line ∧ Shows r' (w.next r.codec).2 := by
  obtain ⟨hfirst, hdrop⟩ := h.drop_first
  obtain ⟨hr', bytes, hbytes, hline, hrest⟩ := h.sound.next_some heq
  obtain ⟨more, hmore⟩ := h.sound.searched_prefix hrest
  have hscanned := scanned_next_some heq
  have hretained := r.retained_next
  rw [heq] at hretained
  dsimp only at hretained
  have hreturned : r'.returned = r.returned + bytes.length + 1 := by
    have hlength := congrArg List.length hrest
    rw [length_rest, List.length_append, List.length_cons, length_rest] at hlength
    simp only [retained] at hretained
    omega
  -- the line feed is found as far behind the first mark as the line is long
  have hfound : (w.octets.drop r.scanned).findIdx? (· == newline) = some more.length := by
    have hmore' : newline ∉ more := fun hmem => hbytes (hmore ▸ List.mem_append_right _ hmem)
    rw [hdrop, hrest, ← hmore, List.append_assoc, ← Array.length_toList, List.drop_left]
    exact findIdx?_line hmore' _
  have hfeed : r.scanned + more.length = r.returned + bytes.length := by
    rw [scanned, ← hmore, List.length_append, r.searched.length_toList, Nat.add_assoc]
  have hcut : (w.octets.take (r.returned + bytes.length)).drop w.returned = bytes := by
    rw [h.returned, List.drop_take, Nat.add_sub_cancel_left, ← h.returned, h.drop_returned, hrest,
      List.take_left]
  have hwindow : w.next r.codec = (some (r.codec.decode bytes),
      { w with returned := r'.returned, searched := r'.returned }) := by
    simp only [Window.next, hfirst, hfound, hfeed, hcut, hreturned]
  rw [hwindow]
  refine ⟨by rw [hline], hr', rfl, hscanned.symm, h.length_octets.trans hretained.symm, ?_⟩
  show w.octets.drop r'.returned = r'.rest
  rw [hreturned, Nat.add_assoc, ← List.drop_drop, ← h.returned, h.drop_returned, hrest]
  simp

theorem Shows.next (h : Shows r w) :
    (w.next r.codec).1 = r.next.1 ∧ Shows r.next.2 (w.next r.codec).2 := by
  rcases heq : r.next with ⟨_ | line, r'⟩
  · exact h.next_none heq
  · exact h.next_some heq

theorem Shows.finish (h : Shows r w) :
    (w.finish r.codec).1 = r.finish.1 ∧ Shows r.finish.2 (w.finish r.codec).2 := by
  unfold Window.finish LineReader.finish
  rw [h.pending]
  split
  · exact ⟨rfl, h⟩
  · rw [h.drop_returned]
    exact ⟨rfl, shows_start r.codec⟩

theorem codec_of_next {line : Option Decoded} (h : r.next = (line, r')) : r'.codec = r.codec := by
  have hcodec := r.next_codec
  rwa [h] at hcodec

/-- What a reader gives next its memory gives, and what is left of the two goes together again. -/
theorem Shows.exists_next (h : Shows r w) {line : Option Decoded} (heq : r.next = (line, r')) :
    ∃ w', w.next r.codec = (line, w') ∧ Shows r' w' ∧ r'.codec = r.codec := by
  obtain ⟨hline, hleft⟩ := h.next
  rw [heq] at hline hleft
  exact ⟨_, Prod.ext hline rfl, hleft, codec_of_next heq⟩

theorem Shows.take (h : Shows r w) (n : Nat) :
    (w.take r.codec n).1 = (r.take n).1 ∧ Shows (r.take n).2 (w.take r.codec n).2 := by
  fun_induction LineReader.take r n generalizing w with
  | case1 r => exact ⟨rfl, h⟩
  | case2 r n r' heq =>
      obtain ⟨w', hnext, hleft, -⟩ := h.exists_next heq
      rw [Window.take, hnext]
      exact ⟨rfl, hleft⟩
  | case3 r n reason r' heq =>
      obtain ⟨w', hnext, hleft, -⟩ := h.exists_next heq
      rw [Window.take, hnext]
      exact ⟨rfl, hleft⟩
  | case4 r n line r' heq lines last htake ih =>
      obtain ⟨w', hnext, hleft, hcodec⟩ := h.exists_next heq
      obtain ⟨hlines, hlast⟩ := ih hleft
      rw [htake, hcodec] at hlines hlast
      rw [Window.take, hnext]
      exact ⟨congrArg _ hlines, hlast⟩

theorem Shows.drain (h : Shows r w) :
    (w.drain r.codec).1 = r.drain.1 ∧ Shows r.drain.2 (w.drain r.codec).2 := by
  fun_induction LineReader.drain r generalizing w with
  | case1 r r' heq =>
      obtain ⟨w', hnext, hleft, -⟩ := h.exists_next heq
      rw [Window.drain, hnext]
      exact ⟨rfl, hleft⟩
  | case2 r reason r' heq =>
      obtain ⟨w', hnext, hleft, -⟩ := h.exists_next heq
      rw [Window.drain, hnext]
      exact ⟨rfl, hleft⟩
  | case3 r line r' heq lines last hdrain ih =>
      obtain ⟨w', hnext, hleft, hcodec⟩ := h.exists_next heq
      obtain ⟨hlines, hlast⟩ := ih hleft
      rw [hdrain, hcodec] at hlines hlast
      rw [Window.drain, hnext]
      exact ⟨congrArg _ hlines, hlast⟩

theorem Shows.step (h : Shows r w) (call : Call) :
    (call.stepWindow r.codec w).1 = (call.step r).1
      ∧ Shows (call.step r).2 (call.stepWindow r.codec w).2 := by
  cases call with
  | push bytes => exact ⟨rfl, h.push bytes⟩
  | next => exact ⟨congrArg Option.toList h.next.1, h.next.2⟩
  | take n => exact h.take n
  | drain => exact h.drain
  | finish => exact ⟨congrArg Option.toList h.finish.1, h.finish.2⟩

/-! ## Runs -/

theorem codec_take (r : LineReader) (n : Nat) : (r.take n).2.codec = r.codec := by
  fun_induction take r n with
  | case1 r => rfl
  | case2 r n r' heq => exact codec_of_next heq
  | case3 r n reason r' heq => exact codec_of_next heq
  | case4 r n line r' heq lines last htake ih =>
      rw [htake] at ih
      exact ih.trans (codec_of_next heq)

theorem codec_drain (r : LineReader) : r.drain.2.codec = r.codec := by
  fun_induction drain r with
  | case1 r r' heq => exact codec_of_next heq
  | case2 r reason r' heq => exact codec_of_next heq
  | case3 r line r' heq lines last hdrain ih =>
      rw [hdrain] at ih
      exact ih.trans (codec_of_next heq)

theorem Call.codec_step (r : LineReader) (call : Call) : (call.step r).2.codec = r.codec := by
  cases call with
  | push bytes => exact r.codec_push bytes
  | next => exact r.next_codec
  | take n => exact r.codec_take n
  | drain => exact r.codec_drain
  | finish =>
      simp only [step, LineReader.finish]
      split <;> rfl

/-- A reader gives what its memory gives, whatever the calls are. -/
theorem shows_run (h : Shows r w) (calls : List Call) :
    (runWindow r.codec w calls).1 = (r.run calls).1
      ∧ Shows (r.run calls).2 (runWindow r.codec w calls).2 := by
  induction calls generalizing r w with
  | nil => exact ⟨rfl, h⟩
  | cons call calls ih =>
      obtain ⟨hlines, hstep⟩ := h.step call
      obtain ⟨hothers, hrun⟩ := ih hstep
      rw [call.codec_step] at hothers hrun
      exact ⟨congrArg₂ List.cons hlines hothers, hrun⟩

end LineReader

end LogicCapture.Text
