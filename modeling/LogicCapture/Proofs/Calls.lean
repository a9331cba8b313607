import Mathlib
import LogicCapture.Proofs.Ledger
import LogicCapture.Proofs.Recovery

/-!
# Whatever a reader is asked

A reader can be given octets or a line, or be told that the input ends, in any order and also behind
a failure. Each call comes to some lines and takes in those before the first that cannot be read
(`Call.outcome_step`). The lines that all calls have taken in can be read one by one without a
failure, and what the session has written down is their rows (`calls_books`).
-/

namespace LogicCapture.Csv

open Text (Decoded completeLines)
open Trace (Store)

/-! ## Lines that are taken in -/

namespace Session

/-- The lines before the first that cannot be decoded or read. -/
def readable (s : Session) : List Decoded → List String
  | [] => []
  | .error _ :: _ => []
  | .ok line :: lines =>
    match takeLine line s with
    | .ok () s => line :: s.readable lines
    | .error _ _ => []

theorem readAll_readable (s : Session) (lines : List Decoded) :
    s.readAll (s.readable lines) = (none, (s.readDecoded lines).2) := by
  induction lines generalizing s with
  | nil => rfl
  | cons line lines ih =>
      cases line with
      | error reason => rfl
      | ok line =>
          rw [readable, readDecoded, takeDecoded]
          cases hline : takeLine line s with
          | ok _ s' =>
              dsimp only
              rw [readAll, hline]
              exact ih s'
          | error failure s' => rw [takeLine_error hline, readAll]

end Session

namespace Reader

/-! ## Calls -/

inductive Call where
  | push (bytes : List UInt8)
  | line (text : String)
  | finish

namespace Call

def step : Call → EStateM Failure Reader Unit
  | .push bytes => Reader.push bytes
  | .line text => readLine (.ok text)
  | .finish => Reader.finish

/-- The lines that a call comes to: those that the octets complete, the one that is given, or all
that is left as one line. -/
def lines (reader : Reader) : Call → List Decoded
  | .push bytes => (completeLines (reader.lines.rest ++ bytes)).map reader.lines.codec.decode
  | .line text => [.ok text]
  | .finish =>
    if reader.lines.rest = [] then [] else [reader.lines.codec.decode reader.lines.rest]

variable {reader : Reader}

/-- A call reads its lines one by one, up to one that cannot be decoded or read. -/
theorem outcome_step (h : reader.lines.Sound) (call : Call) :
    outcome (call.step reader) = reader.session.readDecoded (call.lines reader) := by
  cases call with
  | push bytes =>
      rw [step, lines, ← Text.LineReader.rest_push, ← reader.lines.codec_push bytes]
      unfold Reader.push
      rcases readLines_cases (h.push bytes) reader.session with
        ⟨left, hpush, hall⟩ | ⟨failure, left, before, line, hpush, hstops⟩
      · rw [hpush, hall.read]
        rfl
      · rw [hpush, hstops.readDecoded_eq]
        rfl
  | line text => exact outcome_readLine (.ok text) reader
  | finish => exact outcome_finish_left reader

theorem sound_step (h : reader.lines.Sound) (call : Call) :
    (ending (call.step reader)).2.lines.Sound := by
  cases call with
  | push bytes => exact ((Reaches.refl.push bytes).sound h).1
  | line text => exact ((Reaches.refl.line (.ok text)).sound h).1
  | finish => exact (Reaches.refl.finish.sound h).1

end Call

/-- The reader after some calls, those that fail included. -/
def after (reader : Reader) : List Call → Reader
  | [] => reader
  | call :: calls => (ending (call.step reader)).2.after calls

/-- The lines that these calls take in. -/
def taken (reader : Reader) : List Call → List String
  | [] => []
  | call :: calls =>
    reader.session.readable (call.lines reader) ++ (ending (call.step reader)).2.taken calls

/-- After some calls a session is one that has read the lines taken in, and no other. -/
theorem readAll_taken {reader : Reader} (h : reader.lines.Sound) (calls : List Call) :
    reader.session.readAll (reader.taken calls) = (none, (reader.after calls).session) := by
  induction calls generalizing reader with
  | nil => rfl
  | cons call calls ih =>
      have hread := reader.session.readAll_readable (call.lines reader)
      rw [← call.outcome_step h] at hread
      rw [taken, Session.readAll_append_of_none hread, after]
      exact ih (call.sound_step h)

/-- Whatever a reader with an empty store is asked, and whatever fails, it has taken in lines that
can be read without a failure, and what it has written down is the rows of these lines: each has its
interval on the track of its analyzer, followed by that of the transaction it ends. Every track has
an interval. -/
theorem calls_books {config : Config} {bus : Bus.Config} {start : Reader}
    (hstart : create config bus {} = .ok start) (calls : List Call) :
    start.session.readAll (start.taken calls) = (none, (start.after calls).session)
      ∧ (∃ rows, entries config (start.taken calls) = .ok rows
        ∧ Books config bus rows (start.after calls).session)
      ∧ ∀ track ∈ (start.after calls).session.store.trackRows,
        ∃ slice ∈ (start.after calls).session.store.slices, slice.track = track.id := by
  have hread := readAll_taken (Import.settled_of_create hstart).sound calls
  have hwritten := books_readAll config bus (start.taken calls)
  rw [← session_of_create hstart, hread] at hwritten
  rcases hwritten with ⟨failure, s, -, hfails⟩ | ⟨rows, s, hrows, hsame, hbooks⟩
  · cases hfails
  · obtain ⟨-, rfl⟩ := Prod.mk.inj hsame
    exact ⟨hread, ⟨rows, hrows, hbooks⟩, fun track htrack => hbooks.exists_slice htrack⟩

/-- A line that is no header, a header, a row that cannot be read and one that can, and a
transaction of three rows, the second given as a line and the third left open. -/
def faultyCalls : List Call :=
  [.push (Import.plainOctets "name,type\nname,type,start_time,duration,note \n"), .push [],
    .push (Import.plainOctets "A,b,oops,0\nA,b,1,0, y\nI2C,start,2,0\nI2C,stop,3,1"), .push [],
    .line "I2C,address,2,0", .finish]

theorem calls_books_faultyCalls :
    ∃ start rows, create {} {} {} = .ok start ∧ entries {} (start.taken faultyCalls) = .ok rows
      ∧ Books {} {} rows (start.after faultyCalls).session
      ∧ rows.map Entered.analyzer = ["A", "I2C", "I2C", "I2C"]
      ∧ (start.after faultyCalls).session.transactions = 1 := by
  have hcreate : create {} {} {} = .ok {} := rfl
  obtain ⟨-, ⟨rows, hrows, hbooks⟩, -⟩ := calls_books hcreate faultyCalls
  have hnames : (entries {} (taken {} faultyCalls)).toOption.map
      (List.map Entered.analyzer) = some ["A", "I2C", "I2C", "I2C"] := by decide +kernel
  rw [hrows] at hnames
  exact ⟨_, rows, hcreate, hrows, hbooks, Option.some.inj hnames, by decide +kernel⟩

end Reader

end LogicCapture.Csv
