import Mathlib
import LogicCapture.Import
import LogicCapture.Proofs.Capture
import LogicCapture.Proofs.Lines

/-!
# Feeding a reader in pieces

A reader of either format comes to the same end however its octets are cut. A reader of lines has
read, after each piece, exactly the lines completed so far, and holds the open line behind them; so
a whole run reads the lines of all octets one by one, up to one that cannot be read
(`outcome_pieces`). A reader of captures only collects the pieces. Imports that differ in the size
of their pieces therefore agree in everything (`import_pieces`).
-/

namespace LogicCapture

namespace Csv

open Text (Decoded LineReader completeLines openLine allLines joinLines newline)

/-! ## Lines one by one -/

/-- Read lines one by one, up to one that cannot be read. -/
def Session.readAll (s : Session) : List String → Option Failure × Session
  | [] => (none, s)
  | line :: lines =>
    match takeLine line s with
    | .ok () s => s.readAll lines
    | .error failure s => (some failure, s)

/-- Read lines as they have been decoded, up to one that has been refused or cannot be read. -/
def Session.readDecoded (s : Session) : List Decoded → Option Failure × Session
  | [] => (none, s)
  | line :: lines =>
    match takeDecoded line s with
    | .ok () s => s.readDecoded lines
    | .error failure s => (some failure, s)

theorem Session.readDecoded_append_of_none {s s' : Session} {lines : List Decoded}
    (h : s.readDecoded lines = (none, s')) (lines' : List Decoded) :
    s.readDecoded (lines ++ lines') = s'.readDecoded lines' := by
  induction lines generalizing s with
  | nil =>
      obtain ⟨-, rfl⟩ := Prod.mk.inj h
      rfl
  | cons line lines ih =>
      rw [List.cons_append, readDecoded]
      rw [readDecoded] at h
      split at h
      · exact ih h
      · cases (Prod.mk.inj h).1

theorem Session.readDecoded_append_of_some {s s' : Session} {failure : Failure}
    {lines : List Decoded} (h : s.readDecoded lines = (some failure, s')) (lines' : List Decoded) :
    s.readDecoded (lines ++ lines') = (some failure, s') := by
  induction lines generalizing s with
  | nil => cases (Prod.mk.inj h).1
  | cons line lines ih =>
      rw [List.cons_append, readDecoded]
      rw [readDecoded] at h
      split at h
      · exact ih h
      · exact h

/-- The texts in front of the first line that has been refused. -/
def texts : List Decoded → List String
  | [] => []
  | .ok text :: lines => text :: texts lines
  | .error _ :: _ => []

/-- The failure of the first line that has been refused. -/
def refusal? : List Decoded → Option Failure
  | [] => none
  | .ok _ :: lines => refusal? lines
  | .error reason :: _ => some (.undecodable reason)

@[simp] theorem texts_map_ok (lines : List String) : texts (lines.map Except.ok) = lines := by
  induction lines with
  | nil => rfl
  | cons line lines ih => rw [List.map_cons, texts, ih]

@[simp] theorem refusal?_map_ok (lines : List String) : refusal? (lines.map Except.ok) = none := by
  induction lines with
  | nil => rfl
  | cons line lines ih => rw [List.map_cons, refusal?, ih]

theorem exists_of_refusal? {lines : List Decoded} {failure : Failure}
    (h : refusal? lines = some failure) : ∃ reason, failure = .undecodable reason := by
  induction lines with
  | nil => cases h
  | cons line lines ih =>
      cases line with
      | ok text => exact ih h
      | error reason => exact ⟨reason, (Option.some.inj h).symm⟩

theorem refusal?_eq_none_iff {lines : List Decoded} :
    refusal? lines = none ↔ ∀ line ∈ lines, ∃ text, line = .ok text := by
  induction lines with
  | nil => simp [refusal?]
  | cons line lines ih =>
      cases line with
      | ok text => simp [refusal?, ih]
      | error reason => simp [refusal?]

/-- What has been read depends on the texts in front of a refused line only; the refusal is the
failure if none of them has failed. -/
theorem Session.readDecoded_eq (s : Session) (lines : List Decoded) :
    s.readDecoded lines
      = ((s.readAll (texts lines)).1.or (refusal? lines), (s.readAll (texts lines)).2) := by
  induction lines generalizing s with
  | nil => rfl
  | cons line lines ih =>
      cases line with
      | error reason => rfl
      | ok text =>
          rw [readDecoded, texts, refusal?, readAll, takeDecoded]
          cases takeLine text s with
          | ok _ s' => exact ih s'
          | error failure s' => rfl

theorem Session.readDecoded_map_ok (s : Session) (lines : List String) :
    s.readDecoded (lines.map Except.ok) = s.readAll lines := by
  rw [readDecoded_eq, texts_map_ok, refusal?_map_ok, Option.or_none]

theorem Session.readAll_append_of_none {s s' : Session} {lines : List String}
    (h : s.readAll lines = (none, s')) (lines' : List String) :
    s.readAll (lines ++ lines') = s'.readAll lines' := by
  rw [← readDecoded_map_ok] at h ⊢
  rw [List.map_append, readDecoded_append_of_none h, readDecoded_map_ok]

namespace Reader

/-! ## Pieces of lines -/

/-- The reader knows of no complete line that it has not read. -/
structure Settled (reader : Reader) : Prop where
  sound : reader.lines.Sound
  no_line : newline ∉ reader.lines.rest

/-- How a step of a reader ended, and what has been read. -/
def outcome (result : EStateM.Result Failure Reader Unit) : Option Failure × Session :=
  ((ending result).1, (ending result).2.session)

theorem eq_ok_of_outcome {result : EStateM.Result Failure Reader Unit} {s : Session}
    (h : outcome result = (none, s)) : ∃ reader, result = .ok () reader ∧ reader.session = s := by
  cases result with
  | ok _ reader => exact ⟨reader, rfl, (Prod.mk.inj h).2⟩
  | error failure reader => cases (Prod.mk.inj h).1

theorem eq_error_of_outcome {result : EStateM.Result Failure Reader Unit} {failure : Failure}
    {s : Session} (h : outcome result = (some failure, s)) :
    ∃ reader, result = .error failure reader ∧ reader.session = s := by
  cases result with
  | ok _ reader => cases (Prod.mk.inj h).1
  | error _ reader =>
      obtain ⟨hfailure, hsession⟩ := Prod.mk.inj h
      exact ⟨reader, by rw [Option.some.inj hfailure], hsession⟩

/-- All complete lines have been read, and the open one is left. -/
structure ReadsAll (lines : LineReader) (s : Session) (left : Reader) : Prop where
  sound : left.lines.Sound
  codec : left.lines.codec = lines.codec
  rest : left.lines.rest = openLine lines.rest
  read : s.readDecoded ((completeLines lines.rest).map lines.codec.decode) = (none, left.session)

/-- Some lines have been read, and the one behind them has failed; what follows that is left. -/
structure StopsAt (lines : LineReader) (s : Session) (failure : Failure) (left : Reader)
    (before : List (List UInt8)) (line : List UInt8) : Prop where
  sound : left.lines.Sound
  codec : left.lines.codec = lines.codec
  no_newline : ∀ l ∈ before ++ [line], newline ∉ l
  rest : lines.rest = joinLines (before ++ [line]) ++ left.lines.rest
  read : ∃ s', s.readDecoded (before.map lines.codec.decode) = (none, s')
    ∧ Session.takeDecoded (lines.codec.decode line) s' = .error failure left.session

/-- Reading complete lines comes to the open one, or it stops at the first line that fails. -/
theorem readLines_cases {lines : LineReader} (h : lines.Sound) (s : Session) :
    (∃ left, readLines lines s = .ok () left ∧ ReadsAll lines s left)
      ∨ ∃ failure left before line, readLines lines s = .error failure left
        ∧ StopsAt lines s failure left before line := by
  fun_induction readLines lines s with
  | case1 lines s left hnext =>
      obtain ⟨hleft, hopen⟩ := h.next_none hnext
      have hrest := LineReader.rest_next_none hnext
      have hcodec := lines.next_codec
      rw [hnext] at hcodec
      refine Or.inl ⟨_, rfl, hleft, hcodec, ?_, ?_⟩
      · rw [← hrest, Text.openLine_of_not_mem hopen]
      · rw [← hrest, Text.completeLines_of_not_mem hopen]
        rfl
  | case2 lines s line left hnext s₁ hline ih =>
      obtain ⟨hleft, bytes, hbytes, rfl, hrest⟩ := h.next_some hnext
      have hcodec := lines.next_codec
      rw [hnext] at hcodec
      dsimp only at hcodec
      rcases ih hleft with ⟨last, hlast, hall⟩ | ⟨failure, last, before, line, hlast, hstops⟩
      · refine Or.inl ⟨last, hlast, hall.sound, hall.codec.trans hcodec, ?_, ?_⟩
        · rw [hall.rest, hrest, Text.openLine_line hbytes]
        · rw [hrest, Text.completeLines_line hbytes, List.map_cons, Session.readDecoded, hline,
            ← hcodec]
          exact hall.read
      · obtain ⟨s', hbefore, hfails⟩ := hstops.read
        rw [hcodec] at hbefore hfails
        refine Or.inr ⟨failure, last, bytes :: before, line, hlast, hstops.sound,
          hstops.codec.trans hcodec, List.forall_mem_cons.mpr ⟨hbytes, hstops.no_newline⟩,
          ?_, s', ?_, hfails⟩
        · rw [hrest, hstops.rest, List.cons_append, Text.joinLines_cons]
        · rw [List.map_cons, Session.readDecoded, hline]
          exact hbefore
  | case3 lines s line left hnext failure s₁ hline =>
      obtain ⟨hleft, bytes, hbytes, rfl, hrest⟩ := h.next_some hnext
      have hcodec := lines.next_codec
      rw [hnext] at hcodec
      refine Or.inr ⟨failure, _, [], bytes, rfl, hleft, hcodec, ?_, ?_, s, rfl, hline⟩
      · exact List.forall_mem_singleton.mpr hbytes
      · rw [hrest, List.nil_append, Text.joinLines_cons]
        rfl

theorem StopsAt.readDecoded_eq {lines : LineReader} {s : Session} {failure : Failure}
    {left : Reader} {before : List (List UInt8)} {line : List UInt8}
    (h : StopsAt lines s failure left before line) :
    s.readDecoded ((completeLines lines.rest).map lines.codec.decode)
      = (some failure, left.session) := by
  obtain ⟨s', hbefore, hfails⟩ := h.read
  rw [h.rest, Text.completeLines_joinLines h.no_newline, List.append_assoc, List.map_append,
    Session.readDecoded_append_of_none hbefore, List.singleton_append, List.map_cons,
    Session.readDecoded, hfails]

theorem outcome_readLine (line : Decoded) (reader : Reader) :
    outcome (readLine line reader) = reader.session.readDecoded [line] := by
  obtain ⟨lines, s⟩ := reader
  rw [Session.readDecoded]
  unfold readLine
  dsimp only
  cases Session.takeDecoded line s <;> rfl

/-- At the end all that is left is read as one line, if there is anything. -/
theorem outcome_finish_left (reader : Reader) :
    outcome (finish reader) = reader.session.readDecoded (if reader.lines.rest = [] then []
      else [reader.lines.codec.decode reader.lines.rest]) := by
  have hpending : reader.lines.pending = 0 ↔ reader.lines.rest = [] := by
    rw [← List.length_eq_zero_iff, reader.lines.length_rest]
  unfold finish LineReader.finish
  by_cases hrest : reader.lines.rest = []
  · rw [if_pos (hpending.mpr hrest), if_pos hrest]
    rfl
  · rw [if_neg (fun hzero => hrest (hpending.mp hzero)), if_neg hrest]
    exact outcome_readLine _ _

theorem outcome_finish {reader : Reader} (h : reader.Settled) :
    outcome (finish reader)
      = reader.session.readDecoded
          ((allLines reader.lines.rest).map reader.lines.codec.decode) := by
  rw [outcome_finish_left, allLines, Text.completeLines_of_not_mem h.no_line,
    Text.openLine_of_not_mem h.no_line, List.nil_append]
  split <;> rfl

theorem run_cons (piece : List UInt8) (pieces : List (List UInt8)) (reader : Reader) :
    (do (piece :: pieces).forM push; finish : EStateM Failure Reader Unit) reader
      = (push piece >>= fun _ => do pieces.forM push; finish) reader := by
  rw [List.forM_eq_forM, List.forM_cons, bind_assoc]

/-- What a run of a reader over pieces comes to: the lines of all octets are read one by one, the
open one at the end if it is not empty. -/
theorem outcome_pieces {reader : Reader} (h : reader.Settled) (pieces : List (List UInt8)) :
    outcome ((do pieces.forM push; finish : EStateM Failure Reader Unit) reader)
      = reader.session.readDecoded ((allLines (reader.lines.rest ++ pieces.flatten)).map
          reader.lines.codec.decode) := by
  induction pieces generalizing reader with
  | nil =>
      rw [List.flatten_nil, List.append_nil]
      exact outcome_finish h
  | cons piece pieces ih =>
      have hsound := h.sound.push piece
      have hcodec := reader.lines.codec_push piece
      rw [List.flatten_cons, ← List.append_assoc, Text.allLines_append, List.map_append,
        ← LineReader.rest_push, ← hcodec]
      rcases readLines_cases hsound reader.session with
        ⟨left, hpush, hall⟩ | ⟨failure, left, before, line, hpush, hstops⟩
      · -- the reader is settled again, and its open line stands in front of what is to come
        have hsettled : left.Settled := ⟨hall.sound, hall.rest ▸ Text.not_mem_openLine _⟩
        rw [run_cons, bind_of_ok (show push piece reader = _ from hpush),
          Session.readDecoded_append_of_none hall.read, ih hsettled, hall.rest, hall.codec]
      · rw [run_cons, bind_of_error (show push piece reader = _ from hpush),
          Session.readDecoded_append_of_some hstops.readDecoded_eq]
        rfl

end Reader

theorem session_of_create {config : Config} {bus : Bus.Config} {store : Trace.Store}
    {start : Reader} (h : Reader.create config bus store = .ok start) :
    start.session = { config, bus := { config := bus }, store } := by
  unfold Reader.create at h
  cases hlines : Reader.linesIn config.encoding with
  | error failure => rw [hlines] at h; cases h
  | ok lines =>
      rw [hlines] at h
      exact Except.ok.inj h ▸ rfl

end Csv

namespace Import

open Files (Entry Path)
open Trace (Store)

namespace Reader

/-! ## Pieces of either format -/

/-- A reader that nothing has been given to, or that is done with all complete lines. -/
def Ready : Reader → Prop
  | binary _ => True
  | csv reader => reader.Settled

/-- What a reader comes to when it is given all octets at once: it decodes what it has collected, or
reads all lines one by one. -/
def whole : Reader → List UInt8 → Result
  | binary reader, data =>
    .ofRun finish (binary { reader with buffer := reader.buffer ++ data })
  | csv reader, data =>
    let lines := (Text.allLines (reader.lines.rest ++ data)).map reader.lines.codec.decode
    let (failure, session) := reader.session.readDecoded lines
    { failure, store := session.store }

theorem run_either (pieces : List (List UInt8)) :
    (do pieces.forM push; finish : EStateM Failure Reader Unit)
      = either (do pieces.forM Binary.Reader.push; Binary.Reader.finish)
          (do pieces.forM Csv.Reader.push; Csv.Reader.finish) := by
  induction pieces with
  | nil => rfl
  | cons piece pieces ih =>
      simp only [List.forM_eq_forM, List.forM_cons, bind_assoc] at ih ⊢
      rw [ih]
      funext reader
      cases reader with
      | binary reader => rfl
      | csv reader =>
          change EStateM.bind (push piece) _ (csv reader) = either _ (EStateM.bind _ _) (csv reader)
          dsimp only [EStateM.bind, push, either]
          cases Csv.Reader.push piece reader with
          | ok _ reader => rfl
          | error failure reader => rfl

/-- What a run over pieces leaves depends on the octets of all pieces only. -/
theorem ofRun_pieces {reader : Reader} (h : reader.Ready) (pieces : List (List UInt8)) :
    Result.ofRun (do pieces.forM push; finish) reader = reader.whole pieces.flatten := by
  rw [run_either]
  cases reader with
  | binary reader =>
      have hcollect : (do pieces.forM Binary.Reader.push; Binary.Reader.finish :
          EStateM Failure Binary.Reader Unit) reader
            = Binary.Reader.finish { reader with buffer := reader.buffer ++ pieces.flatten } :=
        bind_of_ok (Binary.forM_push pieces reader)
      dsimp only [whole, Result.ofRun, either, finish]
      rw [hcollect]
  | csv reader =>
      have houtcome := Csv.Reader.outcome_pieces h pieces
      dsimp only [whole]
      rw [← houtcome]
      dsimp only [Result.ofRun, either]
      cases (do pieces.forM Csv.Reader.push; Csv.Reader.finish :
        EStateM Failure Csv.Reader Unit) reader with
      | ok _ reader => rfl
      | error failure reader => rfl

end Reader

/-! ## Imports -/

/-- A codec whose line feed is the one octet 10 is taken as it is, and no other. -/
theorem linesIn_eq_ok_iff {encoding : Text.NamedCodec} {lines : Text.LineReader} :
    Csv.Reader.linesIn encoding = .ok lines ↔
      ∃ codec, encoding.codec = some codec ∧ codec.lineFeed = .ok [Text.newline]
        ∧ lines = .start codec := by
  unfold Csv.Reader.linesIn
  cases hcodec : encoding.codec with
  | none => exact ⟨nofun, fun ⟨_, h, _⟩ => nomatch h⟩
  | some codec =>
      dsimp only
      constructor
      · intro h
        split at h
        · cases h
        · next octets hfeed =>
          split at h
          · next heq => exact ⟨codec, rfl, heq ▸ hfeed, (Except.ok.inj h).symm⟩
          · cases h
      · rintro ⟨_, hsame, hfeed, rfl⟩
        obtain rfl := Option.some.inj hsame
        rw [hfeed]
        exact if_pos rfl

theorem start_of_linesIn {encoding : Text.NamedCodec} {lines : Text.LineReader}
    (h : Csv.Reader.linesIn encoding = .ok lines) : ∃ codec, lines = .start codec := by
  obtain ⟨codec, -, -, rfl⟩ := linesIn_eq_ok_iff.mp h
  exact ⟨codec, rfl⟩

section Create

variable {config : Csv.Config} (bus : Bus.Config) (store : Store)

theorem create_of_linesIn {lines : Text.LineReader}
    (h : Csv.Reader.linesIn config.encoding = .ok lines) :
    Csv.Reader.create config bus store
      = .ok { lines, session := { config, bus := { config := bus }, store } } := by
  rw [Csv.Reader.create, h]
  rfl

theorem create_of_linesIn_error {failure : Failure}
    (h : Csv.Reader.linesIn config.encoding = .error failure) :
    Csv.Reader.create config bus store = .error failure := by
  rw [Csv.Reader.create, h]
  rfl

end Create

theorem lines_of_create {config : Csv.Config} {bus : Bus.Config} {store : Store}
    {reader : Csv.Reader} (h : Csv.Reader.create config bus store = .ok reader) :
    ∃ codec, reader.lines = .start codec := by
  unfold Csv.Reader.create at h
  cases hlines : Csv.Reader.linesIn config.encoding with
  | error failure => rw [hlines] at h; cases h
  | ok lines =>
      rw [hlines] at h
      obtain rfl := Except.ok.inj h
      exact start_of_linesIn hlines

theorem settled_of_create {config : Csv.Config} {bus : Bus.Config} {store : Store}
    {reader : Csv.Reader} (h : Csv.Reader.create config bus store = .ok reader) :
    reader.Settled := by
  obtain ⟨codec, hlines⟩ := lines_of_create h
  constructor
  · rw [hlines]
    exact Text.LineReader.sound_start _
  · rw [hlines]
    exact List.not_mem_nil

/-- A reader that has just been opened reads the lines of all octets one by one. -/
theorem outcome_of_create {config : Csv.Config} {bus : Bus.Config} {store : Store}
    {reader : Csv.Reader} (h : Csv.Reader.create config bus store = .ok reader)
    (pieces : List (List UInt8)) :
    Csv.Reader.outcome ((do pieces.forM Csv.Reader.push; Csv.Reader.finish :
        EStateM Failure Csv.Reader Unit) reader)
      = reader.session.readDecoded
          ((Text.allLines pieces.flatten).map reader.lines.codec.decode) := by
  have hempty : reader.lines.rest = [] := by
    obtain ⟨codec, hlines⟩ := lines_of_create h
    rw [hlines]
    rfl
  rw [Csv.Reader.outcome_pieces (settled_of_create h), hempty, List.nil_append]

theorem outcome_of_create_utf8 {config : Csv.Config} {bus : Bus.Config} {store : Store}
    {reader : Csv.Reader} (h : Csv.Reader.create config bus store = .ok reader)
    (hutf8 : reader.lines.codec = .utf8) (pieces : List (List UInt8)) :
    Csv.Reader.outcome ((do pieces.forM Csv.Reader.push; Csv.Reader.finish :
        EStateM Failure Csv.Reader Unit) reader)
      = reader.session.readAll
          ((Text.allLines pieces.flatten).map Text.Encoding.utf8.decode) := by
  rw [outcome_of_create h, hutf8, ← Csv.Session.readDecoded_map_ok, List.map_map]
  rfl

section Opening

variable {config : Config} {source : Option String} {data : List UInt8}

/-! Which reader the octets call for, and whether it can be made, does not depend on the store. -/

theorem openReader_error {failure : Failure}
    (h : resolve config (data.take headSize) source = .error failure) (store : Store) :
    openReader config source store data = .error failure := by
  rw [openReader, h]
  rfl

theorem openReader_binary (h : resolve config (data.take headSize) source = .ok .binary)
    (store : Store) :
    openReader config source store data = .ok (.binary { config := config.binary, store }) := by
  rw [openReader, h]
  rfl

theorem openReader_csv (h : resolve config (data.take headSize) source = .ok .csv)
    {lines : Text.LineReader} (hlines : Csv.Reader.linesIn config.csv.encoding = .ok lines)
    (store : Store) :
    openReader config source store data
      = .ok (.csv
          { lines, session := { config := config.csv, bus := { config := {} }, store } }) := by
  rw [openReader, h]
  change Reader.csv <$> Csv.Reader.create config.csv {} store = _
  rw [create_of_linesIn {} store hlines]
  rfl

theorem openReader_csv_error (h : resolve config (data.take headSize) source = .ok .csv)
    {failure : Failure} (hlines : Csv.Reader.linesIn config.csv.encoding = .error failure)
    (store : Store) :
    openReader config source store data = .error failure := by
  rw [openReader, h]
  change Reader.csv <$> Csv.Reader.create config.csv {} store = _
  rw [create_of_linesIn_error {} store hlines]
  rfl

/-- A reader that has been opened is one of the format that the octets call for. It has just
collected nothing, or is at the first line. -/
theorem openReader_cases {store : Store} {reader : Reader}
    (h : openReader config source store data = .ok reader) :
    (resolve config (data.take headSize) source = .ok .binary
        ∧ reader = .binary { config := config.binary, store })
      ∨ resolve config (data.take headSize) source = .ok .csv
        ∧ ∃ known, reader = .csv
          { lines := .start known
            session := { config := config.csv, bus := { config := {} }, store } } := by
  cases hformat : resolve config (data.take headSize) source with
  | error failure =>
      rw [openReader_error hformat] at h
      cases h
  | ok format =>
      cases format with
      | binary =>
          rw [openReader_binary hformat] at h
          exact .inl ⟨rfl, (Except.ok.inj h).symm⟩
      | csv =>
          cases hlines : Csv.Reader.linesIn config.csv.encoding with
          | error failure =>
              rw [openReader_csv_error hformat hlines] at h
              cases h
          | ok lines =>
              rw [openReader_csv hformat hlines] at h
              obtain ⟨known, rfl⟩ := start_of_linesIn hlines
              exact .inr ⟨rfl, known, (Except.ok.inj h).symm⟩

theorem ready_of_openReader {store : Store} {reader : Reader}
    (h : openReader config source store data = .ok reader) : reader.Ready := by
  obtain ⟨-, rfl⟩ | ⟨-, known, rfl⟩ := openReader_cases h
  · trivial
  · exact ⟨Text.LineReader.sound_start known, List.not_mem_nil⟩

end Opening

/-! ## What every step preserves

An import may also end before all octets have been given to its reader, or stop between two pieces.
What holds of a reader that has been opened, and of one that is given a piece, holds of it then
too. -/

namespace Reader

theorem ending_either_binary (onBinary : EStateM Failure Binary.Reader Unit)
    (onCsv : EStateM Failure Csv.Reader Unit) (reader : Binary.Reader) :
    ending (either onBinary onCsv (binary reader))
      = ((ending (onBinary reader)).1, binary (ending (onBinary reader)).2) := by
  unfold either
  dsimp only
  cases onBinary reader <;> rfl

theorem ending_either_csv (onBinary : EStateM Failure Binary.Reader Unit)
    (onCsv : EStateM Failure Csv.Reader Unit) (reader : Csv.Reader) :
    ending (either onBinary onCsv (csv reader))
      = ((ending (onCsv reader)).1, csv (ending (onCsv reader)).2) := by
  unfold either
  dsimp only
  cases onCsv reader <;> rfl

theorem store_ofRun (run : EStateM Failure Reader Unit) (reader : Reader) :
    (Result.ofRun run reader).store = (ending (run reader)).2.store := by
  unfold Result.ofRun
  cases run reader <;> rfl

theorem ofRun_of_error {run : EStateM Failure Reader Unit} {reader left : Reader}
    {failure : Failure} (h : run reader = .error failure left) :
    Result.ofRun run reader = { failure := some failure, store := left.store } := by
  rw [Result.ofRun, h]

/-- What this says of a reader stays true in a step, also in one that fails. -/
def Preserves (P : Reader → Prop) (step : EStateM Failure Reader Unit) : Prop :=
  ∀ reader, P reader → P (ending (step reader)).2

variable {P : Reader → Prop}

theorem preserves_pure : Preserves P (pure ()) := fun _ h => h

theorem preserves_throw (failure : Failure) : Preserves P (throw failure) := fun _ h => h

theorem Preserves.bind {first second : EStateM Failure Reader Unit} (hfirst : Preserves P first)
    (hsecond : Preserves P second) : Preserves P (do first; second) := by
  intro reader h
  have hleft := hfirst reader h
  cases hrun : first reader with
  | ok _ reader' =>
      rw [hrun] at hleft
      rw [bind_of_ok hrun]
      exact hsecond reader' hleft
  | error failure reader' =>
      rw [hrun] at hleft
      rw [bind_of_error hrun]
      exact hleft

variable (hpush : ∀ bytes, Preserves P (push bytes))
include hpush

theorem preserves_forM (pieces : List (List UInt8)) : Preserves P (pieces.forM push) := by
  induction pieces with
  | nil => exact preserves_pure
  | cons piece pieces ih =>
      rw [List.forM_eq_forM, List.forM_cons]
      exact (hpush piece).bind ih

theorem preserves_feedBytes (config : Config) (data : List UInt8) :
    Preserves P (feedBytes config data) := by
  unfold feedBytes
  split
  · exact preserves_throw _
  · exact preserves_forM hpush _

theorem preserves_feedFile (memory : Nat → Bool) (config : Config) (data : List UInt8) :
    Preserves P (feedFile memory config data) := by
  unfold feedFile
  dsimp only
  split
  on_goal 2 => refine (hpush _).bind ?_
  -- behind the head, whether there is one or not
  all_goals
    split
    · exact preserves_throw _
    · split
      · split
        · exact preserves_pure
        · exact hpush _
      · exact preserves_forM hpush _

end Reader

/-- What an import leaves has what its reader has at any moment and when it is finished. -/
theorem store_importWith {P : Reader → Prop} {Q : Store → Prop} {config : Config}
    {source : Option String} {store : Store} {data : List UInt8}
    {feed : EStateM Failure Reader Unit} (hstore : Q store)
    (hopen : ∀ reader, openReader config source store data = .ok reader → P reader)
    (hfeed : Reader.Preserves P feed)
    (hleft : ∀ reader, P reader → Q reader.store ∧ Q (ending (Reader.finish reader)).2.store) :
    Q (importWith config source store data feed).store := by
  unfold importWith
  cases hreader : openReader config source store data with
  | error failure => exact hstore
  | ok reader =>
      have hfed := hfeed reader (hopen reader hreader)
      dsimp only
      rw [Reader.store_ofRun]
      cases hstep : feed reader with
      | ok _ reader' =>
          rw [hstep] at hfed
          rw [bind_of_ok hstep]
          exact (hleft reader' hfed).2
      | error failure reader' =>
          rw [hstep] at hfed
          rw [bind_of_error hstep]
          exact (hleft reader' hfed).1

/-! ## Imports of all octets -/

/-- What an import comes to: what the reader that the octets call for makes of all of them. -/
def importWhole (config : Config) (source : Option String) (store : Store) (data : List UInt8) :
    Result :=
  match openReader config source store data with
  | .error failure => { failure := some failure, store }
  | .ok reader => reader.whole data

section Whole

variable {config : Config} {source : Option String} {store : Store} {data : List UInt8}

theorem importWhole_error {failure : Failure}
    (h : openReader config source store data = .error failure) :
    importWhole config source store data = { failure := some failure, store } := by
  rw [importWhole, h]

theorem importWhole_binary (h : resolve config (data.take headSize) source = .ok .binary) :
    importWhole config source store data
      = .ofRun Reader.finish
        (.binary { config := config.binary, buffer := data.toArray, store }) := by
  have hbuffer : (#[] : Array UInt8) ++ data = data.toArray := by simp
  rw [importWhole, openReader_binary h, ← hbuffer]
  rfl

theorem importWhole_csv (h : resolve config (data.take headSize) source = .ok .csv)
    {lines : Text.LineReader} (hlines : Csv.Reader.linesIn config.csv.encoding = .ok lines) :
    importWhole config source store data =
      let start : Csv.Session := { config := config.csv, bus := { config := {} }, store }
      let decoded := (Text.allLines data).map lines.codec.decode
      { failure := (start.readAll (Csv.texts decoded)).1.or (Csv.refusal? decoded)
        store := (start.readAll (Csv.texts decoded)).2.store } := by
  rw [importWhole, openReader_csv h hlines]
  obtain ⟨known, rfl⟩ := start_of_linesIn hlines
  dsimp only [Reader.whole]
  rw [Csv.Session.readDecoded_eq]
  rfl

end Whole

theorem importWith_pieces (config : Config) (source : Option String) (store : Store)
    {data : List UInt8} {pieces : List (List UInt8)} (h : pieces.flatten = data) :
    importWith config source store data (pieces.forM Reader.push)
      = importWhole config source store data := by
  unfold importWith importWhole
  cases hopen : openReader config source store data with
  | error failure => rfl
  | ok reader =>
      rw [← h]
      exact Reader.ofRun_pieces (ready_of_openReader hopen) pieces

theorem importBytes_eq_importWhole {config : Config} (hsize : 1 ≤ config.pieceSize)
    (source : Option String) (store : Store) (data : List UInt8) :
    importBytes config source store data = importWhole config source store data := by
  rw [importBytes, feedBytes, if_neg (by omega)]
  exact importWith_pieces _ _ _ (flatten_cut (by omega) data)

/-- Pieces of a size from one on can be read if the size leaves room in a signed 64-bit word and
there is memory for them. -/
theorem sizeFailure?_eq_none_iff {memory : Nat → Bool} {size : Int} (hsize : 1 ≤ size) :
    sizeFailure? memory size = none
      ↔ size < 0x8000000000000000 - 33 ∧ memory size.toNat = true := by
  have hpositive : decide (0 < size) = true := decide_eq_true (by omega)
  unfold sizeFailure?
  by_cases hfits : size < 0x8000000000000000 - 33
  · have hword : fitsWord64 size = true := fitsWord64_iff.mpr ⟨by omega, by omega⟩
    rw [hword, hpositive, if_neg (by decide), if_neg (by omega), if_neg (by omega)]
    cases memory size.toNat with
    | true => exact iff_of_true rfl ⟨hfits, rfl⟩
    | false => exact iff_of_false (Option.some_ne_none _) nofun
  · refine iff_of_false ?_ fun h => hfits h.1
    split
    · exact Option.some_ne_none _
    · rw [if_neg (by omega), if_pos (by omega)]
      exact Option.some_ne_none _

section File

variable {memory : Nat → Bool} {config : Config}

theorem feedFile_eq_forM (hsize : 1 ≤ config.pieceSize)
    (hread : sizeFailure? memory config.pieceSize = none) (data : List UInt8) :
    feedFile memory config data = ((if data.isEmpty then [] else [data.take headSize])
      ++ cut config.pieceSize.toNat (data.drop headSize)).forM Reader.push := by
  have hpositive : config.pieceSize ≠ -1 := by omega
  unfold feedFile
  rw [hread, List.forM_eq_forM, List.forM_append]
  cases data with
  | nil => simp [hpositive]
  | cons b bs => simp [hpositive]

theorem importFile_eq_importWhole (hsize : 1 ≤ config.pieceSize)
    (hread : sizeFailure? memory config.pieceSize = none) (path : Path) (store : Store)
    (data : List UInt8) :
    importFile memory config path (.file data) store
      = importWhole config (some path.name) store data := by
  rw [importFile, feedFile_eq_forM hsize hread]
  refine importWith_pieces _ _ _ ?_
  have hnonzero : config.pieceSize.toNat ≠ 0 := by omega
  rw [List.flatten_append, flatten_cut hnonzero]
  cases data with
  | nil => rfl
  | cons b bs =>
      rw [if_neg (by simp), List.flatten_singleton]
      exact List.take_append_drop _ _

/-- A size that cannot be read is the failure of an import, unless the import has ended before, with
no reader or in the head of the file. -/
theorem importFile_of_sizeFailure {failure : Failure}
    (hread : sizeFailure? memory config.pieceSize = some failure) (path : Path) (store : Store)
    (data : List UInt8) :
    (importFile memory config path (.file data) store).failure = some failure
      ∨ importFile memory config path (.file data) store
        = importWhole config (some path.name) store data := by
  unfold importFile importWith importWhole feedFile
  dsimp only
  rw [hread]
  cases hopen : openReader config (some path.name) store data with
  | error other => exact .inr rfl
  | ok reader =>
      dsimp only
      rcases data with _ | ⟨b, bs⟩
      · exact .inl rfl
      · -- both push the head first, and then one of them the rest
        have hwhole := Reader.ofRun_pieces (ready_of_openReader hopen)
          [(b :: bs).take headSize, (b :: bs).drop headSize]
        rw [List.flatten_cons, List.flatten_singleton, List.take_append_drop] at hwhole
        rw [← hwhole, if_neg (by simp), List.forM_eq_forM, List.forM_cons]
        cases hpush : Reader.push ((b :: bs).take headSize) reader with
        | ok _ left =>
            left
            rw [Reader.ofRun_of_error (bind_of_error ((bind_of_ok hpush).trans rfl))]
        | error other left =>
            right
            rw [Reader.ofRun_of_error (bind_of_error (bind_of_error hpush)),
              Reader.ofRun_of_error (bind_of_error (bind_of_error hpush))]

end File

/-- The size of the pieces has no bearing on an import: octets given in pieces of any two sizes, and
a file read in pieces of a size that a read can be asked for, leave the same store and end the same
way. If a read cannot be asked for that size, the import of the file ends in the failure of the
read, or it has ended before and the same way. -/
theorem import_pieces (config : Config) (source : Option String) (path : Path) (store : Store)
    (data : List UInt8) {n m : Int} (hn : 1 ≤ n) (hm : 1 ≤ m) :
    importBytes { config with pieceSize := n } source store data
        = importBytes { config with pieceSize := m } source store data
      ∧ ∀ memory : Nat → Bool,
        (n < 0x8000000000000000 - 33 → memory n.toNat = true →
          importFile memory { config with pieceSize := n } path (.file data) store
            = importBytes { config with pieceSize := m } (some path.name) store data)
        ∧ ∀ failure, sizeFailure? memory n = some failure →
          (importFile memory { config with pieceSize := n } path (.file data) store).failure
              = some failure
            ∨ importFile memory { config with pieceSize := n } path (.file data) store
              = importBytes { config with pieceSize := m } (some path.name) store data := by
  have hwhole : ∀ source, importWhole { config with pieceSize := n } source store data
      = importWhole { config with pieceSize := m } source store data := fun _ => rfl
  refine ⟨?_, fun memory => ⟨fun hword hmemory => ?_, fun failure hread => ?_⟩⟩
  · rw [importBytes_eq_importWhole hn, importBytes_eq_importWhole hm, hwhole]
  · have hread := (sizeFailure?_eq_none_iff hn).mpr ⟨hword, hmemory⟩
    rw [importFile_eq_importWhole hn hread, importBytes_eq_importWhole hm, hwhole]
  · rw [importBytes_eq_importWhole hm, ← hwhole]
    exact importFile_of_sizeFailure hread path store data

def plainOctets (text : String) : List UInt8 :=
  text.toList.map fun c => UInt8.ofNat c.toNat

/-- An export with one row, whose last line is open. -/
def rowExport : List UInt8 :=
  plainOctets "name,type,start_time,duration\r\nA,b,1,0"

theorem import_pieces_rowExport :
    importBytes { pieceSize := 1 } none {} rowExport
        = importBytes { pieceSize := 7 } none {} rowExport
      ∧ importFile (· < 4) { pieceSize := 1 } (Path.ofString "x.csv") (.file rowExport) {}
        = importBytes { pieceSize := 7 } (some (Path.ofString "x.csv").name) {} rowExport := by
  have hbytes := import_pieces {} none (Path.ofString "x.csv") {} rowExport (n := 1) (m := 7)
    (by decide) (by decide)
  have hfile := import_pieces {} (some (Path.ofString "x.csv").name) (Path.ofString "x.csv") {}
    rowExport (n := 1) (m := 7) (by decide) (by decide)
  exact ⟨hbytes.1, (hfile.2 (· < 4)).1 (by decide) (by decide)⟩

/-- No read takes a size beyond a signed 64-bit word, however much memory there is, so with such
pieces a file cannot be imported though its octets can. -/
theorem importFile_beyond_word :
    (1 : Int) ≤ 0x8000000000000000 ∧
      importFile (fun _ => true) { pieceSize := 0x8000000000000000 } (Path.ofString "x.csv")
          (.file rowExport) {}
        ≠ importBytes { pieceSize := 0x8000000000000000 } (some (Path.ofString "x.csv").name) {}
          rowExport := by
  refine ⟨by decide, fun heq => ?_⟩
  have hfile : (importFile (fun _ => true) { pieceSize := 0x8000000000000000 }
      (Path.ofString "x.csv") (.file rowExport) {}).failure.map Failure.kind
      = some .overflow := by decide +kernel
  have hbytes : (importBytes { pieceSize := 0x8000000000000000 }
      (some (Path.ofString "x.csv").name) {} rowExport).failure.map Failure.kind = none := by
    decide +kernel
  rw [heq, hbytes] at hfile
  cases hfile

end Import

end LogicCapture
