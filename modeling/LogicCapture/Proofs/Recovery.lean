import Mathlib
import LogicCapture.Proofs.Effects
import LogicCapture.Proofs.Feeding

/-!
# Going on behind a line that fails

A line that fails has no effect but that it is gone: what has been read is as before, and the octets
left are those behind its line feed. So if whoever reads an export goes on after each failure until
a piece ends without one, every failing line fails once, and what has been read in the end is what
would have been read from the same octets without the failing lines (`failing_lines_dropped`).
-/

namespace LogicCapture.Csv

open Text (LineReader completeLines openLine allLines allLines_of_not_mem allLines_line joinLines
  newline)

/-! ## Lines that are kept -/

def kept {α : Type} (xs : List α) (outcomes : List (Option Failure)) : List α :=
  ((xs.zip outcomes).filter (·.2.isNone)).map (·.1)

section Kept

variable {α β : Type}

theorem kept_cons_none (x : α) (xs : List α) (outcomes : List (Option Failure)) :
    kept (x :: xs) (none :: outcomes) = x :: kept xs outcomes := rfl

theorem kept_cons_some (x : α) (xs : List α) (failure : Failure)
    (outcomes : List (Option Failure)) :
    kept (x :: xs) (some failure :: outcomes) = kept xs outcomes := rfl

theorem kept_nil (xs : List α) : kept xs [] = [] := by
  rw [kept, List.zip_nil_right]
  rfl

theorem kept_map (f : α → β) (xs : List α) (outcomes : List (Option Failure)) :
    kept (xs.map f) outcomes = (kept xs outcomes).map f := by
  rw [kept, kept, List.zip_map_left, List.filter_map, List.map_map, List.map_map]
  rfl

end Kept

/-- The lines, each with the line feed that ends it; only the open line has none. -/
def endedLines (bytes : List UInt8) : List (List UInt8) :=
  (completeLines bytes).map (· ++ [newline])
    ++ if openLine bytes = [] then [] else [openLine bytes]

/-- The octets without the lines to which a failure belongs. -/
def dropFailing (bytes : List UInt8) (outcomes : List (Option Failure)) : List UInt8 :=
  (kept (endedLines bytes) outcomes).flatten

theorem endedLines_of_not_mem {bytes : List UInt8} (h : newline ∉ bytes) :
    endedLines bytes = if bytes = [] then [] else [bytes] := by
  rw [endedLines, Text.completeLines_of_not_mem h, Text.openLine_of_not_mem h, List.map_nil,
    List.nil_append]

theorem endedLines_line {line : List UInt8} (h : newline ∉ line) (rest : List UInt8) :
    endedLines (line ++ newline :: rest) = (line ++ [newline]) :: endedLines rest := by
  rw [endedLines, Text.completeLines_line h, Text.openLine_line h, List.map_cons, List.cons_append,
    endedLines]

/-- Dropping lines from the octets drops them from the lines. -/
theorem allLines_dropFailing (bytes : List UInt8) (outcomes : List (Option Failure)) :
    allLines (dropFailing bytes outcomes) = kept (allLines bytes) outcomes := by
  have hnone : allLines [] = [] := allLines_of_not_mem List.not_mem_nil
  induction bytes using Text.induction_on_lines generalizing outcomes with
  | hopen bytes h =>
      rw [dropFailing, endedLines_of_not_mem h, allLines_of_not_mem h]
      split
      · exact hnone
      · next hsome =>
        rcases outcomes with _ | ⟨_ | failure, outcomes⟩
        · exact hnone
        · rw [kept_cons_none]
          simp [kept, allLines_of_not_mem h, hsome]
        · exact hnone
  | hline line rest h ih =>
      rw [dropFailing, endedLines_line h, allLines_line h]
      rcases outcomes with _ | ⟨_ | failure, outcomes⟩
      · rw [kept_nil, kept_nil]
        exact hnone
      · rw [kept_cons_none, kept_cons_none, List.flatten_cons, List.append_assoc,
          List.singleton_append, allLines_line h, ← ih]
        rfl
      · rw [kept_cons_some, kept_cons_some]
        exact ih outcomes

/-! ## Lines one by one -/

namespace Session

/-- Take in lines one by one, going on behind each that fails. -/
def readOn (s : Session) : List Text.Decoded → List (Option Failure) × Session
  | [] => ([], s)
  | line :: lines =>
    match takeDecoded line s with
    | .ok () s => (none :: (s.readOn lines).1, (s.readOn lines).2)
    | .error failure s => (some failure :: (s.readOn lines).1, (s.readOn lines).2)

theorem readOn_append (s : Session) (lines lines' : List Text.Decoded) :
    s.readOn (lines ++ lines')
      = ((s.readOn lines).1 ++ ((s.readOn lines).2.readOn lines').1,
          ((s.readOn lines).2.readOn lines').2) := by
  induction lines generalizing s with
  | nil => rfl
  | cons line lines ih =>
      rw [List.cons_append, readOn, readOn]
      cases takeDecoded line s with
      | ok _ s' => simp [ih]
      | error failure s' => simp [ih]

/-- Lines that can be read have no failures. -/
theorem readOn_of_readDecoded {s s' : Session} {lines : List Text.Decoded}
    (h : s.readDecoded lines = (none, s')) :
    s.readOn lines = (List.replicate lines.length none, s') := by
  induction lines generalizing s with
  | nil =>
      obtain ⟨-, rfl⟩ := Prod.mk.inj h
      rfl
  | cons line lines ih =>
      rw [readDecoded] at h
      rw [readOn]
      cases hline : takeDecoded line s with
      | ok _ s₁ =>
          rw [hline] at h
          dsimp only at h ⊢
          rw [ih h]
          rfl
      | error failure s₁ =>
          rw [hline] at h
          cases (Prod.mk.inj h).1

/-- The lines without failures can be read by themselves, and to the same end. -/
theorem readDecoded_kept (s : Session) (lines : List Text.Decoded) :
    s.readDecoded (kept lines (s.readOn lines).1) = (none, (s.readOn lines).2) := by
  induction lines generalizing s with
  | nil => rfl
  | cons line lines ih =>
      rw [readOn]
      cases hline : takeDecoded line s with
      | ok _ s' =>
          dsimp only
          rw [kept_cons_none, readDecoded, hline]
          exact ih s'
      | error failure s' =>
          obtain rfl := takeDecoded_error hline
          dsimp only
          rw [kept_cons_some]
          exact ih s'

end Session

namespace Reader

/-! ## Pieces one by one -/

/-- Push pieces one by one, going on behind each that fails. -/
def pushOn (reader : Reader) : List (List UInt8) → List (Option Failure) × Reader
  | [] => ([], reader)
  | piece :: pieces =>
    let (failure, reader) := ending (push piece reader)
    let (failures, reader) := reader.pushOn pieces
    (failure :: failures, reader)

/-- The readers that come of this one by pieces, single lines and ends, whether these fail or
not. -/
inductive Reaches (start : Reader) : Reader → Prop
  | refl : Reaches start start
  | push {reader : Reader} (h : Reaches start reader) (bytes : List UInt8) :
      Reaches start (ending (push bytes reader)).2
  | line {reader : Reader} (h : Reaches start reader) (line : Text.Decoded) :
      Reaches start (ending (readLine line reader)).2
  | finish {reader : Reader} (h : Reaches start reader) : Reaches start (ending (finish reader)).2

theorem readLine_error {reader left : Reader} {line : Text.Decoded} {failure : Failure}
    (h : readLine line reader = .error failure left) : left = reader := by
  obtain ⟨lines, s⟩ := reader
  unfold readLine at h
  dsimp only at h
  split at h
  · cases h
  · next failure' s' hline =>
    obtain ⟨-, rfl⟩ := EStateM.Result.error.inj h
    rw [Session.takeDecoded_error hline]

theorem lines_readLine (line : Text.Decoded) (reader : Reader) :
    (ending (readLine line reader)).2.lines = reader.lines := by
  obtain ⟨lines, s⟩ := reader
  unfold readLine
  dsimp only
  split <;> rfl

/-- However a reader has been reached, its lines are sound and their codec is that of the
start. -/
theorem Reaches.sound {start reader : Reader} (hstart : start.lines.Sound)
    (h : Reaches start reader) :
    reader.lines.Sound ∧ reader.lines.codec = start.lines.codec := by
  induction h with
  | refl => exact ⟨hstart, rfl⟩
  | @push reader h bytes ih =>
      have hpushed := ih.1.push bytes
      have hcodec := (reader.lines.codec_push bytes).trans ih.2
      unfold Reader.push
      rcases readLines_cases hpushed reader.session with
        ⟨left, hpush, hall⟩ | ⟨failure, left, before, line, hpush, hstops⟩
      · rw [hpush]
        exact ⟨hall.sound, hall.codec.trans hcodec⟩
      · rw [hpush]
        exact ⟨hstops.sound, hstops.codec.trans hcodec⟩
  | line h line ih =>
      rw [lines_readLine]
      exact ih
  | @finish reader h ih =>
      unfold Reader.finish LineReader.finish
      by_cases hpending : reader.lines.pending = 0
      · rw [if_pos hpending]
        exact ih
      · rw [if_neg hpending]
        dsimp only
        rw [lines_readLine]
        exact ⟨Text.LineReader.sound_start _, ih.2⟩

/-! ## Going on to the end -/

theorem StopsAt.readOn_eq {lines : LineReader} {s : Session} {failure : Failure} {left : Reader}
    {before : List (List UInt8)} {line : List UInt8}
    (h : StopsAt lines s failure left before line) :
    s.readOn ((before ++ [line]).map lines.codec.decode)
      = (List.replicate before.length none ++ [some failure], left.session) := by
  obtain ⟨s', hbefore, hfails⟩ := h.read
  rw [List.map_append, Session.readOn_append, Session.readOn_of_readDecoded hbefore,
    List.length_map, List.map_singleton, Session.readOn, hfails]
  rfl

theorem pushOn_cons (reader : Reader) (piece : List UInt8) (pieces : List (List UInt8)) :
    reader.pushOn (piece :: pieces)
      = ((ending (push piece reader)).1 :: ((ending (push piece reader)).2.pushOn pieces).1,
          ((ending (push piece reader)).2.pushOn pieces).2) := rfl

/-- Pieces are read until one ends without a failure: then all complete lines have been taken in one
by one, each failing one has failed once, and the open line is left. -/
theorem pushOn_of_last {reader : Reader} (h : reader.lines.Sound) {last : Option Failure}
    (hsettled : last = none → newline ∉ reader.lines.rest) (pieces : List (List UInt8))
    (hlast : (last :: (reader.pushOn pieces).1).getLast?.join = none) :
    (reader.pushOn pieces).2.lines.Sound
      ∧ (reader.pushOn pieces).2.lines.codec = reader.lines.codec
      ∧ (reader.pushOn pieces).2.lines.rest = openLine (reader.lines.rest ++ pieces.flatten)
      ∧ ∃ outcomes, outcomes.filterMap id = (reader.pushOn pieces).1.filterMap id
        ∧ reader.session.readOn ((completeLines (reader.lines.rest ++ pieces.flatten)).map
            reader.lines.codec.decode) = (outcomes, (reader.pushOn pieces).2.session) := by
  induction pieces generalizing reader last with
  | nil =>
      have hopen := hsettled hlast
      rw [List.flatten_nil, List.append_nil, Text.completeLines_of_not_mem hopen,
        Text.openLine_of_not_mem hopen]
      exact ⟨h, rfl, rfl, [], rfl, rfl⟩
  | cons piece pieces ih =>
      have hcodec := reader.lines.codec_push piece
      rw [pushOn_cons] at hlast ⊢
      rw [List.getLast?_cons_cons] at hlast
      rw [List.flatten_cons, ← List.append_assoc, ← LineReader.rest_push, ← hcodec]
      rcases readLines_cases (h.push piece) reader.session with
        ⟨left, hpush, hall⟩ | ⟨failure, left, before, line, hpush, hstops⟩
      · have hending : ending (push piece reader) = (none, left) := by
          rw [push, hpush, ending]
        rw [hending] at hlast ⊢
        obtain ⟨hsound, hsame, hrest, outcomes, hfailures, hread⟩ :=
          ih hall.sound (fun _ => hall.rest ▸ Text.not_mem_openLine _) hlast
        rw [hall.rest, hall.codec] at hread
        rw [hall.rest, ← Text.openLine_append] at hrest
        refine ⟨hsound, hsame.trans hall.codec, hrest,
          List.replicate ((completeLines (reader.lines.push piece).rest).map
            (reader.lines.push piece).codec.decode).length none ++ outcomes, ?_, ?_⟩
        · rw [List.filterMap_append, hfailures]
          simp
        · rw [Text.completeLines_append, List.map_append, Session.readOn_append,
            Session.readOn_of_readDecoded hall.read, hread]
      · have hending : ending (push piece reader) = (some failure, left) := by
          rw [push, hpush, ending]
        rw [hending] at hlast ⊢
        obtain ⟨hsound, hsame, hrest, outcomes, hfailures, hread⟩ :=
          ih hstops.sound (absurd · (Option.some_ne_none failure)) hlast
        rw [hstops.codec] at hread
        rw [hstops.rest, List.append_assoc]
        refine ⟨hsound, hsame.trans hstops.codec, ?_,
          (List.replicate before.length none ++ [some failure]) ++ outcomes, ?_, ?_⟩
        · rw [hrest, Text.openLine_joinLines hstops.no_newline]
        · rw [List.filterMap_append, hfailures]
          simp
        · rw [Text.completeLines_joinLines hstops.no_newline, List.map_append,
            Session.readOn_append, hstops.readOn_eq, hread]

/-- The end of input takes in the open line, if it is not empty. -/
theorem readOn_finish {reader : Reader} (h : reader.Settled) :
    ∃ outcomes, outcomes.filterMap id = (ending (finish reader)).1.toList
      ∧ reader.session.readOn ((allLines reader.lines.rest).map reader.lines.codec.decode)
        = (outcomes, (ending (finish reader)).2.session) := by
  have hfinish := outcome_finish h
  rw [outcome] at hfinish
  rw [allLines_of_not_mem h.no_line] at hfinish ⊢
  by_cases hrest : reader.lines.rest = []
  · rw [if_pos hrest] at hfinish ⊢
    obtain ⟨hfailure, hsession⟩ := Prod.mk.inj hfinish
    exact ⟨[], by rw [hfailure]; rfl, by rw [hsession]; rfl⟩
  · rw [if_neg hrest, List.map_singleton] at hfinish ⊢
    rw [Session.readDecoded] at hfinish
    rw [Session.readOn]
    cases hline : Session.takeDecoded (reader.lines.codec.decode reader.lines.rest)
      reader.session with
    | ok _ s =>
        rw [hline] at hfinish
        obtain ⟨hfailure, hsession⟩ := Prod.mk.inj hfinish
        exact ⟨[none], by rw [hfailure]; rfl, by rw [hsession]; rfl⟩
    | error failure s =>
        rw [hline] at hfinish
        obtain ⟨hfailure, hsession⟩ := Prod.mk.inj hfinish
        exact ⟨[some failure], by rw [hfailure]; rfl, by rw [hsession]; rfl⟩

/-- A line that fails is gone, and nothing else has happened. Whatever reader has been reached, a
single line that fails leaves it as it is. A piece that fails stops behind the first line of what is
pending that cannot be read, and only the lines before that one have been taken in. So when pieces
are pushed one after the other until one ends without a failure, and the input is ended then, each
failing line has failed once, and all that has been read is what is read, without any failure and
from any pieces, of the same octets without the failing lines. -/
theorem failing_lines_dropped {config : Config} {bus : Bus.Config} {store : Trace.Store}
    {start : Reader} (hstart : create config bus store = .ok start) :
    (∀ reader, Reaches start reader →
        (∀ line failure left, readLine line reader = .error failure left → left = reader)
          ∧ ∀ bytes failure left, push bytes reader = .error failure left →
            ∃ (before : List (List UInt8)) (line : List UInt8),
              (∀ l ∈ before ++ [line], newline ∉ l)
                ∧ reader.lines.rest ++ bytes = joinLines (before ++ [line]) ++ left.lines.rest
                ∧ reader.session.readDecoded (before.map start.lines.codec.decode)
                  = (none, left.session)
                ∧ Session.takeDecoded (start.lines.codec.decode line) left.session
                  = .error failure left.session)
      ∧ ∀ pieces : List (List UInt8), (start.pushOn pieces).1.getLast?.join = none →
        ∃ (outcomes : List (Option Failure)) (session : Session),
          start.session.readOn ((allLines pieces.flatten).map start.lines.codec.decode)
              = (outcomes, session)
            ∧ (start.pushOn pieces).1.filterMap id
                ++ (ending (finish (start.pushOn pieces).2)).1.toList = outcomes.filterMap id
            ∧ (ending (finish (start.pushOn pieces).2)).2.session = session
            ∧ ∀ others : List (List UInt8), others.flatten = dropFailing pieces.flatten outcomes →
              ∃ reader, (do others.forM push; finish : EStateM Failure Reader Unit) start
                  = .ok () reader ∧ reader.session = session := by
  have hsettled : start.Settled := Import.settled_of_create hstart
  have hempty : start.lines.rest = [] := by
    obtain ⟨codec, hlines⟩ := Import.lines_of_create hstart
    rw [hlines]
    rfl
  refine ⟨fun reader hreader => ⟨fun line failure left => readLine_error, ?_⟩, ?_⟩
  · intro bytes failure left hpush
    obtain ⟨hsound, hcodec⟩ := hreader.sound hsettled.sound
    rcases readLines_cases (hsound.push bytes) reader.session with
      ⟨left', hok, -⟩ | ⟨failure', left', before, line, herror, hstops⟩
    · rw [push, hok] at hpush
      cases hpush
    · rw [push, herror] at hpush
      obtain ⟨rfl, rfl⟩ := EStateM.Result.error.inj hpush
      obtain ⟨s', hbefore, hfails⟩ := hstops.read
      rw [LineReader.codec_push, hcodec] at hbefore hfails
      have hsame := Session.takeDecoded_error hfails
      rw [hsame]
      refine ⟨before, line, hstops.no_newline, ?_, hbefore, hsame ▸ hfails⟩
      rw [← LineReader.rest_push, hstops.rest]
  · intro pieces hlast
    have hquiet : (none :: (start.pushOn pieces).1).getLast?.join = none := by
      rw [List.getLast?_cons]
      cases h : (start.pushOn pieces).1.getLast? with
      | none => rfl
      | some last =>
          rw [h] at hlast
          exact hlast
    obtain ⟨hsound, hcodec, hrest, pushed, hpushed, hread⟩ :=
      pushOn_of_last hsettled.sound (fun _ => hsettled.no_line) pieces hquiet
    rw [hempty, List.nil_append] at hrest hread
    obtain ⟨ended, hended, hreadEnd⟩ :=
      readOn_finish ⟨hsound, hrest ▸ Text.not_mem_openLine _⟩
    rw [hrest, hcodec] at hreadEnd
    -- the lines of the pieces are the complete ones and then the open one
    have hlines : start.session.readOn ((allLines pieces.flatten).map start.lines.codec.decode)
        = (pushed ++ ended, (ending (finish (start.pushOn pieces).2)).2.session) := by
      have hsplit := Text.allLines_append pieces.flatten []
      rw [List.append_nil, List.append_nil] at hsplit
      rw [hsplit, List.map_append, Session.readOn_append, hread, hreadEnd]
    refine ⟨_, _, hlines, by rw [List.filterMap_append, hpushed, hended], rfl, ?_⟩
    intro others hothers
    have hkept := start.session.readDecoded_kept
      ((allLines pieces.flatten).map start.lines.codec.decode)
    have houtcome := outcome_pieces hsettled others
    rw [hempty, List.nil_append, hothers, allLines_dropFailing, ← kept_map] at houtcome
    rw [hlines] at hkept
    rw [hkept] at houtcome
    generalize hrun : (do others.forM push; finish : EStateM Failure Reader Unit) start = result
      at houtcome ⊢
    cases result with
    | ok _ reader => exact ⟨reader, rfl, (Prod.mk.inj houtcome).2⟩
    | error failure reader => cases (Prod.mk.inj houtcome).1

/-- An export whose first line is no header, with one row that has no time. -/
def faultyExport : List UInt8 :=
  Import.plainOctets "name,typ\nname,type,start_time,duration\nA,x,oops,0\nA,b,1,0"

def faultlessExport : List UInt8 :=
  Import.plainOctets "name,type,start_time,duration\nA,b,1,0"

/-- Pushed in two pieces and then twice more without octets, the faulty export comes to what the
faultless one comes to at once. -/
theorem failing_lines_dropped_faultyExport :
    ∃ start, create {} {} {} = .ok start
      ∧ ∃ reader, (do [faultlessExport].forM push; finish : EStateM Failure Reader Unit) start
          = .ok () reader
        ∧ (ending (finish
            (start.pushOn [faultyExport.take 50, faultyExport.drop 50, []]).2)).2.session
          = reader.session := by
  have hcreate : create {} {} {} = .ok
      { lines := .start .utf8
        session := { config := {}, bus := { config := {} }, store := {} } } :=
    rfl
  refine ⟨_, hcreate, ?_⟩
  obtain ⟨outcomes, session, hread, -, hsession, hfresh⟩ :=
    (failing_lines_dropped hcreate).2 [faultyExport.take 50, faultyExport.drop 50, []]
      (Option.isNone_iff_eq_none.mp (by decide +kernel))
  have hdropped : [faultlessExport].flatten = dropFailing
      [faultyExport.take 50, faultyExport.drop 50, []].flatten outcomes := by
    rw [show outcomes = _ from (congrArg Prod.fst hread).symm]
    decide +kernel
  obtain ⟨reader, hrun, hreader⟩ := hfresh _ hdropped
  exact ⟨reader, hrun, hsession.trans hreader.symm⟩

end Reader

end LogicCapture.Csv
