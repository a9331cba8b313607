import Mathlib
import LogicCapture.Proofs.Additions
import LogicCapture.Proofs.Apart
import LogicCapture.Proofs.Joins

/-!
# The list of transactions

The intervals of transactions are found again by their category, and what they carry by the keys of
their arguments. Both can be told from rows: no row has the category of the bus, and a transaction
has each key once at most, whatever the columns of the export are called (`texts_transaction`). So
the list of transactions has one line for each transaction that a row of the export has ended, with
the name of the track of its analyzer (`import_transactions`).
-/

namespace LogicCapture

namespace Csv

open Bus (Reconstructor)
open Trace (ArgRow ArgValue Reading Slice SliceRow Store TrackRow TransactionRow)

/-! ## Transactions of rows -/

/-- The transactions that rows end, each with the analyzer of the row that ends it. -/
def endedBy (r : Reconstructor) (rows : List Entered) : List (String × Bus.Transaction) :=
  (r.run (rows.map (·.event.busRow))).1.filterMap fun (row, ended) =>
    ended.map fun t => (row.analyzer, t)

/-- The line of the list of transactions for a transaction of this analyzer. What is empty is left
out. -/
def transactionRow (lead analyzer : String) (t : Bus.Transaction) : TransactionRow where
  ts := t.start
  dur := t.duration
  track := some (lead ++ analyzer)
  name := t.name
  address := if t.address = "" then none else some t.address
  writeBytes := if t.writeBytes = [] then none else some (" ".intercalate t.writeBytes)
  readBytes := if t.readBytes = [] then none else some (" ".intercalate t.readBytes)

/-! ## Lines of an interval -/

def textsOf (args : List (String × ArgValue)) (key : String) : List (Option String) :=
  match args.filter (·.1 == key) with
  | [] => [none]
  | found => found.map (·.2.text?)

theorem argTexts_map (id : Nat) (args : List (String × ArgValue)) (key : String) :
    Store.argTexts (args.map fun arg => { slice := id, key := arg.1, value := arg.2 }) key
      = textsOf args key := by
  have hfilter : (args.map fun arg =>
        ({ slice := id, key := arg.1, value := arg.2 } : ArgRow)).filter (·.key == key)
      = (args.filter (·.1 == key)).map fun arg =>
        { slice := id, key := arg.1, value := arg.2 } := by
    rw [List.filter_map]
    rfl
  rw [Store.argTexts, textsOf, hfilter]
  cases args.filter (·.1 == key) with
  | nil => rfl
  | cons arg found => simp

/-- The lines that an interval has in the list of transactions. -/
def linesOf (category : String) (track : Option String) (reading : Reading) :
    List TransactionRow :=
  if reading.category == some category then
    (textsOf reading.args "address").flatMap fun address =>
      (textsOf reading.args "write_bytes").flatMap fun writeBytes =>
        (textsOf reading.args "read_bytes").map fun readBytes =>
          { ts := reading.ts, dur := reading.dur, track, name := reading.name
            address, writeBytes, readBytes }
  else []

theorem texts_transaction (t : Bus.Transaction) :
    textsOf (carried t.args) "address" = [if t.address = "" then none else some t.address]
      ∧ textsOf (carried t.args) "write_bytes"
        = [if t.writeBytes = [] then none else some (" ".intercalate t.writeBytes)]
      ∧ textsOf (carried t.args) "read_bytes"
        = [if t.readBytes = [] then none else some (" ".intercalate t.readBytes)] := by
  unfold textsOf carried Bus.Transaction.args
  by_cases haddress : t.address = "" <;> by_cases hwrite : t.writeBytes = [] <;>
    by_cases hread : t.readBytes = [] <;>
      simp [haddress, hwrite, hread, ArgValue.text?]

theorem linesOf_transaction (category lead analyzer : String) (t : Bus.Transaction) :
    linesOf category (some (lead ++ analyzer)) (transactionReading category t)
      = [transactionRow lead analyzer t] := by
  obtain ⟨haddress, hwrite, hread⟩ := texts_transaction t
  rw [linesOf, transactionReading, if_pos (beq_self_eq_true _)]
  dsimp only
  rw [haddress, hwrite, hread]
  rfl

theorem linesOf_of_ne {category : String} {reading : Reading}
    (h : reading.category ≠ some category) (track : Option String) :
    linesOf category track reading = [] := by
  rw [linesOf, if_neg (by simpa using h)]

/-! ## Lines of a log -/

theorem endedBy_cons (r : Reconstructor) (row : Entered) (rows : List Entered) :
    endedBy r (row :: rows)
      = ((r.step row.event.busRow).1.toList.map fun t => (row.event.busRow.analyzer, t))
        ++ endedBy (r.step row.event.busRow).2 rows := by
  rw [endedBy, endedBy, List.map_cons, Reconstructor.run_cons]
  cases (r.step row.event.busRow).1 <;> rfl

/-- Rows of another category leave in the log the lines of the transactions that they end. -/
theorem flatMap_linesOf_log (lead : String) {category : String} {r : Reconstructor}
    (hcategory : r.config.category = category) {rows : List Entered}
    (hrows : ∀ row ∈ rows, row.event.category ≠ some category
      ∧ row.event.busRow.analyzer = row.analyzer) :
    (log r rows).flatMap (fun entry => linesOf category (some (lead ++ entry.1)) entry.2)
      = (endedBy r rows).map fun ended => transactionRow lead ended.1 ended.2 := by
  induction rows generalizing r with
  | nil => rfl
  | cons row rows ih =>
      obtain ⟨⟨hrow, hanalyzer⟩, hrest⟩ := List.forall_mem_cons.mp hrows
      have hlater := ih ((congrArg _ (r.config_step row.event.busRow)).trans hcategory) hrest
      have hown : linesOf category (some (lead ++ row.analyzer)) row.reading = [] :=
        linesOf_of_ne hrow _
      rw [log, rowLog, List.flatMap_append, List.flatMap_cons, hown, List.nil_append, hlater,
        hcategory, endedBy_cons, List.map_append, List.map_map, hanalyzer, List.flatMap_map]
      simp only [linesOf_transaction]
      rw [← List.map_eq_flatMap]
      rfl

theorem length_log (r : Reconstructor) (rows : List Entered) :
    (log r rows).length = rows.length + (endedBy r rows).length := by
  induction rows generalizing r with
  | nil => rfl
  | cons row rows ih =>
      rw [log, rowLog, endedBy_cons, List.length_append, List.length_append, List.length_cons,
        List.length_map, List.length_map, ih, List.length_cons]
      omega

/-! ## Lines of a store -/

theorem flatMap_filter {α β : Type} (p : α → Bool) (f : α → List β) (xs : List α) :
    (xs.filter p).flatMap f = xs.flatMap fun x => if p x then f x else [] := by
  induction xs with
  | nil => rfl
  | cons x xs ih =>
      rw [List.flatMap_cons, List.filter_cons]
      split
      · rw [List.flatMap_cons, ih]
      · rw [ih, List.nil_append]

/-- In the joined frames an interval has the lines of what it says, on the track of its number. -/
theorem joined_eq_linesOf (s : Store) (category : String) :
    Trace.joined s.sliceRows s.argRows s.trackRows category
      = s.slices.toList.flatMap fun slice => linesOf category
          ((s.trackRows.find? fun track => (track.id : Int) == slice.track).map (·.name))
          (s.readingOf slice) := by
  rw [Store.joined_tables, Store.sliceRows, Store.argRowsBySlice, List.zip_map', flatMap_filter,
    List.flatMap_map]
  conv_rhs => rw [← List.zipIdx_map_fst 0 s.slices.toList, List.flatMap_map]
  refine List.flatMap_congr fun p _ => ?_
  rw [linesOf]
  simp only [Store.argRowsOf_eq, argTexts_map]
  rfl

section Books

variable {config : Config} {bus : Bus.Config} {rows : List Entered} {s : Session}

theorem Books.transactions_eq (h : Books config bus rows s) :
    s.transactions = (endedBy { config := bus } rows).length := by
  have hlength := h.slices.length_eq
  have hsize := h.size
  rw [length_log, Array.length_toList, hsize, h.count] at hlength
  omega

/-- The track of a number has the name of the analyzer that has this number. -/
theorem find?_trackTable {lead : String} {names : List String} {id : Nat} {name : String}
    (h : names[id]? = some name) :
    ((trackTable lead names).find? fun track => (track.id : Int) == (id : Int)).map (·.name)
      = some (lead ++ name) := by
  have hthere : ({ id, kind := .csvSlice, key := name, name := lead ++ name } : TrackRow)
      ∈ trackTable lead names := mem_trackTable.mpr ⟨h, rfl, rfl⟩
  cases hfind : (trackTable lead names).find? fun track => (track.id : Int) == (id : Int) with
  | none =>
      have hnone := List.find?_eq_none.mp hfind _ hthere
      simp at hnone
  | some track =>
      have hid : track.id = id := by simpa using List.find?_some hfind
      obtain ⟨hkey, -, hname⟩ := mem_trackTable.mp (List.mem_of_find?_eq_some hfind)
      rw [hid, h] at hkey
      rw [Option.map_some, hname, ← Option.some.inj hkey]

/-- What is joined are the transactions that rows have ended, if no row is of their category. -/
theorem Books.joined_eq (h : Books config bus rows s)
    (hrows : ∀ row ∈ rows, row.event.category ≠ some bus.category
      ∧ row.event.busRow.analyzer = row.analyzer) :
    Trace.joined s.store.sliceRows s.store.argRows s.store.trackRows bus.category
      = (endedBy { config := bus } rows).map fun ended =>
        transactionRow config.trackLead ended.1 ended.2 := by
  rw [joined_eq_linesOf, ← flatMap_linesOf_log config.trackLead rfl hrows, List.flatMap_def,
    List.flatMap_def]
  refine congrArg List.flatten ?_
  rw [← List.forall₂_eq_eq_eq, List.forall₂_map_left_iff, List.forall₂_map_right_iff]
  refine h.slices.imp ?_
  rintro slice ⟨analyzer, reading⟩ ⟨⟨id, hid, htrack⟩, hmeans⟩
  rw [htrack, h.tracks, find?_trackTable ((h.trackIds analyzer id).mp hid),
    Store.readingOf_of_means hmeans]

/-- If a store has its frames, it has a list of transactions, which tells what rows have ended. -/
theorem Books.exists_transactions (h : Books config bus rows s)
    (hrows : ∀ row ∈ rows, row.event.category ≠ some bus.category
      ∧ row.event.busRow.analyzer = row.analyzer)
    (hslices : ∃ slices, s.store.sliceFrame = .ok slices)
    (hargs : ∃ args, s.store.argFrame = .ok args)
    (htracks : ∃ tracks, s.store.trackFrame = .ok tracks) :
    ∃ table, s.store.transactions bus.category = .ok table
      ∧ table.length = s.transactions
      ∧ table.Pairwise (fun a b => a.ts ≤ b.ts)
      ∧ table.Perm ((endedBy { config := bus } rows).map fun ended =>
        transactionRow config.trackLead ended.1 ended.2) := by
  obtain ⟨slices, hslices⟩ := hslices
  obtain ⟨args, hargs⟩ := hargs
  obtain ⟨tracks, htracks⟩ := htracks
  have htable : s.store.transactions bus.category
      = .ok ((Trace.joined slices args tracks bus.category).mergeSort fun a b => a.ts ≤ b.ts) := by
    rw [Store.transactions_eq_joined, hslices, hargs, htracks]
    rfl
  obtain rfl := Store.frameOf_eq_ok hslices
  obtain rfl := Store.argFrame_eq_ok hargs
  obtain rfl := Store.frameOf_eq_ok htracks
  rw [h.joined_eq hrows] at htable
  have hperm := List.mergeSort_perm ((endedBy { config := bus } rows).map fun ended =>
    transactionRow config.trackLead ended.1 ended.2) fun a b => a.ts ≤ b.ts
  refine ⟨_, htable, ?_, ?_, hperm⟩
  · rw [hperm.length_eq, List.length_map, h.transactions_eq]
  · have htrans : ∀ a b c : TransactionRow, decide (a.ts ≤ b.ts) = true →
        decide (b.ts ≤ c.ts) = true → decide (a.ts ≤ c.ts) = true := by
      intro a b c hab hbc
      simp only [decide_eq_true_eq] at hab hbc ⊢
      exact hab.trans hbc
    have htotal : ∀ a b : TransactionRow,
        (decide (a.ts ≤ b.ts) || decide (b.ts ≤ a.ts)) = true := by
      intro a b
      simp only [Bool.or_eq_true, decide_eq_true_eq]
      exact le_total a.ts b.ts
    exact (List.pairwise_mergeSort htrans htotal _).imp of_decide_eq_true

end Books

/-! ## Rows of an export -/

theorem category_of_ofRow {config : Config} {schema : Schema} {row : List String} {event : Event}
    (h : Event.ofRow config schema row = .ok event) :
    ∀ category, event.category = some category → category ∈ categoryTypes := by
  obtain ⟨start, duration, ts, dur, -, -, -, -, rfl⟩ := Event.ofRow_eq_ok h
  intro category hcategory
  dsimp only [Event.timed] at hcategory
  split at hcategory
  · next hcontains =>
    rw [← Option.some.inj hcategory]
    exact List.contains_iff_mem.mp hcontains
  · cases hcategory

theorem mem_rowsUpTo {config : Config} {schema : Schema} {lines : List (List String)}
    {row : Entered} (h : row ∈ (rowsUpTo config schema lines).2) :
    ∃ cells ∈ lines, Entered.ofCells config schema cells = .ok row := by
  induction lines with
  | nil => cases h
  | cons cells lines ih =>
      rw [rowsUpTo] at h
      cases hcells : Entered.ofCells config schema cells with
      | error failure =>
          rw [hcells] at h
          cases h
      | ok first =>
          rw [hcells] at h
          rcases List.mem_cons.mp h with rfl | hlater
          · exact ⟨cells, List.mem_cons_self, hcells⟩
          · obtain ⟨other, hother, hreads⟩ := ih hlater
            exact ⟨other, List.mem_cons_of_mem _ hother, hreads⟩

/-- The rows of an export are of no category but those of row types, and the bus knows them by their
analyzers. -/
theorem row_of_mem_entriesUpTo {config : Config} {lines : List String} {row : Entered}
    (h : row ∈ (entriesUpTo config lines).2) :
    (∀ category, row.event.category = some category → category ∈ categoryTypes)
      ∧ row.event.busRow.analyzer = row.analyzer := by
  unfold entriesUpTo at h
  split at h
  · cases h
  · split at h
    · next schema _ =>
      obtain ⟨cells, -, hcells⟩ := mem_rowsUpTo h
      refine ⟨?_, (analyzer_of_ofCells hcells).2⟩
      rw [Entered.ofCells_eq config (args_pad schema cells)] at hcells
      cases hevent : Event.ofRow config schema (schema.pad cells) with
      | error failure =>
          rw [hevent] at hcells
          cases hcells
      | ok event =>
          rw [hevent] at hcells
          obtain rfl := Except.ok.inj hcells
          exact category_of_ofRow hevent
    · cases h

end Csv

namespace Import

open Trace (Store)

theorem fresh_of_openReader {config : Config} {source : Option String} {store : Store}
    {data : List UInt8} {start : Csv.Reader}
    (h : openReader config source store data = .ok (.csv start)) :
    start.lines.rest = []
      ∧ start.session = { config := config.csv, bus := { config := {} }, store } := by
  obtain ⟨-, hbinary⟩ | ⟨-, known, hcsv⟩ := openReader_cases h
  · cases hbinary
  · obtain rfl := Reader.csv.inj hcsv
    exact ⟨rfl, rfl⟩

/-- What an import of an export leaves is written down in the books of the reader, as far as the
export can be read. -/
theorem exists_books {config : Config} (hsize : 1 ≤ config.pieceSize) {source : Option String}
    {data : List UInt8} {start : Csv.Reader}
    (hopen : openReader config source {} data = .ok (.csv start)) :
    let run : EStateM Failure Csv.Reader Unit := do
      (cut config.pieceSize.toNat data).forM Csv.Reader.push
      Csv.Reader.finish
    let lines := (Text.allLines data).map start.lines.codec.decode
    let entries := Csv.entriesUpTo config.csv (Csv.texts lines)
    let failure := entries.1.or (Csv.refusal? lines)
    ∃ s, Csv.Reader.outcome (run start) = (failure, s)
      ∧ importBytes config source {} data = { failure, store := s.store }
      ∧ Csv.Books config.csv {} entries.2 s := by
  intro run lines entries failure
  obtain ⟨hrest, hsession⟩ := fresh_of_openReader hopen
  obtain ⟨s, hread, hbooks⟩ := Csv.books_entriesUpTo config.csv {} (Csv.texts lines)
  have hpieces : (cut config.pieceSize.toNat data).flatten = data := flatten_cut (by omega) data
  have houtcome := Csv.Reader.outcome_pieces (ready_of_openReader hopen)
    (cut config.pieceSize.toNat data)
  rw [hpieces, hrest, List.nil_append, hsession, Csv.Session.readDecoded_eq, hread] at houtcome
  refine ⟨s, houtcome, ?_, hbooks⟩
  rw [importBytes_eq_importWhole hsize, importWhole, hopen]
  dsimp only [Reader.whole]
  rw [hrest, List.nil_append, hsession, Csv.Session.readDecoded_eq, hread]

/-- The list of transactions tells the transactions of an export, each once. Let octets be imported
as an export into an empty store, whether or not a row fails in the end, and let the store have its
frames. Then there is a list, with as many lines as the reader counts transactions. They are sorted
by time, and they are those of the transactions that the rows have ended, up to the first row that
cannot be read, with the names of the tracks of their analyzers. -/
theorem import_transactions {config : Config} (hsize : 1 ≤ config.pieceSize)
    {source : Option String} {data : List UInt8} {start : Csv.Reader}
    (hopen : openReader config source {} data = .ok (.csv start))
    (hslices : ∃ slices, (importBytes config source {} data).store.sliceFrame = .ok slices)
    (hargs : ∃ args, (importBytes config source {} data).store.argFrame = .ok args)
    (htracks : ∃ tracks, (importBytes config source {} data).store.trackFrame = .ok tracks) :
    let run : EStateM Failure Csv.Reader Unit := do
      (cut config.pieceSize.toNat data).forM Csv.Reader.push
      Csv.Reader.finish
    let lines := (Text.allLines data).map start.lines.codec.decode
    let entries := Csv.entriesUpTo config.csv (Csv.texts lines)
    let failure := entries.1.or (Csv.refusal? lines)
    ∃ s table, Csv.Reader.outcome (run start) = (failure, s)
      ∧ importBytes config source {} data = { failure, store := s.store }
      ∧ s.store.transactions "i2c" = .ok table
      ∧ table.length = s.transactions
      ∧ table.Pairwise (fun a b => a.ts ≤ b.ts)
      ∧ table.Perm ((Csv.endedBy {} entries.2).map fun ended =>
        Csv.transactionRow config.csv.trackLead ended.1 ended.2)
      ∧ ∀ (memory : Nat → Bool) (path : Files.Path), source = some path.name →
        sizeFailure? memory config.pieceSize = none →
          importFile memory config path (.file data) {} = importBytes config source {} data := by
  intro run lines entries failure
  obtain ⟨s, hrun, himport, hbooks⟩ := exists_books hsize hopen
  rw [himport] at hslices hargs htracks
  have hrows : ∀ row ∈ entries.2, row.event.category ≠ some ({} : Bus.Config).category
      ∧ row.event.busRow.analyzer = row.analyzer := by
    intro row hrow
    obtain ⟨hcategory, hanalyzer⟩ := Csv.row_of_mem_entriesUpTo hrow
    refine ⟨fun hbus => ?_, hanalyzer⟩
    exact absurd (hcategory _ hbus) (by decide)
  obtain ⟨table, htable, hlength, hsorted, hperm⟩ :=
    hbooks.exists_transactions hrows hslices hargs htracks
  refine ⟨s, table, hrun, himport, htable, hlength, hsorted, hperm, ?_⟩
  intro memory path hsource hread
  rw [importFile_eq_importWhole hsize hread, importBytes_eq_importWhole hsize, hsource]

theorem exists_ok_of_isSome {ε α : Type} {result : Except ε α}
    (h : result.toOption.isSome = true) : ∃ a, result = .ok a := by
  cases result with
  | error e => cases h
  | ok a => exact ⟨a, rfl⟩

def csvConfig : Config := { request := .format "csv" }

/-- A transaction, in columns that are called like the arguments of one, and a row that fails. -/
def crowdedExport : List UInt8 :=
  plainOctets ("name,type,start_time,duration,address,write_bytes,Address\n"
    ++ "I2C,start,2,0\nI2C,address,3,0,x,y,0x20\nI2C,stop,5,0,x\nI2C,stop")

/-- The transaction is told once, with what it carries itself. -/
theorem import_transactions_crowdedExport :
    (importBytes csvConfig none {} crowdedExport).failure.isSome = true
      ∧ (importBytes csvConfig none {} crowdedExport).store.transactions "i2c" = .ok [
          { ts := 2000000000, dur := 3000000000, track := some "Saleae CSV: I2C", name := "0x20"
            address := some "0x20", writeBytes := none, readBytes := none }] := by
  have hsize : 1 ≤ csvConfig.pieceSize := by decide
  have hopen : openReader csvConfig none {} crowdedExport = .ok (.csv {}) := rfl
  have hframes :
      ((importBytes csvConfig none {} crowdedExport).store.sliceFrame.toOption.isSome
        ∧ (importBytes csvConfig none {} crowdedExport).store.argFrame.toOption.isSome
        ∧ (importBytes csvConfig none {} crowdedExport).store.trackFrame.toOption.isSome)
      ∧ (importBytes csvConfig none {} crowdedExport).failure.isSome = true := by decide +kernel
  obtain ⟨⟨hslices, hargs, htracks⟩, hfails⟩ := hframes
  obtain ⟨s, table, -, himport, htable, -, -, hperm, -⟩ := import_transactions hsize hopen
    (exists_ok_of_isSome hslices) (exists_ok_of_isSome hargs) (exists_ok_of_isSome htracks)
  have hended : (Csv.endedBy {} (Csv.entriesUpTo csvConfig.csv
        (Csv.texts ((Text.allLines crowdedExport).map
          ({} : Csv.Reader).lines.codec.decode))).2).map
        (fun ended => Csv.transactionRow csvConfig.csv.trackLead ended.1 ended.2)
      = [{ ts := 2000000000, dur := 3000000000, track := some "Saleae CSV: I2C", name := "0x20"
           address := some "0x20", writeBytes := none, readBytes := none }] := by decide +kernel
  rw [hended, List.perm_singleton] at hperm
  refine ⟨hfails, ?_⟩
  rw [himport, ← hperm]
  exact htable

end Import

end LogicCapture
