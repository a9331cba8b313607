import Mathlib
import LogicCapture.Proofs.Additions
import LogicCapture.Proofs.Cells
import LogicCapture.Proofs.Encoded
import LogicCapture.Proofs.Quoting
import LogicCapture.Proofs.Resolution
import LogicCapture.Proofs.Transactions

/-!
# The order of columns

As long as each role is named once, it makes no difference where a column stands. A row is then no
more than the pairs of its columns and cells: the value of a role is the cell of its one column
(`cell_eq`), and the arguments are those of the pairs one by one (`cellArgs_eq`). An export whose
columns are put in another order therefore says row by row what it said (`entriesUpTo_rearranged`),
but that the arguments of a row come in another order too. So the same is written down for it
(`Books.alike`), although the names of columns get other handles.
-/

namespace LogicCapture

namespace Csv

open Bus (Reconstructor)
open Text (Codec Encoding allLines joinLines newline)
open Trace (ArgValue Reading Slice Store)

/-! ## Pairs of columns and cells -/

/-- The fields of a record in another order, given by their places. -/
def rearranged (order : List Nat) (record : List String) : List String :=
  order.map fun index => record[index]?.getD ""

theorem zip_eq_map_range {columns cells : List String} (h : cells.length = columns.length) :
    columns.zip cells = (List.range columns.length).map fun index =>
      (columns[index]?.getD "", cells[index]?.getD "") := by
  refine List.ext_getElem (by simp [h]) fun index _ hindex => ?_
  rw [List.length_map, List.length_range] at hindex
  simp [hindex, h]

theorem zip_eq_map_zipIdx {columns cells : List String} (h : cells.length = columns.length) :
    columns.zip cells = columns.zipIdx.map fun (column, index) =>
      (column, cells[index]?.getD "") := by
  refine List.ext_getElem (by simp [h]) fun index _ hindex => ?_
  rw [List.length_map, List.length_zipIdx] at hindex
  simp [hindex, h]

section Rearranged

variable {order : List Nat} {header row : List String}

theorem perm_zip_rearranged (horder : order.Perm (List.range header.length))
    (h : row.length = header.length) :
    ((rearranged order header).zip (rearranged order row)).Perm (header.zip row) := by
  rw [zip_eq_map_range h, rearranged, rearranged, List.zip_map']
  exact horder.map _

theorem perm_rearranged (horder : order.Perm (List.range header.length)) :
    (rearranged order header).Perm header := by
  have hpairs := (perm_zip_rearranged horder rfl).map Prod.fst
  rwa [List.map_fst_zip le_rfl, List.map_fst_zip le_rfl] at hpairs

end Rearranged

/-! ## Roles -/

def roleOf? (column : String) : Option Role :=
  Role.ofColumnName? (Text.lowercase column)

def OneRoleEach (columns : List String) : Prop :=
  (columns.filterMap roleOf?).Nodup

theorem OneRoleEach.perm {columns others : List String} (h : OneRoleEach columns)
    (hperm : others.Perm columns) : OneRoleEach others :=
  (hperm.filterMap roleOf?).nodup_iff.mpr h

theorem OneRoleEach.length_filter_le {α : Type} {pairs : List (String × α)}
    (h : OneRoleEach (pairs.map Prod.fst)) (role : Role) :
    (pairs.filter fun pair => roleOf? pair.1 == some role).length ≤ 1 := by
  have hcount := List.nodup_iff_count_le_one.mp h role
  rw [List.count_filterMap, List.countP_map, List.countP_eq_length_filter] at hcount
  exact hcount

theorem lastIndex?_rolesOf (columns : List String) (role : Role) :
    Schema.lastIndex? (Schema.rolesOf columns) role
      = (columns.zipIdx.filter fun pair => roleOf? pair.1 == some role).getLast?.map (·.2) := by
  rw [Schema.lastIndex?, Schema.rolesOf, List.zipIdx_map, List.filter_map, List.getLast?_map,
    Option.map_map]
  rfl

theorem lastIndex?_eq_none_iff {columns : List String} {role : Role} :
    Schema.lastIndex? (Schema.rolesOf columns) role = none
      ↔ ∀ column ∈ columns, roleOf? column ≠ some role := by
  rw [lastIndex?_rolesOf, Option.map_eq_none_iff, List.getLast?_eq_none_iff,
    List.filter_eq_nil_iff]
  constructor
  · intro hnone column hcolumn
    obtain ⟨index, hindex⟩ := List.mem_iff_getElem?.mp hcolumn
    simpa using hnone (column, index) (List.mem_zipIdx_iff_getElem?.mpr hindex)
  · rintro hnone ⟨column, index⟩ hmem
    simpa using hnone column (List.fst_mem_of_mem_zipIdx hmem)

/-- The only column with a role is the last one. -/
theorem OneRoleEach.lastIndex?_eq_some_iff {columns : List String} (h : OneRoleEach columns)
    {column : String} {index : Nat} (hcolumn : (column, index) ∈ columns.zipIdx) (role : Role) :
    Schema.lastIndex? (Schema.rolesOf columns) role = some index
      ↔ roleOf? column = some role := by
  rw [lastIndex?_rolesOf, Option.map_eq_some_iff]
  constructor
  · rintro ⟨⟨other, place⟩, hlast, hplace⟩
    obtain rfl : place = index := hplace
    obtain ⟨hother, hrole⟩ := List.mem_filter.mp (List.mem_of_getLast? hlast)
    rw [List.mem_zipIdx_iff_getElem?] at hcolumn hother
    obtain rfl := Option.some.inj (hcolumn.symm.trans hother)
    exact beq_iff_eq.mp hrole
  · intro hrole
    have hone : (columns.zipIdx.filter fun pair => roleOf? pair.1 == some role).length ≤ 1 :=
      OneRoleEach.length_filter_le ((List.zipIdx_map_fst 0 columns).symm ▸ h) role
    have hmem : (column, index) ∈ columns.zipIdx.filter fun pair => roleOf? pair.1 == some role :=
      List.mem_filter.mpr ⟨hcolumn, beq_iff_eq.mpr hrole⟩
    obtain ⟨pair, hpair⟩ := List.length_eq_one_iff.mp
      (Nat.le_antisymm hone (List.length_pos_of_mem hmem))
    rw [hpair, List.mem_singleton] at hmem
    exact ⟨pair, by rw [hpair]; rfl, hmem ▸ rfl⟩

/-! ## Cells by roles -/

theorem eq_of_perm_of_length_le {α : Type} {xs ys : List α} (h : xs.Perm ys)
    (hlength : ys.length ≤ 1) : xs = ys := by
  rcases ys with _ | ⟨y, _ | ⟨z, ys⟩⟩
  · exact h.eq_nil
  · exact List.perm_singleton.mp h
  · simp at hlength

/-- The schema gives each role the last column that names it. -/
def Schema.Lasting (schema : Schema) : Prop :=
  ∀ role, schema.places.index? role = Schema.lastIndex? (Schema.rolesOf schema.columns) role

theorem cell_eq {schema : Schema} (hplaces : schema.Lasting) {cells : List String}
    (hwidth : cells.length = schema.columns.length) (role : Role) :
    schema.cell cells role
      = (((schema.columns.zip cells).filter fun pair =>
          roleOf? pair.1 == some role).getLast?.map (·.2)).getD "" := by
  rw [Schema.cell, hplaces, lastIndex?_rolesOf, zip_eq_map_zipIdx hwidth, List.filter_map,
    List.getLast?_map, Option.map_map]
  change _ = (Option.map _ (schema.columns.zipIdx.filter fun pair =>
    roleOf? pair.1 == some role).getLast?).getD ""
  cases (schema.columns.zipIdx.filter fun pair => roleOf? pair.1 == some role).getLast? with
  | none => rfl
  | some pair => rfl

/-- So it does not matter in which order the pairs come. -/
theorem cell_perm {schema other : Schema} (hplaces : schema.Lasting) (hplaces' : other.Lasting)
    (hroles : OneRoleEach schema.columns) {cells cells' : List String}
    (hwidth : cells.length = schema.columns.length)
    (hwidth' : cells'.length = other.columns.length)
    (hperm : (other.columns.zip cells').Perm (schema.columns.zip cells)) (role : Role) :
    other.cell cells' role = schema.cell cells role := by
  have hone : ((schema.columns.zip cells).filter fun pair =>
      roleOf? pair.1 == some role).length ≤ 1 := by
    refine OneRoleEach.length_filter_le ?_ role
    rw [List.map_fst_zip hwidth.ge]
    exact hroles
  rw [cell_eq hplaces hwidth, cell_eq hplaces' hwidth',
    eq_of_perm_of_length_le (hperm.filter _) hone]

/-- The argument of a column and a cell, if they make one. -/
def argOf? (pair : String × String) : Option (String × ArgValue) :=
  if pair.1.isEmpty || (roleOf? pair.1).any Role.required.contains || pair.2.isEmpty then none
  else some (pair.1, Schema.argValue pair.2)

/-- The arguments are those of the pairs. -/
theorem cellArgs_eq {schema : Schema} (hplaces : schema.Lasting)
    (hroles : OneRoleEach schema.columns) {cells : List String}
    (hwidth : cells.length = schema.columns.length) :
    cellArgs schema cells = (schema.columns.zip cells).filterMap argOf? := by
  rw [cellArgs, zip_eq_map_zipIdx hwidth, List.filterMap_map]
  refine List.filterMap_congr ?_
  rintro ⟨column, index⟩ hmem
  have hcore : (Role.required.filterMap schema.places.index?).contains index
      = (roleOf? column).any Role.required.contains := by
    rw [Bool.eq_iff_iff, List.contains_iff_mem, List.mem_filterMap, Option.any_eq_true]
    constructor
    · rintro ⟨role, hrole, hplace⟩
      rw [hplaces, hroles.lastIndex?_eq_some_iff hmem] at hplace
      exact ⟨role, hplace, List.contains_iff_mem.mpr hrole⟩
    · rintro ⟨role, hcolumn, hrole⟩
      refine ⟨role, List.contains_iff_mem.mp hrole, ?_⟩
      rw [hplaces, hroles.lastIndex?_eq_some_iff hmem]
      exact hcolumn
  dsimp only [Function.comp_apply, argOf?]
  rw [hcore]

/-! ## Headers in another order -/

/-- The schema is that of a header with these fields. -/
structure Schema.Of (schema : Schema) (header : List String) : Prop where
  columns : schema.columns = header.map Text.trim
  lasting : schema.Lasting
  inside : schema.Inside

def Unmarked (header : List String) : Prop :=
  ∀ field ∈ header, (Text.trim field).toList.head? ≠ some '\uFEFF'

theorem Unmarked.columnNames_eq {header : List String} (h : Unmarked header) :
    Schema.columnNames header = header.map Text.trim := by
  cases header with
  | nil => rfl
  | cons first rest =>
      rw [Schema.columnNames, stripMark_eq_self (h first List.mem_cons_self), Text.trim_trim,
        List.map_cons]

theorem Unmarked.of_ofFields {header : List String} (h : Unmarked header) {schema : Schema}
    (hschema : Schema.ofFields header = .ok schema) : schema.Of header where
  columns := (columns_of_ofFields hschema).trans h.columnNames_eq
  lasting := index?_of_ofFields hschema
  inside := inside_of_ofFields hschema

theorem missingRoles_perm {columns others : List String} (h : others.Perm columns) :
    missingRoles others = missingRoles columns := by
  refine List.filter_congr fun role _ => ?_
  rw [Bool.eq_iff_iff, Option.isNone_iff_eq_none, Option.isNone_iff_eq_none,
    lastIndex?_eq_none_iff, lastIndex?_eq_none_iff]
  exact ⟨fun hnone column hcolumn => hnone column (h.symm.subset hcolumn),
    fun hnone column hcolumn => hnone column (h.subset hcolumn)⟩

theorem Unmarked.ofFields_cases {header : List String} (h : Unmarked header) (hne : header ≠ []) :
    (missingRoles (header.map Text.trim) = [] ∧ ∃ schema, Schema.ofFields header = .ok schema)
      ∨ missingRoles (header.map Text.trim) ≠ []
        ∧ Schema.ofFields header
          = .error (.columnsMissing (missingRoles (header.map Text.trim))) := by
  have hcases := Csv.ofFields_cases hne
  rwa [h.columnNames_eq] at hcases

/-! ## Rows in another order -/

structure Entered.Alike (row other : Entered) : Prop where
  event : other.event = row.event
  args : other.args.Perm row.args

/-- Both rows can be read and say the same, or the same is wrong with both. -/
inductive ReadAlike : Except Failure Entered → Except Failure Entered → Prop
  | error (failure : Failure) : ReadAlike (.error failure) (.error failure)
  | ok {row other : Entered} (h : row.Alike other) : ReadAlike (.ok row) (.ok other)

section Rows

variable {header others row row' : List String} {schema other : Schema}

theorem Schema.Of.perm_zip (h : schema.Of header) (h' : other.Of others)
    (hwidth : row.length = header.length) (hwidth' : row'.length = others.length)
    (hperm : (others.zip row').Perm (header.zip row)) :
    (other.columns.zip (cellsOf other.columns.length row')).Perm
      (schema.columns.zip (cellsOf schema.columns.length row)) := by
  have hcells : cellsOf schema.columns.length row = row.map Text.trim :=
    cellsOf_of_length (by rw [h.columns, List.length_map, hwidth])
  have hcells' : cellsOf other.columns.length row' = row'.map Text.trim :=
    cellsOf_of_length (by rw [h'.columns, List.length_map, hwidth'])
  rw [hcells, hcells', h.columns, h'.columns, List.zip_map, List.zip_map]
  exact hperm.map _

/-- Two rows with the same pairs say the same, or the same is wrong with them. -/
theorem Schema.Of.ofCells_alike (config : Config) (h : schema.Of header) (h' : other.Of others)
    (hroles : OneRoleEach schema.columns) (hwidth : row.length = header.length)
    (hwidth' : row'.length = others.length) (hperm : (others.zip row').Perm (header.zip row)) :
    ReadAlike (Entered.ofCells config schema row) (Entered.ofCells config other row') := by
  have hpairs := h.perm_zip h' hwidth hwidth' hperm
  have hroles' : OneRoleEach other.columns := by
    have hcolumns := hpairs.map Prod.fst
    rw [List.map_fst_zip (length_cellsOf _ _).ge, List.map_fst_zip (length_cellsOf _ _).ge]
      at hcolumns
    exact hroles.perm hcolumns
  have hvalue : ∀ role, other.value (other.pad row') role = schema.value (schema.pad row) role := by
    intro role
    have hwide := length_cellsOf schema.columns.length row
    have hwide' := length_cellsOf other.columns.length row'
    rw [value_pad h.inside, value_pad h'.inside]
    exact cell_perm h.lasting h'.lasting hroles hwide hwide' hpairs role
  obtain ⟨args, hargs, hcarried⟩ := carried_args_pad schema row
  obtain ⟨args', hargs', hcarried'⟩ := carried_args_pad other row'
  rw [cellArgs_eq h.lasting hroles (length_cellsOf _ _)] at hcarried
  rw [cellArgs_eq h'.lasting hroles' (length_cellsOf _ _)] at hcarried'
  rw [Entered.ofCells_eq config hargs, Entered.ofCells_eq config hargs',
    Event.ofRow_congr config hvalue]
  cases Event.ofRow config schema (schema.pad row) with
  | error failure => exact .error failure
  | ok event =>
      refine .ok ⟨rfl, ?_⟩
      rw [hcarried, hcarried']
      exact hpairs.filterMap _

end Rows

/-- Rows that are alike one by one are so all together, up to the first that cannot be read. -/
theorem rowsUpTo_alike {config : Config} {schema other : Schema}
    {change : List String → List String} {rows : List (List String)}
    (h : ∀ row ∈ rows, ReadAlike (Entered.ofCells config schema row)
      (Entered.ofCells config other (change row))) :
    (rowsUpTo config other (rows.map change)).1 = (rowsUpTo config schema rows).1
      ∧ List.Forall₂ Entered.Alike (rowsUpTo config schema rows).2
        (rowsUpTo config other (rows.map change)).2 := by
  induction rows with
  | nil => exact ⟨rfl, .nil⟩
  | cons row rows ih =>
      obtain ⟨hrow, hrest⟩ := List.forall_mem_cons.mp h
      rw [List.map_cons, rowsUpTo, rowsUpTo]
      generalize Entered.ofCells config schema row = first at hrow ⊢
      generalize Entered.ofCells config other (change row) = second at hrow ⊢
      cases hrow with
      | error failure => exact ⟨rfl, .nil⟩
      | ok halike =>
          obtain ⟨hfailure, hrows⟩ := ih hrest
          exact ⟨hfailure, .cons halike hrows⟩

/-- An export with its columns in another order says the same. -/
theorem entriesUpTo_rearranged (config : Config) {order : List Nat} {header : List String}
    {rows : List (List String)} {lines lines' : List String}
    (hlines : records lines = header :: rows)
    (hlines' : records lines' = (header :: rows).map (rearranged order))
    (horder : order.Perm (List.range header.length)) (hne : header ≠ [])
    (hmarks : Unmarked header) (hroles : OneRoleEach (header.map Text.trim))
    (hwidth : ∀ row ∈ rows, row.length = header.length) :
    (entriesUpTo config lines').1 = (entriesUpTo config lines).1
      ∧ List.Forall₂ Entered.Alike (entriesUpTo config lines).2 (entriesUpTo config lines').2 := by
  have hheader := perm_rearranged horder
  have hmarks' : Unmarked (rearranged order header) := fun field hfield =>
    hmarks field (hheader.subset hfield)
  have hne' : rearranged order header ≠ [] := by
    rintro hnil
    rw [hnil] at hheader
    exact hne hheader.nil_eq.symm
  have hlength : ∀ record, (rearranged order record).length = (rearranged order header).length := by
    intro record
    rw [rearranged, rearranged, List.length_map, List.length_map]
  have hmissing := missingRoles_perm (hheader.map Text.trim)
  unfold entriesUpTo
  rw [hlines, hlines', List.map_cons]
  dsimp only
  -- the headers lack the same roles, so both are one or neither is
  rcases hmarks.ofFields_cases hne with ⟨hall, schema, hschema⟩ | ⟨hsome, hfails⟩
  · rcases hmarks'.ofFields_cases hne' with ⟨-, other, hother⟩ | ⟨hsome', -⟩
    · have h := hmarks.of_ofFields hschema
      have h' := hmarks'.of_ofFields hother
      rw [hschema, hother]
      exact rowsUpTo_alike fun row hrow => h.ofCells_alike config h' (h.columns ▸ hroles)
        (hwidth row hrow) (hlength row) (perm_zip_rearranged horder (hwidth row hrow))
    · exact absurd (hmissing.trans hall) hsome'
  · rcases hmarks'.ofFields_cases hne' with ⟨hall', -⟩ | ⟨-, hfails'⟩
    · exact absurd (hmissing.symm.trans hall') hsome
    · rw [hfails, hfails', hmissing]
      exact ⟨rfl, .nil⟩

/-! ## What is written down -/

structure ReadingAlike (reading other : Reading) : Prop where
  same : other = { reading with args := other.args }
  args : other.args.Perm reading.args

theorem readingAlike_refl (reading : Reading) : ReadingAlike reading reading :=
  ⟨rfl, .refl _⟩

theorem map_event_of_alike {rows others : List Entered}
    (h : List.Forall₂ Entered.Alike rows others) : others.map (·.event) = rows.map (·.event) := by
  induction h with
  | nil => rfl
  | cons hrow _ ih => rw [List.map_cons, List.map_cons, hrow.event, ih]

/-- Rows that are alike leave intervals that are alike, and end the same transactions. -/
theorem log_alike (r : Reconstructor) {rows others : List Entered}
    (h : List.Forall₂ Entered.Alike rows others) :
    List.Forall₂ (fun entry entry' => entry'.1 = entry.1 ∧ ReadingAlike entry.2 entry'.2)
      (log r rows) (log r others) := by
  induction h generalizing r with
  | nil => exact .nil
  | @cons row other _ _ hrow _ ih =>
      have hown : ReadingAlike row.reading other.reading := by
        refine ⟨?_, hrow.args⟩
        rw [Entered.reading, Entered.reading, hrow.event]
      rw [log, log, rowLog, rowLog, Entered.analyzer, Entered.analyzer, hrow.event]
      exact List.rel_append
        (.cons ⟨rfl, hown⟩ (List.forall₂_same.mpr fun entry _ => ⟨rfl, readingAlike_refl entry.2⟩))
        (ih _)

/-- As much has been read in both sessions, and their stores have the same tables of tracks and of
intervals, and for each interval the same arguments in some order. -/
structure Session.Alike (s other : Session) : Prop where
  rows : other.rows = s.rows
  transactions : other.transactions = s.transactions
  tracks : other.store.trackRows = s.store.trackRows
  slices : other.store.sliceRows = s.store.sliceRows
  args : List.Forall₂ List.Perm other.store.argRowsBySlice s.store.argRowsBySlice

section Books

variable {config : Config} {bus : Bus.Config} {rows others : List Entered} {s other : Session}

theorem analyzers_of_alike (h : List.Forall₂ Entered.Alike rows others) :
    analyzers others = analyzers rows := by
  have hnames := congrArg (List.map Event.analyzer) (map_event_of_alike h)
  rw [List.map_map, List.map_map] at hnames
  exact congrArg List.eraseDups hnames

/-- Intervals that are alike are on the same tracks, since the analyzers are the same. -/
theorem Books.slices_alike (h : Books config bus rows s) (h' : Books config bus others other)
    (halike : List.Forall₂ Entered.Alike rows others) :
    List.Forall₂ (fun slice slice' => slice'.track = slice.track
        ∧ ReadingAlike (s.store.readingOf slice) (other.store.readingOf slice'))
      s.store.slices.toList other.store.slices.toList := by
  have hanalyzers := analyzers_of_alike halike
  have hlogs := Store.forall₂_common h.slices (log_alike { config := bus } halike).flip
  refine (Store.forall₂_common hlogs h'.slices).imp ?_
  rintro slice slice' ⟨entry', ⟨entry, ⟨⟨id, hid, htrack⟩, hmeans⟩, hname, hreading⟩,
    ⟨id', hid', htrack'⟩, hmeans'⟩
  rw [Store.readingOf_of_means hmeans, Store.readingOf_of_means hmeans']
  refine ⟨?_, hreading⟩
  rw [hname, h'.trackIds, hanalyzers, ← h.trackIds, hid] at hid'
  rw [htrack, htrack', Option.some.inj hid']

/-- From rows that are alike the same is written down. -/
theorem Books.alike (h : Books config bus rows s) (h' : Books config bus others other)
    (halike : List.Forall₂ Entered.Alike rows others) : s.Alike other := by
  have hslices := Store.forall₂_zipIdx (h.slices_alike h' halike) 0 0
  refine ⟨?_, ?_, ?_, ?_, ?_⟩
  · rw [h.count, h'.count, halike.length_eq]
  · have hrows : others.map (·.event.busRow) = rows.map (·.event.busRow) := by
      have hmapped := congrArg (List.map Event.busRow) (map_event_of_alike halike)
      rwa [List.map_map, List.map_map] at hmapped
    rw [h.transactions_eq, h'.transactions_eq, endedBy, endedBy, hrows]
  · rw [h.tracks, h'.tracks, analyzers_of_alike halike]
  · symm
    rw [Store.sliceRows, Store.sliceRows, ← List.forall₂_eq_eq_eq, List.forall₂_map_left_iff,
      List.forall₂_map_right_iff]
    refine hslices.imp ?_
    rintro ⟨slice, id⟩ ⟨slice', id'⟩ ⟨⟨htrack, hreading⟩, hid⟩
    obtain rfl : id = id' := hid.trans (Nat.zero_add _)
    have hsame := hreading.same
    simp only [Store.readingOf, Reading.mk.injEq] at hsame
    obtain ⟨hts, hdur, hcategory, hname, -⟩ := hsame
    dsimp only at htrack ⊢
    rw [htrack, hts, hdur, hcategory, hname]
  · refine List.Forall₂.flip ?_
    rw [Store.argRowsBySlice, Store.argRowsBySlice, List.forall₂_map_left_iff,
      List.forall₂_map_right_iff]
    refine hslices.imp ?_
    rintro ⟨slice, id⟩ ⟨slice', id'⟩ ⟨⟨-, hreading⟩, hid⟩
    obtain rfl : id = id' := hid.trans (Nat.zero_add _)
    show List.Perm (other.store.argRowsOf id slice') (s.store.argRowsOf id slice)
    rw [Store.argRowsOf_eq, Store.argRowsOf_eq]
    exact hreading.args.map _

end Books

/-! ## Exports in quotes -/

/-- The lines of the octets are these records with all fields in quotes, each with or without a
carriage return behind it. -/
def Spells (codec : Codec) (octets : List UInt8) (lines : List (List String)) : Prop :=
  ∃ written : List String, (allLines octets).map codec.decode = written.map Except.ok
    ∧ written.map Session.stripReturn = lines.map quotedLine

theorem Spells.refusal?_eq {codec : Codec} {octets : List UInt8} {lines : List (List String)}
    (h : Spells codec octets lines) : refusal? ((allLines octets).map codec.decode) = none := by
  obtain ⟨written, hdecoded, -⟩ := h
  rw [hdecoded, refusal?_map_ok]

theorem isBlank_quotedLine (record : List String) :
    Text.isBlank (quotedLine record) = record.isEmpty := by
  cases record with
  | nil => rfl
  | cons field record =>
      have hquote := List.mem_of_getLast? (getLast?_quotedLine (List.cons_ne_nil field record))
      exact List.all_eq_false.mpr ⟨'"', hquote, by decide⟩

/-- Records of one width are read back. Without a field they are blank lines. -/
theorem Spells.records_eq {codec : Codec} {octets : List UInt8} {lines : List (List String)}
    (h : Spells codec octets lines) {width : Nat} (hwidth : ∀ row ∈ lines, row.length = width) :
    records (texts ((allLines octets).map codec.decode)) = if width = 0 then [] else lines := by
  obtain ⟨written, hdecoded, hstripped⟩ := h
  have hblank : lines.filter ((fun line => !Text.isBlank line) ∘ quotedLine)
      = lines.filter fun _ => decide (width ≠ 0) := by
    refine List.filter_congr fun row hrow => ?_
    rw [Function.comp_apply, isBlank_quotedLine, ← hwidth row hrow]
    cases row <;> rfl
  rw [hdecoded, texts_map_ok, records, hstripped, List.filter_map, hblank, List.map_map]
  split
  · next hzero => simp [hzero]
  · next hne =>
    rw [List.filter_eq_self.mpr fun _ _ => decide_eq_true hne]
    conv_rhs => rw [← List.map_id lines]
    refine List.map_congr_left fun row hrow => fields_quotedLine fun hnil => hne ?_
    rw [← hwidth row hrow, hnil, List.length_nil]

/-- The octets of these records in UTF-8, with all fields in quotes. -/
def quotedExport (lines : List (List String)) : List UInt8 :=
  joinLines (lines.map fun row => Text.utf8 (quotedLine row))

/-- All records can be written so whose fields hold no line feed. -/
theorem spells_quotedExport {lines : List (List String)}
    (h : ∀ row ∈ lines, ∀ field ∈ row, '\n' ∉ field.toList) :
    Spells .utf8 (quotedExport lines) lines := by
  have hnewline : ∀ line ∈ lines.map fun row => Text.utf8 (quotedLine row), newline ∉ line := by
    intro line hline
    obtain ⟨row, hrow, rfl⟩ := List.mem_map.mp hline
    refine Text.newline_not_mem_utf8 fun hfeed => ?_
    rcases mem_quotedLine hfeed with hquote | hcomma | ⟨field, hfield, hmem⟩
    · exact absurd hquote (by decide)
    · exact absurd hcomma (by decide)
    · exact h row hrow field hfield hmem
  have hlines := Text.allLines_joinLines hnewline []
  rw [List.append_nil] at hlines
  refine ⟨lines.map quotedLine, ?_, ?_⟩
  · rw [quotedExport, hlines, Text.allLines_of_not_mem List.not_mem_nil, if_pos rfl,
      List.append_nil, List.map_map, List.map_map]
    refine List.map_congr_left fun row _ => ?_
    exact congrArg Except.ok (Text.decode_utf8 _)
  rw [List.map_map]
  refine List.map_congr_left fun row _ => ?_
  refine Session.stripReturn_of_not fun hreturn => ?_
  rcases row with _ | ⟨field, record⟩
  · cases hreturn
  · rw [getLast?_quotedLine (List.cons_ne_nil field record)] at hreturn
    cases hreturn

theorem Spells.entriesUpTo_alike (config : Config) {codec codec' : Codec}
    {octets others : List UInt8} {header : List String} {rows : List (List String)}
    {order : List Nat} (h : Spells codec octets (header :: rows))
    (h' : Spells codec' others ((header :: rows).map (rearranged order)))
    (horder : order.Perm (List.range header.length)) (hmarks : Unmarked header)
    (hroles : OneRoleEach (header.map Text.trim))
    (hwidth : ∀ row ∈ rows, row.length = header.length) :
    (entriesUpTo config (texts ((allLines others).map codec'.decode))).1
        = (entriesUpTo config (texts ((allLines octets).map codec.decode))).1
      ∧ List.Forall₂ Entered.Alike
        (entriesUpTo config (texts ((allLines octets).map codec.decode))).2
        (entriesUpTo config (texts ((allLines others).map codec'.decode))).2 := by
  have hlines := h.records_eq (List.forall_mem_cons.mpr ⟨rfl, hwidth⟩)
  have hwidth' : ∀ row ∈ (header :: rows).map (rearranged order), row.length = header.length := by
    intro row hrow
    obtain ⟨record, -, rfl⟩ := List.mem_map.mp hrow
    rw [rearranged, List.length_map, horder.length_eq, List.length_range]
  have hlines' := h'.records_eq hwidth'
  by_cases hne : header = []
  · rw [if_pos (by rw [hne]; rfl)] at hlines hlines'
    rw [entriesUpTo, entriesUpTo, hlines, hlines']
    exact ⟨rfl, .nil⟩
  · rw [if_neg (mt List.length_eq_zero_iff.mp hne)] at hlines hlines'
    exact entriesUpTo_rearranged config hlines hlines' horder hne hmarks hroles hwidth

end Csv

namespace Import

/-- The order of columns makes no difference. Let an export be written with all fields in quotes
and with rows as wide as its header, in which no role is named twice and no field begins with a
byte order mark, and let another be the same with its columns rearranged. Both are read up to the
same row and end alike. They leave the same tracks and the same intervals, those of transactions
included, and each interval has the same arguments in some order. -/
theorem import_rearranged {config : Config} (hsize : 1 ≤ config.pieceSize)
    {source : Option String} {data other : List UInt8} {start start' : Csv.Reader}
    (hopen : openReader config source {} data = .ok (.csv start))
    (hopen' : openReader config source {} other = .ok (.csv start'))
    {header : List String} {rows : List (List String)} {order : List Nat}
    (hdata : Csv.Spells start.lines.codec data (header :: rows))
    (hother : Csv.Spells start'.lines.codec other
      ((header :: rows).map (Csv.rearranged order)))
    (horder : order.Perm (List.range header.length)) (hmarks : Csv.Unmarked header)
    (hroles : Csv.OneRoleEach (header.map Text.trim))
    (hwidth : ∀ row ∈ rows, row.length = header.length) :
    let run := fun (octets : List UInt8) (reader : Csv.Reader) =>
      Csv.Reader.outcome ((do
        (cut config.pieceSize.toNat octets).forM Csv.Reader.push
        Csv.Reader.finish : EStateM Failure Csv.Reader Unit) reader)
    ∃ failure s s', run data start = (failure, s) ∧ run other start' = (failure, s')
      ∧ importBytes config source {} data = { failure, store := s.store }
      ∧ importBytes config source {} other = { failure, store := s'.store }
      ∧ s.Alike s' := by
  intro run
  obtain ⟨s, hrun, himport, hbooks⟩ := exists_books hsize hopen
  obtain ⟨s', hrun', himport', hbooks'⟩ := exists_books hsize hopen'
  obtain ⟨hfailure, halike⟩ :=
    hdata.entriesUpTo_alike config.csv hother horder hmarks hroles hwidth
  rw [hfailure, hother.refusal?_eq] at hrun' himport'
  rw [hdata.refusal?_eq] at hrun himport
  exact ⟨_, s, s', hrun, hrun', himport, himport', hbooks.alike hbooks' halike⟩

/-- A transaction with a text that needs its quotes, and a row without a start. -/
def turnedHeader : List String := ["name", "type", "start_time", "duration", "Address", " é "]

def turnedRows : List (List String) := [
  ["I2C", "start", "1", "0", "", "a, \"b\"\r"],
  ["I2C", "stop", "2", "0", "0x20", "TRUE"],
  ["I2C", "stop", "", "0", "", ""]]

def turnedOrder : List Nat := [5, 2, 0, 4, 3, 1]

theorem import_rearranged_turnedRows :
    let data := Csv.quotedExport (turnedHeader :: turnedRows)
    let other := Csv.quotedExport ((turnedHeader :: turnedRows).map (Csv.rearranged turnedOrder))
    let first := importBytes csvConfig none {} data
    let second := importBytes csvConfig none {} other
    second.failure = first.failure ∧ second.store.trackRows = first.store.trackRows
      ∧ second.store.sliceRows = first.store.sliceRows
      ∧ List.Forall₂ List.Perm second.store.argRowsBySlice first.store.argRowsBySlice := by
  intro data other first second
  have hsize : 1 ≤ csvConfig.pieceSize := by decide
  have hopen : openReader csvConfig none {} data = .ok (.csv {}) := rfl
  have hopen' : openReader csvConfig none {} other = .ok (.csv {}) := rfl
  have hroles : Csv.OneRoleEach (turnedHeader.map Text.trim) := by
    unfold Csv.OneRoleEach
    decide +kernel
  have hmarks : Csv.Unmarked turnedHeader := by
    unfold Csv.Unmarked
    decide +kernel
  obtain ⟨failure, s, s', -, -, hfirst, hsecond, halike⟩ := import_rearranged hsize hopen hopen'
    (Csv.spells_quotedExport (by decide +kernel)) (Csv.spells_quotedExport (by decide +kernel))
    (by decide) hmarks hroles (by decide)
  rw [show first = _ from hfirst, show second = _ from hsecond]
  exact ⟨rfl, halike.tracks, halike.slices, halike.args⟩

end Import

end LogicCapture
