import Mathlib
import LogicCapture.Bus.Reconstructor

/-!
# Transactions as segments

What the reconstructor finds step by step can be said of the rows of an analyzer as a whole. A
segment begins at the first start row behind the segment before it and ends at the first stop row
after that; what a transaction says can be read off the rows in between (`Segment.transaction`). The
state of an open analyzer holds what its rows since the start say (`State.Holds`), so the
reconstructor gives one transaction for each complete segment, with any rows of other analyzers in
between (`transactionsOf_eq_segments`).
-/

namespace LogicCapture.Bus

/-! ## Rows of a segment -/

namespace Config

/-- The four row types can be told apart. -/
def Distinct (config : Config) : Prop :=
  [config.startType, config.addressType, config.dataType, config.stopType].Nodup

variable (config : Config)

def isStart (row : Row) : Bool := row.rowType == config.startType

def isAddress (row : Row) : Bool := row.rowType == config.addressType

def isData (row : Row) : Bool := row.rowType == config.dataType

def isStop (row : Row) : Bool := row.rowType == config.stopType

/-- The direction that an address row gives, if it gives one: whether bytes are read. -/
def direction? (row : Row) : Option Bool :=
  if config.isAddress row then
    if Text.lowercase row.read == "true" then some true
    else if Text.lowercase row.read == "false" then some false
    else none
  else none

/-- The direction after some rows of a segment: the last one given, and writing if none is. -/
def reading (body : List Row) : Bool :=
  (body.filterMap config.direction?).getLast?.getD false

/-- The last address given by an address row; no text if none is. -/
def address (body : List Row) : String :=
  ((body.filter fun row => config.isAddress row && !row.address.isEmpty).getLast?.map
    (·.address)).getD ""

/-- The bytes in one direction: those of the data rows whose preceding rows leave this direction. -/
def bytes (direction : Bool) (body : List Row) : List String :=
  body.zipIdx.filterMap fun (row, i) =>
    if config.isData row && !row.data.isEmpty && config.reading (body.take i) == direction then
      some row.data
    else none

variable {config} {row : Row}

theorem Distinct.ne (hd : config.Distinct) :
    config.startType ≠ config.addressType ∧ config.startType ≠ config.dataType
      ∧ config.startType ≠ config.stopType ∧ config.addressType ≠ config.dataType
      ∧ config.addressType ≠ config.stopType ∧ config.dataType ≠ config.stopType := by
  simp only [Distinct, List.nodup_cons, List.mem_cons, not_or, List.not_mem_nil] at hd
  tauto

theorem Distinct.of_start (hd : config.Distinct) (h : config.isStart row = true) :
    config.isAddress row = false ∧ config.isData row = false ∧ config.isStop row = false := by
  obtain ⟨haddress, hdata, hstop, -⟩ := hd.ne
  simp only [isStart, isAddress, isData, isStop, beq_iff_eq, beq_eq_false_iff_ne] at h ⊢
  exact h ▸ ⟨haddress, hdata, hstop⟩

theorem Distinct.of_address (hd : config.Distinct) (h : config.isAddress row = true) :
    config.isData row = false := by
  obtain ⟨-, -, -, hdata, -⟩ := hd.ne
  simp only [isAddress, isData, beq_iff_eq, beq_eq_false_iff_ne] at h ⊢
  exact h ▸ hdata

theorem Distinct.of_stop (hd : config.Distinct) (h : config.isStop row = true) :
    config.isStart row = false ∧ config.isAddress row = false ∧ config.isData row = false := by
  obtain ⟨-, -, hstart, -, haddress, hdata⟩ := hd.ne
  simp only [isStart, isAddress, isData, isStop, beq_iff_eq, beq_eq_false_iff_ne] at h ⊢
  exact h ▸ ⟨hstart.symm, haddress.symm, hdata.symm⟩

theorem reading_concat (body : List Row) (row : Row) :
    config.reading (body ++ [row]) = (config.direction? row).getD (config.reading body) := by
  rw [reading, List.filterMap_append]
  cases hrow : config.direction? row with
  | none => simp [hrow, reading]
  | some direction => simp [hrow]

theorem address_concat (body : List Row) (row : Row) :
    config.address (body ++ [row]) =
      if config.isAddress row && !row.address.isEmpty then row.address
      else config.address body := by
  rw [address, List.filter_append]
  by_cases hrow : config.isAddress row && !row.address.isEmpty
  · simp [hrow]
  · simp [hrow, address]

theorem bytes_concat (direction : Bool) (body : List Row) (row : Row) :
    config.bytes direction (body ++ [row]) = config.bytes direction body ++
      if config.isData row && !row.data.isEmpty && config.reading body == direction then [row.data]
      else [] := by
  -- the row behind does not count among those that precede a row of the body
  have hbody : (body.zipIdx.filterMap fun (r, i) =>
      if config.isData r && !r.data.isEmpty && config.reading ((body ++ [row]).take i) == direction
      then some r.data else none) = config.bytes direction body := by
    refine List.filterMap_congr fun (r, i) hmem => ?_
    have hi : i < body.length := (List.getElem?_eq_some_iff.mp
      (List.mem_zipIdx_iff_getElem?.mp hmem)).1
    dsimp only
    rw [List.take_append_of_le_length hi.le]
  rw [bytes, List.zipIdx_append, List.filterMap_append, hbody]
  cases hrow : config.isData row && !row.data.isEmpty && config.reading body == direction <;>
    simp only [List.zipIdx_cons, List.zipIdx_nil, Nat.zero_add, List.filterMap_cons,
      List.filterMap_nil, List.take_left, hrow] <;>
    rfl

end Config

/-! ## Segments -/

/-- A start row, the rows after it, and the first stop row after these. -/
structure Segment where
  first : Row
  body : List Row
  last : Row

def Segment.transaction (config : Config) (s : Segment) : Transaction :=
  { start := s.first.ts
    duration := max 0 (s.last.ts + s.last.dur - s.first.ts)
    address := config.address s.body
    writeBytes := config.bytes false s.body
    readBytes := config.bytes true s.body
    fallbackName := config.fallbackName }

/-- The complete segments of the rows of one analyzer in order, and whether a further one has begun
and not ended. -/
def segments (config : Config) (rows : List Row) : List Segment × Bool :=
  match _hstart : rows.dropWhile (!config.isStart ·) with
  | [] => ([], false)
  | first :: rest =>
    match _hstop : rest.dropWhile (!config.isStop ·) with
    | [] => ([], true)
    | last :: rest' =>
      let (more, unfinished) := segments config rest'
      ({ first, body := rest.takeWhile (!config.isStop ·), last } :: more, unfinished)
termination_by rows.length
decreasing_by
  have hrest := (List.dropWhile_suffix (!config.isStart ·) (l := rows)).length_le
  have hrest' := (List.dropWhile_suffix (!config.isStop ·) (l := rest)).length_le
  rw [_hstart, List.length_cons] at hrest
  rw [_hstop, List.length_cons] at hrest'
  omega

/-! ## One analyzer -/

namespace State

variable {config : Config} {state : State} {first row : Row} {body : List Row}

/-- An open state holds what the rows since the start say. -/
structure Holds (config : Config) (state : State) (first : Row) (body : List Row) : Prop where
  isOpen : state.isOpen = true
  start : state.start = first.ts
  address : state.address = config.address body
  reading : state.reading = config.reading body
  writeBytes : state.writeBytes = config.bytes false body
  readBytes : state.readBytes = config.bytes true body

theorem step_eq (config : Config) (state : State) (row : Row) :
    state.step config row =
      if config.isStart row then (none, state.onStart row)
      else if !state.isOpen then (none, state)
      else if config.isAddress row then (none, state.onAddress row)
      else if config.isData row then (none, state.onData row)
      else if config.isStop row then
        (some (state.transaction config.fallbackName row), { state with isOpen := false })
      else (none, state) :=
  rfl

theorem step_of_start (hclosed : state.isOpen = false) (hstart : config.isStart row = true) :
    ∃ state', state.step config row = (none, state') ∧ Holds config state' row [] := by
  refine ⟨{ isOpen := true, start := row.ts }, ?_, ⟨rfl, rfl, rfl, rfl, rfl, rfl⟩⟩
  rw [step_eq, hstart, onStart, hclosed]
  rfl

theorem step_of_closed (hclosed : state.isOpen = false) (hstart : config.isStart row = false) :
    state.step config row = (none, state) := by
  rw [step_eq, hstart, hclosed]
  rfl

theorem Holds.concat_silent (h : Holds config state first body)
    (haddress : config.isAddress row = false) (hdata : config.isData row = false) :
    Holds config state first (body ++ [row]) where
  isOpen := h.isOpen
  start := h.start
  address := by
    rw [Config.address_concat, haddress]
    exact h.address
  reading := by
    rw [Config.reading_concat, Config.direction?, haddress]
    exact h.reading
  writeBytes := by
    rw [Config.bytes_concat, hdata]
    exact h.writeBytes.trans (List.append_nil _).symm
  readBytes := by
    rw [Config.bytes_concat, hdata]
    exact h.readBytes.trans (List.append_nil _).symm

theorem Holds.onAddress (h : Holds config state first body)
    (haddress : config.isAddress row = true) (hdata : config.isData row = false) :
    Holds config (state.onAddress row) first (body ++ [row]) where
  isOpen := h.isOpen
  start := h.start
  address := by
    rw [Config.address_concat, haddress, ← h.address]
    cases hempty : row.address.isEmpty <;> simp [State.onAddress, hempty]
  reading := by
    rw [Config.reading_concat, Config.direction?, if_pos haddress, ← h.reading]
    dsimp only [State.onAddress]
    split
    · rfl
    · split <;> rfl
  writeBytes := by
    rw [Config.bytes_concat, hdata]
    exact h.writeBytes.trans (List.append_nil _).symm
  readBytes := by
    rw [Config.bytes_concat, hdata]
    exact h.readBytes.trans (List.append_nil _).symm

theorem onData_frame (state : State) (row : Row) :
    (state.onData row).isOpen = state.isOpen ∧ (state.onData row).start = state.start
      ∧ (state.onData row).address = state.address
      ∧ (state.onData row).reading = state.reading := by
  unfold State.onData
  split
  · exact ⟨rfl, rfl, rfl, rfl⟩
  · split <;> exact ⟨rfl, rfl, rfl, rfl⟩

theorem Holds.onData (h : Holds config state first body)
    (haddress : config.isAddress row = false) (hdata : config.isData row = true) :
    Holds config (state.onData row) first (body ++ [row]) where
  isOpen := (onData_frame state row).1.trans h.isOpen
  start := (onData_frame state row).2.1.trans h.start
  address := by
    rw [Config.address_concat, haddress, (onData_frame state row).2.2.1]
    exact h.address
  reading := by
    rw [Config.reading_concat, Config.direction?, haddress, (onData_frame state row).2.2.2]
    exact h.reading
  writeBytes := by
    rw [State.writeBytes_onData, Config.bytes_concat, hdata, ← h.writeBytes, ← h.reading]
    cases row.data.isEmpty <;> cases state.reading <;> simp
  readBytes := by
    rw [State.readBytes_onData, Config.bytes_concat, hdata, ← h.readBytes, ← h.reading]
    cases row.data.isEmpty <;> cases state.reading <;> simp

/-- No row but a stop row ends a segment, and the state goes on to hold what the rows say. -/
theorem Holds.step_of_body (hd : config.Distinct) (h : Holds config state first body)
    (hstop : config.isStop row = false) :
    ∃ state', state.step config row = (none, state')
      ∧ Holds config state' first (body ++ [row]) := by
  rw [step_eq, h.isOpen, hstop]
  cases hstart : config.isStart row with
  | true =>
      -- within a segment a further start row is ignored
      obtain ⟨haddress, hdata, -⟩ := hd.of_start hstart
      have hsame : state.onStart row = state := if_pos h.isOpen
      exact ⟨state, congrArg (none, ·) hsame, h.concat_silent haddress hdata⟩
  | false =>
      cases haddress : config.isAddress row with
      | true => exact ⟨_, rfl, h.onAddress haddress (hd.of_address haddress)⟩
      | false =>
          cases hdata : config.isData row with
          | true => exact ⟨_, rfl, h.onData haddress hdata⟩
          | false => exact ⟨_, rfl, h.concat_silent haddress hdata⟩

/-- A stop row ends the segment with what the rows said. -/
theorem Holds.step_of_stop (hd : config.Distinct) (h : Holds config state first body)
    (hstop : config.isStop row = true) :
    state.step config row
      = (some (Segment.transaction config { first, body, last := row }),
        { state with isOpen := false }) := by
  obtain ⟨hstart, haddress, hdata⟩ := hd.of_stop hstop
  rw [step_eq, hstart, h.isOpen, haddress, hdata, hstop]
  change (some (state.transaction config.fallbackName row), _) = _
  rw [State.transaction, h.start, h.address, h.writeBytes, h.readBytes]
  rfl

theorem of_dropWhile_eq_cons {p : Row → Bool} {rows rest : List Row}
    (h : rows.dropWhile (!p ·) = row :: rest) : p row = true := by
  have hhead := List.head?_dropWhile_not (!p ·) rows
  rw [h] at hhead
  simpa using hhead

/-- The transactions that rows of one analyzer end, and the state they leave. -/
def run (config : Config) (state : State) : List Row → List Transaction × State
  | [] => ([], state)
  | row :: rows =>
    let (ended, state) := state.step config row
    let (more, state) := run config state rows
    (ended.toList ++ more, state)

theorem run_cons (config : Config) (state : State) (row : Row) (rows : List Row) :
    run config state (row :: rows) = ((state.step config row).1.toList
      ++ (run config (state.step config row).2 rows).1,
        (run config (state.step config row).2 rows).2) :=
  rfl

theorem run_of_closed (hclosed : state.isOpen = false) (rows : List Row) :
    run config state rows = run config state (rows.dropWhile (!config.isStart ·)) := by
  induction rows with
  | nil => rfl
  | cons row rows ih =>
      cases hstart : config.isStart row with
      | true => rw [List.dropWhile_cons_of_neg (by simp [hstart])]
      | false =>
          rw [List.dropWhile_cons_of_pos (by simp [hstart]), ← ih,
            run_cons, step_of_closed hclosed hstart]
          rfl

/-- Up to the next stop row an open state holds what the rows say, and no transaction ends. -/
theorem Holds.run (hd : config.Distinct) (h : Holds config state first body) (rows : List Row) :
    ∃ state', Holds config state' first (body ++ rows.takeWhile (!config.isStop ·))
      ∧ run config state rows = run config state' (rows.dropWhile (!config.isStop ·)) := by
  induction rows generalizing state body with
  | nil => exact ⟨state, by rwa [List.takeWhile_nil, List.append_nil], rfl⟩
  | cons row rows ih =>
      cases hstop : config.isStop row with
      | true =>
          rw [List.takeWhile_cons_of_neg (by simp [hstop]),
            List.dropWhile_cons_of_neg (by simp [hstop]), List.append_nil]
          exact ⟨state, h, rfl⟩
      | false =>
          obtain ⟨next, hstep, hnext⟩ := h.step_of_body hd hstop
          obtain ⟨state', hstate', hrun⟩ := ih hnext
          rw [List.takeWhile_cons_of_pos (by simp [hstop]),
            List.dropWhile_cons_of_pos (by simp [hstop]), List.append_cons]
          refine ⟨state', hstate', ?_⟩
          rw [run_cons, hstep, hrun]
          rfl

/-- From a closed state the transactions are those of the complete segments, and the state that is
left is open just when a segment has not ended. -/
theorem run_eq_segments (hd : config.Distinct) (rows : List Row) (hclosed : state.isOpen = false) :
    (run config state rows).1 = (segments config rows).1.map (Segment.transaction config)
      ∧ (run config state rows).2.isOpen = (segments config rows).2 := by
  -- a segment leaves the state closed, with whatever it held: hence any closed state
  fun_induction segments config rows generalizing state with
  | case1 rows hstart =>
      rw [run_of_closed hclosed, hstart]
      exact ⟨rfl, hclosed⟩
  | case2 rows first rest hstart hstop =>
      obtain ⟨opened, hstep, hopened⟩ := step_of_start hclosed (of_dropWhile_eq_cons hstart)
      obtain ⟨last, hlast, hrun⟩ := hopened.run hd rest
      rw [run_of_closed hclosed, hstart, run_cons, hstep, hrun, hstop]
      exact ⟨rfl, hlast.isOpen⟩
  | case3 rows first rest hstart last rest' hstop more unfinished hmore ih =>
      obtain ⟨opened, hstep, hopened⟩ := step_of_start hclosed (of_dropWhile_eq_cons hstart)
      obtain ⟨ending, hending, hrun⟩ := hopened.run hd rest
      have hlast := hending.step_of_stop hd (of_dropWhile_eq_cons hstop)
      have hended : ({ ending with isOpen := false } : State).isOpen = false := rfl
      obtain ⟨htransactions, hopen⟩ := ih hended
      rw [hmore] at htransactions hopen
      rw [run_of_closed hclosed, hstart, run_cons, hstep, hrun, hstop,
        run_cons, hlast, htransactions, hopen]
      exact ⟨rfl, rfl⟩

end State

/-! ## Interleaved analyzers -/

namespace Reconstructor

variable {r : Reconstructor} {a : String}

/-- What is returned on each row, and the reconstructor after the last one. -/
def run (r : Reconstructor) : List Row → List (Row × Option Transaction) × Reconstructor
  | [] => ([], r)
  | row :: rows =>
    let (ended, r) := r.step row
    let (more, r) := run r rows
    ((row, ended) :: more, r)

theorem run_cons (r : Reconstructor) (row : Row) (rows : List Row) :
    r.run (row :: rows)
      = ((row, (r.step row).1) :: ((r.step row).2.run rows).1, ((r.step row).2.run rows).2) :=
  rfl

def rowsOf (a : String) (rows : List Row) : List Row :=
  rows.filter (·.analyzer == a)

def transactionsOf (a : String) (returned : List (Row × Option Transaction)) : List Transaction :=
  (returned.filter (·.1.analyzer == a)).filterMap (·.2)

theorem config_step (r : Reconstructor) (row : Row) : (r.step row).2.config = r.config := by
  unfold step
  split <;> rfl

/-- A row of an analyzer is a step of its own state. -/
theorem step_of_own (ha : isBusAnalyzer r.config a = true) {row : Row} (hrow : row.analyzer = a) :
    (r.step row).1 = ((r.stateOf a).step r.config row).1
      ∧ (r.step row).2.stateOf a = ((r.stateOf a).step r.config row).2 := by
  subst hrow
  rw [step, if_pos ha]
  refine ⟨rfl, ?_⟩
  dsimp only [stateOf]
  rw [lookup_setState, if_pos rfl]
  rfl

theorem stateOf_step_of_other {row : Row} (hrow : row.analyzer ≠ a) :
    (r.step row).2.stateOf a = r.stateOf a := by
  unfold step
  split
  · dsimp only [stateOf]
    rw [lookup_setState, if_neg (Ne.symm hrow)]
  · rfl

/-- The rows of an analyzer run on their own, whatever stands between them. -/
theorem run_eq_stateRun (ha : isBusAnalyzer r.config a = true) (rows : List Row) :
    transactionsOf a (r.run rows).1 = (State.run r.config (r.stateOf a) (rowsOf a rows)).1
      ∧ (r.run rows).2.stateOf a = (State.run r.config (r.stateOf a) (rowsOf a rows)).2 := by
  induction rows generalizing r with
  | nil => exact ⟨rfl, rfl⟩
  | cons row rows ih =>
      have hnext : isBusAnalyzer (r.step row).2.config a = true := by rwa [config_step]
      obtain ⟨htransactions, hstate⟩ := ih hnext
      rw [config_step] at htransactions hstate
      by_cases hrow : row.analyzer = a
      · obtain ⟨hended, hown⟩ := step_of_own ha hrow
        rw [hown] at htransactions hstate
        have hrows : rowsOf a (row :: rows) = row :: rowsOf a rows :=
          List.filter_cons_of_pos (by simpa using hrow)
        rw [hrows, State.run_cons, ← htransactions, ← hstate, ← hended, run_cons, transactionsOf,
          List.filter_cons_of_pos (by simpa using hrow)]
        cases (r.step row).1 <;> exact ⟨rfl, rfl⟩
      · rw [stateOf_step_of_other hrow] at htransactions hstate
        have hrows : rowsOf a (row :: rows) = rowsOf a rows :=
          List.filter_cons_of_neg (by simpa using hrow)
        rw [hrows, ← htransactions, ← hstate, run_cons, transactionsOf,
          List.filter_cons_of_neg (by simpa using hrow)]
        exact ⟨rfl, rfl⟩

/-! ## Analyzers left open -/

theorem map_fst_setState (states : List (String × State)) (name : String) (state : State) :
    (setState states name state).map (·.1) =
      if name ∈ states.map (·.1) then states.map (·.1) else states.map (·.1) ++ [name] := by
  induction states with
  | nil => rfl
  | cons entry rest ih =>
      obtain ⟨other, old⟩ := entry
      by_cases h : other = name
      · subst h
        simp [setState]
      · have hne : (other == name) = false := by simpa using h
        rw [setState, hne]
        simp only [List.map_cons, ih, List.mem_cons, Ne.symm h, false_or, Bool.false_eq_true,
          if_false]
        split <;> rfl

/-- No analyzer has two states. -/
def Unambiguous (r : Reconstructor) : Prop := (r.states.map (·.1)).Nodup

theorem Unambiguous.step (h : r.Unambiguous) (row : Row) : (r.step row).2.Unambiguous := by
  unfold Reconstructor.step
  split
  · dsimp only [Unambiguous]
    rw [map_fst_setState]
    split
    · exact h
    · next hnew =>
      refine List.nodup_append.mpr ⟨h, List.nodup_singleton _, fun name hname other hother => ?_⟩
      rw [List.mem_singleton.mp hother]
      exact fun heq => hnew (heq ▸ hname)
  · exact h

theorem Unambiguous.run (h : r.Unambiguous) (rows : List Row) : (r.run rows).2.Unambiguous := by
  induction rows generalizing r with
  | nil => exact h
  | cons row rows ih => exact ih (h.step row)

theorem lookup_eq_some_of_mem {states : List (String × State)} {state : State}
    (h : (states.map (·.1)).Nodup) (hmem : (a, state) ∈ states) :
    states.lookup a = some state := by
  induction states with
  | nil => cases hmem
  | cons entry rest ih =>
      obtain ⟨hnew, hrest⟩ := List.nodup_cons.mp h
      rcases List.mem_cons.mp hmem with rfl | hlater
      · exact List.lookup_cons_self
      · have hne : (a == entry.1) = false := by
          rw [beq_eq_false_iff_ne]
          rintro rfl
          exact hnew (List.mem_map.mpr ⟨_, hlater, rfl⟩)
        rw [List.lookup_cons, hne]
        exact ih hrest hlater

theorem mem_of_lookup_eq_some {states : List (String × State)} {state : State}
    (h : states.lookup a = some state) : (a, state) ∈ states := by
  obtain ⟨before, after, rfl, -⟩ := List.lookup_eq_some_iff.mp h
  exact List.mem_append_right _ List.mem_cons_self

/-- The analyzers with a transaction under way are those whose state is open. -/
theorem Unambiguous.mem_openAnalyzers_iff (h : r.Unambiguous) :
    a ∈ r.openAnalyzers ↔ (r.stateOf a).isOpen = true := by
  rw [openAnalyzers, List.mem_map]
  constructor
  · rintro ⟨⟨name, state⟩, hmem, rfl⟩
    obtain ⟨hstate, hopen⟩ := List.mem_filter.mp hmem
    rw [stateOf, lookup_eq_some_of_mem h hstate]
    exact hopen
  · intro hopen
    rw [stateOf] at hopen
    cases hlookup : r.states.lookup a with
    | none => rw [hlookup] at hopen; cases hopen
    | some state =>
        rw [hlookup] at hopen
        exact ⟨(a, state), List.mem_filter.mpr ⟨mem_of_lookup_eq_some hlookup, hopen⟩, rfl⟩

theorem run_of_other (rows : List Row) {row : Row} {ended : Option Transaction}
    (hmem : (row, ended) ∈ (r.run rows).1) (hrow : isBusAnalyzer r.config row.analyzer = false) :
    ended = none := by
  induction rows generalizing r with
  | nil => cases hmem
  | cons first rows ih =>
      rw [run_cons] at hmem
      rcases List.mem_cons.mp hmem with heq | hlater
      · obtain ⟨rfl, rfl⟩ := Prod.mk.inj heq
        unfold step
        rw [hrow]
        rfl
      · exact ih hlater (by rwa [config_step])

/-- The transactions returned on the rows of a bus analyzer are those of its complete segments, in
order, whatever rows of others stand in between. It is left open just when a segment of it has not
ended. Rows of analyzers that are none of the bus return nothing. -/
theorem transactionsOf_eq_segments {config : Config} (hd : config.Distinct) (rows : List Row)
    {a : String} (ha : isBusAnalyzer config a = true) :
    transactionsOf a (run { config } rows).1
        = (segments config (rowsOf a rows)).1.map (Segment.transaction config)
      ∧ (a ∈ (run { config } rows).2.openAnalyzers ↔ (segments config (rowsOf a rows)).2 = true)
      ∧ ∀ row ended, (row, ended) ∈ (run { config } rows).1 →
        isBusAnalyzer config row.analyzer = false → ended = none := by
  have hstart : ({ config } : Reconstructor).Unambiguous := List.nodup_nil
  obtain ⟨htransactions, hstate⟩ := run_eq_stateRun (r := { config }) ha rows
  have hclosed : ({} : State).isOpen = false := rfl
  obtain ⟨hsegments, hopen⟩ := State.run_eq_segments hd (rowsOf a rows) hclosed
  refine ⟨htransactions.trans hsegments, ?_, fun row ended hmem hrow => run_of_other rows hmem hrow⟩
  rw [(hstart.run rows).mem_openAnalyzers_iff, hstate, ← hopen]
  rfl

/-- A read of two bytes, with a start of another analyzer in between and a segment left open. -/
def readRows : List Row := [
  { analyzer := "I2C", rowType := "start", ts := 10 },
  { analyzer := "i2c", rowType := "start", ts := 15 },
  { analyzer := "I2C", rowType := "address", ts := 20, address := "0x48", read := "True" },
  { analyzer := "I2C", rowType := "data", ts := 30, data := "0x01" },
  { analyzer := "I2C", rowType := "data", ts := 40, data := "0x02" },
  { analyzer := "I2C", rowType := "stop", ts := 50, dur := 5 },
  { analyzer := "I2C", rowType := "start", ts := 60 }]

theorem transactionsOf_readRows :
    ({} : Config).Distinct ∧ isBusAnalyzer {} "I2C" = true
      ∧ transactionsOf "I2C" (run {} readRows).1 = [{
          start := 10, duration := 45, address := "0x48", writeBytes := []
          readBytes := ["0x01", "0x02"] }]
      ∧ "I2C" ∈ (run {} readRows).2.openAnalyzers := by
  have hd : ({} : Config).Distinct := by unfold Config.Distinct; decide
  have ha : isBusAnalyzer {} "I2C" = true := by decide +kernel
  obtain ⟨htransactions, hopen, -⟩ := transactionsOf_eq_segments hd readRows ha
  refine ⟨hd, ha, htransactions.trans ?_, hopen.mpr ?_⟩
  · decide +kernel
  · decide +kernel

end Reconstructor

end LogicCapture.Bus
