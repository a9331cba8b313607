import Mathlib
import LogicCapture.Proofs.Cells

/-!
# Resolving a header

The first line of an export says which columns there are. A column names a role if its trimmed name,
in small letters, is a synonym of it; of several columns with one role the last has it, and the
others are extra like all named columns that have no required role. A header fails just when it is
empty or leaves a required role without a column, and then nothing has happened to the store.
Otherwise the names of the columns have entered the pool, each once, in the order of the columns
(`resolve_spec`).
-/

namespace LogicCapture.Csv

open Trace (Store)

/-! ## Names of roles -/

namespace Role

def synonyms : Role → List String
  | startTime => ["start_time", "start time"]
  | role => [role.label]

theorem ofColumnName?_eq_some_iff {column : String} {role : Role} :
    ofColumnName? column = some role ↔ column ∈ role.synonyms := by
  unfold ofColumnName?
  constructor
  · intro h
    split at h
    · next heq =>
      obtain rfl := Option.some.inj h
      simpa [synonyms] using Or.inr (beq_iff_eq.mp heq)
    · have hlabel := List.find?_some h
      obtain rfl := beq_iff_eq.mp hlabel
      cases role <;> simp [synonyms, label]
  · intro h
    cases role <;> simp only [synonyms, List.mem_cons, List.not_mem_nil, or_false] at h
    case startTime => rcases h with rfl | rfl <;> decide
    all_goals
      subst h
      decide

theorem empty_not_mem_synonyms (role : Role) : "" ∉ role.synonyms := by
  cases role <;> decide

end Role

def columnName (index : Nat) (field : String) : String :=
  if index = 0 then Text.trim (stripMark (Text.trim field)) else Text.trim field

def Names (header : List String) (role : Role) (index : Nat) : Prop :=
  ∃ field, header[index]? = some field ∧ Text.lowercase (columnName index field) ∈ role.synonyms

theorem columnNames_eq_mapIdx (header : List String) :
    Schema.columnNames header = header.mapIdx columnName := by
  cases header with
  | nil => rfl
  | cons first rest =>
      have hrest : rest.map Text.trim = rest.mapIdx fun i field => columnName (i + 1) field := by
        refine List.ext_getElem? fun i => ?_
        rw [List.getElem?_map, List.getElem?_mapIdx]
        rfl
      rw [Schema.columnNames, List.mapIdx_cons, hrest]
      rfl

theorem names_iff {header : List String} {role : Role} {index : Nat} :
    Names header role index
      ↔ (Schema.rolesOf (Schema.columnNames header))[index]? = some (some role) := by
  rw [columnNames_eq_mapIdx, Schema.rolesOf, List.getElem?_map, List.getElem?_mapIdx,
    Option.map_map, Option.map_eq_some_iff]
  exact exists_congr fun field => and_congr_right fun _ => Role.ofColumnName?_eq_some_iff.symm

theorem Names.unique {header : List String} {role other : Role} {index : Nat}
    (h : Names header role index) (h' : Names header other index) : other = role := by
  rw [names_iff] at h h'
  exact Option.some.inj (Option.some.inj (h'.symm.trans h))

/-! ## Places -/

theorem pairwise_places {α : Type} (p : α × Nat → Bool) (xs : List α) :
    ((xs.zipIdx.filter p).map (·.2)).Pairwise (· < ·) := by
  have hall : (xs.zipIdx.map (·.2)).Pairwise (· < ·) := by
    rw [List.zipIdx_map_snd]
    exact List.pairwise_lt_range'
  exact hall.sublist (List.filter_sublist.map _)

theorem getLast?_eq_some_iff {places : List Nat} (h : places.Pairwise (· < ·)) {index : Nat} :
    places.getLast? = some index ↔ IsGreatest {i | i ∈ places} index := by
  rcases List.eq_nil_or_concat' places with rfl | ⟨before, last, rfl⟩
  · simp [IsGreatest]
  · have hlast : IsGreatest {i | i ∈ before ++ [last]} last := by
      refine ⟨by simp, fun i hi => ?_⟩
      rcases List.mem_append.mp hi with hbefore | hi
      · exact Nat.le_of_lt ((List.pairwise_append.mp h).2.2 i hbefore last (by simp))
      · exact Nat.le_of_eq (List.mem_singleton.mp hi)
    rw [List.getLast?_concat, Option.some.injEq]
    exact ⟨fun heq => heq ▸ hlast, fun hgreatest => hlast.unique hgreatest⟩

section LastIndex

variable {roles : List (Option Role)} {role : Role}

def placesOf (roles : List (Option Role)) (role : Role) : List Nat :=
  (roles.zipIdx.filter (·.1 == some role)).map (·.2)

theorem mem_placesOf {index : Nat} :
    index ∈ placesOf roles role ↔ roles[index]? = some (some role) := by
  simp [placesOf, List.mem_zipIdx_iff_getElem?]

theorem lastIndex?_eq_getLast? :
    Schema.lastIndex? roles role = (placesOf roles role).getLast? := by
  rw [Schema.lastIndex?, placesOf, List.getLast?_map]

theorem lastIndex?_eq_some_iff {index : Nat} :
    Schema.lastIndex? roles role = some index
      ↔ IsGreatest {i | roles[i]? = some (some role)} index := by
  have hrising : (placesOf roles role).Pairwise (· < ·) := pairwise_places _ _
  rw [lastIndex?_eq_getLast?, getLast?_eq_some_iff hrising]
  simp only [mem_placesOf]

theorem isNone_lastIndex?_iff :
    (Schema.lastIndex? roles role).isNone
      ↔ ∀ index : Nat, roles[index]? ≠ some (some role) := by
  rw [lastIndex?_eq_getLast?, Option.isNone_iff_eq_none, List.getLast?_eq_none_iff,
    List.eq_nil_iff_forall_not_mem]
  simp only [mem_placesOf, ne_eq]

end LastIndex

def missingRoles (columns : List String) : List Role :=
  Role.required.filter fun role => (Schema.lastIndex? (Schema.rolesOf columns) role).isNone

/-- A header that is not empty makes a schema, or it is missing some roles, which are named. -/
theorem ofFields_cases {header : List String} (hne : header ≠ []) :
    (missingRoles (Schema.columnNames header) = [] ∧ ∃ schema, Schema.ofFields header = .ok schema)
      ∨ missingRoles (Schema.columnNames header) ≠ []
        ∧ Schema.ofFields header
          = .error (.columnsMissing (missingRoles (Schema.columnNames header))) := by
  unfold Schema.ofFields
  rw [if_neg (by simpa using hne)]
  dsimp only
  split
  · next hname htype hstart hduration =>
    refine Or.inl ⟨?_, _, rfl⟩
    simp [missingRoles, Role.required, hname, htype, hstart, hduration]
  · next hsome =>
    refine Or.inr ⟨fun hnone => ?_, rfl⟩
    have hplace : ∀ role ∈ Role.required,
        ∃ index, Schema.lastIndex? (Schema.rolesOf (Schema.columnNames header)) role
          = some index := by
      intro role hrole
      have hthere := List.filter_eq_nil_iff.mp hnone role hrole
      rw [Option.isNone_iff_eq_none] at hthere
      exact Option.ne_none_iff_exists'.mp hthere
    obtain ⟨name, hname⟩ := hplace .name (by decide)
    obtain ⟨type, htype⟩ := hplace .type (by decide)
    obtain ⟨startTime, hstart⟩ := hplace .startTime (by decide)
    obtain ⟨duration, hduration⟩ := hplace .duration (by decide)
    exact hsome name type startTime duration hname htype hstart hduration

theorem mem_missingRoles {header : List String} {role : Role} :
    role ∈ missingRoles (Schema.columnNames header)
      ↔ role ∈ Role.required ∧ ∀ index, ¬Names header role index := by
  rw [missingRoles, List.mem_filter, isNone_lastIndex?_iff]
  simp only [names_iff, ne_eq]

/-- A header fails if it is empty or leaves a required role without a column. -/
theorem exists_error_iff {header : List String} :
    (∃ failure, Schema.ofFields header = .error failure)
      ↔ header = [] ∨ ∃ role ∈ Role.required, ∀ index, ¬Names header role index := by
  by_cases hne : header = []
  · subst hne
    exact iff_of_true ⟨.headerEmpty, rfl⟩ (Or.inl rfl)
  · have hmissing : (∃ role ∈ Role.required, ∀ index, ¬Names header role index)
        ↔ missingRoles (Schema.columnNames header) ≠ [] := by
      rw [ne_eq, List.eq_nil_iff_forall_not_mem, not_forall_not]
      simp only [mem_missingRoles]
    rw [or_iff_right hne, hmissing]
    rcases ofFields_cases hne with ⟨hnone, schema, hschema⟩ | ⟨hsome, hfails⟩
    · rw [hschema]
      exact iff_of_false (fun ⟨_, h⟩ => nomatch h) (not_not.mpr hnone)
    · exact iff_of_true ⟨_, hfails⟩ hsome

/-! ## Extra columns -/

theorem mem_extraColumns {schema : Schema} {column : String} {index : Nat} :
    (column, index) ∈ schema.extraColumns ↔ schema.columns[index]? = some column ∧ column ≠ ""
      ∧ ∀ role ∈ Role.required, schema.places.index? role ≠ some index := by
  unfold Schema.extraColumns
  dsimp only
  rw [List.mem_filter, List.mem_zipIdx_iff_getElem?]
  refine and_congr_right fun _ => ?_
  rw [Bool.and_eq_true, Bool.not_eq_true', Bool.not_eq_true', ← Bool.not_eq_true,
    ← Bool.not_eq_true, List.contains_iff_mem, List.mem_filterMap, String.isEmpty_iff, and_comm]
  refine and_congr_right fun _ => ?_
  simp only [not_exists, not_and, ne_eq]

/-! ## Texts of columns -/

/-- The pool grows by the texts it does not know, each at its first place. -/
theorem texts_internAll (store : Store) (texts : List String) :
    (Schema.internAll store texts).2.strings.texts.toList = store.strings.texts.toList
      ++ (texts.filter fun text => text ∉ store.strings.texts).eraseDups := by
  induction texts generalizing store with
  | nil => simp [Schema.internAll]
  | cons text texts ih =>
      have hpool : (store.intern text).2.strings.texts
          = if text ∈ store.strings.texts then store.strings.texts
            else store.strings.texts.push text := store.strings.texts_intern text
      change (Schema.internAll (store.intern text).2 texts).2.strings.texts.toList = _
      rw [ih, hpool]
      by_cases hknown : text ∈ store.strings.texts
      · rw [if_pos hknown, List.filter_cons_of_neg (by simpa using hknown)]
      · rw [if_neg hknown, List.filter_cons_of_pos (by simpa using hknown), List.eraseDups_cons,
          List.filter_filter, Array.toList_push, List.append_assoc, List.singleton_append]
        congr 3
        refine List.filter_congr fun other _ => ?_
        rw [Bool.eq_iff_iff]
        simp [Array.mem_push, not_or, and_comm]

theorem store_internAll (store : Store) (texts : List String) :
    (Schema.internAll store texts).2
      = { store with strings := (Schema.internAll store texts).2.strings } := by
  obtain ⟨htracks, hcounters, hslices⟩ := internAll_frame store texts
  generalize (Schema.internAll store texts).2 = later at htracks hcounters hslices
  rw [← htracks, ← hcounters, ← hslices]

/-! ## A header in a store -/

/-- Make a schema of the fields of a header, whose column names then enter the store. -/
def resolve (header : List String) : EStateM Failure Store Schema := do
  let schema ← MonadExcept.ofExcept (Schema.ofFields header)
  modifyGet schema.intern

theorem resolve_eq (header : List String) (s : Store) :
    resolve header s =
      match Schema.ofFields header with
      | .ok schema => .ok (schema.intern s).1 (schema.intern s).2
      | .error failure => .error failure s := by
  unfold resolve
  cases Schema.ofFields header <;> rfl

/-- The header line of an export is resolved in the store of the session. -/
theorem takeHeader_eq_resolve (s : Session) (line : String) :
    Session.takeHeader line s =
      match resolve (fields line) s.store with
      | .ok schema store => .ok () { s with schema := some schema, store }
      | .error failure store => .error failure { s with store } := by
  rw [Session.takeHeader_eq, resolve_eq]
  cases Schema.ofFields (fields line) <;> rfl

/-- What is said about a header that is refused: it is empty, or these are the required roles, in
their order, that none of its fields names. -/
structure Refused (header : List String) (failure : Failure) : Prop where
  kind : failure.kind = .malformedCapture
  empty : header = [] → failure.message = "Saleae CSV header is empty"
  missing : header ≠ [] → ∃ roles : List Role, roles.Sublist Role.required
    ∧ (∀ role ∈ Role.required, role ∈ roles ↔ ∀ index, ¬Names header role index)
    ∧ failure.message = "Saleae CSV header missing required columns "
      ++ "(name, type, start_time, duration): missing " ++ ", ".intercalate (roles.map Role.label)

/-- What a header is resolved to. The columns have the trimmed names of its fields. A role has the
greatest of the numbers of the fields that name it, and no number if none does. The extra columns
are in order those with a name that are not the column of a required role, so an earlier field that
names such a role as well is extra. The handle of a column stands for its name, and the pool has
grown by the names that it did not know, each at its first place. -/
structure Resolved (header : List String) (s : Store) (schema : Schema) (later : Store) :
    Prop where
  columns : schema.columns = header.mapIdx columnName
  place : ∀ role index, schema.places.index? role = some index
    ↔ IsGreatest {i | Names header role i} index
  placed : ∀ role, (schema.places.index? role).isSome ↔ ∃ index, Names header role index
  extra_rising : (schema.extraColumns.map (·.2)).Pairwise (· < ·)
  mem_extra : ∀ column index, (column, index) ∈ schema.extraColumns
    ↔ schema.columns[index]? = some column ∧ column ≠ ""
      ∧ ∀ role ∈ Role.required, schema.places.index? role ≠ some index
  earlier_extra : ∀ role ∈ Role.required, ∀ index, Names header role index →
    schema.places.index? role ≠ some index → index ∈ schema.extraColumns.map (·.2)
  keyHandle : ∀ (index : Nat) (column : String), schema.columns[index]? = some column →
    ∃ handle, schema.keyHandle? index = some handle ∧ later.strings.text? handle = some column
  store : later = { s with strings := later.strings }
  texts : later.strings.texts.toList = s.strings.texts.toList
    ++ (schema.columns.filter fun column => column ∉ s.strings.texts).eraseDups

theorem refused_of_ofFields {header : List String} {failure : Failure}
    (h : Schema.ofFields header = .error failure) : Refused header failure := by
  by_cases hne : header = []
  · subst hne
    obtain rfl := Except.error.inj h
    exact ⟨rfl, fun _ => rfl, fun hne => absurd rfl hne⟩
  · rcases ofFields_cases hne with ⟨-, schema, hschema⟩ | ⟨-, hfails⟩
    · cases hschema.symm.trans h
    · obtain rfl := Except.error.inj (hfails.symm.trans h)
      refine ⟨rfl, fun hempty => absurd hempty hne, fun _ => ⟨_, List.filter_sublist, ?_, rfl⟩⟩
      exact fun role hrole => mem_missingRoles.trans (and_iff_right hrole)

theorem resolved_of_ofFields {header : List String} {schema : Schema}
    (h : Schema.ofFields header = .ok schema) (s : Store) :
    Resolved header s (schema.intern s).1 (schema.intern s).2 := by
  have hcolumns := columns_of_ofFields h
  have hplace : ∀ role index, schema.places.index? role = some index
      ↔ IsGreatest {i | Names header role i} index := by
    intro role index
    rw [index?_of_ofFields h, lastIndex?_eq_some_iff, hcolumns]
    simp only [names_iff]
  obtain ⟨-, htexts⟩ := internAll_spec s schema.columns
  refine ⟨hcolumns.trans (columnNames_eq_mapIdx header), hplace, ?_, pairwise_places _ _,
    fun _ _ => mem_extraColumns, ?_, ?_, store_internAll s schema.columns,
    texts_internAll s schema.columns⟩
  · intro role
    change (schema.places.index? role).isSome ↔ _
    rw [index?_of_ofFields h, ← not_iff_not, Bool.not_eq_true, Option.isSome_eq_false_iff,
      isNone_lastIndex?_iff, hcolumns]
    simp only [names_iff, not_exists, ne_eq]
  · intro role hrole index hnames hother
    obtain ⟨field, hfield, hsynonym⟩ := hnames
    refine List.mem_map.mpr
      ⟨(columnName index field, index), mem_extraColumns.mpr ⟨?_, ?_, ?_⟩, rfl⟩
    · change schema.columns[index]? = _
      rw [hcolumns, columnNames_eq_mapIdx, List.getElem?_mapIdx, hfield, Option.map_some]
    · intro hempty
      rw [hempty] at hsynonym
      exact role.empty_not_mem_synonyms hsynonym
    · -- the column of another role names that role, and this one names no other
      intro other _ hplaced
      obtain rfl := Names.unique ((hplace other index).mp hplaced).1 ⟨field, hfield, hsynonym⟩
      exact hother hplaced
  · intro index column hcolumn
    obtain ⟨handle, hhandle, htext⟩ := htexts index column hcolumn
    exact ⟨handle, by rw [Schema.keyHandle?, Schema.intern]; simpa using hhandle, htext⟩

/-- A header is refused just when it is empty or leaves a required role without a column; then it
has no effect on the store, and what is missing is said. Otherwise it is resolved. -/
theorem resolve_spec (header : List String) (s : Store) :
    ((∃ failure left, resolve header s = .error failure left)
        ↔ header = [] ∨ ∃ role ∈ Role.required, ∀ index, ¬Names header role index)
      ∧ (∀ failure left, resolve header s = .error failure left →
          left = s ∧ Refused header failure)
      ∧ ∀ schema later, resolve header s = .ok schema later → Resolved header s schema later := by
  rw [resolve_eq, ← exists_error_iff]
  cases h : Schema.ofFields header with
  | error failure =>
      refine ⟨iff_of_true ⟨failure, s, rfl⟩ ⟨failure, rfl⟩, ?_, ?_⟩
      · rintro _ _ ⟨⟩
        exact ⟨rfl, refused_of_ofFields h⟩
      · rintro _ _ ⟨⟩
  | ok schema =>
      refine ⟨iff_of_false ?_ ?_, ?_, ?_⟩
      · rintro ⟨_, _, ⟨⟩⟩
      · rintro ⟨_, ⟨⟩⟩
      · rintro _ _ ⟨⟩
      · rintro _ _ ⟨⟩
        exact resolved_of_ofFields h s

/-- A header with a byte order mark, two columns for each of two roles, one without a name, and a
name that comes again in another spelling. -/
def crowdedHeader : List String :=
  ["\uFEFFName", "type", " start time", "Start_Time", "", "duration", "type", "note", "note"]

/-- Of the two columns for a role the later one has it, and the earlier is extra. A text that the
pool knows already keeps its handle. -/
theorem resolve_spec_crowdedHeader :
    ∃ schema later, resolve crowdedHeader (Store.intern {} "type").2 = .ok schema later
      ∧ Resolved crowdedHeader (Store.intern {} "type").2 schema later
      ∧ schema.places.index? .startTime = some 3
      ∧ schema.extraColumns.map (·.2) = [1, 2, 7, 8]
      ∧ later.strings.texts.toList
        = ["type", "Name", "start time", "Start_Time", "", "duration", "note"] := by
  have hresolved := (resolve_spec crowdedHeader (Store.intern {} "type").2).2.2 _ _ rfl
  refine ⟨_, _, rfl, hresolved, ?_, ?_, ?_⟩
  · decide +kernel
  · decide +kernel
  · decide +kernel

end LogicCapture.Csv
