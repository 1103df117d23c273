import Mizugaki.Declaration.Columns
import Mizugaki.Declaration.IndexKey
import Mizugaki.Reporting.Basic
import Mizugaki.Scoping.Reference

/-! The two spellings of a primary key: a constraint of its column, and a constraint of the
table. The first is checked against the other constraints of the column and its values and
parameters are not read, the second checks its values and overrides the nullity. Where both
are accepted they define the same table and the same primary index. -/

namespace Mizugaki.Analyzer

open Mizugaki.Ast Mizugaki.Plan Mizugaki.Control

variable {ρ : Type} {env : Environment ρ}

/-! ### The constraints of a table -/

section Table

variable {d r : TableDraft} {elements left right : List TableElement} {s t : AnalyzerState ρ}

theorem processTableConstraints_append (d : TableDraft) (left right : List TableElement) :
    processTableConstraints env d (left ++ right) =
      processTableConstraints env d left >>= fun d => processTableConstraints env d right := by
  induction left generalizing d with
  | nil => rfl
  | cons element left ih =>
    cases element with
    | columnDefinition definition => exact ih d
    | constraintDefinition body =>
      simp only [List.cons_append, processTableConstraints, ih, bind_assoc]

theorem processTableConstraints_columns (h : ∀ e ∈ elements, isConstraint e = false)
    (d : TableDraft) : processTableConstraints env d elements = pure d := by
  induction elements with
  | nil => rfl
  | cons element elements ih =>
    obtain ⟨helement, helements⟩ := List.forall_mem_cons.mp h
    cases element with
    | columnDefinition definition => exact ih helements
    | constraintDefinition body => cases helement

/-- A constraint of a table is a primary key, and the table had none before. -/
theorem processTableConstraint_yields {c : Constraint}
    (h : processTableConstraint env d c s = (some r, t)) :
    d.primaryIndex = none ∧ r.primaryIndex ≠ none ∧ Constraint.IsPrimaryKey c := by
  cases c with
  | primaryKey constraint =>
    simp only [processTableConstraint] at h
    cases hindex : d.primaryIndex with
    | some index => simp [hindex] at h
    | none =>
      simp only [hindex, Option.isSome_none, Bool.false_eq_true, if_false, Check.bind_yields,
        Check.pure_yields] at h
      obtain ⟨index, u, -, rfl, -⟩ := h
      exact ⟨rfl, Option.some_ne_none _, constraint, rfl⟩
  | _ => simp [processTableConstraint] at h

/-- A table with a primary index has no further constraints. -/
theorem processTableConstraints_indexed (hd : d.primaryIndex ≠ none)
    (h : processTableConstraints env d elements s = (some r, t)) :
    ∀ e ∈ elements, isConstraint e = false := by
  induction elements with
  | nil => exact fun _ he => nomatch he
  | cons element elements ih =>
    cases element with
    | columnDefinition definition => exact List.forall_mem_cons.mpr ⟨rfl, ih h⟩
    | constraintDefinition body =>
      obtain ⟨d', u, hbody, -⟩ := (Check.bind_yields ..).mp h
      exact absurd (processTableConstraint_yields hbody).1 hd

/-- What is accepted without an index in the end has no constraints. -/
theorem processTableConstraints_bare (hr : r.primaryIndex = none)
    (h : processTableConstraints env d elements s = (some r, t)) :
    ∀ e ∈ elements, isConstraint e = false := by
  induction elements generalizing d s with
  | nil => exact fun _ he => nomatch he
  | cons element elements ih =>
    cases element with
    | columnDefinition definition => exact List.forall_mem_cons.mpr ⟨rfl, ih h⟩
    | constraintDefinition body =>
      obtain ⟨d', u, hbody, hrest⟩ := (Check.bind_yields ..).mp h
      obtain ⟨-, hindex, -⟩ := processTableConstraint_yields hbody
      rw [processTableConstraints_columns (processTableConstraints_indexed hindex hrest)] at hrest
      obtain ⟨rfl, -⟩ := (Check.pure_yields ..).mp hrest
      exact absurd hr hindex

/-- A primary key among the elements of a table is the only constraint. -/
theorem processTableConstraints_insert {body : Constraint} :
    processTableConstraints env d (left ++ .constraintDefinition body :: right) s = (some r, t) ↔
      (∀ e ∈ left ++ right, isConstraint e = false) ∧
        processTableConstraint env d body s = (some r, t) := by
  rw [processTableConstraints_append, Check.bind_yields]
  simp only [processTableConstraints, Check.bind_yields, List.forall_mem_append]
  constructor
  · rintro ⟨d₁, u, hleft, d₂, v, hbody, hright⟩
    obtain ⟨hnone, hindex, -⟩ := processTableConstraint_yields hbody
    have hcolumns := processTableConstraints_bare hnone hleft
    have hcolumns' := processTableConstraints_indexed hindex hright
    rw [processTableConstraints_columns hcolumns] at hleft
    rw [processTableConstraints_columns hcolumns'] at hright
    obtain ⟨rfl, rfl⟩ := (Check.pure_yields ..).mp hleft
    obtain ⟨rfl, rfl⟩ := (Check.pure_yields ..).mp hright
    exact ⟨⟨hcolumns, hcolumns'⟩, hbody⟩
  · rintro ⟨⟨hcolumns, hcolumns'⟩, hbody⟩
    rw [processTableConstraints_columns hcolumns]
    refine ⟨d, s, rfl, r, t, hbody, ?_⟩
    rw [processTableConstraints_columns hcolumns']
    rfl

end Table

/-! ### Definitions -/

/-- Two results of which both are erroneous, or that define the same, but for the number of the
index: it depends on how many numbers were handed out before. -/
def AnalyzerResult.SameDefinition : AnalyzerResult → AnalyzerResult → Prop
  | .erroneous _, .erroneous _ => True
  | .statement (.createTable schema table index), .statement (.createTable schema' table' index') =>
    schema = schema' ∧ table = table' ∧ { index with address := 0 } = { index' with address := 0 }
  | result, result' => result = result'

/-- A result that defines a table. -/
def AnalyzerResult.DefinesTable (result : AnalyzerResult) : Prop :=
  ∃ schema table index, result = .statement (.createTable schema table index)

section Definition

variable {d : TableDefinition} {name : SimpleName} {elements left right : List TableElement}
  {s t : AnalyzerState ρ}

/-- The table of a draft of columns. -/
def draftTable (env : Environment ρ) (d : TableDefinition) (tableName : String) (address : Nat)
    (columns : List Column) : Table where
  address := address
  simpleName := tableName
  columns := columns
  primaryIndex := none
  description := analyzeDescription env d.description

/-- A definition of a table: its columns, then its constraints. -/
theorem defineTable_yields (hname : d.name = .simple name) (elements : List TableElement)
    (result : StatementResult) :
    defineTable env { d with elements := elements } s = (some result, t) ↔
      ∃ r u draft, processColumnDefinitions env (identifierOf env name .relation) ⟨[], none⟩
          elements s = (some r, u) ∧ r.columns ≠ [] ∧
        (let table := draftTable env d (identifierOf env name .relation) u.fresh r.columns
        processTableConstraints env
          ⟨table, r.primaryKey.map (columnPrimaryIndex table (u.fresh + 1))⟩ elements
          { u with fresh := u.fresh + 2 } = (some draft, t)) ∧
        result = .statement (.createTable env.options.defaultSchema
          (completeTable draft (u.fresh + 1)).1 (completeTable draft (u.fresh + 1)).2) := by
  simp only [defineTable, hname, Check.bind_yields]
  constructor
  · rintro ⟨r, u, hcolumns, hrest⟩
    cases hr : r.columns with
    | nil => simp [hr] at hrest
    | cons column columns =>
      simp only [hr, freshNumber, Check.bind_yields, Check.get_yields, Check.modify_yields,
        Check.pure_yields] at hrest
      obtain ⟨_, _, ⟨_, _, ⟨rfl, rfl⟩, -, _, rfl, rfl, rfl⟩, _, _, ⟨_, _, ⟨rfl, rfl⟩, -, _, rfl,
        rfl, rfl⟩, draft, v, hdraft, rfl, rfl⟩ := hrest
      exact ⟨r, u, draft, hcolumns, by simp [hr], hr ▸ hdraft, rfl⟩
  · rintro ⟨r, u, draft, hcolumns, hne, hdraft, rfl⟩
    refine ⟨r, u, hcolumns, ?_⟩
    cases hr : r.columns with
    | nil => exact absurd hr hne
    | cons column columns =>
      simp only [freshNumber, Check.bind_yields, Check.get_yields, Check.modify_yields,
        Check.pure_yields]
      exact ⟨_, _, ⟨_, _, ⟨rfl, rfl⟩, (), _, rfl, rfl, rfl⟩, _, _, ⟨_, _, ⟨rfl, rfl⟩, (), _, rfl,
        rfl, rfl⟩, draft, t, hr ▸ hdraft, rfl, rfl⟩

/-- The definition of a table whose primary key is one column; the index has a number. -/
def keyedTable (env : Environment ρ) (d : TableDefinition) (tableName : String) (address : Nat)
    (r : ColumnsDraft) (c : Column) (number : Nat) : Table × Index :=
  let table := draftTable env d tableName address (r.keyed c.address).columns
  completeTable ⟨table, some (primaryIndexOf table number [(c, .ascendant)])⟩ number

/-- Of a key that is a column only the number counts. -/
theorem refreshKeys_congr {columns : List Column} {c k k' : Column} (hc : c ∈ columns)
    (hk : c.address = k.address) (hk' : c.address = k'.address) (direction : SortDirection) :
    refreshKeys columns [(k, direction)] = refreshKeys columns [(k', direction)] := by
  have hfound : (columns.find? fun x => x.address = c.address).isSome := by
    rw [List.find?_isSome]
    exact ⟨c, hc, by simp⟩
  obtain ⟨x, hx⟩ := Option.isSome_iff_exists.mp hfound
  simp only [refreshKeys, List.map_cons, List.map_nil, ← hk, ← hk', hx, Option.getD_some]

theorem fillDefault_address (c : Column) : (fillDefault c).address = c.address := by
  unfold fillDefault
  split_ifs <;> rfl

/-- The primary index on a column that was declared the primary key. -/
theorem completeTable_columnPrimaryIndex {r : ColumnsDraft} {n : Nat} (hwf : r.WellFormed n)
    {c : Column} (hc : c ∈ r.columns) (tableName : String) (address number : Nat) :
    let table := draftTable env d tableName address (r.keyed c.address).columns
    completeTable ⟨table, some (columnPrimaryIndex table number c.address)⟩ number =
      keyedTable env d tableName address r c number := by
  intro table
  have hmem : requireKey c.address c ∈ table.columns := List.mem_map_of_mem hc
  have haddresses : (table.columns.map Column.address).Nodup := by
    have hsame : table.columns.map Column.address = r.columns.map Column.address := by
      simp only [table, draftTable, ColumnsDraft.keyed, List.map_map]
      exact List.map_congr_left fun c' _ => requireKey_address c.address c'
    rw [hsame]
    exact hwf.addresses
  have hone := filter_eq_singleton haddresses hmem
  simp only [requireKey_address] at hone
  have hfilled : fillDefault (requireKey c.address c) ∈ table.columns.map fillDefault :=
    List.mem_map_of_mem hmem
  have hkeys : refreshKeys (table.columns.map fillDefault) [(requireKey c.address c, .ascendant)] =
      refreshKeys (table.columns.map fillDefault) [(c, .ascendant)] :=
    refreshKeys_congr hfilled (by rw [fillDefault_address])
      (by rw [fillDefault_address, requireKey_address]) .ascendant
  simp only [completeTable, keyedTable, columnPrimaryIndex, primaryIndexOf, hone, List.map_cons,
    List.map_nil, Option.getD_some, hkeys, table]

/-- A column with its constraints replaced. -/
abbrev columnOf (definition : ColumnDefinition) (constraints : List Constraint) : TableElement :=
  .columnDefinition { definition with constraints := constraints }

/-- The columns are accepted, without a primary key, and the table has no constraints. -/
def Keyless (env : Environment ρ) (name : SimpleName) (elements : List TableElement)
    (s : AnalyzerState ρ) (r : ColumnsDraft) (u : AnalyzerState ρ) : Prop :=
  processColumnDefinitions env (identifierOf env name .relation) ⟨[], none⟩ elements s =
      (some r, u) ∧
    r.primaryKey = none ∧ ∀ e ∈ elements, isConstraint e = false

section ColumnKey

variable {pre post : List TableElement} {definition : ColumnDefinition}
  {before after : List Constraint} {key : KeyConstraint}

theorem isConstraint_columnOf (constraints : List Constraint) :
    (∀ e ∈ pre ++ columnOf definition constraints :: post, isConstraint e = false) ↔
      ∀ e ∈ pre ++ post, isConstraint e = false := by
  simp only [List.forall_mem_append, List.forall_mem_cons, isConstraint, true_and]

/-- A table whose primary key is a constraint of its column. -/
theorem defineTable_columnKey_stops (hname : d.name = .simple name) (hs : s.Sound)
    {result : StatementResult}
    (hrun : defineTable env { d with
      elements := pre ++ columnOf definition (before ++ .primaryKey key :: after) :: post } s =
        (some result, t)) :
    .null ∉ before ++ after ∧
      ∃ r u, Keyless env name (pre ++ columnOf definition (before ++ after) :: post) s r u := by
  obtain ⟨_, u, draft, hcolumns, -, hdraft, -⟩ := (defineTable_yields hname _ result).mp hrun
  obtain ⟨r, hbare, hkey, hnull, c, -, -, rfl⟩ :=
    (processColumnDefinitions_insert hs (ColumnsDraft.wellFormed_nil s.fresh)).mp hcolumns
  have hall := processTableConstraints_indexed (by simp [ColumnsDraft.keyed]) hdraft
  exact ⟨hnull, r, u, hbare, hkey,
    (isConstraint_columnOf _).mpr ((isConstraint_columnOf _).mp hall)⟩

theorem defineTable_columnKey (hname : d.name = .simple name) (hs : s.Sound)
    (hnull : .null ∉ before ++ after) {r : ColumnsDraft} {u : AnalyzerState ρ}
    (hkeyless : Keyless env name (pre ++ columnOf definition (before ++ after) :: post) s r u)
    {c : Column} (hc : c ∈ r.columns)
    (hcolumn : c.simpleName = identifierOf env definition.name .variable) :
    ∃ number t, defineTable env { d with
      elements := pre ++ columnOf definition (before ++ .primaryKey key :: after) :: post } s =
        (some (.statement (.createTable env.options.defaultSchema
          (keyedTable env d (identifierOf env name .relation) u.fresh r c number).1
          (keyedTable env d (identifierOf env name .relation) u.fresh r c number).2)), t) := by
  obtain ⟨hcolumns, hkey, hall⟩ := hkeyless
  have hempty := ColumnsDraft.wellFormed_nil s.fresh
  obtain ⟨-, -, hwf, -⟩ := processColumnDefinitions_wellFormed hcolumns hs hempty
  have hne : (r.keyed c.address).columns ≠ [] :=
    List.ne_nil_of_mem (List.mem_map_of_mem (f := requireKey c.address) hc)
  let table := draftTable env d (identifierOf env name .relation) u.fresh (r.keyed c.address).columns
  refine ⟨u.fresh + 1, { u with fresh := u.fresh + 2 }, (defineTable_yields hname _ _).mpr ?_⟩
  refine ⟨r.keyed c.address, u, ⟨table, some (columnPrimaryIndex table (u.fresh + 1) c.address)⟩,
    ?_, hne, ?_, ?_⟩
  · exact (processColumnDefinitions_insert hs hempty).mpr
      ⟨r, hcolumns, hkey, hnull, c, hc, hcolumn, rfl⟩
  · dsimp only
    rw [processTableConstraints_columns
      ((isConstraint_columnOf _).mpr ((isConstraint_columnOf _).mp hall))]
    rfl
  · rw [← completeTable_columnPrimaryIndex hwf hc]

end ColumnKey

/-- The table constraint that makes a column the primary key, with the values and parameters of
another one. -/
def tableKey (key : KeyConstraint) (name : SimpleName) : Constraint :=
  .primaryKey { key with key := [columnKey name] }

theorem processColumnDefinitions_constraint (tableName : String) (r : ColumnsDraft)
    (body : Constraint) :
    processColumnDefinitions env tableName r (left ++ .constraintDefinition body :: right) =
      processColumnDefinitions env tableName r (left ++ right) := by
  simp only [processColumnDefinitions_append, processColumnDefinitions]

theorem processTableConstraint_values {key : KeyConstraint} (hvalues : key.values ≠ [])
    (draft r : TableDraft) :
    processTableConstraint env draft (tableKey key name) s ≠ (some r, t) := by
  intro h
  simp only [tableKey, processTableConstraint, processPrimaryKey] at h
  split_ifs at h
  · simp at h
  · cases hcase : key.values with
    | nil => exact hvalues hcase
    | cons value values => simp [hcase] at h

/-- The primary index that a table constraint on one column makes; the column is not nullable. -/
theorem processTableConstraint_tableKey (h : ResolvesReferences env) {n : Nat} {r : ColumnsDraft}
    (hwf : r.WellFormed n) {c : Column} (hc : c ∈ r.columns)
    (hname : identifierOf env name .variable = c.simpleName) (tableName : String) (address : Nat)
    {key : KeyConstraint} (hvalues : key.values = []) (s : AnalyzerState ρ) :
    let table := draftTable env d tableName address (r.keyed c.address).columns
    ∃ number t, processTableConstraint env ⟨draftTable env d tableName address r.columns, none⟩
      (tableKey key name) s =
        (some ⟨table, some (primaryIndexOf table number [(c, .ascendant)])⟩, t) := by
  intro table
  have hreport : ∃ u, reportIndexParameters .malformedSyntax key.parameters s = (some (), u) := by
    cases key.parameters with
    | nil => exact ⟨s, rfl⟩
    | cons parameter parameters => exact ⟨_, rfl⟩
  obtain ⟨u, hreport⟩ := hreport
  let draft := draftTable env d tableName address r.columns
  obtain ⟨v, hkeys⟩ : ∃ v, buildIndexKeys env draft [columnKey name] u =
      (some [(c, .ascendant)], v) :=
    buildIndexKeys_columnKey h hwf.exported hwf.names hc hname u
  refine ⟨v.fresh, { v with fresh := v.fresh + 1 }, ?_⟩
  have hindex : processPrimaryKey env { key with key := [columnKey name] }
      (draftTable env d tableName address r.columns) s =
        (some (primaryIndexOf (draftTable env d tableName address r.columns) v.fresh
          [(c, .ascendant)]), { v with fresh := v.fresh + 1 }) := by
    simp only [processPrimaryKey, hvalues, Check.bind_yields]
    exact ⟨(), u, hreport, _, v, hkeys, v.fresh, _, rfl, rfl⟩
  have hrequire : requireKeys (primaryIndexOf (draftTable env d tableName address r.columns) v.fresh
      [(c, .ascendant)]) r.columns = r.columns.map (requireKey c.address) := by
    refine List.map_congr_left fun x _ => ?_
    by_cases hx : x.address = c.address
    · simp [requireKey, Index.isKey, primaryIndexOf, hx]
    · simp [requireKey, Index.isKey, primaryIndexOf, hx, Ne.symm hx]
  simp only [tableKey, processTableConstraint, Option.isSome_none, Bool.false_eq_true, if_false,
    Check.bind_yields]
  refine ⟨_, _, hindex, ?_⟩
  change (some (_ : TableDraft), _) = _
  rw [show (draftTable env d tableName address r.columns).columns = r.columns from rfl, hrequire]
  rfl

/-- A table that has no primary key. -/
theorem defineTable_keyless (hname : d.name = .simple name) :
    ((∃ result t, defineTable env { d with elements := elements } s = (some result, t)) ∧
      ∀ e ∈ elements, ¬ DeclaresKey e) ↔
    ∃ r u, Keyless env name elements s r u ∧ r.columns ≠ [] := by
  simp only [defineTable_yields hname]
  constructor
  · rintro ⟨⟨result, t, r, u, draft, hcolumns, hne, hdraft, -⟩, hkeys⟩
    have hkey : r.primaryKey = none :=
      (processColumnDefinitions_primaryKey hcolumns).mpr ⟨rfl, fun e he _ => hkeys e he⟩
    refine ⟨r, u, ⟨hcolumns, hkey, fun e he => ?_⟩, hne⟩
    cases e with
    | columnDefinition definition => rfl
    | constraintDefinition body =>
      -- what is accepted as a constraint of a table is a primary key
      obtain ⟨left, right, rfl⟩ := List.append_of_mem he
      obtain ⟨-, hbody⟩ := processTableConstraints_insert.mp hdraft
      exact absurd (processTableConstraint_yields hbody).2.2 (hkeys _ he)
  · rintro ⟨r, u, ⟨hcolumns, hkey, hall⟩, hne⟩
    let table := draftTable env d (identifierOf env name .relation) u.fresh r.columns
    refine ⟨⟨_, { u with fresh := u.fresh + 2 }, r, u, ⟨table, none⟩, hcolumns, hne, ?_, rfl⟩,
      fun e he => ?_⟩
    · rw [processTableConstraints_columns hall, hkey]
      rfl
    · exact ((processColumnDefinitions_primaryKey hcolumns).mp hkey).2 e he (hall e he)

/-- A table whose primary key is a constraint of the table. -/
theorem defineTable_tableKey_stops (hname : d.name = .simple name) {key : KeyConstraint}
    {column : SimpleName} {result : StatementResult}
    (hrun : defineTable env { d with
      elements := left ++ .constraintDefinition (tableKey key column) :: right } s =
        (some result, t)) :
    key.values = [] ∧ ∃ r u, Keyless env name (left ++ right) s r u := by
  obtain ⟨r, u, draft, hcolumns, -, hdraft, -⟩ :=
    (defineTable_yields hname _ result).mp hrun
  rw [processColumnDefinitions_constraint] at hcolumns
  obtain ⟨hall, hbody⟩ := processTableConstraints_insert.mp hdraft
  obtain ⟨hnone, -, -⟩ := processTableConstraint_yields hbody
  have hkey : r.primaryKey = none := Option.map_eq_none_iff.mp hnone
  by_cases hvalues : key.values = []
  · exact ⟨hvalues, r, u, hcolumns, hkey, hall⟩
  · exact absurd hbody (processTableConstraint_values hvalues _ _)

theorem defineTable_tableKey (h : ResolvesReferences env) (hname : d.name = .simple name)
    (hs : s.Sound) {key : KeyConstraint} (hvalues : key.values = []) {column : SimpleName}
    {r : ColumnsDraft} {u : AnalyzerState ρ} (hkeyless : Keyless env name (left ++ right) s r u)
    {c : Column} (hc : c ∈ r.columns) (hcolumn : c.simpleName = identifierOf env column .variable) :
    ∃ number t, defineTable env { d with
      elements := left ++ .constraintDefinition (tableKey key column) :: right } s =
        (some (.statement (.createTable env.options.defaultSchema
          (keyedTable env d (identifierOf env name .relation) u.fresh r c number).1
          (keyedTable env d (identifierOf env name .relation) u.fresh r c number).2)), t) := by
  obtain ⟨hcolumns, hkey, hall⟩ := hkeyless
  obtain ⟨-, -, hwf, -⟩ :=
    processColumnDefinitions_wellFormed hcolumns hs (ColumnsDraft.wellFormed_nil s.fresh)
  obtain ⟨number, t, hbody⟩ := processTableConstraint_tableKey h hwf hc hcolumn.symm (d := d)
    (identifierOf env name .relation) u.fresh hvalues { u with fresh := u.fresh + 2 }
  refine ⟨number, t, (defineTable_yields hname _ _).mpr ?_⟩
  refine ⟨r, u, _, ?_, List.ne_nil_of_mem hc, ?_, rfl⟩
  · rw [processColumnDefinitions_constraint]
    exact hcolumns
  · rw [hkey]
    exact processTableConstraints_insert.mpr ⟨hall, hbody⟩

end Definition

/-! ### The two spellings -/

theorem AnalyzerResult.sameDefinition_refl (result : AnalyzerResult) :
    result.SameDefinition result := by
  cases result with
  | erroneous diagnostics => trivial
  | executionPlan graph => rfl
  | statement result => cases result <;> simp [SameDefinition]

theorem resultOf_definesTable {x : Option StatementResult × AnalyzerState ρ}
    (h : (resultOf x).DefinesTable) : ∃ r t, x = (some r, t) := by
  obtain ⟨schema, table, index, h⟩ := h
  obtain ⟨_ | r, s⟩ := x
  · cases h
  · exact ⟨r, s, rfl⟩

/-- The result that defines a table whose primary key is one column. -/
def keyedResult (env : Environment ρ) (d : TableDefinition) (tableName : String) (address : Nat)
    (r : ColumnsDraft) (c : Column) (number : Nat) : AnalyzerResult :=
  .statement (.createTable env.options.defaultSchema
    (keyedTable env d tableName address r c number).1
    (keyedTable env d tableName address r c number).2)

theorem keyedResult_same (d : TableDefinition) (tableName : String) (address : Nat)
    (r : ColumnsDraft) (c : Column) (number number' : Nat) :
    (keyedResult env d tableName address r c number).SameDefinition
      (keyedResult env d tableName address r c number') :=
  ⟨rfl, rfl, rfl⟩

section Spellings

variable {d : TableDefinition} {name : SimpleName} {pre post left right : List TableElement}
  {definition : ColumnDefinition} {before after : List Constraint} {s : AnalyzerState ρ}

/-- The two spellings for a table that does not exist. -/
theorem defineTable_primaryKey_iff (h : ResolvesReferences env) (hname : d.name = .simple name)
    (hs : s.Sound) (key : KeyConstraint)
    (hposition : left ++ right = pre ++ columnOf definition (before ++ after) :: post) :
    let create := fun elements => resultOf (defineTable env { d with elements := elements } s)
    (create (pre ++ columnOf definition (before ++ .primaryKey key :: after) :: post)).SameDefinition
        (create (left ++ .constraintDefinition (tableKey key definition.name) :: right)) ↔
      ((create (left ++ right)).DefinesTable → (∀ e ∈ left ++ right, ¬ DeclaresKey e) →
        (.null ∈ before ++ after ↔ key.values ≠ [])) := by
  intro create
  let columnForm := create (pre ++ columnOf definition (before ++ .primaryKey key :: after) :: post)
  let tableForm := create (left ++ .constraintDefinition (tableKey key definition.name) :: right)
  have hcolumnStops (hstop : .null ∈ before ++ after ∨
      ¬ ∃ r u, Keyless env name (left ++ right) s r u) :
      ∃ diagnostics, columnForm = .erroneous diagnostics := by
    refine resultOf_stops fun r t hrun => ?_
    obtain ⟨hnull, hkeyless⟩ := defineTable_columnKey_stops hname hs hrun
    rw [← hposition] at hkeyless
    exact hstop.elim hnull fun hnone => hnone hkeyless
  have htableStops (hstop : key.values ≠ [] ∨ ¬ ∃ r u, Keyless env name (left ++ right) s r u) :
      ∃ diagnostics, tableForm = .erroneous diagnostics := by
    refine resultOf_stops fun r t hrun => ?_
    obtain ⟨hvalues, hkeyless⟩ := defineTable_tableKey_stops hname hrun
    exact hstop.elim (fun hne => hne hvalues) fun hnone => hnone hkeyless
  change columnForm.SameDefinition tableForm ↔ _
  by_cases hkeyless : ∃ r u, Keyless env name (left ++ right) s r u
  · obtain ⟨r, u, hkeyless⟩ := hkeyless
    have hposed := hkeyless
    rw [hposition] at hposed
    obtain ⟨c, hc, hcolumn⟩ :=
      processColumnDefinitions_mem hposed.1 hs (ColumnsDraft.wellFormed_nil s.fresh)
    obtain ⟨⟨result, t, hbare⟩, hkeys⟩ :=
      (defineTable_keyless (d := d) hname).mpr ⟨r, u, hkeyless, List.ne_nil_of_mem hc⟩
    have hdefines : (create (left ++ right)).DefinesTable := by
      obtain ⟨_, _, _, -, -, -, rfl⟩ := (defineTable_yields hname _ _).mp hbare
      simp only [create, hbare]
      exact ⟨_, _, _, rfl⟩
    have hcondition : ((create (left ++ right)).DefinesTable →
        (∀ e ∈ left ++ right, ¬ DeclaresKey e) → (.null ∈ before ++ after ↔ key.values ≠ [])) ↔
          (.null ∈ before ++ after ↔ key.values ≠ []) :=
      ⟨fun hall => hall hdefines hkeys, fun hiff _ _ => hiff⟩
    rw [hcondition]
    have hcolumnRuns (hnull : .null ∉ before ++ after) : ∃ number, columnForm =
        keyedResult env d (identifierOf env name .relation) u.fresh r c number := by
      obtain ⟨number, t, hrun⟩ := defineTable_columnKey hname hs hnull hposed hc hcolumn
      exact ⟨number, congrArg resultOf hrun⟩
    have htableRuns (hvalues : key.values = []) : ∃ number, tableForm =
        keyedResult env d (identifierOf env name .relation) u.fresh r c number := by
      obtain ⟨number, t, hrun⟩ := defineTable_tableKey h hname hs hvalues hkeyless hc hcolumn
      exact ⟨number, congrArg resultOf hrun⟩
    by_cases hnull : .null ∈ before ++ after <;> by_cases hvalues : key.values = []
    · -- the column form finds the column nullable, the table form makes it not nullable
      obtain ⟨_, hcolumnForm⟩ := hcolumnStops (.inl hnull)
      obtain ⟨_, htableForm⟩ := htableRuns hvalues
      rw [hcolumnForm, htableForm]
      exact iff_of_false (fun hsame => nomatch hsame) fun hiff => hiff.mp hnull hvalues
    · obtain ⟨_, hcolumnForm⟩ := hcolumnStops (.inl hnull)
      obtain ⟨_, htableForm⟩ := htableStops (.inl hvalues)
      rw [hcolumnForm, htableForm]
      exact iff_of_true trivial (iff_of_true hnull hvalues)
    · obtain ⟨_, hcolumnForm⟩ := hcolumnRuns hnull
      obtain ⟨_, htableForm⟩ := htableRuns hvalues
      rw [hcolumnForm, htableForm]
      exact iff_of_true (keyedResult_same ..) (iff_of_false hnull (not_not.mpr hvalues))
    · -- the column form does not read the values, the table form does not support them
      obtain ⟨_, hcolumnForm⟩ := hcolumnRuns hnull
      obtain ⟨_, htableForm⟩ := htableStops (.inl hvalues)
      rw [hcolumnForm, htableForm]
      exact iff_of_false (fun hsame => nomatch hsame) fun hiff => hnull (hiff.mpr hvalues)
  · obtain ⟨_, hcolumnForm⟩ := hcolumnStops (.inr hkeyless)
    obtain ⟨_, htableForm⟩ := htableStops (.inr hkeyless)
    rw [hcolumnForm, htableForm]
    refine iff_of_true trivial fun hdefines hkeys => (hkeyless ?_).elim
    obtain ⟨r, u, hrun, -⟩ :=
      (defineTable_keyless hname).mp ⟨resultOf_definesTable hdefines, hkeys⟩
    exact ⟨r, u, hrun⟩

/-- A primary key that is a constraint of a column and one that is a constraint of the table have
the same outcome if and only if the key has included values exactly when the column is also said to
be nullable; or the definition without it defines no table, or has another primary key. -/
theorem SqlAnalyzer.process_primaryKey_iff (h : ResolvesReferences env) (resolution : ρ)
    (d : TableDefinition) (key : KeyConstraint)
    (hposition : left ++ right = pre ++ columnOf definition (before ++ after) :: post) :
    let create := fun elements =>
      process env resolution (.tableDefinition { d with elements := elements })
    (create (pre ++ columnOf definition (before ++ .primaryKey key :: after) :: post)).SameDefinition
        (create (left ++ .constraintDefinition (tableKey key definition.name) :: right)) ↔
      ((create (left ++ right)).DefinesTable → (∀ e ∈ left ++ right, ¬ DeclaresKey e) →
        (.null ∈ before ++ after ↔ key.values ≠ [])) := by
  intro create
  -- both spellings have the same outcome when no column is looked at
  have hsame (result : AnalyzerResult) (hcreate : ∀ elements, create elements = result)
      (hresult : ¬ result.DefinesTable) :
      (create (pre ++ columnOf definition (before ++ .primaryKey key :: after) :: post)).SameDefinition
        (create (left ++ .constraintDefinition (tableKey key definition.name) :: right)) ↔
      ((create (left ++ right)).DefinesTable → (∀ e ∈ left ++ right, ¬ DeclaresKey e) →
        (.null ∈ before ++ after ↔ key.values ≠ [])) := by
    simp only [hcreate]
    exact iff_of_true result.sameDefinition_refl fun hdefines => absurd hdefines hresult
  have herroneous (diagnostics : List Diagnostic) :
      ¬ (AnalyzerResult.erroneous diagnostics).DefinesTable := by
    rintro ⟨_, _, _, h⟩
    cases h
  have hcreate (elements : List TableElement) : create elements =
      resultOf (processTableDefinition env { d with elements := elements } (.initial resolution)) :=
    process_eq_resultOf ..
  obtain ⟨existing, hexisting⟩ : ∃ existing, analyzeTableName env d.name false = pure existing :=
    analyzeTableName_optional env d.name
  unfold processTableDefinition at hcreate
  dsimp only at hcreate
  cases hparameters : d.parameters with
  | cons parameter parameters =>
    simp only [hparameters] at hcreate
    exact hsame _ hcreate (herroneous _)
  | nil =>
    simp only [hparameters, hexisting, pure_bind] at hcreate
    cases existing with
    | some existing =>
      refine hsame (resultOf (definedAlready (decide (.ifNotExists ∈ d.options))
        .tableAlreadyExists "table" d.name (.initial resolution))) hcreate ?_
      rintro ⟨schema, table, index, hresult⟩
      unfold definedAlready at hresult
      split_ifs at hresult <;> cases hresult
    | none =>
      cases hname : d.name with
      | qualified qualifier last =>
        simp only [defineTable, hname] at hcreate
        exact hsame _ hcreate (herroneous _)
      | simple name =>
        simp only [hcreate]
        exact defineTable_primaryKey_iff h hname (initial_sound resolution) key hposition

end Spellings

theorem Environment.ofSchema_resolvesReferences (schema : Schema) :
    ResolvesReferences (Environment.ofSchema schema) where
  bound types v column := by
    change (((v, column.type) :: types).any fun c => c.1 = v) = true
    rw [List.any_cons, decide_eq_true rfl, Bool.true_or]
  kept types v column w h := by
    change (((v, column.type) :: types).any fun c => c.1 = w) = true
    rw [List.any_cons]
    exact Bool.or_eq_true_iff.mpr (.inr h)
  reference _ _ _ _ := ⟨_, _, rfl⟩

/-- `c BIGINT NOT NULL PRIMARY KEY` and `c BIGINT NOT NULL, PRIMARY KEY (c)`. -/
theorem SqlAnalyzer.process_primaryKey_notNull :
    let env := Environment.ofSchema (.ofTables [] [])
    let create := fun elements => process env [] (.tableDefinition (tableOf elements))
    let key : KeyConstraint := ⟨[], [], []⟩
    let column := bigIntColumn "c"
    (create [.columnDefinition (column [.notNull, .primaryKey key])]).SameDefinition
      (create [.columnDefinition (column [.notNull]),
        .constraintDefinition (tableKey key ⟨"c", .delimited⟩)]) := by
  intro env create key column
  have hposition : [.columnDefinition (column [.notNull])] ++ [] =
      [] ++ columnOf (column []) ([.notNull] ++ []) :: [] := rfl
  have hiff := process_primaryKey_iff (Environment.ofSchema_resolvesReferences (.ofTables [] [])) []
    (tableOf []) key hposition
  exact hiff.mpr fun _ _ => by simp [key]

/-- `c BIGINT NULL PRIMARY KEY` is rejected, `c BIGINT NULL, PRIMARY KEY (c)` defines a table. -/
theorem SqlAnalyzer.process_primaryKey_null :
    let env := Environment.ofSchema (.ofTables [] [])
    let create := fun elements => process env [] (.tableDefinition (tableOf elements))
    let key : KeyConstraint := ⟨[], [], []⟩
    let column := bigIntColumn "c"
    ¬ (create [.columnDefinition (column [.null, .primaryKey key])]).SameDefinition
      (create [.columnDefinition (column [.null]),
        .constraintDefinition (tableKey key ⟨"c", .delimited⟩)]) := by
  intro env create key column h
  cases h

end Mizugaki.Analyzer
