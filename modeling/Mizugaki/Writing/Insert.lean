import Mizugaki.Writing.Preference
import Mizugaki.Writing.Target

/-! The two results of INSERT. The values of an INSERT are written by a statement or by a plan of
two operators, as an option prefers. The statement lists the destinations and the rows; the plan
names a stream variable for each value of a row, and pairs it with a destination, keys first. Both
assign the same expressions to the same columns. -/

namespace Mizugaki.Analyzer

open Mizugaki.Ast Mizugaki.Plan Mizugaki.Control

variable {ρ : Type} {env : Environment ρ}

/-! ### Keys by position -/

/-- The positions of the keys are those of the destinations that are keys, when these differ. -/
theorem keyPositions_mem {index : Index} {destinations : List Column}
    (hnodup : (destinations.map Column.address).Nodup) {i : Nat} {c : Column}
    (hi : destinations[i]? = some c) :
    i ∈ keyPositions index destinations ↔ index.isKey c = true := by
  obtain ⟨hlt, hget⟩ := List.getElem?_eq_some_iff.mp hi
  rw [keyPositions, List.mem_filterMap, Index.isKey, List.any_eq_true]
  constructor
  · rintro ⟨k, hk, hfind⟩
    obtain ⟨_, haddress, -⟩ := List.findIdx?_eq_some_iff_getElem.mp hfind
    rw [hget] at haddress
    exact ⟨k, hk, decide_eq_true (of_decide_eq_true haddress).symm⟩
  · rintro ⟨k, hk, haddress⟩
    refine ⟨k, hk, ?_⟩
    cases hfind : destinations.findIdx? fun c => c.address = k.1.address with
    | none =>
      have hnone := List.findIdx?_eq_none_iff.mp hfind c (List.mem_of_getElem? hi)
      exact absurd (of_decide_eq_true haddress).symm (of_decide_eq_false hnone)
    | some j =>
      obtain ⟨hj, hsame, -⟩ := List.findIdx?_eq_some_iff_getElem.mp hfind
      have heq : destinations[j].address = destinations[i].address := by
        rw [hget, of_decide_eq_true hsame, of_decide_eq_true haddress]
      have hj' : j < (destinations.map Column.address).length := by simpa using hj
      have hi' : i < (destinations.map Column.address).length := by simpa using hlt
      have hmap : (destinations.map Column.address)[j] = (destinations.map Column.address)[i] := by
        simpa using heq
      have hij : j = i := hnodup.getElem_inj_iff.mp hmap
      rw [hij]

/-- The pairs of a destination go to the keys exactly when it is one. -/
theorem splitTuples_keys {index : Index} {destinations : List Column}
    (hnodup : (destinations.map Column.address).Nodup) {variables_ : List Variable}
    (hlength : variables_.length = destinations.length) :
    let split := splitTuples (keyPositions index destinations) (variables_.zip destinations)
    (∀ t ∈ split.1, index.isKey t.2 = true) ∧ ∀ t ∈ split.2, index.isKey t.2 = false := by
  intro split
  have hposition {t : Variable × Column} {i : Nat}
      (h : (t, i) ∈ (variables_.zip destinations).zipIdx) :
      i ∈ keyPositions index destinations ↔ index.isKey t.2 = true := by
    have hget := List.mk_mem_zipIdx_iff_getElem?.mp h
    have hsnd : (variables_.zip destinations).map Prod.snd = destinations :=
      List.map_snd_zip hlength.ge
    refine keyPositions_mem hnodup ?_
    rw [← hsnd, List.getElem?_map, hget]
    rfl
  constructor
  · intro t ht
    simp only [split, splitTuples, List.partition_eq_filter_filter, List.mem_map,
      List.mem_filter] at ht
    obtain ⟨⟨_, i⟩, ⟨hmem, hi⟩, rfl⟩ := ht
    exact (hposition hmem).mp (of_decide_eq_true hi)
  · intro t ht
    simp only [split, splitTuples, List.partition_eq_filter_filter, List.mem_map,
      List.mem_filter] at ht
    obtain ⟨⟨_, i⟩, ⟨hmem, hi⟩, rfl⟩ := ht
    have hnot : i ∉ keyPositions index destinations := by simpa using hi
    rw [hposition hmem, Bool.not_eq_true] at hnot
    exact hnot

/-! ### What a row assigns -/

/-- A plan assigns to a column the value that it reads for its source. -/
def PlanAssigns (tuples : List (Variable × Column)) (variables_ : List Variable) (row : List Scalar)
    (c : Column) (e : Scalar) : Prop :=
  ∃ v, (v, c) ∈ tuples ∧ (v, e) ∈ variables_.zip row

/-- A statement assigns to a column the value at its position. -/
def StatementAssigns (columns : List Column) (row : List Scalar) (c : Column) (e : Scalar) : Prop :=
  (c, e) ∈ columns.zip row

theorem mem_zip_iff {α β : Type} {as : List α} {bs : List β} {a : α} {b : β} :
    (a, b) ∈ as.zip bs ↔ ∃ i : Nat, as[i]? = some a ∧ bs[i]? = some b := by
  rw [List.mem_iff_getElem?]
  refine exists_congr fun i => ?_
  rw [List.getElem?_zip_eq_some]

/-- With different sources the plan and the statement assign the same. -/
theorem planAssigns_iff {variables_ : List Variable} (hnodup : variables_.Nodup)
    {destinations : List Column} {tuples : List (Variable × Column)}
    (hperm : tuples.Perm (variables_.zip destinations))
    (hlength : variables_.length = destinations.length) (row : List Scalar) (c : Column)
    (e : Scalar) :
    PlanAssigns tuples variables_ row c e ↔ StatementAssigns destinations row c e := by
  unfold PlanAssigns StatementAssigns
  constructor
  · rintro ⟨v, hc, he⟩
    obtain ⟨i, hi, hci⟩ := mem_zip_iff.mp (hperm.mem_iff.mp hc)
    obtain ⟨j, hj, hej⟩ := mem_zip_iff.mp he
    obtain ⟨hlt, rfl⟩ := List.getElem?_eq_some_iff.mp hi
    obtain ⟨hlt', heq⟩ := List.getElem?_eq_some_iff.mp hj
    have hij : j = i := hnodup.getElem_inj_iff.mp heq
    rw [hij] at hej
    exact mem_zip_iff.mpr ⟨i, hci, hej⟩
  · intro h
    obtain ⟨i, hci, hei⟩ := mem_zip_iff.mp h
    obtain ⟨hlt, -⟩ := List.getElem?_eq_some_iff.mp hci
    have hv : variables_[i]? = some variables_[i] := List.getElem?_eq_getElem (by omega)
    exact ⟨variables_[i], hperm.mem_iff.mpr (mem_zip_iff.mpr ⟨i, hv, hci⟩),
      mem_zip_iff.mpr ⟨i, hv, hei⟩⟩

/-! ### Both results -/

/-- What an INSERT has found before it chooses its result: its destinations, and the output of its
source with the variables of the columns to write. -/
structure InsertParts where
  kind : WriteKind
  index : Index
  destinations : List Column
  output : Graph
  variables_ : List Variable

namespace InsertParts

variable (p : InsertParts)

/-- The pairs of source and destination, the keys before the other ones. -/
def split : List (Variable × Column) × List (Variable × Column) :=
  splitTuples (keyPositions p.index p.destinations) (p.variables_.zip p.destinations)

/-- The plan that writes the columns of the source. -/
def plan : Graph := .unary (.write p.kind p.index p.split.1 p.split.2) p.output

/-- What the INSERT results in, as it prefers statements or not. -/
def result (prefer : Bool) : StatementResult :=
  match prefer, simpleValues p.output.owner with
  | true, some rows => .statement (.write p.kind p.index p.destinations rows)
  | _, _ => .plan p.plan

end InsertParts

variable (env) in
/-- INSERT up to the choice of its result. -/
def insertParts (tableName : Name) (names : List SimpleName) (expression : Option QueryExpression)
    (options : List InsertStatementOption) : Analysis ρ InsertParts := do
  let target ← extractTable env tableName none
  let destinations ← destinationColumns env target names
  match expression with
  | none => do
    let kind ← computeWriteType .insert false options
    return ⟨kind, target.index, [], .source (.values [] [[]]), []⟩
  | some expression => do
    let source ← analyzeQueryExpression env expression
      (destinations.map fun c => { type := some c.type })
    let columns := source.relation.columns
    if columns.length ≠ destinations.length then
      reject .inconsistentColumns [.text "column count mismatch in insert statement: ",
        .text "source-columns=", .size columns.length, .text ", ",
        .text "destination-columns=", .size destinations.length]
    else do
      let kind ← computeWriteType .insert false options
      return ⟨kind, target.index, destinations, source.output, columns.map ColumnInfo.variable_⟩

theorem processInsertColumns_eq {columns : List ColumnInfo} {destinations : List Column}
    (hlength : columns.length = destinations.length) (target : WriteTarget)
    (options : List InsertStatementOption) (output : Graph) :
    processInsertColumns env target destinations options output columns = do
      let kind ← computeWriteType .insert false options
      return InsertParts.result ⟨kind, target.index, destinations, output,
        columns.map ColumnInfo.variable_⟩ env.options.preferWriteStatement := by
  unfold processInsertColumns
  rw [if_neg (not_not.mpr hlength)]
  cases hprefer : env.options.preferWriteStatement with
  | false => rfl
  | true =>
    cases hrows : simpleValues output.owner with
    | none =>
      simp only [InsertParts.result, hrows]
      rfl
    | some rows =>
      simp only [InsertParts.result, hrows]
      rfl

theorem processInsertDefaultValues_eq (target : WriteTarget) (options : List InsertStatementOption) :
    processInsertDefaultValues env target options = do
      let kind ← computeWriteType .insert false options
      return InsertParts.result ⟨kind, target.index, [], .source (.values [] [[]]), []⟩
        env.options.preferWriteStatement := by
  unfold processInsertDefaultValues
  cases env.options.preferWriteStatement <;> rfl

theorem processInsertStatement_eq (tableName : Name) (names : List SimpleName)
    (expression : Option QueryExpression) (options : List InsertStatementOption) :
    processInsertStatement env tableName names expression options = do
      let p ← insertParts env tableName names expression options
      return p.result env.options.preferWriteStatement := by
  unfold processInsertStatement insertParts
  rw [bind_assoc]
  congr 1
  funext target
  rw [bind_assoc]
  congr 1
  funext destinations
  cases expression with
  | none => simp only [processInsertDefaultValues_eq, bind_assoc, pure_bind]
  | some expression =>
    dsimp only
    rw [bind_assoc]
    congr 1
    funext source
    by_cases hlength : source.relation.columns.length = destinations.length
    · rw [processInsertColumns_eq hlength, if_neg (not_not.mpr hlength)]
      simp only [bind_assoc, pure_bind]
    · unfold processInsertColumns
      rw [if_pos hlength, if_pos hlength]
      rfl

theorem insertParts_preferring (prefer : Bool) :
    insertParts (env.preferring prefer) = insertParts env := by
  have hnamed : namedDestinations (env.preferring prefer) = namedDestinations env := by
    delta namedDestinations
    rfl
  unfold insertParts extractTable destinationColumns
  rw [hnamed, analyzeTableName_preferring, buildRelationInfo_preferring,
    analyzeQueryExpression_preferring]
  rfl

/-! ### INSERT of values -/

/-- The destinations of an INSERT of values: the columns that its names denote, or the exported
columns of the table; `DEFAULT VALUES` has none. -/
def IsDestinations (env : Environment ρ) (table : Table) (names : List SimpleName)
    (values : Option (List ScalarExpression)) (destinations : List Column) : Prop :=
  match values, names with
  | none, _ => destinations = []
  | some _, [] => destinations = table.columns.filter Column.exported
  | some _, names => Denotes env table names destinations

theorem extractTable_exported {name : Name} {aliasName : Option SimpleName}
    {s t : AnalyzerState ρ} {target : WriteTarget}
    (h : extractTable env name aliasName s = (some target, t)) :
    target.info.exportedColumns.filterMap ColumnInfo.declaration =
      target.table.columns.filter Column.exported := by
  have hcolumns := extractTable_columns h
  have hfilter := congrArg (fun l => (l.filter fun x => x.2.2).filterMap fun x => x.2.1) hcolumns
  simp only [List.filter_map, List.filterMap_map] at hfilter
  refine hfilter.trans ?_
  rw [show ((fun x : Option String × Option Column × Bool => x.2.1) ∘
    fun c : Column => (some c.simpleName, some c, Column.exported c)) = some from rfl,
    List.filterMap_some]
  rfl

theorem destinationColumns_yields {name : Name} {s t u v : AnalyzerState ρ} {target : WriteTarget}
    (htarget : extractTable env name none u = (some target, v))
    (hdistinct : (target.table.columns.map Column.address).Nodup) {names : List SimpleName}
    {destinations : List Column}
    (h : destinationColumns env target names s = (some destinations, t))
    (values : List ScalarExpression) :
    IsDestinations env target.table names (some values) destinations ∧
      (destinations.map Column.address).Nodup := by
  cases names with
  | nil =>
    obtain ⟨rfl, rfl⟩ := (Check.pure_yields ..).mp h
    rw [extractTable_exported htarget]
    exact ⟨rfl, hdistinct.sublist (List.filter_sublist.map _)⟩
  | cons n ns =>
    obtain ⟨hdenotes, -, hnodup, -⟩ := (namedDestinations_yields htarget ..).mp h
    exact ⟨hdenotes, hnodup⟩

theorem freshStreams_nodup (first count : Nat) : (freshStreams first count).Nodup := by
  refine List.Nodup.map (fun i j h => ?_) List.nodup_range'
  exact Variable.stream.inj h

/-- The source of an INSERT of values is one operator, whose variables differ. -/
theorem analyzeQueryExpression_values {values : List ScalarExpression}
    {context : List ScalarValueContext} {s t : AnalyzerState ρ} {source : QueryResult}
    (h : analyzeQueryExpression env (.tableValueConstructor values) context s = (some source, t)) :
    ∃ rows, source.output =
        .source (.values (source.relation.columns.map ColumnInfo.variable_) rows) ∧
      (source.relation.columns.map ColumnInfo.variable_).Nodup := by
  rw [analyzeQueryExpression, query] at h
  obtain ⟨u, v, hrun⟩ := inScope_some h
  unfold processTableValueConstructor at hrun
  simp only [Check.bind_yields, streamVariables_yields, Check.pure_yields] at hrun
  obtain ⟨rows, w, -, _, x, ⟨rfl, -⟩, -, y, -, rfl, -⟩ := hrun
  have hvariables (vs : List Variable) :
      (RelationInfo.empty.addAll (vs.map fun v => { variable_ := v, identifier := none })).columns.map
        ColumnInfo.variable_ = vs := by
    rw [RelationInfo.addAll_map fun _ _ => rfl, List.map_map]
    exact List.map_id vs
  refine ⟨rows, ?_, ?_⟩
  · rw [hvariables]
  · rw [hvariables]
    exact freshStreams_nodup ..

/-- What is known of the parts of an INSERT of values. -/
structure InsertParts.OfValues (env : Environment ρ) (tableName : Name) (names : List SimpleName)
    (values : Option (List ScalarExpression)) (s : AnalyzerState ρ) (p : InsertParts)
    (table : Table) (rows : List (List Scalar)) : Prop where
  found : ∃ schema u, analyzeTableName env tableName true s = (some (some (schema, table)), u)
  index : table.primaryIndex = some p.index
  destinations : IsDestinations env table names values p.destinations
  output : p.output = .source (.values p.variables_ rows)
  sources : p.variables_.Nodup
  length : p.variables_.length = p.destinations.length
  once : (p.destinations.map Column.address).Nodup

theorem insertParts_ofValues {tableName : Name} {names : List SimpleName}
    {values : Option (List ScalarExpression)} {options : List InsertStatementOption}
    {s t : AnalyzerState ρ} {p : InsertParts}
    (hdistinct : ∀ schema table u, analyzeTableName env tableName true s =
      (some (some (schema, table)), u) → (table.columns.map Column.address).Nodup)
    (h : insertParts env tableName names (values.map .tableValueConstructor) options s =
      (some p, t)) :
    ∃ table rows, p.OfValues env tableName names values s table rows := by
  simp only [insertParts, Check.bind_yields] at h
  obtain ⟨target, u, htarget, destinations, v, hdestinations, h⟩ := h
  obtain ⟨hextracted, schema, w, hfound⟩ := extractTable_yields htarget
  cases values with
  | none =>
    simp only [Option.map_none, Check.bind_yields, Check.pure_yields] at h
    obtain ⟨kind, x, -, rfl, rfl⟩ := h
    exact ⟨target.table, [[]], ⟨schema, w, hfound⟩, hextracted.index, rfl, rfl, List.nodup_nil,
      rfl, List.nodup_nil⟩
  | some values =>
    simp only [Option.map_some, Check.bind_yields] at h
    obtain ⟨source, x, hsource, h⟩ := h
    obtain ⟨rows, houtput, hnodup⟩ := analyzeQueryExpression_values hsource
    by_cases hlength : source.relation.columns.length = destinations.length
    · rw [if_neg (not_not.mpr hlength)] at h
      simp only [Check.bind_yields, Check.pure_yields] at h
      obtain ⟨kind, y, -, rfl, rfl⟩ := h
      obtain ⟨hdenotes, honce⟩ := destinationColumns_yields htarget
        (hdistinct schema target.table w hfound) hdestinations values
      exact ⟨target.table, rows, ⟨schema, w, hfound⟩, hextracted.index, hdenotes, houtput, hnodup,
        by rw [List.length_map, hlength], honce⟩
    · rw [if_pos hlength, reject_yields] at h
      exact h.elim

/-- The two results of an INSERT of values write alike: the statement assigns in each row what the
plan assigns, and the plan writes each pair of source and destination once, as a key exactly when
the destination is a column of the primary index. -/
structure InsertParts.WrittenAlike (p : InsertParts) (rows : List (List Scalar))
    (written planned : AnalyzerResult) : Prop where
  plan : planned = .executionPlan p.plan
  /-- A row with a subquery is never written by a statement. -/
  statement : if rows.any detectSubqueryList then written = planned
    else written = .statement (.write p.kind p.index p.destinations rows)
  assigned : ∀ row ∈ rows, ∀ c e, StatementAssigns p.destinations row c e ↔
    PlanAssigns (p.split.1 ++ p.split.2) p.variables_ row c e
  pairs : List.Perm (p.split.1 ++ p.split.2) (p.variables_.zip p.destinations)
  keys : ∀ t ∈ p.split.1, p.index.isKey t.2 = true
  values : ∀ t ∈ p.split.2, p.index.isKey t.2 = false
  once : ((p.split.1 ++ p.split.2).map fun t => t.2.address).Nodup

theorem InsertParts.OfValues.writtenAlike {tableName : Name} {names : List SimpleName}
    {values : Option (List ScalarExpression)} {s : AnalyzerState ρ} {p : InsertParts}
    {table : Table} {rows : List (List Scalar)}
    (h : p.OfValues env tableName names values s table rows) :
    p.WrittenAlike rows (p.result true).toResult (p.result false).toResult where
  plan := rfl
  statement := by
    have howner : p.output.owner = .values p.variables_ rows := by
      rw [h.output]
      rfl
    unfold InsertParts.result
    rw [howner, simpleValues]
    cases rows.any detectSubqueryList <;> rfl
  assigned row _ c e := (planAssigns_iff h.sources (splitTuples_perm ..) h.length row c e).symm
  pairs := splitTuples_perm ..
  keys := (splitTuples_keys h.once h.length).1
  values := (splitTuples_keys h.once h.length).2
  once := by
    have hpairs := (splitTuples_perm (keyPositions p.index p.destinations)
      (p.variables_.zip p.destinations)).map fun t => t.2.address
    have hdestinations : (p.variables_.zip p.destinations).map (fun t => t.2.address) =
        p.destinations.map Column.address := by
      have hsnd := List.map_snd_zip h.length.ge
      have hmap := congrArg (List.map Column.address) hsnd
      rwa [List.map_map] at hmap
    rw [hdestinations] at hpairs
    exact hpairs.nodup_iff.mpr h.once

theorem SqlAnalyzer.process_insert_iff (prefer : Bool) (resolution : ρ) (tableName : Name)
    (names : List SimpleName) (expression : Option QueryExpression)
    (options : List InsertStatementOption) (r : StatementResult) :
    process (env.preferring prefer) resolution
        (.insertStatement tableName names expression options) = r.toResult ↔
      ∃ p t, insertParts env tableName names expression options (.initial resolution) =
        (some p, t) ∧ p.result prefer = r := by
  rw [process_eq_iff]
  simp only [analyzeStatement, processInsertStatement_eq, insertParts_preferring,
    preferring_options, Check.bind_yields, Check.pure_yields]
  constructor
  · rintro ⟨t, p, u, hp, hr, -⟩
    exact ⟨p, u, hp, hr⟩
  · rintro ⟨p, t, hp, hr⟩
    exact ⟨t, p, t, hp, hr, rfl⟩

/-- An INSERT of values is accepted with and without the preference for write statements, and its
two results write alike. The columns of a table are different objects, so their addresses differ. -/
theorem SqlAnalyzer.process_insert_values (resolution : ρ) (tableName : Name)
    (names : List SimpleName) (values : Option (List ScalarExpression))
    (options : List InsertStatementOption)
    (hdistinct : ∀ schema table u, analyzeTableName env tableName true (.initial resolution) =
      (some (some (schema, table)), u) → (table.columns.map Column.address).Nodup) :
    let insert := Ast.Statement.insertStatement tableName names
      (values.map .tableValueConstructor) options
    let written := process (env.preferring true) resolution insert
    let planned := process (env.preferring false) resolution insert
    (written.Accepted ↔ planned.Accepted) ∧
      (planned.Accepted → ∃ (p : InsertParts) (table : Table) (rows : List (List Scalar)),
        p.OfValues env tableName names values (.initial resolution) table rows ∧
          p.WrittenAlike rows written planned) := by
  intro insert written planned
  have haccepted (prefer : Bool) : (process (env.preferring prefer) resolution insert).Accepted ↔
      ∃ p t, insertParts env tableName names (values.map .tableValueConstructor) options
        (.initial resolution) = (some p, t) := by
    rw [AnalyzerResult.accepted_iff]
    constructor
    · rintro ⟨r, hr⟩
      obtain ⟨p, t, hp, -⟩ := (process_insert_iff ..).mp hr
      exact ⟨p, t, hp⟩
    · rintro ⟨p, t, hp⟩
      exact ⟨p.result prefer, (process_insert_iff ..).mpr ⟨p, t, hp, rfl⟩⟩
  refine ⟨(haccepted true).trans (haccepted false).symm, fun hplanned => ?_⟩
  obtain ⟨p, t, hp⟩ := (haccepted false).mp hplanned
  obtain ⟨table, rows, hvalues⟩ := insertParts_ofValues hdistinct hp
  have hresult (prefer : Bool) :
      process (env.preferring prefer) resolution insert = (p.result prefer).toResult :=
    (process_insert_iff ..).mpr ⟨p, t, hp, rfl⟩
  refine ⟨p, table, rows, hvalues, ?_⟩
  have halike := hvalues.writtenAlike
  rwa [← hresult true, ← hresult false] at halike

/-- `INSERT INTO t (k) VALUES (1)`, into a table of a key and a hidden column. -/
theorem SqlAnalyzer.process_insert_one :
    let env := Environment.ofSchema (.ofTables [keyedHiddenTable] [])
    let written := process (env.preferring true) [] (insertOne ⟨"k", .delimited⟩)
    let planned := process (env.preferring false) [] (insertOne ⟨"k", .delimited⟩)
    planned.Accepted ∧ ∃ (p : InsertParts) (rows : List (List Scalar)),
      p.WrittenAlike rows written planned := by
  intro env written planned
  have hdistinct : ∀ schema table u, analyzeTableName env (.simple ⟨"t", .delimited⟩) true
      (.initial []) = (some (some (schema, table)), u) →
        (table.columns.map Column.address).Nodup := by
    intro schema table u h
    have hfound : ∃ s u, analyzeTableName env (.simple ⟨"t", .delimited⟩) true (.initial []) =
        (some (some (s, keyedHiddenTable)), u) := ⟨_, _, rfl⟩
    obtain ⟨s, v, hfound⟩ := hfound
    rw [hfound] at h
    injection h with hsome
    injection hsome with hpair
    injection hpair with hpair
    obtain ⟨-, rfl⟩ := Prod.mk.inj hpair
    decide
  have haccepted : planned.Accepted := trivial
  obtain ⟨-, halike⟩ := process_insert_values [] (.simple ⟨"t", .delimited⟩)
    [⟨"k", .delimited⟩] (some [.valueConstructor .row
      [.literalExpression (.exactNumeric none ⟨[1], none⟩)]]) [] hdistinct
  obtain ⟨p, table, rows, -, h⟩ := halike haccepted
  exact ⟨haccepted, p, rows, h⟩

end Mizugaki.Analyzer
