import Mathlib.Data.List.Nodup
import Mizugaki.Declaration.Outcome
import Mizugaki.Reporting.Write

/-! Targets of INSERT and UPDATE. Both look a name up in a relation that holds every column of
the table, and reject a column that is written twice. INSERT asks in addition that the column is
exported; UPDATE does not. They agree on a name exactly when it denotes no hidden and no system
column that UPDATE takes. -/

namespace Mizugaki.Analyzer

open Mizugaki.Ast Mizugaki.Plan Mizugaki.Control

variable {ρ : Type} {env : Environment ρ}

/-! ### Looking up -/

/-- A column that name resolution exports. -/
def Column.exported (c : Column) : Bool := ! c.hidden && ! c.synthesized

/-- A relation finds the first column of a name. -/
theorem findByName_eq (info : RelationInfo) (identifier : String) :
    findByName info identifier = info.columns.find? fun c => c.identifier = some identifier := by
  have hhead : info.nameMap identifier =
      (info.columns.findIdx? fun c => c.identifier = some identifier).map .at_ :=
    (info.linked.head identifier).trans (congrArg _ (Data.Chain.firstFrom_zero ..))
  rw [findByName, hhead, List.find?_eq_bind_findIdx?_getElem?]
  cases info.columns.findIdx? fun c => c.identifier = some identifier <;> rfl

/-- The columns of a table to write: all of its columns, in order. -/
theorem extractTable_columns {name : Name} {aliasName : Option SimpleName} {s t : AnalyzerState ρ}
    {target : WriteTarget} (h : extractTable env name aliasName s = (some target, t)) :
    target.info.columns.map (fun c => (c.identifier, c.declaration, c.exported)) =
      target.table.columns.map fun c => (some c.simpleName, some c, Column.exported c) := by
  simp only [extractTable, Check.bind_yields] at h
  obtain ⟨found, u, -, h⟩ := h
  rcases found with _ | ⟨schema, table⟩
  · cases h
  · simp only [Check.bind_yields] at h
    obtain ⟨info, v, hinfo, h⟩ := h
    have hmap : info.columns.map (fun c => (c.identifier, c.declaration, c.exported)) =
        (includedColumns true table.columns).map
          fun c => (some c.simpleName, some c, Column.exported c) :=
      buildRelationInfo_map env (fun _ _ => rfl) (fun _ _ => rfl) hinfo
    rw [includedColumns_all] at hmap
    cases hi : info.primaryIndex with
    | none => simp [hi] at h
    | some index =>
      simp only [hi, Check.pure_yields] at h
      obtain ⟨rfl, rfl⟩ := h
      cases aliasName <;> exact hmap

/-- What a name finds in the relation of a table to write. -/
theorem extractTable_finds {name : Name} {aliasName : Option SimpleName} {s t : AnalyzerState ρ}
    {target : WriteTarget} (h : extractTable env name aliasName s = (some target, t))
    (identifier : String) :
    (findByName target.info identifier).map (fun c => (c.declaration, c.exported)) =
      (target.table.columns.find? fun c => c.simpleName = identifier).map
        fun c => (some c, Column.exported c) := by
  have hcolumns := extractTable_columns h
  have hfind := congrArg (List.find? fun c => c.1 = some identifier) hcolumns
  rw [List.find?_map, List.find?_map] at hfind
  have hpair := congrArg (Option.map Prod.snd) hfind
  rw [Option.map_map, Option.map_map] at hpair
  rw [findByName_eq]
  refine hpair.trans ?_
  congr 2
  funext c
  simp

/-- A name denotes a column of a table, exported or not: the first column of that name. -/
def DenotesColumn (env : Environment ρ) (table : Table) (name : SimpleName) (c : Column) : Prop :=
  table.columns.find? (fun c => c.simpleName = identifierOf env name .variable) = some c

/-- The columns that names denote. -/
def Denotes (env : Environment ρ) (table : Table) : List SimpleName → List Column → Prop :=
  List.Forall₂ (DenotesColumn env table)

theorem Denotes.unique {table : Table} {names : List SimpleName} {columns columns' : List Column}
    (h : Denotes env table names columns) (h' : Denotes env table names columns') :
    columns = columns' := by
  induction h generalizing columns' with
  | nil => exact (List.forall₂_nil_left_iff.mp h').symm
  | cons hc _ ih =>
    obtain ⟨c', rest, hc', hrest, rfl⟩ := List.forall₂_cons_left_iff.mp h'
    rw [ih hrest, Option.some.inj (hc.symm.trans hc')]

theorem Denotes.append {table : Table} {names names' : List SimpleName}
    {columns columns' : List Column} (h : Denotes env table names columns)
    (h' : Denotes env table names' columns') :
    Denotes env table (names ++ names') (columns ++ columns') :=
  List.rel_append h h'

/-- The names on both sides of one that denotes nothing denote nothing together. -/
theorem Denotes.mem {table : Table} {names : List SimpleName} {columns : List Column}
    (h : Denotes env table names columns) {name : SimpleName} (hname : name ∈ names) :
    ∃ c, DenotesColumn env table name c := by
  induction h with
  | nil => cases hname
  | cons hc _ ih =>
    rcases List.mem_cons.mp hname with rfl | hname
    · exact ⟨_, hc⟩
    · exact ih hname

/-! ### INSERT -/

/-- The targets of an INSERT statement are accepted as the columns that they denote, when these are
exported and differ. -/
theorem namedDestinations_yields {name : Name} {aliasName : Option SimpleName}
    {u v : AnalyzerState ρ} {target : WriteTarget}
    (htarget : extractTable env name aliasName u = (some target, v)) (saw : List Nat)
    (names : List SimpleName) (columns : List Column) (s t : AnalyzerState ρ) :
    namedDestinations env target saw names s = (some columns, t) ↔
      Denotes env target.table names columns ∧ (∀ c ∈ columns, Column.exported c) ∧
        (columns.map Column.address).Nodup ∧ (∀ c ∈ columns, c.address ∉ saw) ∧ s = t := by
  induction names generalizing saw columns t with
  | nil =>
    rw [namedDestinations, Check.pure_yields, Denotes, List.forall₂_nil_left_iff]
    constructor
    · rintro ⟨rfl, rfl⟩
      simp
    · rintro ⟨rfl, -, -, -, rfl⟩
      exact ⟨rfl, rfl⟩
  | cons n ns ih =>
    have hfinds := extractTable_finds htarget (identifierOf env n .variable)
    rw [namedDestinations, Denotes, List.forall₂_cons_left_iff]
    cases hfound : target.table.columns.find? fun c =>
        c.simpleName = identifierOf env n .variable with
    | none =>
      rw [hfound, Option.map_none, Option.map_eq_none_iff] at hfinds
      simp [hfinds, DenotesColumn, hfound]
    | some c =>
      rw [hfound, Option.map_some, Option.map_eq_some_iff] at hfinds
      obtain ⟨info, hinfo, hpair⟩ := hfinds
      obtain ⟨hdeclaration, hexported⟩ := Prod.mk.inj hpair
      have hlookup : ((findByName target.info (identifierOf env n .variable)).filter
          ColumnInfo.exported |>.bind ColumnInfo.declaration) =
            if Column.exported c then some c else none := by
        rw [hinfo, ← hexported]
        cases h : info.exported <;> simp [Option.filter, h, hdeclaration]
      rw [hlookup]
      by_cases hc : Column.exported c = true
      · rw [if_pos hc]
        dsimp only
        by_cases hsaw : c.address ∈ saw
        · rw [if_pos hsaw, reject_yields, false_iff]
          rintro ⟨⟨c', rest, hc', hrest, rfl⟩, -, -, hnot, -⟩
          obtain rfl := Option.some.inj (hfound.symm.trans hc')
          exact hnot c List.mem_cons_self hsaw
        · rw [if_neg hsaw, Check.bind_yields]
          simp only [ih, Check.pure_yields, List.mem_cons, not_or]
          constructor
          · rintro ⟨rest, u, ⟨hrest, hexp, hnodup, hnot, rfl⟩, rfl, rfl⟩
            refine ⟨⟨c, rest, hfound, hrest, rfl⟩, ?_, ?_, ?_, rfl⟩
            · intro x hx
              rcases List.mem_cons.mp hx with rfl | hx
              · exact hc
              · exact hexp x hx
            · rw [List.map_cons, List.nodup_cons]
              refine ⟨fun hmem => ?_, hnodup⟩
              obtain ⟨x, hx, heq⟩ := List.mem_map.mp hmem
              exact (hnot x hx).1 heq
            · intro x hx
              rcases List.mem_cons.mp hx with rfl | hx
              · exact hsaw
              · exact (hnot x hx).2
          · rintro ⟨⟨c', rest, hc', hrest, rfl⟩, hexp, hnodup, hnot, rfl⟩
            obtain rfl := Option.some.inj (hfound.symm.trans hc')
            rw [List.map_cons, List.nodup_cons] at hnodup
            refine ⟨rest, s, ⟨hrest, fun x hx => hexp x (List.mem_cons_of_mem _ hx), hnodup.2,
              fun x hx => ⟨fun heq => hnodup.1 ?_, hnot x (List.mem_cons_of_mem _ hx)⟩, rfl⟩,
              rfl, rfl⟩
            rw [← heq]
            exact List.mem_map_of_mem hx
      · rw [if_neg hc]
        dsimp only
        rw [reject_yields, false_iff]
        rintro ⟨⟨c', rest, hc', hrest, rfl⟩, hexp, -⟩
        obtain rfl := Option.some.inj (hfound.symm.trans hc')
        exact hc (hexp c List.mem_cons_self)

variable (env) in
/-- An INSERT statement, once the columns of its targets are known. -/
def insertInto (target : WriteTarget) (columns : List Column) (expression : QueryExpression)
    (options : List InsertStatementOption) : Analysis ρ StatementResult := do
  let source ← analyzeQueryExpression env expression
    (columns.map fun c => { type := some c.type })
  processInsertColumns env target columns options source.output source.relation.columns

theorem processInsertStatement_yields {tableName : Name} {names : List SimpleName}
    (hnames : names ≠ []) (expression : QueryExpression) (options : List InsertStatementOption)
    (s t : AnalyzerState ρ) (r : StatementResult) :
    processInsertStatement env tableName names (some expression) options s = (some r, t) ↔
      ∃ target u columns, extractTable env tableName none s = (some target, u) ∧
        Denotes env target.table names columns ∧ (∀ c ∈ columns, Column.exported c) ∧
          (columns.map Column.address).Nodup ∧
            insertInto env target columns expression options u = (some r, t) := by
  have hdestinations (target : WriteTarget) : destinationColumns env target names =
      namedDestinations env target [] names := by
    cases names with
    | nil => exact absurd rfl hnames
    | cons n ns => rfl
  unfold processInsertStatement insertInto
  rw [Check.bind_yields]
  constructor
  · rintro ⟨target, u, htarget, h⟩
    rw [hdestinations, Check.bind_yields] at h
    obtain ⟨columns, v, hcolumns, hrun⟩ := h
    obtain ⟨hdenotes, hexported, hnodup, -, rfl⟩ := (namedDestinations_yields htarget ..).mp hcolumns
    exact ⟨target, u, columns, htarget, hdenotes, hexported, hnodup, hrun⟩
  · rintro ⟨target, u, columns, htarget, hdenotes, hexported, hnodup, hrun⟩
    refine ⟨target, u, htarget, ?_⟩
    rw [hdestinations, Check.bind_yields]
    exact ⟨columns, u, (namedDestinations_yields htarget ..).mpr
      ⟨hdenotes, hexported, hnodup, fun c _ => List.not_mem_nil, rfl⟩, hrun⟩

/-! ### UPDATE -/

variable (env) in
/-- The elements of `UPDATE SET` with the columns of their targets. -/
def processSetValues : List (SetElement × Column) → Analysis ρ (List (Variable × Scalar × Column))
  | [] => return []
  | (element, column) :: rest => do
    let v ← streamVariable
    let (value, _) ← analyzeScalarExpression (scalar env element.value)
      (.scalar { type := some column.type })
    let rest ← processSetValues rest
    return (v, value, column) :: rest

/-- The target of an element is accepted as the column that it denotes, when this is new. -/
theorem updateTarget_yields {name : Name} {aliasName : Option SimpleName} {u v : AnalyzerState ρ}
    {target : WriteTarget} (htarget : extractTable env name aliasName u = (some target, v))
    (saw : List Nat) (n : SimpleName) (c : Column) (s t : AnalyzerState ρ) :
    updateTarget env target saw (.simple n) s = (some c, t) ↔
      DenotesColumn env target.table n c ∧ c.address ∉ saw ∧ s = t := by
  have hfinds := extractTable_finds htarget (identifierOf env n .variable)
  have hlookup : (findByName target.info (identifierOf env n .variable)).bind
      ColumnInfo.declaration =
        target.table.columns.find? fun c => c.simpleName = identifierOf env n .variable := by
    cases hfound : target.table.columns.find? fun c =>
        c.simpleName = identifierOf env n .variable with
    | none =>
      rw [hfound, Option.map_none, Option.map_eq_none_iff] at hfinds
      rw [hfinds, Option.bind_none]
    | some c =>
      rw [hfound, Option.map_some, Option.map_eq_some_iff] at hfinds
      obtain ⟨info, hinfo, hpair⟩ := hfinds
      rw [hinfo, Option.bind_some]
      exact (Prod.mk.inj hpair).1
  rw [updateTarget, hlookup, DenotesColumn]
  cases target.table.columns.find? fun c => c.simpleName = identifierOf env n .variable with
  | none => simp
  | some c' =>
    dsimp only
    by_cases hsaw : c'.address ∈ saw
    · rw [if_pos hsaw, reject_yields, false_iff, Option.some.injEq]
      rintro ⟨rfl, hnot, -⟩
      exact hnot hsaw
    · rw [if_neg hsaw, Check.pure_yields, Option.some.injEq]
      constructor
      · rintro ⟨rfl, rfl⟩
        exact ⟨rfl, hsaw, rfl⟩
      · rintro ⟨rfl, -, rfl⟩
        exact ⟨rfl, rfl⟩

theorem processSetElements_yields {name : Name} {aliasName : Option SimpleName}
    {u v : AnalyzerState ρ} {target : WriteTarget}
    (htarget : extractTable env name aliasName u = (some target, v)) {names : List SimpleName}
    {elements : List SetElement} (hnames : elements.map SetElement.target = names.map Name.simple)
    (saw : List Nat) (writes : List (Variable × Scalar × Column)) (s t : AnalyzerState ρ) :
    processSetElements env target saw elements s = (some writes, t) ↔
      ∃ columns, Denotes env target.table names columns ∧ (columns.map Column.address).Nodup ∧
        (∀ c ∈ columns, c.address ∉ saw) ∧
          processSetValues env (elements.zip columns) s = (some writes, t) := by
  induction names generalizing elements saw writes s t with
  | nil =>
    obtain rfl := List.map_eq_nil_iff.mp hnames
    simp only [processSetElements, Denotes, List.forall₂_nil_left_iff]
    constructor
    · intro h
      exact ⟨[], rfl, List.nodup_nil, by simp, h⟩
    · rintro ⟨_, rfl, -, -, h⟩
      exact h
  | cons n ns ih =>
    obtain ⟨element, elements', rfl, hn, hns⟩ := List.map_eq_cons_iff.mp hnames
    have hrest := ih hns
    rw [processSetElements, hn]
    simp only [Check.bind_yields, updateTarget_yields htarget, hrest, Check.pure_yields]
    constructor
    · rintro ⟨c, _, ⟨hc, hsaw, rfl⟩, x, w, hx, value, w', hvalue, tail, w'',
        ⟨columns, hdenotes, hnodup, hnot, hvalues⟩, rfl, rfl⟩
      refine ⟨c :: columns, .cons hc hdenotes, ?_, ?_, ?_⟩
      · rw [List.map_cons, List.nodup_cons]
        refine ⟨fun hmem => ?_, hnodup⟩
        obtain ⟨y, hy, heq⟩ := List.mem_map.mp hmem
        exact hnot y hy (heq ▸ List.mem_cons_self)
      · intro y hy
        rcases List.mem_cons.mp hy with rfl | hy
        · exact hsaw
        · exact fun h => hnot y hy (List.mem_cons_of_mem _ h)
      · simp only [List.zip_cons_cons, processSetValues, Check.bind_yields]
        exact ⟨x, w, hx, value, w', hvalue, tail, w'', hvalues, rfl⟩
    · rintro ⟨columns, hdenotes, hnodup, hnot, hvalues⟩
      obtain ⟨c, rest, hc, htail, rfl⟩ := List.forall₂_cons_left_iff.mp hdenotes
      rw [List.map_cons, List.nodup_cons] at hnodup
      simp only [List.zip_cons_cons, processSetValues, Check.bind_yields, Check.pure_yields]
        at hvalues
      obtain ⟨x, w, hx, value, w', hvalue, tail, w'', hvalues, rfl, rfl⟩ := hvalues
      refine ⟨c, s, ⟨hc, hnot c List.mem_cons_self, rfl⟩, x, w, hx, value, w', hvalue, tail, w'',
        ⟨rest, htail, hnodup.2, fun y hy hmem => ?_, hvalues⟩, rfl, rfl⟩
      rcases List.mem_cons.mp hmem with heq | hmem
      · exact hnodup.1 (heq ▸ List.mem_map_of_mem hy)
      · exact hnot y (List.mem_cons_of_mem _ hy) hmem

variable (env) in
/-- An UPDATE statement, once the columns of its targets are known. -/
def updateColumns (target : WriteTarget) (elements : List SetElement) (columns : List Column)
    (where_ : Option ScalarExpression) : Analysis ρ StatementResult := do
  let (graph, _) ← withScope (QueryScope.empty.add target.info) do
    let source ← scanAndFilter env target where_
    let keys ← buildWriteKeys target
    let writes ← processSetValues env (elements.zip columns)
    return Graph.unary (.write .update target.index keys (writes.map fun w => (w.1, w.2.2)))
      (.unary (.project (writes.map fun w => (w.1, w.2.1))) source)
  return .plan graph

theorem processUpdateStatement_yields {tableName : Name} {aliasName : Option SimpleName}
    {names : List SimpleName} (hne : names ≠ []) {elements : List SetElement}
    (hnames : elements.map SetElement.target = names.map Name.simple)
    (where_ : Option ScalarExpression) (s t : AnalyzerState ρ) (r : StatementResult) :
    processUpdateStatement env tableName aliasName elements where_ s = (some r, t) ↔
      ∃ target u columns, extractTable env tableName aliasName s = (some target, u) ∧
        Denotes env target.table names columns ∧ (columns.map Column.address).Nodup ∧
          updateColumns env target elements columns where_ u = (some r, t) := by
  cases elements with
  | nil => exact absurd (List.map_eq_nil_iff.mp hnames.symm) hne
  | cons element elements =>
    unfold processUpdateStatement
    simp only [updateColumns, Check.bind_yields]
    constructor
    · rintro ⟨target, u, htarget, ⟨graph, left⟩, v, hscope, hr⟩
      obtain ⟨w, hrun, rfl, rfl⟩ := (withScope_yields ..).mp hscope
      simp only [Check.bind_yields] at hrun
      obtain ⟨source, x, hsource, keys, y, hkeys, writes, z, hwrites, hgraph⟩ := hrun
      obtain ⟨columns, hdenotes, hnodup, -, hvalues⟩ :=
        (processSetElements_yields htarget hnames ..).mp hwrites
      refine ⟨target, u, columns, htarget, hdenotes, hnodup, (graph, w.scope), w.leave,
        (withScope_yields ..).mpr ⟨w, ?_, rfl, rfl⟩, hr⟩
      simp only [Check.bind_yields]
      exact ⟨source, x, hsource, keys, y, hkeys, writes, z, hvalues, hgraph⟩
    · rintro ⟨target, u, columns, htarget, hdenotes, hnodup, ⟨graph, left⟩, v, hscope, hr⟩
      obtain ⟨w, hrun, rfl, rfl⟩ := (withScope_yields ..).mp hscope
      simp only [Check.bind_yields] at hrun
      obtain ⟨source, x, hsource, keys, y, hkeys, writes, z, hvalues, hgraph⟩ := hrun
      refine ⟨target, u, htarget, (graph, w.scope), w.leave,
        (withScope_yields ..).mpr ⟨w, ?_, rfl, rfl⟩, hr⟩
      simp only [Check.bind_yields]
      exact ⟨source, x, hsource, keys, y, hkeys, writes, z,
        (processSetElements_yields htarget hnames ..).mpr
          ⟨columns, hdenotes, hnodup, fun c _ => List.not_mem_nil, hvalues⟩, hgraph⟩

/-! ### The columns that a statement assigns -/

/-- The columns that a result assigns: the keys of an update only select rows. -/
def AnalyzerResult.assigned : AnalyzerResult → List Column
  | .executionPlan (.unary (.write kind _ keys values) _) =>
    match kind with
    | .update => values.map Prod.snd
    | .delete => []
    | _ => (keys ++ values).map Prod.snd
  | .statement (.write _ _ columns _) => columns
  | _ => []

theorem splitTuples_perm {α : Type} (positions : List Nat) (tuples : List α) :
    List.Perm ((splitTuples positions tuples).1 ++ (splitTuples positions tuples).2) tuples := by
  have hsplit := (List.filter_append_perm (fun t => decide (t.2 ∈ positions)) tuples.zipIdx).map
    Prod.fst
  rw [List.map_append, List.zipIdx_map_fst] at hsplit
  rw [splitTuples, List.partition_eq_filter_filter]
  exact hsplit

/-- An INSERT statement writes one of its kinds. -/
theorem computeWriteType_kind {kind result : WriteKind} {saw : Bool}
    {options : List InsertStatementOption} {s t : AnalyzerState ρ}
    (h : computeWriteType kind saw options s = (some result, t))
    (hkind : kind ≠ .update ∧ kind ≠ .delete) : result ≠ .update ∧ result ≠ .delete := by
  induction options generalizing kind saw s with
  | nil =>
    obtain ⟨rfl, rfl⟩ := (Check.pure_yields ..).mp h
    exact hkind
  | cons o os ih =>
    cases o with
    | orIgnore =>
      have hnext : WriteKind.insertSkip ≠ .update ∧ WriteKind.insertSkip ≠ .delete := by decide
      cases saw with
      | true => exact ih h hnext
      | false => exact ih h hnext
    | orReplace =>
      have hnext : WriteKind.insertOverwrite ≠ .update ∧ WriteKind.insertOverwrite ≠ .delete := by
        decide
      cases saw with
      | true => exact ih h hnext
      | false => exact ih h hnext

theorem insertInto_assigned {target : WriteTarget} {columns : List Column}
    {expression : QueryExpression} {options : List InsertStatementOption} {s t : AnalyzerState ρ}
    {r : StatementResult} (h : insertInto env target columns expression options s = (some r, t)) :
    List.Perm r.toResult.assigned columns := by
  unfold insertInto at h
  rw [Check.bind_yields] at h
  obtain ⟨source, u, -, h⟩ := h
  unfold processInsertColumns at h
  by_cases hlength : source.relation.columns.length = columns.length
  · rw [if_neg (not_not.mpr hlength), Check.bind_yields] at h
    obtain ⟨kind, v, hkind, h⟩ := h
    have hne := computeWriteType_kind hkind (by decide)
    let tuples := (source.relation.columns.map ColumnInfo.variable_).zip columns
    let split := splitTuples (keyPositions target.index columns) tuples
    have hplan : (AnalyzerResult.executionPlan
        (.unary (.write kind target.index split.1 split.2) source.output)).assigned =
          (split.1 ++ split.2).map Prod.snd := by
      cases kind <;> first | rfl | exact absurd rfl hne.1 | exact absurd rfl hne.2
    have hperm : List.Perm ((split.1 ++ split.2).map Prod.snd) columns := by
      have hsnd : tuples.map Prod.snd = columns := by
        refine List.map_snd_zip ?_
        rw [List.length_map, hlength]
      have hmap := (splitTuples_perm (keyPositions target.index columns) tuples).map Prod.snd
      rwa [hsnd] at hmap
    have hgraph : List.Perm (AnalyzerResult.executionPlan
        (.unary (.write kind target.index split.1 split.2) source.output)).assigned columns := by
      rw [hplan]
      exact hperm
    cases hprefer : env.options.preferWriteStatement with
    | false =>
      simp only [hprefer, Bool.false_eq_true, if_false, Check.pure_yields] at h
      rw [← h.1]
      exact hgraph
    | true =>
      cases hrows : simpleValues source.output.owner with
      | none =>
        simp only [hprefer, hrows, if_true, Check.pure_yields] at h
        rw [← h.1]
        exact hgraph
      | some rows =>
        simp only [hprefer, hrows, if_true, Check.pure_yields] at h
        rw [← h.1]
        exact .refl _
  · rw [if_pos hlength, reject_yields] at h
    exact h.elim

theorem processSetValues_columns {pairs : List (SetElement × Column)}
    {writes : List (Variable × Scalar × Column)} {s t : AnalyzerState ρ}
    (h : processSetValues env pairs s = (some writes, t)) :
    writes.map (fun w => w.2.2) = pairs.map Prod.snd := by
  induction pairs generalizing writes s t with
  | nil =>
    obtain ⟨rfl, rfl⟩ := (Check.pure_yields ..).mp h
    rfl
  | cons pair rest ih =>
    simp only [processSetValues, Check.bind_yields, Check.pure_yields] at h
    obtain ⟨v, u, -, value, w, -, tail, x, hrest, rfl, rfl⟩ := h
    rw [List.map_cons, List.map_cons, ih hrest]

theorem updateColumns_assigned {target : WriteTarget} {elements : List SetElement}
    {columns : List Column} (hlength : columns.length = elements.length)
    {where_ : Option ScalarExpression} {s t : AnalyzerState ρ} {r : StatementResult}
    (h : updateColumns env target elements columns where_ s = (some r, t)) :
    r.toResult.assigned = columns := by
  unfold updateColumns at h
  simp only [Check.bind_yields, Check.pure_yields] at h
  obtain ⟨⟨graph, left⟩, u, hscope, rfl, rfl⟩ := h
  obtain ⟨v, hrun, -, -⟩ := (withScope_yields ..).mp hscope
  simp only [Check.bind_yields, Check.pure_yields] at hrun
  obtain ⟨source, x, -, keys, y, -, writes, z, hwrites, rfl, -⟩ := hrun
  have hcolumns := processSetValues_columns hwrites
  rw [List.map_snd_zip hlength.le] at hcolumns
  have hassigned : (StatementResult.plan (Graph.unary (.write .update target.index keys
      (writes.map fun w => (w.1, w.2.2)))
        (.unary (.project (writes.map fun w => (w.1, w.2.1))) source))).toResult.assigned =
          (writes.map fun w => (w.1, w.2.2)).map Prod.snd := rfl
  rw [hassigned, List.map_map]
  exact hcolumns

/-! ### Agreement -/

/-- An INSERT and an UPDATE of the same targets agree: both are accepted or none is, they assign
the same columns, and these are exported. -/
structure TargetsAgree (insert update : AnalyzerResult) : Prop where
  accepted : insert.Accepted ↔ update.Accepted
  assigned : List.Perm insert.assigned update.assigned
  exported : ∀ c ∈ insert.assigned ++ update.assigned, Column.exported c

/-- What is not accepted assigns nothing. -/
theorem AnalyzerResult.assigned_of_not_accepted {result : AnalyzerResult} (h : ¬ result.Accepted) :
    result.assigned = [] := by
  cases result with
  | erroneous diagnostics => rfl
  | executionPlan graph => exact absurd trivial h
  | statement statement => exact absurd trivial h

/-- Neither is accepted. -/
theorem TargetsAgree.of_not_accepted {insert update : AnalyzerResult} (hinsert : ¬ insert.Accepted)
    (hupdate : ¬ update.Accepted) : TargetsAgree insert update := by
  have hassigned := AnalyzerResult.assigned_of_not_accepted hinsert
  have hassigned' := AnalyzerResult.assigned_of_not_accepted hupdate
  refine ⟨iff_of_false hinsert hupdate, ?_, fun x hx => ?_⟩
  · rw [hassigned, hassigned']
  · rw [hassigned, hassigned'] at hx
    cases hx

/-- Both are accepted, and the columns that they assign are exported. -/
theorem TargetsAgree.of_assigned {insert update : StatementResult} {columns : List Column}
    (hinsert : List.Perm insert.toResult.assigned columns)
    (hupdate : update.toResult.assigned = columns) (hexported : ∀ c ∈ columns, Column.exported c) :
    TargetsAgree insert.toResult update.toResult := by
  refine ⟨iff_of_true insert.toResult_accepted update.toResult_accepted, ?_, fun c hc => ?_⟩
  · rwa [hupdate]
  · rcases List.mem_append.mp hc with hc | hc
    · exact hexported c (hinsert.mem_iff.mp hc)
    · exact hexported c (hupdate ▸ hc)

variable {resolution : ρ} {tableName : Name} {aliasName : Option SimpleName} {table : Table}
variable {schema : Schema} {u : AnalyzerState ρ} {pre post : List SimpleName} {n : SimpleName}
variable {before after : List Column} {expression : QueryExpression}
variable {options : List InsertStatementOption} {elements : List SetElement}
variable {where_ : Option ScalarExpression}

theorem extractTable_table (htable : analyzeTableName env tableName true (.initial resolution) =
      (some (some (schema, table)), u)) {target : WriteTarget} {s : AnalyzerState ρ}
    (h : extractTable env tableName aliasName (.initial resolution) = (some target, s)) :
    target.table = table := by
  obtain ⟨-, schema', v, hfound⟩ := extractTable_yields h
  rw [hfound] at htable
  injection htable with hsome
  injection hsome with hpair
  injection hpair with hpair
  exact (Prod.mk.inj hpair).2

/-- Names with one more among them denote the columns of the others with one more among them. -/
theorem Denotes.insert_iff (hbefore : Denotes env table pre before)
    (hafter : Denotes env table post after) {columns : List Column} :
    Denotes env table (pre ++ n :: post) columns ↔
      ∃ c, DenotesColumn env table n c ∧ columns = before ++ c :: after := by
  constructor
  · intro h
    obtain ⟨c, hc⟩ := h.mem (List.mem_append_right _ List.mem_cons_self)
    exact ⟨c, hc, h.unique (hbefore.append (.cons hc hafter))⟩
  · rintro ⟨c, hc, rfl⟩
    exact hbefore.append (.cons hc hafter)

theorem nodup_address_insert (hnodup : ((before ++ after).map Column.address).Nodup) (c : Column) :
    ((before ++ c :: after).map Column.address).Nodup ↔
      c.address ∉ (before ++ after).map Column.address := by
  rw [List.map_append, List.map_cons, List.nodup_middle, List.nodup_cons, ← List.map_append]
  exact and_iff_left hnodup

theorem exported_insert (hothers : ∀ c ∈ before ++ after, Column.exported c) {c : Column}
    (hc : Column.exported c) : ∀ x ∈ before ++ c :: after, Column.exported x :=
  List.forall_mem_append.mpr ⟨fun x hx => hothers x (List.mem_append_left _ hx),
    List.forall_mem_cons.mpr ⟨hc, fun x hx => hothers x (List.mem_append_right _ hx)⟩⟩

namespace SqlAnalyzer

/-- When the analyzer accepts an INSERT of which all targets but one are accepted. -/
theorem process_insertStatement_iff
    (htable : analyzeTableName env tableName true (.initial resolution) =
      (some (some (schema, table)), u))
    (hbefore : Denotes env table pre before) (hafter : Denotes env table post after)
    (hothers : ∀ c ∈ before ++ after, Column.exported c)
    (hnodup : ((before ++ after).map Column.address).Nodup) (r : StatementResult) :
    process env resolution (.insertStatement tableName (pre ++ n :: post) (some expression) options) =
        r.toResult ↔
      ∃ c, DenotesColumn env table n c ∧ Column.exported c ∧
        c.address ∉ (before ++ after).map Column.address ∧
          ∃ target s t, extractTable env tableName none (.initial resolution) = (some target, s) ∧
            insertInto env target (before ++ c :: after) expression options s = (some r, t) := by
  have hne : pre ++ n :: post ≠ [] := List.append_ne_nil_of_right_ne_nil _ (List.cons_ne_nil _ _)
  rw [process_eq_iff]
  simp only [analyzeStatement, processInsertStatement_yields hne]
  constructor
  · rintro ⟨t, target, s, columns, htarget, hdenotes, hexported, hnot, hrun⟩
    obtain rfl := extractTable_table htable htarget
    obtain ⟨c, hc, rfl⟩ := (hbefore.insert_iff hafter).mp hdenotes
    exact ⟨c, hc, hexported c (List.mem_append_right _ List.mem_cons_self),
      (nodup_address_insert hnodup c).mp hnot, target, s, t, htarget, hrun⟩
  · rintro ⟨c, hc, hexported, hnot, target, s, t, htarget, hrun⟩
    obtain rfl := extractTable_table htable htarget
    exact ⟨t, target, s, _, htarget, (hbefore.insert_iff hafter).mpr ⟨c, hc, rfl⟩,
      exported_insert hothers hexported, (nodup_address_insert hnodup c).mpr hnot, hrun⟩

/-- When the analyzer accepts an UPDATE of which all targets but one are accepted. -/
theorem process_updateStatement_iff
    (htable : analyzeTableName env tableName true (.initial resolution) =
      (some (some (schema, table)), u))
    (hbefore : Denotes env table pre before) (hafter : Denotes env table post after)
    (hnodup : ((before ++ after).map Column.address).Nodup)
    (hnames : elements.map SetElement.target = (pre ++ n :: post).map Name.simple)
    (r : StatementResult) :
    process env resolution (.updateStatement tableName aliasName elements where_) = r.toResult ↔
      ∃ c, DenotesColumn env table n c ∧ c.address ∉ (before ++ after).map Column.address ∧
        ∃ target s t, extractTable env tableName aliasName (.initial resolution) =
            (some target, s) ∧
          updateColumns env target elements (before ++ c :: after) where_ s = (some r, t) := by
  have hne : pre ++ n :: post ≠ [] := List.append_ne_nil_of_right_ne_nil _ (List.cons_ne_nil _ _)
  rw [process_eq_iff]
  simp only [analyzeStatement, processUpdateStatement_yields hne hnames]
  constructor
  · rintro ⟨t, target, s, columns, htarget, hdenotes, hnot, hrun⟩
    obtain rfl := extractTable_table htable htarget
    obtain ⟨c, hc, rfl⟩ := (hbefore.insert_iff hafter).mp hdenotes
    exact ⟨c, hc, (nodup_address_insert hnodup c).mp hnot, target, s, t, htarget, hrun⟩
  · rintro ⟨c, hc, hnot, target, s, t, htarget, hrun⟩
    obtain rfl := extractTable_table htable htarget
    exact ⟨t, target, s, _, htarget, (hbefore.insert_iff hafter).mpr ⟨c, hc, rfl⟩,
      (nodup_address_insert hnodup c).mpr hnot, hrun⟩

/-- An UPDATE assigns the columns that its targets denote. -/
theorem updateStatement_assigned (hbefore : Denotes env table pre before)
    (hafter : Denotes env table post after)
    (hnames : elements.map SetElement.target = (pre ++ n :: post).map Name.simple) {c : Column}
    (hc : DenotesColumn env table n c) {target : WriteTarget} {s t : AnalyzerState ρ}
    {r : StatementResult}
    (hrun : updateColumns env target elements (before ++ c :: after) where_ s = (some r, t)) :
    r.toResult.assigned = before ++ c :: after := by
  have hlength := congrArg List.length hnames
  rw [List.length_map, List.length_map] at hlength
  refine updateColumns_assigned ?_ hrun
  rw [hlength, (hbefore.append (.cons hc hafter)).length_eq]

/-- For the targets of an INSERT and of an UPDATE of a table, of which all but one are accepted by
both, and with no other error in the two statements: they agree exactly when the column that the
remaining target denotes, if any, is exported, or is the column of another target. -/
theorem process_target_iff
    (htable : analyzeTableName env tableName true (.initial resolution) =
      (some (some (schema, table)), u))
    (hbefore : Denotes env table pre before) (hafter : Denotes env table post after)
    (hothers : ∀ c ∈ before ++ after, Column.exported c)
    (hnodup : ((before ++ after).map Column.address).Nodup)
    (hnames : elements.map SetElement.target = (pre ++ n :: post).map Name.simple)
    (hinsert : ∀ c, DenotesColumn env table n c → ∃ target s r t,
      extractTable env tableName none (.initial resolution) = (some target, s) ∧
        insertInto env target (before ++ c :: after) expression options s = (some r, t))
    (hupdate : ∀ c, DenotesColumn env table n c → ∃ target s r t,
      extractTable env tableName aliasName (.initial resolution) = (some target, s) ∧
        updateColumns env target elements (before ++ c :: after) where_ s = (some r, t)) :
    TargetsAgree
        (process env resolution
          (.insertStatement tableName (pre ++ n :: post) (some expression) options))
        (process env resolution (.updateStatement tableName aliasName elements where_)) ↔
      ∀ c, DenotesColumn env table n c →
        Column.exported c ∨ c.address ∈ (before ++ after).map Column.address := by
  constructor
  · intro hagree c hc
    by_contra hcontra
    obtain ⟨hhidden, hnot⟩ := not_or.mp hcontra
    obtain ⟨target, s, r, t, htarget, hrun⟩ := hupdate c hc
    refine hhidden (hagree.exported c (List.mem_append_right _ ?_))
    rw [(process_updateStatement_iff htable hbefore hafter hnodup hnames r).mpr
      ⟨c, hc, hnot, target, s, t, htarget, hrun⟩,
      updateStatement_assigned hbefore hafter hnames hc hrun]
    exact List.mem_append_right _ List.mem_cons_self
  · intro hcondition
    by_cases hnew : ∃ c, DenotesColumn env table n c ∧
        c.address ∉ (before ++ after).map Column.address
    · obtain ⟨c, hc, hnot⟩ := hnew
      have hexported := (hcondition c hc).resolve_right hnot
      obtain ⟨target, s, r, t, htarget, hinto⟩ := hinsert c hc
      obtain ⟨target', s', r', t', htarget', hrun⟩ := hupdate c hc
      rw [(process_insertStatement_iff htable hbefore hafter hothers hnodup r).mpr
          ⟨c, hc, hexported, hnot, target, s, t, htarget, hinto⟩,
        (process_updateStatement_iff htable hbefore hafter hnodup hnames r').mpr
          ⟨c, hc, hnot, target', s', t', htarget', hrun⟩]
      exact .of_assigned (insertInto_assigned hinto)
        (updateStatement_assigned hbefore hafter hnames hc hrun) (exported_insert hothers hexported)
    · -- neither statement has a result
      refine .of_not_accepted ?_ ?_
      · rw [AnalyzerResult.accepted_iff]
        rintro ⟨r, hr⟩
        obtain ⟨c, hc, -, hnot, -⟩ :=
          (process_insertStatement_iff htable hbefore hafter hothers hnodup r).mp hr
        exact hnew ⟨c, hc, hnot⟩
      · rw [AnalyzerResult.accepted_iff]
        rintro ⟨r, hr⟩
        obtain ⟨c, hc, hnot, -⟩ :=
          (process_updateStatement_iff htable hbefore hafter hnodup hnames r).mp hr
        exact hnew ⟨c, hc, hnot⟩

end SqlAnalyzer

/-- A table of a key and a hidden column. -/
def keyedHiddenTable : Table :=
  let key : Column := { address := 1, simpleName := "k", type := .int8 }
  { address := 0
    simpleName := "t"
    columns := [key, { address := 2, simpleName := "h", type := .int8, hidden := true }]
    primaryIndex := some
      { address := 3, tableAddress := 0, tableName := "t", simpleName := "",
        keys := [(key, .ascendant)], primary := true } }

/-- `INSERT INTO t (n) VALUES (1)`. -/
def insertOne (n : SimpleName) : Ast.Statement :=
  .insertStatement (.simple ⟨"t", .delimited⟩) [n]
    (some (.tableValueConstructor
      [.valueConstructor .row [.literalExpression (.exactNumeric none (.ofDigits [1]))]])) []

/-- `UPDATE t SET n = 1`. -/
def updateOne (n : SimpleName) : Ast.Statement :=
  .updateStatement (.simple ⟨"t", .delimited⟩) none
    [⟨.simple n, .literalExpression (.exactNumeric none (.ofDigits [1]))⟩] none

/-- INSERT rejects the hidden column as a target, UPDATE assigns it. -/
theorem SqlAnalyzer.update_assigns_hidden :
    let env := Environment.ofSchema (.ofTables [keyedHiddenTable] [])
    let h : SimpleName := ⟨"h", .delimited⟩
    ¬ TargetsAgree (process env [] (insertOne h)) (process env [] (updateOne h)) := by
  intro env h hagree
  have hinsert : ¬ (process env [] (insertOne h)).Accepted := id
  have hupdate : (process env [] (updateOne h)).Accepted := trivial
  exact hinsert (hagree.accepted.mpr hupdate)

/-- INSERT and UPDATE agree on the key. -/
theorem SqlAnalyzer.process_target_key :
    let env := Environment.ofSchema (.ofTables [keyedHiddenTable] [])
    let k : SimpleName := ⟨"k", .delimited⟩
    TargetsAgree (process env [] (insertOne k)) (process env [] (updateOne k)) := by
  intro env k
  let key : Column := { address := 1, simpleName := "k", type := .int8 }
  have hkey {c : Column} (hc : DenotesColumn env keyedHiddenTable k c) : key = c :=
    Option.some.inj hc
  have htable : ∃ schema u, analyzeTableName env (.simple ⟨"t", .delimited⟩) true (.initial []) =
      (some (some (schema, keyedHiddenTable)), u) := ⟨_, _, rfl⟩
  obtain ⟨schema, u, htable⟩ := htable
  refine (process_target_iff htable .nil .nil (by simp) List.nodup_nil rfl
    (fun c hc => ?_) fun c hc => ?_).mpr fun c hc => ?_
  · obtain rfl := hkey hc
    exact ⟨_, _, _, _, rfl, rfl⟩
  · obtain rfl := hkey hc
    exact ⟨_, _, _, _, rfl, rfl⟩
  · obtain rfl := hkey hc
    exact .inl rfl

end Mizugaki.Analyzer
