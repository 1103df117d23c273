import Mizugaki.Analyzer.Write
import Mizugaki.Reporting.Engine

/-! Reports of statements that write. Besides the reports of its expressions such a statement
has two kinds of reports after which its analysis goes on: for every insert option beyond the
first, and for a primary index whose keys cannot be written. -/

namespace Mizugaki.Analyzer

open Mizugaki.Ast Mizugaki.Plan Mizugaki.Control Mizugaki.Data.Chain Mizugaki.Data.UniqueMap

variable {ρ : Type} {env : Environment ρ} {n k : Nat}

/-! ### Write targets -/

/-- The declarations of the columns of a relation are indexed by their addresses. -/
def RelationInfo.Declared (r : RelationInfo) : Prop :=
  Indexes (fun a => a) (r.columns.map fun c => c.declaration.map Column.address) r.declarationMap

theorem RelationInfo.declared_empty (declaration : Option Relation) (identifier : String) :
    (RelationInfo.empty declaration identifier).Declared :=
  indexes_nil

theorem RelationInfo.Declared.add {r : RelationInfo} (h : r.Declared) (info : ColumnInfo) :
    (r.add info).Declared := by
  have hcolumns := add_map (f := fun c => c.declaration.map Column.address) (fun _ _ => rfl) r info
  have hentered := Indexes.enterKey h (info.declaration.map Column.address)
  rw [Declared, hcolumns]
  rw [List.length_map] at hentered
  exact hentered

theorem RelationInfo.Declared.addAll {r : RelationInfo} (h : r.Declared)
    (infos : List ColumnInfo) : (r.addAll infos).Declared := by
  induction infos generalizing r with
  | nil => exact h
  | cons info infos ih => exact ih (h.add info)

/-- A column is found by its declaration when one column of the relation has it. -/
theorem findByDeclaration_isSome {r : RelationInfo} (h : r.Declared) (column : Column) :
    (findByDeclaration r column).isSome ↔
      ((r.columns.map fun c => c.declaration.map Column.address).filter
        fun a => a = some column.address).length = 1 := by
  have hlookup := h.lookup column.address
  unfold findByDeclaration RelationInfo.findDeclaration
  rcases hd : r.declarationMap column.address with _ | p
  · rw [hd] at hlookup
    simp [hlookup]
  · rw [hd] at hlookup
    cases p with
    | at_ i =>
      obtain ⟨a, ha, hfilter⟩ := hlookup
      have hi := (List.getElem?_eq_some_iff.mp ha).1
      rw [List.length_map] at hi
      rw [hfilter]
      simp [hi]
    | ambiguous =>
      dsimp only at hlookup ⊢
      simp only [Option.isSome_none, Bool.false_eq_true, false_iff]
      omega

/-- Every key of the primary index can be written: it is one column of the table. -/
def Table.keysWritable (table : Table) (index : Index) : Bool :=
  ! index.keys.isEmpty &&
    index.keys.all fun k => (table.columns.filter fun c => c.address = k.1.address).length = 1

/-- What `extract_table` found: the table of the name, its primary index and all its columns. -/
structure WriteTarget.Extracted (target : WriteTarget) : Prop where
  index : target.table.primaryIndex = some target.index
  declared : target.info.Declared
  columns : target.info.columns.map (fun c => c.declaration.map Column.address)
    = target.table.columns.map fun c => some c.address

theorem extractTable_yields {name : Name} {aliasName : Option SimpleName} {s t : AnalyzerState ρ}
    {target : WriteTarget} (h : extractTable env name aliasName s = (some target, t)) :
    target.Extracted ∧
      ∃ schema u, analyzeTableName env name true s = (some (some (schema, target.table)), u) := by
  simp only [extractTable, Check.bind_yields] at h
  obtain ⟨found, u, hfound, h⟩ := h
  rcases found with _ | ⟨schema, table⟩
  · cases h
  · simp only [Check.bind_yields] at h
    obtain ⟨info, v, hinfo, h⟩ := h
    have hdeclaration := buildRelationInfo_declaration env hinfo
    rcases hi : info.primaryIndex with _ | index
    · rw [hi] at h
      cases h
    · simp only [hi, Check.pure_yields] at h
      obtain ⟨rfl, rfl⟩ := h
      have hindex : table.primaryIndex = some index := by
        rw [RelationInfo.primaryIndex, hdeclaration] at hi
        exact hi
      have hdeclared : info.Declared := by
        obtain ⟨rfl, -⟩ := buildColumns_escaped env hinfo
        exact (RelationInfo.declared_empty _ _).addAll _
      have hcolumns := buildRelationInfo_map env
        (f := fun c => c.declaration.map Column.address) (g := fun c => some c.address)
        (fun _ _ => rfl) (fun _ _ => rfl) hinfo
      rw [includedColumns_all] at hcolumns
      refine ⟨⟨hindex, ?_, ?_⟩, schema, u, hfound⟩
      · cases aliasName <;> exact hdeclared
      · cases aliasName <;> exact hcolumns

theorem writeKeys_ok_iff (info : RelationInfo) (keys : List (Column × SortDirection)) :
    (∃ ks, writeKeys info keys = .ok ks) ↔ ∀ k ∈ keys, (findByDeclaration info k.1).isSome := by
  induction keys with
  | nil => simp [writeKeys]
  | cons k keys ih =>
    rw [writeKeys, List.forall_mem_cons, ← ih]
    rcases findByDeclaration info k.1 with _ | c
    · simp
    · rcases writeKeys info keys with missing | ks <;> simp

theorem writeKeys_length {info : RelationInfo} {keys : List (Column × SortDirection)}
    {ks : List (Variable × Column)} (h : writeKeys info keys = .ok ks) :
    ks.length = keys.length := by
  induction keys generalizing ks with
  | nil =>
    cases h
    rfl
  | cons k keys ih =>
    rw [writeKeys] at h
    rcases hc : findByDeclaration info k.1 with _ | c
    · rw [hc] at h
      cases h
    · rw [hc] at h
      rcases hrest : writeKeys info keys with missing | rest
      · rw [hrest] at h
        cases h
      · rw [hrest] at h
        cases h
        exact congrArg (· + 1) (ih hrest)

/-- A primary index without keys, or with a key that cannot be written, is reported. -/
def keyReports (table : Table) : Nat :=
  match table.primaryIndex with
  | none => 0
  | some index => if Table.keysWritable table index then 0 else 1

theorem buildWriteKeys_reports {target : WriteTarget} (h : target.Extracted) :
    Reports (keyReports target.table) (buildWriteKeys target : Analysis ρ _) := by
  have hfound : ∀ column, (findByDeclaration target.info column).isSome ↔
      (target.table.columns.filter fun c => c.address = column.address).length = 1 := by
    intro column
    rw [findByDeclaration_isSome h.declared, h.columns, List.filter_map, List.length_map]
    simp [Function.comp_def]
  have hok := writeKeys_ok_iff target.info target.index.keys
  have hwritable : Table.keysWritable target.table target.index = true ↔
      target.index.keys ≠ [] ∧ ∃ ks, writeKeys target.info target.index.keys = .ok ks := by
    rw [hok, Table.keysWritable]
    simp [hfound]
  rw [keyReports, h.index]
  dsimp only
  unfold buildWriteKeys
  rcases hkeys : writeKeys target.info target.index.keys with missing | ks
  · have hnot : Table.keysWritable target.table target.index ≠ true := by
      rw [Ne, hwritable, hkeys]
      simp
    rw [if_neg hnot]
    exact (report_reports ..).bind fun _ => .pure []
  · have hlength := writeKeys_length hkeys
    cases ks with
    | nil =>
      have hnot : Table.keysWritable target.table target.index ≠ true := by
        rw [Ne, hwritable, List.length_eq_zero_iff.mp hlength.symm]
        simp
      rw [if_neg hnot]
      exact (report_reports ..).bind fun _ => .pure []
    | cons key rest =>
      have hyes : Table.keysWritable target.table target.index = true := by
        refine hwritable.mpr ⟨fun hnil => ?_, _, hkeys⟩
        rw [hnil] at hlength
        cases hlength
      rw [if_pos hyes]
      exact .pure _

/-! ### Writing statements -/

theorem extractTable_reports (name : Name) (aliasName : Option SimpleName) :
    Reports 0 (extractTable env name aliasName) := by
  refine (analyzeTableName_mandatory env name).logs (fun a ha => ?_) (fun a ha => ?_)
  · rcases a with _ | ⟨schema, table⟩
    · cases ha
    · refine .bind_zero (buildRelationInfo_reports table true true) fun info => ?_
      split
      · exact reject_reports ..
      · exact .pure _
  · cases a
    · rfl
    · cases ha

theorem scanAndFilter_reports (target : WriteTarget) (where_ : Option ScalarExpression) :
    Reports (scalarOptionReports where_) (scanAndFilter env target where_) := by
  unfold scanAndFilter
  cases where_ with
  | none =>
    rw [scalarOptionReports]
    exact .pure _
  | some e =>
    rw [scalarOptionReports]
    refine ((analyzeScalarExpression_reports (scalar_reports env e) _).bind fun r => ?_).of_eq
      (Nat.add_zero _)
    grind

theorem processSetElements_reports (target : WriteTarget) (saw : List Nat)
    (elements : List SetElement) :
    Reports (elements.map fun e => scalarReports e.value).sum
      (processSetElements env target saw elements) := by
  induction elements generalizing saw with
  | nil => exact .pure []
  | cons element elements ih =>
    have htarget : Reports 0 (updateTarget env target saw element.target) := by
      unfold updateTarget
      grind
    rw [List.map_cons, List.sum_cons]
    exact .bind_zero htarget fun column => .bind_zero streamVariable_reports fun v =>
      (analyzeScalarExpression_reports (scalar_reports env element.value) _).bind fun _ =>
        (ih _).bind fun _ => .pure _

/-- Every insert option beyond the first is reported. -/
theorem computeWriteType_reports (kind : WriteKind) (saw : Bool)
    (options : List InsertStatementOption) :
    Reports (if saw then options.length else options.length - 1)
      (computeWriteType kind saw options : Analysis ρ WriteKind) := by
  induction options generalizing kind saw with
  | nil => exact Check.Logs.of_eq (.pure kind) (by simp)
  | cons o os ih =>
    cases saw with
    | false => exact .bind_zero (.pure ()) fun _ => (ih _ true).of_eq (by simp)
    | true =>
      exact ((report_reports ..).bind fun _ => ih _ true).of_eq (by simp; omega)

theorem processInsertColumns_reports (target : WriteTarget) (destinations : List Column)
    (options : List InsertStatementOption) (output : Graph) (columns : List ColumnInfo) :
    Reports (options.length - 1)
      (processInsertColumns env target destinations options output columns) := by
  unfold processInsertColumns
  split_ifs
  · exact reject_reports ..
  · refine ((computeWriteType_reports .insert false options).bind fun kind => ?_).of_eq
      (Nat.add_zero _)
    dsimp only
    split <;> exact .pure _
  · exact ((computeWriteType_reports .insert false options).bind fun kind => .pure _).of_eq
      (Nat.add_zero _)

theorem processInsertStatement_reports (tableName : Name) (columns : List SimpleName)
    (expression : Option QueryExpression) (options : List InsertStatementOption) :
    Reports ((expression.elim 0 queryReports) + (options.length - 1))
      (processInsertStatement env tableName columns expression options) := by
  refine .bind_zero (extractTable_reports tableName none) fun target => ?_
  have hnamed : ∀ (names : List SimpleName) (saw : List Nat),
      Reports 0 (namedDestinations env target saw names) := by
    intro names
    induction names with
    | nil => exact fun _ => .pure []
    | cons name names ih =>
      intro saw
      rw [namedDestinations]
      split
      · exact reject_reports ..
      · split_ifs
        · exact reject_reports ..
        · exact .bind_zero (ih _) fun _ => .pure _
  have hdestinations : Reports 0 (destinationColumns env target columns) := by
    unfold destinationColumns
    split
    · exact .pure _
    · exact hnamed ..
  refine .bind_zero hdestinations fun destinations => ?_
  cases expression with
  | none =>
    rw [Option.elim_none, Nat.zero_add]
    exact ((computeWriteType_reports .insert false options).bind fun kind => .pure _).of_eq
      (Nat.add_zero _)
  | some expression =>
    exact (query_reports env expression _ false).bind fun source =>
      processInsertColumns_reports ..

/-- From one state an analysis reports `n` diagnostics when it succeeds, and some when it fails. -/
abbrev ReportsFrom {α : Type} (s : AnalyzerState ρ) (n : Nat) (m : Analysis ρ α) : Prop :=
  Check.LogsFrom AnalyzerState.reportCount s n m

variable (env) in
/-- The reports about the keys of the table that a statement writes. -/
def writeReports (tableName : Name) (s : AnalyzerState ρ) : Nat :=
  match (analyzeTableName env tableName true s).1 with
  | some (some (_, table)) => keyReports table
  | _ => 0

/-- What goes on with a table that was extracted. -/
theorem extractTable_bind {α : Type} {tableName : Name} {aliasName : Option SimpleName}
    {f : WriteTarget → Analysis ρ α}
    (hf : ∀ target : WriteTarget, target.Extracted → Reports (keyReports target.table + n) (f target))
    (s : AnalyzerState ρ) :
    ReportsFrom s (writeReports env tableName s + n)
      (extractTable env tableName aliasName >>= f) := by
  have hbind := ((extractTable_reports tableName aliasName).from s).bind
    (k := writeReports env tableName s + n) fun target t h => by
      obtain ⟨hextracted, schema, u, hfound⟩ := extractTable_yields h
      have hcount : writeReports env tableName s = keyReports target.table := by
        rw [writeReports, hfound]
      rw [hcount]
      exact (hf target hextracted).from t
  rwa [Nat.zero_add] at hbind

theorem processUpdateStatement_reports (tableName : Name) (aliasName : Option SimpleName)
    (elements : List SetElement) (where_ : Option ScalarExpression) (s : AnalyzerState ρ) :
    ReportsFrom s (writeReports env tableName s
        + (scalarOptionReports where_ + (elements.map fun e => scalarReports e.value).sum))
      (processUpdateStatement env tableName aliasName elements where_) := by
  cases elements with
  | nil => exact (reject_reports ..).from s
  | cons element elements =>
    refine extractTable_bind (fun target htarget => ?_) s
    refine ((withScope_reports _ ((scanAndFilter_reports target where_).bind fun source =>
      (buildWriteKeys_reports htarget).bind fun keys =>
        (processSetElements_reports target [] (element :: elements)).bind fun writes =>
          .pure _)).bind fun g => .pure _).of_eq ?_
    omega

theorem processDeleteStatement_reports (tableName : Name) (aliasName : Option SimpleName)
    (where_ : Option ScalarExpression) (s : AnalyzerState ρ) :
    ReportsFrom s (writeReports env tableName s + scalarOptionReports where_)
      (processDeleteStatement env tableName aliasName where_) := by
  refine extractTable_bind (fun target htarget => ?_) s
  refine ((withScope_reports _ ((scanAndFilter_reports target where_).bind fun source =>
    (buildWriteKeys_reports htarget).bind fun keys => .pure _)).bind fun g => .pure _).of_eq ?_
  omega

end Mizugaki.Analyzer
