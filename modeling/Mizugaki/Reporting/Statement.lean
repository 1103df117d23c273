import Mizugaki.Analyzer.Statement
import Mizugaki.Reporting.Write

/-! Reports of statements, and what they say of the analyzer as it is called: a diagnostic is
lost exactly when a part of an accepted statement is reported and then ignored. -/

namespace Mizugaki.Analyzer

open Mizugaki.Ast Mizugaki.Plan Mizugaki.Control

variable {ρ : Type} {env : Environment ρ} {n k : Nat}

/-! ### Definitions -/

theorem extractColumnValue_reports (e : Scalar) : Reports 0 (extractColumnValue env e) := by
  induction e using extractColumnValue.induct with
  | case1 value type => exact .bind_zero (clearExpressionResolution_reports ..) fun _ => .pure _
  | case2 function arguments =>
    unfold extractColumnValue
    grind
  | case3 type policy operand ih =>
    unfold extractColumnValue
    exact .bind_zero (clearExpressionResolution_reports ..) fun _ => ih
  | case4 e =>
    unfold extractColumnValue
    grind

theorem sequenceOption_reports (expression : Option ScalarExpression) (isInt8 : Bool)
    (default_ : Int) :
    Reports (scalarOptionReports expression) (sequenceOption env expression isInt8 default_) := by
  cases expression with
  | none =>
    rw [scalarOptionReports]
    exact .pure _
  | some e =>
    rw [scalarOptionReports]
    refine ((withScope_reports _ (analyzeScalarExpression_reports (scalar_reports env e) _)).bind
      fun r => (?_ : Reports 0 _)).of_eq (Nat.add_zero _)
    grind

/-- The reports of the options of an identity column. -/
def identityReports (constraint : IdentityConstraint) : Nat :=
  scalarOptionReports constraint.incrementValue + scalarOptionReports constraint.minValue +
    scalarOptionReports constraint.maxValue + scalarOptionReports constraint.initialValue

theorem processIdentityColumn_reports (constraint : IdentityConstraint) (prototype : Column) :
    Reports (identityReports constraint) (processIdentityColumn env constraint prototype) := by
  have hwidth : Reports 0 (identityWidth prototype.type : Analysis ρ Bool) := by
    unfold identityWidth
    grind
  have hincrement : ∀ isInt8, Reports (scalarOptionReports constraint.incrementValue)
      (sequenceIncrement env constraint.incrementValue isInt8) := by
    intro isInt8
    refine ((sequenceOption_reports _ isInt8 1).bind fun n => ?_).of_eq (Nat.add_zero _)
    grind
  refine .bind_zero hwidth fun isInt8 => ((hincrement isInt8).bind fun increment =>
    (sequenceOption_reports _ _ _).bind fun min => (sequenceOption_reports _ _ _).bind fun max =>
      (sequenceOption_reports _ _ _).bind fun initial => (?_ : Reports 0 _)).of_eq ?_
  · grind
  · unfold identityReports
    omega

/-- The reports of a constraint of a column. -/
def columnConstraintReports : Constraint → Nat
  | .defaultClause expression => scalarReports expression
  | .identityColumn constraint => identityReports constraint
  | _ => 0

theorem processColumnConstraint_reports (d : ColumnDraft) (c : Constraint) :
    Reports (columnConstraintReports c) (processColumnConstraint env d c) := by
  have hdefault : Reports 0 (requireNoDefault d.prototype : Analysis ρ Unit) := by
    unfold requireNoDefault
    grind
  cases c with
  | primaryKey c =>
    unfold processColumnConstraint columnConstraintReports
    grind
  | null =>
    unfold processColumnConstraint columnConstraintReports
    grind
  | notNull =>
    unfold processColumnConstraint columnConstraintReports
    grind
  | defaultClause e =>
    have hvalue : Reports (scalarReports e) (processDefaultClause env e d.prototype) :=
      (withScope_reports _ (analyzeScalarExpression_reports (scalar_reports env e) _)).bind
        fun r => extractColumnValue_reports _
    exact .bind_zero hdefault fun _ => hvalue.bind fun v => .pure _
  | identityColumn c =>
    exact .bind_zero hdefault fun _ =>
      (processIdentityColumn_reports c d.prototype).bind fun prototype => .pure _
  | unsupported kind => exact reject_reports ..

/-- The reports of a column definition. -/
def columnReports : TableElement → Nat
  | .columnDefinition definition => (definition.constraints.map columnConstraintReports).sum
  | .constraintDefinition _ => 0

theorem processColumnDefinitions_reports (tableName : String) (d : ColumnsDraft)
    (elements : List TableElement) :
    Reports (elements.map columnReports).sum
      (processColumnDefinitions env tableName d elements) := by
  have hconstraints : ∀ (cs : List Constraint) (d : ColumnDraft),
      Reports (cs.map columnConstraintReports).sum (processColumnConstraints env d cs) := by
    intro cs
    induction cs with
    | nil => exact fun d => .pure d
    | cons c cs ih =>
      intro d
      rw [List.map_cons, List.sum_cons]
      exact (processColumnConstraint_reports d c).bind fun d => ih d
  induction elements generalizing d with
  | nil => exact .pure d
  | cons element elements ih =>
    rw [List.map_cons, List.sum_cons]
    cases element with
    | constraintDefinition body => exact (ih d).of_eq (Nat.zero_add _).symm
    | columnDefinition definition =>
      have hcolumn : Reports (definition.constraints.map columnConstraintReports).sum
          (processColumnDefinition env tableName d definition) := by
        refine .bind_zero (analyzeType_reports ..) fun type => ?_
        split_ifs
        · exact reject_reports ..
        · exact .bind_zero freshNumber_reports fun address =>
            (hconstraints definition.constraints _).bind fun r => .pure _
      exact hcolumn.bind fun d => ih d

/-- The key of a sort element; its place of nulls is rejected in an index. -/
def keyElementReports : SortElement → Nat
  | .mk key _ _ _ => scalarReports key

theorem buildIndexKeys_reports (table : Table) (keys : List SortElement) :
    Reports (keys.map keyElementReports).sum (buildIndexKeys env table keys) := by
  have hkeys : ∀ (keys : List SortElement) (saw : List Nat),
      Reports (keys.map keyElementReports).sum (processIndexKeys env saw keys) := by
    intro keys
    induction keys with
    | nil => exact fun _ => .pure []
    | cons element keys ih =>
      intro saw
      obtain ⟨key, collation, direction, nullLocation⟩ := element
      have hcolumn : ∀ e, Reports 0 (keyColumn e : Analysis ρ Column) := by
        intro e
        unfold keyColumn
        grind
      rw [List.map_cons, List.sum_cons, processIndexKeys]
      split_ifs
      · exact reject_reports ..
      · refine (analyzeScalarExpression_reports (scalar_reports env key) _).bind fun r =>
          .bind_zero (clearExpressionResolution_reports ..) fun _ =>
            .bind_zero (hcolumn _) fun column => ?_
        split_ifs
        · exact reject_reports ..
        · exact (ih _).bind fun rest => .pure _
  refine .bind_zero (buildColumns_reports ..) fun info =>
    ((withScope_reports _ (hkeys keys [])).bind fun r => (?_ : Reports 0 _)).of_eq (Nat.add_zero _)
  dsimp only
  split
  · exact reject_reports ..
  · exact .pure _

/-- Storage parameters are reported, all at once. -/
def parametersReports (parameters : List StorageParameter) : Nat :=
  if parameters.isEmpty then 0 else 1

theorem reportIndexParameters_reports (code : Code) (parameters : List StorageParameter) :
    Reports (parametersReports parameters)
      (reportIndexParameters code parameters : Analysis ρ Unit) := by
  cases parameters with
  | nil => exact .pure ()
  | cons p ps => exact report_reports ..

/-- The reports of a constraint of a table. -/
def constraintReports : TableElement → Nat
  | .constraintDefinition (.primaryKey constraint) =>
    parametersReports constraint.parameters + (constraint.key.map keyElementReports).sum
  | _ => 0

theorem processTableConstraints_reports (d : TableDraft) (elements : List TableElement) :
    Reports (elements.map constraintReports).sum (processTableConstraints env d elements) := by
  induction elements generalizing d with
  | nil => exact .pure d
  | cons element elements ih =>
    rw [List.map_cons, List.sum_cons]
    cases element with
    | columnDefinition definition => exact (ih d).of_eq (Nat.zero_add _).symm
    | constraintDefinition body =>
      have hbody : Reports (constraintReports (.constraintDefinition body))
          (processTableConstraint env d body) := by
        cases body
        case primaryKey constraint =>
          unfold processTableConstraint
          split_ifs
          · exact reject_reports ..
          · have hkey : Reports (constraintReports (.constraintDefinition (.primaryKey constraint)))
                (processPrimaryKey env constraint d.table) := by
              unfold processPrimaryKey
              split
              · exact reject_reports ..
              · exact (reportIndexParameters_reports _ constraint.parameters).bind fun _ =>
                  (buildIndexKeys_reports d.table constraint.key).bind fun keys =>
                    .bind_zero freshNumber_reports fun address => .pure _
            exact hkey.bind fun index => .pure _
        all_goals exact reject_reports ..
      exact hbody.bind fun d => ih d

/-- The reports of a table definition that is carried out. -/
def tableDefinitionReports (definition : TableDefinition) : Nat :=
  (definition.elements.map columnReports).sum + (definition.elements.map constraintReports).sum

theorem defineTable_reports (definition : TableDefinition) :
    Reports (tableDefinitionReports definition) (defineTable env definition) := by
  unfold defineTable
  split
  · exact reject_reports ..
  · refine (processColumnDefinitions_reports _ _ definition.elements).bind fun r => ?_
    dsimp only
    split
    · exact reject_reports ..
    · exact .bind_zero freshNumber_reports fun address => .bind_zero freshNumber_reports fun index =>
        (processTableConstraints_reports _ definition.elements).bind fun d => .pure _

theorem definedAlready_reports (ifNotExists : Bool) (code : Code) (kind : String) (name : Name) :
    Reports 0 (definedAlready ifNotExists code kind name : Analysis ρ StatementResult) := by
  unfold definedAlready
  grind

variable (env) in
/-- The reports of a table definition from a state: an existing table ends the analysis. -/
def definitionReports (definition : TableDefinition) (s : AnalyzerState ρ) : Nat :=
  match (analyzeTableName env definition.name false s).1 with
  | some none => tableDefinitionReports definition
  | _ => 0

theorem processTableDefinition_reports (definition : TableDefinition) (s : AnalyzerState ρ) :
    ReportsFrom s (definitionReports env definition s) (processTableDefinition env definition) := by
  obtain ⟨existing, h⟩ := analyzeTableName_optional env definition.name
  unfold processTableDefinition definitionReports
  rw [h, pure_bind]
  cases definition.parameters with
  | cons parameter parameters => exact (reject_reports ..).from s
  | nil =>
    cases existing with
    | some _ => exact (definedAlready_reports ..).from s
    | none => exact (defineTable_reports definition).from s

theorem defineIndex_reports (definition : IndexDefinition) :
    Reports (definition.keys.map keyElementReports).sum (defineIndex env definition) := by
  have hname : Reports 0 (indexName env definition.name) := by
    unfold indexName
    grind
  refine (analyzeTableName_mandatory env definition.tableName).logs (fun a ha => ?_) (fun a ha => ?_)
  · rcases a with _ | ⟨schema, table⟩
    · cases ha
    · exact .bind_zero hname fun name => (buildIndexKeys_reports table definition.keys).bind
        fun keys => .bind_zero freshNumber_reports fun address => .pure _
  · cases a
    · rfl
    · cases ha

/-- Looking for an existing index changes nothing. -/
theorem existingIndex_pure (name : Option Name) : ∃ a, existingIndex env name = pure a := by
  cases name with
  | none => exact ⟨none, rfl⟩
  | some n =>
    obtain ⟨existing, h⟩ := analyzeIndexName_optional env n
    unfold existingIndex
    dsimp only
    rw [h, pure_bind]
    exact ⟨_, rfl⟩

variable (env) in
/-- The reports of an index definition from a state: an existing index ends the analysis before
its keys. -/
def indexDefinitionReports (definition : IndexDefinition) (s : AnalyzerState ρ) : Nat :=
  parametersReports definition.parameters +
    match (existingIndex env definition.name s).1 with
    | some none => (definition.keys.map keyElementReports).sum
    | _ => 0

theorem processIndexDefinition_reports (definition : IndexDefinition) (s : AnalyzerState ρ) :
    ReportsFrom s (indexDefinitionReports env definition s)
      (processIndexDefinition env definition) := by
  have hfeatures : Reports (parametersReports definition.parameters)
      (checkIndexFeatures definition : Analysis ρ Unit) := by
    unfold checkIndexFeatures
    split_ifs
    · exact reject_reports ..
    · exact reject_reports ..
    · exact reject_reports ..
    · exact reportIndexParameters_reports ..
  obtain ⟨existing, h⟩ : ∃ a, existingIndex env definition.name = pure a := existingIndex_pure _
  unfold processIndexDefinition indexDefinitionReports
  rw [h, pure_bind]
  refine Check.Logs.from (hfeatures.bind fun _ => ?_) s
  cases existing with
  | some e => exact definedAlready_reports ..
  | none => exact defineIndex_reports definition

/-! ### Other statements -/

/-- A statement on a declaration: its absence is reported, or makes the statement an empty one. -/
theorem withDeclaration_reports {α : Type} {find : Bool → Analysis ρ (Option α)}
    (hfind : ReportsIf Option.isNone (find true)) (hoptional : ∃ a, find false = pure a)
    (ifExists : Bool) {f : α → Analysis ρ StatementResult} (hf : ∀ a, Reports 0 (f a)) :
    Reports 0 (withDeclaration find ifExists f) := by
  cases ifExists with
  | true =>
    obtain ⟨a, h⟩ := hoptional
    unfold withDeclaration
    rw [Bool.not_true, h, pure_bind]
    cases a with
    | none => exact .pure _
    | some a => exact hf a
  | false =>
    refine hfind.logs (fun a ha => ?_) (fun a ha => ?_)
    · cases a with
      | none => cases ha
      | some a => exact hf a
    · cases a with
      | none => rfl
      | some a => cases ha

theorem withTable_reports (name : Name) (ifExists : Bool)
    {f : Schema × Table → Analysis ρ StatementResult} (hf : ∀ a, Reports 0 (f a)) :
    Reports 0 (withDeclaration (analyzeTableName env name) ifExists f) :=
  withDeclaration_reports (analyzeTableName_mandatory env name) (analyzeTableName_optional env name)
    ifExists hf

theorem withIndex_reports (name : Name) (ifExists : Bool)
    {f : Schema × Index → Analysis ρ StatementResult} (hf : ∀ a, Reports 0 (f a)) :
    Reports 0 (withDeclaration (analyzeIndexName env name) ifExists f) :=
  withDeclaration_reports (analyzeIndexName_mandatory env name) (analyzeIndexName_optional env name)
    ifExists hf

theorem processAlterTable_reports (name : Name) (action : AlterTableAction) (ifExists : Bool) :
    Reports 0 (processAlterTable env name action ifExists) := by
  refine withTable_reports name ifExists fun a => ?_
  cases action with
  | renameTable replacement =>
    unfold processRenameTable
    grind
  | renameColumn columnName ifExists replacement =>
    unfold processRenameColumn
    grind

theorem processAlterIndex_reports (name : Name) (action : AlterIndexAction) (ifExists : Bool) :
    Reports 0 (processAlterIndex env name action ifExists) := by
  refine withIndex_reports name ifExists fun a => ?_
  cases action with
  | renameIndex replacement =>
    unfold processRenameIndex
    grind

theorem processDrop_reports (kind : DropStatementKind) (name : Name)
    (options : List DropStatementOption) : Reports 0 (processDrop env kind name options) := by
  have hcascade : Reports 0 (checkCascade options : Analysis ρ Unit) := by
    unfold checkCascade
    grind
  unfold processDrop
  split_ifs
  · exact reject_reports ..
  · cases kind with
    | table => exact .bind_zero hcascade fun _ => withTable_reports name _ fun a => .pure _
    | index => exact .bind_zero hcascade fun _ => withIndex_reports name _ fun a => .pure _
    | view => exact reject_reports ..
    | sequence => exact reject_reports ..
    | schema => exact reject_reports ..

theorem processPrivilegeUsers_reports (acceptAllUsers : Bool) (actions : List TableActionKind)
    (sawUsers : List String) (element : TablePrivilegeElement) (users : List PrivilegeUser) :
    Reports 0 (processPrivilegeUsers acceptAllUsers actions sawUsers element users
      : Analysis ρ TablePrivilegeElement) := by
  induction users generalizing sawUsers element with
  | nil => exact .pure _
  | cons user users ih =>
    unfold processPrivilegeUsers
    cases user <;> grind

theorem processPrivilegeObjects_reports (acceptAllUsers : Bool) (statement : PrivilegeStatement)
    (sawTables : List Nat) (objects : List PrivilegeObject) :
    Reports 0 (processPrivilegeObjects env acceptAllUsers statement sawTables objects) := by
  induction objects generalizing sawTables with
  | nil => exact .pure _
  | cons object objects ih =>
    unfold processPrivilegeObjects
    refine (analyzeTableName_mandatory env object.objectName).logs (fun a ha => ?_) (fun a ha => ?_)
    · rcases a with _ | ⟨schema, table⟩
      · cases ha
      · dsimp only
        split_ifs
        · exact ih _
        · exact .bind_zero (processPrivilegeUsers_reports ..) fun element =>
            .bind_zero (ih _) fun rest => .pure _
    · cases a
      · rfl
      · cases ha

/-- The kind of a list of objects is found, or several kinds are reported. -/
theorem extractPrivilegeObjectKind_reports (first : PrivilegeObjectKind)
    (objects : List PrivilegeObject) :
    ReportsIf Option.isNone
      (extractPrivilegeObjectKind (some first) objects : Analysis ρ (Option PrivilegeObjectKind)) := by
  induction objects generalizing first with
  | nil => exact .pure rfl
  | cons object objects ih =>
    unfold extractPrivilegeObjectKind
    dsimp only
    split_ifs
    · exact ih _
    · exact reject_tells ..

theorem processPrivilege_reports (build : List TablePrivilegeElement → Plan.Statement)
    (acceptAllUsers : Bool) (statement : PrivilegeStatement) :
    Reports 0 (processPrivilege env build acceptAllUsers statement) := by
  unfold processPrivilege
  split_ifs with hactions hobjects husers
  · exact reject_reports ..
  · exact reject_reports ..
  · exact reject_reports ..
  · obtain ⟨object, objects, ho⟩ : ∃ object objects, statement.objects = object :: objects :=
      List.exists_cons_of_ne_nil (by simpa using hobjects)
    rw [ho]
    refine (extractPrivilegeObjectKind_reports (object.objectKind.getD .table) objects).logs
      (fun kind hkind => ?_) (fun kind hkind => ?_)
    · rcases kind with _ | _ | _
      · cases hkind
      · exact .bind_zero (processPrivilegeObjects_reports ..) fun elements => .pure _
      · exact reject_reports ..
    · cases kind with
      | none => rfl
      | some kind => cases hkind

/-! ### All statements -/

variable (env) in
/-- The number of diagnostics that an accepted statement reports from a state. -/
def statementReports (s : AnalyzerState ρ) : Ast.Statement → Nat
  | .selectStatement expression _ => queryReports expression
  | .insertStatement _ _ expression options => expression.elim 0 queryReports + (options.length - 1)
  | .updateStatement tableName _ elements where_ =>
    writeReports env tableName s
      + (scalarOptionReports where_ + (elements.map fun e => scalarReports e.value).sum)
  | .deleteStatement tableName _ where_ => writeReports env tableName s + scalarOptionReports where_
  | .tableDefinition definition => definitionReports env definition s
  | .indexDefinition definition => indexDefinitionReports env definition s
  | _ => 0

theorem analyzeStatement_reports (statement : Ast.Statement) (s : AnalyzerState ρ) :
    ReportsFrom s (statementReports env s statement) (analyzeStatement env statement) := by
  cases statement with
  | selectStatement expression targets =>
    cases targets with
    | nil =>
      exact Check.Logs.from ((query_reports env expression [] false).bind fun r => .pure _) s
    | cons target targets => exact (reject_reports ..).from s
  | insertStatement tableName columns expression options =>
    exact (processInsertStatement_reports tableName columns expression options).from s
  | updateStatement tableName aliasName elements where_ =>
    exact processUpdateStatement_reports tableName aliasName elements where_ s
  | deleteStatement tableName aliasName where_ =>
    exact processDeleteStatement_reports tableName aliasName where_ s
  | tableDefinition definition => exact processTableDefinition_reports definition s
  | indexDefinition definition => exact processIndexDefinition_reports definition s
  | alterTableStatement name action ifExists =>
    exact (processAlterTable_reports name action ifExists).from s
  | alterIndexStatement name action ifExists =>
    exact (processAlterIndex_reports name action ifExists).from s
  | dropStatement kind name options => exact (processDrop_reports kind name options).from s
  | truncateTableStatement name identityColumnOption =>
    exact (withTable_reports name false fun a => .pure _).from s
  | grantPrivilegeStatement statement => exact (processPrivilege_reports ..).from s
  | revokePrivilegeStatement statement => exact (processPrivilege_reports ..).from s
  | emptyStatement => exact Check.Logs.from (.pure _) s
  | unsupported kind => exact (reject_reports ..).from s

/-! ### The analyzer -/

namespace SqlAnalyzer

variable (env) (resolution : ρ) (statement : Ast.Statement)

/-- The diagnostics that the analysis of a statement reports. -/
def reported : List Diagnostic :=
  (analyzeStatement env statement (.initial resolution)).2.diagnostics

/-- The result is the erroneous one. -/
def Erroneous : Prop :=
  ∃ diagnostics, process env resolution statement = .erroneous diagnostics

/-- The result tells whether diagnostics were reported: it is erroneous exactly when some were, and
then it carries them. -/
structure Reliable : Prop where
  erroneous_iff : Erroneous env resolution statement ↔ reported env resolution statement ≠ []
  carries : ∀ diagnostics, process env resolution statement = .erroneous diagnostics →
    diagnostics ≠ []

variable {env resolution statement}

theorem process_stopped {t : AnalyzerState ρ}
    (h : analyzeStatement env statement (.initial resolution) = (none, t)) :
    process env resolution statement = .erroneous t.diagnostics := by
  rw [process, h]

theorem process_returned {r : StatementResult} {t : AnalyzerState ρ}
    (h : analyzeStatement env statement (.initial resolution) = (some r, t)) :
    ¬ Erroneous env resolution statement := by
  rintro ⟨diagnostics, he⟩
  rw [process, h] at he
  cases r <;> cases he

/-- An erroneous result carries all that was reported, and something was. -/
theorem erroneous_reported {diagnostics : List Diagnostic}
    (h : process env resolution statement = .erroneous diagnostics) :
    diagnostics = reported env resolution statement ∧ diagnostics ≠ [] := by
  have hreports : ReportsFrom (.initial resolution)
      (statementReports env (.initial resolution) statement) (analyzeStatement env statement) :=
    analyzeStatement_reports statement _
  rcases ha : analyzeStatement env statement (.initial resolution) with ⟨_ | r, t⟩
  · rw [process_stopped ha] at h
    obtain rfl := AnalyzerResult.erroneous.inj h
    have hcount := hreports.stopped ha
    refine ⟨?_, List.length_pos_iff.mp (Nat.zero_lt_of_lt hcount)⟩
    rw [reported, ha]
  · exact absurd ⟨diagnostics, h⟩ (process_returned ha)

/-- A statement that is not rejected was reported for its ignored parts, and for nothing else. -/
theorem reported_length (h : ¬ Erroneous env resolution statement) :
    (reported env resolution statement).length =
      statementReports env (.initial resolution) statement := by
  have hreports : ReportsFrom (.initial resolution)
      (statementReports env (.initial resolution) statement) (analyzeStatement env statement) :=
    analyzeStatement_reports statement _
  rcases ha : analyzeStatement env statement (.initial resolution) with ⟨_ | r, t⟩
  · exact absurd ⟨_, process_stopped ha⟩ h
  · have hcount : t.diagnostics.length = ([] : List Diagnostic).length + _ := hreports.returned ha
    rw [reported, ha, hcount, List.length_nil, Nat.zero_add]

theorem reliable_of_erroneous (h : Erroneous env resolution statement) :
    Reliable env resolution statement := by
  obtain ⟨diagnostics, hprocess⟩ := h
  obtain ⟨rfl, hne⟩ := erroneous_reported hprocess
  refine ⟨iff_of_true ⟨_, hprocess⟩ hne, fun ds hds => ?_⟩
  rw [hprocess] at hds
  rwa [← AnalyzerResult.erroneous.inj hds]

theorem reliable_of_accepted (h : ¬ Erroneous env resolution statement) :
    Reliable env resolution statement ↔ statementReports env (.initial resolution) statement = 0 := by
  rw [← reported_length h, List.length_eq_zero_iff]
  constructor
  · intro hreliable
    by_contra hne
    exact h (hreliable.erroneous_iff.mpr hne)
  · intro hnil
    exact ⟨iff_of_false h (not_not.mpr hnil), fun ds hds => absurd ⟨ds, hds⟩ h⟩

/-- A statement without a part that is reported and then ignored has a reliable result. A rejected
one carries all that was reported, whatever is in it; one that is accepted was reported once for
each of these parts, so that only without them its result is reliable. -/
theorem reliable_iff (resolution : ρ) (statement : Ast.Statement) :
    (statementReports env (.initial resolution) statement = 0 →
      Reliable env resolution statement) ∧
    (∀ diagnostics, process env resolution statement = .erroneous diagnostics →
      diagnostics = reported env resolution statement ∧ diagnostics ≠ []) ∧
    (¬ Erroneous env resolution statement →
      (reported env resolution statement).length =
          statementReports env (.initial resolution) statement ∧
        (Reliable env resolution statement ↔
          statementReports env (.initial resolution) statement = 0)) := by
  refine ⟨fun hzero => ?_, fun _ => erroneous_reported,
    fun h => ⟨reported_length h, reliable_of_accepted h⟩⟩
  by_cases h : Erroneous env resolution statement
  · exact reliable_of_erroneous h
  · exact (reliable_of_accepted h).mpr hzero

/-- A table of one column, which is its primary key. -/
def singleColumnTable : Table :=
  let column : Column := { address := 1, simpleName := "c", type := .int4 }
  { address := 0
    simpleName := "t"
    columns := [column]
    primaryIndex := some
      { address := 2, tableAddress := 0, tableName := "t", simpleName := "",
        keys := [(column, .ascendant)], primary := true } }

/-- `SELECT * FROM t ORDER BY c NULLS FIRST` has a plan although its place of nulls is reported. -/
theorem nullsFirst_unreliable :
    let env := Environment.ofSchema (.ofTables [singleColumnTable] [])
    let key := ScalarExpression.variableReference (.simple ⟨"c", .delimited⟩)
    let query := QueryExpression.query none [.selectAsterisk none]
      [.tableReference false (.simple ⟨"t", .delimited⟩) none] none none none
      [.mk key none none (some .first)] none
    ¬ Reliable env [] (.selectStatement query []) := by
  intro env key query h
  have hreported : reported env [] (.selectStatement query []) ≠ [] := by
    intro hnil
    have hcount : (reported env [] (.selectStatement query [])).length = 1 := rfl
    rw [hnil] at hcount
    cases hcount
  obtain ⟨diagnostics, he⟩ := h.erroneous_iff.mpr hreported
  have haccepted : ∃ graph, process env [] (.selectStatement query []) = .executionPlan graph :=
    ⟨_, rfl⟩
  obtain ⟨graph, hgraph⟩ := haccepted
  rw [hgraph] at he
  cases he

end SqlAnalyzer

end Mizugaki.Analyzer
