import Mizugaki.Analyzer.Definition

/-! Statements, and the analyzer as it is called: it starts without scopes and without
diagnostics, and returns the diagnostics only when the analysis stops. -/

namespace Mizugaki.Analyzer

open Mizugaki.Ast Mizugaki.Plan Mizugaki.Control

variable {ρ : Type} (env : Environment ρ)

/-! ### SELECT -/

/-- The emit operator of a SELECT statement on an output port, with the columns that it names. -/
def emit (output : Graph) (columns : List ColumnInfo) : Graph :=
  .unary (.emit (columns.map fun c => (c.variable_, c.identifier))) output

/-- `select_statement`. -/
def processSelectStatement (expression : QueryExpression) (targets : List Name) :
    Analysis ρ StatementResult :=
  match targets with
  | _ :: _ => reject .unsupportedFeature [.text "target statement is not supported yet"]
  | [] => do
    let result ← analyzeQueryExpression env expression []
    return .plan (emit result.output result.relation.exportedColumns)

/-! ### ALTER and DROP -/

/-- Go on with a declaration; with IF EXISTS its absence makes the statement an empty one. -/
def withDeclaration {α : Type} (find : Bool → Analysis ρ (Option α)) (ifExists : Bool)
    (f : α → Analysis ρ StatementResult) : Analysis ρ StatementResult := do
  match ← find (! ifExists) with
  | some a => f a
  | none => if ifExists then return .statement .empty else fail

/-- `rename_table_action`. -/
def processRenameTable (replacement : SimpleName) (schema : Schema) (table : Table) :
    Analysis ρ StatementResult :=
  let name := identifierOf env replacement .relation
  if name = table.simpleName then
    reject .tableAlreadyExists
      [.text "cannot rename table to the same name: \"", .name (.simple replacement), .text "\""]
  else if (schema.findTable name).isSome then
    reject .tableAlreadyExists
      [.text "table is already defined: \"", .name (.simple replacement), .text "\""]
  else return .statement (.renameTable schema table name)

/-- `engine::find_column`. -/
def findColumn (table : Table) (name : SimpleName) : Option Column :=
  table.columns.find? fun c => c.simpleName = identifierOf env name .variable

/-- `rename_column_action`. -/
def processRenameColumn (columnName : SimpleName) (ifExists : Bool) (replacement : SimpleName)
    (table : Table) : Analysis ρ StatementResult :=
  let inTable := [Fragment.text "\", in table \"", .text table.simpleName, .text "\""]
  match findColumn env table columnName with
  | none =>
    if ifExists then return .statement .empty
    else
      reject .columnNotFound
        ([.text "column is not found: \"", .name (.simple columnName)] ++ inTable)
  | some column =>
    if (findColumn env table replacement).isSome then
      reject .columnAlreadyExists
        ([.text "column is already defined: \"", .name (.simple replacement)] ++ inTable)
    else
      return .statement (.renameColumn table column (identifierOf env replacement .variable))

/-- `alter_table_statement`. -/
def processAlterTable (name : Name) (action : AlterTableAction) (ifExists : Bool) :
    Analysis ρ StatementResult :=
  withDeclaration (analyzeTableName env name) ifExists fun (schema, table) =>
    match action with
    | .renameTable replacement => processRenameTable env replacement schema table
    | .renameColumn columnName ifExists replacement =>
      processRenameColumn env columnName ifExists replacement table

/-- `rename_index_action`. -/
def processRenameIndex (replacement : SimpleName) (schema : Schema) (index : Index) :
    Analysis ρ StatementResult :=
  let name := identifierOf env replacement .relation
  if index.primary then
    reject .unsupportedFeature [.text "renaming primary index is not supported"]
  else if name = index.simpleName then
    reject .indexAlreadyExists
      [.text "cannot rename index to the same name: \"", .name (.simple replacement), .text "\""]
  else if (schema.findIndex name).isSome then
    reject .indexAlreadyExists
      [.text "index is already defined: \"", .name (.simple replacement), .text "\""]
  else return .statement (.renameIndex schema index name)

/-- `alter_index_statement`. -/
def processAlterIndex (name : Name) (action : AlterIndexAction) (ifExists : Bool) :
    Analysis ρ StatementResult :=
  withDeclaration (analyzeIndexName env name) ifExists fun (schema, index) =>
    match action with
    | .renameIndex replacement => processRenameIndex env replacement schema index

/-- The options that a DROP statement of a table or an index supports. -/
def checkCascade (options : List DropStatementOption) : Analysis ρ Unit :=
  if .cascade ∈ options then
    reject .unsupportedFeature
      [.text "CASCADE option in DROP TABLE statement is not supported yet"]
  else return ()

/-- `engine::process_drop_table`. -/
def processDropTable (name : Name) (options : List DropStatementOption) :
    Analysis ρ StatementResult := do
  checkCascade options
  withDeclaration (analyzeTableName env name) (decide (.ifExists ∈ options)) fun (schema, table) =>
    return .statement (.dropTable schema table)

/-- `engine::process_drop_index`. -/
def processDropIndex (name : Name) (options : List DropStatementOption) :
    Analysis ρ StatementResult := do
  checkCascade options
  withDeclaration (analyzeIndexName env name) (decide (.ifExists ∈ options)) fun (schema, index) =>
    return .statement (.dropIndex schema index)

def rejectStatement : Analysis ρ StatementResult :=
  reject .unsupportedFeature [.text "unsupported statement: ", .node]

/-- `drop_statement`. -/
def processDrop (kind : DropStatementKind) (name : Name) (options : List DropStatementOption) :
    Analysis ρ StatementResult :=
  if .cascade ∈ options ∧ .restrict ∈ options then
    reject .malformedSyntax [.text "DROP statement must not declare both CASCADE and RESTRICT"]
  else
    match kind with
    | .table => processDropTable env name options
    | .index => processDropIndex env name options
    | .view | .sequence | .schema => rejectStatement

/-- `truncate_table_statement`. -/
def processTruncateTable (name : Name)
    (identityColumnOption : Option IdentityColumnRestartOption) : Analysis ρ StatementResult :=
  withDeclaration (analyzeTableName env name) false fun (_, table) =>
    return .statement
      (.truncateTable table (decide (identityColumnOption = some .restartIdentity)))

/-! ### GRANT and REVOKE -/

/-- `engine::process_table_privilege_actions`: every action kind of the syntax has a privilege. -/
def convertPrivilegeAction : PrivilegeActionKind → TableActionKind
  | .allPrivileges => .control
  | .select => .select
  | .insert => .insert
  | .update => .update
  | .delete => .delete

/-- `engine::process_table_privilege`, over the users: named ones only once, `PUBLIC` sets the
default privileges. -/
def processPrivilegeUsers (acceptAllUsers : Bool) (actions : List TableActionKind)
    (sawUsers : List String) (element : TablePrivilegeElement) :
    List PrivilegeUser → Analysis ρ TablePrivilegeElement
  | [] => return element
  | user :: users =>
    let enter (kind : AuthorizationUserKind) (identifier : String) : TablePrivilegeElement :=
      { element with
        authorizationEntries := element.authorizationEntries ++ [⟨kind, identifier, actions⟩] }
    match user with
    | .identifier n =>
      if n.identifier ∈ sawUsers then
        processPrivilegeUsers acceptAllUsers actions sawUsers element users
      else
        processPrivilegeUsers acceptAllUsers actions (n.identifier :: sawUsers)
          (enter .specified n.identifier) users
    | .public_ =>
      processPrivilegeUsers acceptAllUsers actions sawUsers
        { element with defaultPrivileges := actions } users
    | .allUsers =>
      if ! acceptAllUsers then
        reject .malformedSyntax
          [.text "control privileges for all users (*) are not permitted here"]
      else processPrivilegeUsers acceptAllUsers actions sawUsers (enter .allUsers "") users
    | .currentUser =>
      processPrivilegeUsers acceptAllUsers actions sawUsers (enter .currentUser "") users

/-- `engine::process_table_privilege`, over the objects: a table counts once. -/
def processPrivilegeObjects (acceptAllUsers : Bool) (statement : PrivilegeStatement)
    (sawTables : List Nat) : List PrivilegeObject → Analysis ρ (List TablePrivilegeElement)
  | [] => return []
  | object :: objects => do
    match ← analyzeTableName env object.objectName true with
    | none => fail
    | some (_, table) =>
      if table.address ∈ sawTables then
        processPrivilegeObjects acceptAllUsers statement sawTables objects
      else do
        let actions := statement.actions.map convertPrivilegeAction
        let element ← processPrivilegeUsers acceptAllUsers actions [] ⟨table, [], []⟩ statement.users
        let rest ←
          processPrivilegeObjects acceptAllUsers statement (table.address :: sawTables) objects
        return element :: rest

/-- `to_string_view`, of a privilege object kind. -/
def privilegeObjectKindName : PrivilegeObjectKind → String
  | .table => "table"
  | .schema => "schema"

/-- `engine::extract_privilege_object_kind`, of the objects after those of one kind. -/
def extractPrivilegeObjectKind (result : Option PrivilegeObjectKind) :
    List PrivilegeObject → Analysis ρ (Option PrivilegeObjectKind)
  | [] => return result
  | object :: objects =>
    let kind := object.objectKind.getD .table
    match result with
    | none => extractPrivilegeObjectKind (some kind) objects
    | some first =>
      if first = kind then extractPrivilegeObjectKind (some kind) objects
      else
        reject .unsupportedFeature
          [.text "cannot specify multiple object types: ", .text (privilegeObjectKindName first),
            .text " <=> ", .text (privilegeObjectKindName kind)]

/-- `engine::process_privilege`. -/
def processPrivilege (build : List TablePrivilegeElement → Plan.Statement)
    (acceptAllUsers : Bool) (statement : PrivilegeStatement) : Analysis ρ StatementResult :=
  if statement.actions.isEmpty then
    reject .malformedSyntax [.text "statement requires at least one privilege action"]
  else if statement.objects.isEmpty then
    reject .malformedSyntax [.text "statement requires at least one object"]
  else if statement.users.isEmpty then
    reject .malformedSyntax [.text "statement requires at least one authorization targets"]
  else do
    match ← extractPrivilegeObjectKind none statement.objects with
    | some .table => do
      let elements ← processPrivilegeObjects env acceptAllUsers statement [] statement.objects
      return .statement (build elements)
    | some .schema =>
      reject .unsupportedFeature
        [.text "unsupported privilege object kind: ", .text (privilegeObjectKindName .schema)]
    | none => fail

/-! ### All statements -/

/-- `analyze_statement`. -/
def analyzeStatement : Ast.Statement → Analysis ρ StatementResult
  | .selectStatement expression targets => processSelectStatement env expression targets
  | .insertStatement tableName columns expression options =>
    processInsertStatement env tableName columns expression options
  | .updateStatement tableName aliasName elements where_ =>
    processUpdateStatement env tableName aliasName elements where_
  | .deleteStatement tableName aliasName where_ =>
    processDeleteStatement env tableName aliasName where_
  | .tableDefinition definition => processTableDefinition env definition
  | .indexDefinition definition => processIndexDefinition env definition
  | .alterTableStatement name action ifExists => processAlterTable env name action ifExists
  | .alterIndexStatement name action ifExists => processAlterIndex env name action ifExists
  | .dropStatement kind name options => processDrop env kind name options
  | .truncateTableStatement name identityColumnOption =>
    processTruncateTable env name identityColumnOption
  | .grantPrivilegeStatement statement => processPrivilege env .grantTable false statement
  | .revokePrivilegeStatement statement => processPrivilege env .revokeTable true statement
  | .emptyStatement => return .statement .empty
  | .unsupported _ => rejectStatement

/-- `sql_analyzer_result`. -/
inductive AnalyzerResult where
  | erroneous (diagnostics : List Diagnostic)
  | executionPlan (graph : Graph)
  | statement (statement : Plan.Statement)

/-- `analyzer_context::initialize`. -/
def AnalyzerState.initial (resolution : ρ) : AnalyzerState ρ where
  diagnostics := []
  fresh := 0
  resolution := resolution
  scopes := []
  sawAggregate := false

/-- `sql_analyzer::impl::process`: the diagnostics go with an erroneous result only. -/
def SqlAnalyzer.process (resolution : ρ) (statement : Ast.Statement) : AnalyzerResult :=
  match analyzeStatement env statement (.initial resolution) with
  | (none, s) => .erroneous s.diagnostics
  | (some (.plan graph), _) => .executionPlan graph
  | (some (.statement statement), _) => .statement statement

end Mizugaki.Analyzer
