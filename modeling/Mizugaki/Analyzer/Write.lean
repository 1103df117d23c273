import Mizugaki.Analyzer.Engine
import Mizugaki.Ast.Statement
import Mizugaki.Plan.Statement

/-! Statements that write. An INSERT writes what its source returns, to columns that it
names or to all exported ones; UPDATE and DELETE read the table they change through a
scope that holds this table alone. -/

namespace Mizugaki.Analyzer

open Mizugaki.Ast Mizugaki.Plan Mizugaki.Control Mizugaki.Data.Chain

variable {ρ : Type} (env : Environment ρ)

/-- `analyze_statement_result_type`, without its erroneous alternative. -/
inductive StatementResult where
  | plan (graph : Graph)
  | statement (statement : Plan.Statement)

/-! ### Tables to write -/

/-- A table with its relation and its primary index, as `engine::extract_table` finds them. -/
structure WriteTarget where
  table : Table
  info : RelationInfo
  index : Index

/-- Name a relation by an alias, when there is one. -/
def aliasRelation (info : RelationInfo) : Option SimpleName → RelationInfo
  | none => info
  | some n => info.setIdentifier (identifierOf env n .relation)

/-- `engine::extract_table`. -/
def extractTable (tableName : Name) (aliasName : Option SimpleName) : Analysis ρ WriteTarget := do
  match ← analyzeTableName env tableName true with
  | none => fail
  | some (_, table) => do
    let info ← buildRelationInfo env table true true
    match info.primaryIndex with
    | none =>
      reject .primaryIndexNotFound
        [.text "missing primary index for table: ", .text table.simpleName]
    | some index => return ⟨table, aliasRelation env info aliasName, index⟩

/-- The column of a relation that is found first by a name. -/
def findByName (info : RelationInfo) (identifier : String) : Option ColumnInfo :=
  match info.nameMap identifier with
  | some (.at_ i) => info.columns[i]?
  | _ => none

/-- `relation_info::find`, by a column declaration. -/
def findByDeclaration (info : RelationInfo) (column : Column) : Option ColumnInfo :=
  match info.findDeclaration column with
  | some (.at_ i) => info.columns[i]?
  | _ => none

/-! ### INSERT -/

/-- `engine::compute_write_type`, of the options after those already seen: the analysis goes on
after the report about several of them. -/
def computeWriteType (result : WriteKind) (saw : Bool) :
    List InsertStatementOption → Analysis ρ WriteKind
  | [] => return result
  | o :: os => do
    if saw then report .malformedSyntax [.text "multiple insert options are not supported"]
    computeWriteType
      (match o with
        | .orIgnore => .insertSkip
        | .orReplace => .insertOverwrite)
      true os

/-- The destinations that an INSERT statement names, which must differ. -/
def namedDestinations (target : WriteTarget) (saw : List Nat) :
    List SimpleName → Analysis ρ (List Column)
  | [] => return []
  | n :: ns =>
    match (findByName target.info (identifierOf env n .variable)).filter ColumnInfo.exported
      |>.bind ColumnInfo.declaration with
    | none =>
      reject .columnNotFound [.text "column is not found: ", .text target.index.tableName,
        .text ".", .name (.simple n)]
    | some column =>
      if column.address ∈ saw then
        reject .columnAlreadyExists [.text "duplicate column in insert statement: ",
          .text target.index.tableName, .text ".", .name (.simple n)]
      else do
        let rest ← namedDestinations target (column.address :: saw) ns
        return column :: rest

/-- The columns that an INSERT statement writes: those it names, or else the exported ones. -/
def destinationColumns (target : WriteTarget) (columns : List SimpleName) :
    Analysis ρ (List Column) :=
  match columns with
  | [] => return target.info.exportedColumns.filterMap ColumnInfo.declaration
  | names => namedDestinations env target [] names

mutual

/-- `subquery_detector::find`: the arguments of a set function are not walked. -/
def detectSubquery : Scalar → Bool
  | .immediate _ _ => false
  | .variableReference _ => false
  | .cast _ _ operand => detectSubquery operand
  | .unary _ operand => detectSubquery operand
  | .binary _ left right => detectSubquery left || detectSubquery right
  | .compare _ left right => detectSubquery left || detectSubquery right
  | .match_ _ input pattern escape =>
    detectSubquery input || detectSubquery pattern || detectSubquery escape
  | .conditional alternatives default_ =>
    detectSubqueryPairs alternatives || detectSubqueryOption default_
  | .coalesce alternatives => detectSubqueryList alternatives
  | .let_ variables_ body => detectSubqueryBindings variables_ || detectSubquery body
  | .functionCall _ arguments => detectSubqueryList arguments
  | .aggregateFunctionCall _ _ => false
  | .subquery _ _ _ => true
  | .exists_ _ _ => true
  | .quantifiedCompare _ _ _ _ _ _ => true
termination_by structural e => e

def detectSubqueryList : List Scalar → Bool
  | [] => false
  | e :: es => detectSubquery e || detectSubqueryList es
termination_by structural es => es

def detectSubqueryOption : Option Scalar → Bool
  | none => false
  | some e => detectSubquery e
termination_by structural e => e

def detectSubqueryPairs : List (Scalar × Scalar) → Bool
  | [] => false
  | (a, b) :: rest => detectSubquery a || detectSubquery b || detectSubqueryPairs rest
termination_by structural pairs => pairs

def detectSubqueryBindings : List (Variable × Scalar) → Bool
  | [] => false
  | (_, e) :: rest => detectSubquery e || detectSubqueryBindings rest
termination_by structural bindings => bindings

end

/-- `engine::check_simple_values`, with the rows of the operator. -/
def simpleValues : Operator → Option (List (List Scalar))
  | .values _ rows => if rows.any detectSubqueryList then none else some rows
  | _ => none

/-- `engine::process_insert_default_values`. -/
def processInsertDefaultValues (target : WriteTarget) (options : List InsertStatementOption) :
    Analysis ρ StatementResult := do
  let kind ← computeWriteType .insert false options
  return if env.options.preferWriteStatement then .statement (.write kind target.index [] [[]])
    else .plan (.unary (.write kind target.index [] []) (.source (.values [] [[]])))

/-- The positions among the destinations of the keys of an index: a key may be absent from them. -/
def keyPositions (index : Index) (destinations : List Column) : List Nat :=
  index.keys.filterMap fun k => destinations.findIdx? fun c => c.address = k.1.address

/-- The elements at some positions, and the others. -/
def splitTuples {α : Type} (positions : List Nat) (tuples : List α) : List α × List α :=
  let (keys, values) := tuples.zipIdx.partition fun t => t.2 ∈ positions
  (keys.map Prod.fst, values.map Prod.fst)

/-- `insert_statement`, once its source is analyzed, on the output and the columns of the source:
the pairs of source and destination are split into the keys and the other columns of the primary
index. -/
def processInsertColumns (target : WriteTarget) (destinations : List Column)
    (options : List InsertStatementOption) (output : Graph) (columns : List ColumnInfo) :
    Analysis ρ StatementResult :=
  if columns.length ≠ destinations.length then
    reject .inconsistentColumns [.text "column count mismatch in insert statement: ",
      .text "source-columns=", .size columns.length, .text ", ",
      .text "destination-columns=", .size destinations.length]
  else do
    let kind ← computeWriteType .insert false options
    let tuples := (columns.map ColumnInfo.variable_).zip destinations
    let (keys, values) := splitTuples (keyPositions target.index destinations) tuples
    let operator_ := Operator.write kind target.index keys values
    if env.options.preferWriteStatement then
      match simpleValues output.owner with
      | some rows => return .statement (.write kind target.index destinations rows)
      | none => return .plan (.unary operator_ output)
    else return .plan (.unary operator_ output)

/-- `insert_statement`. -/
def processInsertStatement (tableName : Name) (columns : List SimpleName)
    (expression : Option QueryExpression) (options : List InsertStatementOption) :
    Analysis ρ StatementResult := do
  let target ← extractTable env tableName none
  let destinations ← destinationColumns env target columns
  match expression with
  | none => processInsertDefaultValues env target options
  | some expression => do
    let source ← analyzeQueryExpression env expression
      (destinations.map fun c => { type := some c.type })
    processInsertColumns env target destinations options source.output source.relation.columns

/-! ### UPDATE and DELETE -/

/-- The keys of a write operator: the variables of the key columns, unless one of them is missing. -/
def writeKeys (info : RelationInfo) :
    List (Column × SortDirection) → Except Column (List (Variable × Column))
  | [] => .ok []
  | (k, _) :: ks =>
    match findByDeclaration info k, writeKeys info ks with
    | none, _ => .error k
    | some _, .error missing => .error missing
    | some c, .ok rest => .ok ((c.variable_, k) :: rest)

/-- `engine::build_write_keys`: its callers go on with the empty list that it returns after a
report. -/
def buildWriteKeys (target : WriteTarget) : Analysis ρ (List (Variable × Column)) :=
  match writeKeys target.info target.index.keys with
  | .error missing => do
    report .columnNotFound
      [.text "missing column for primary key: ", .text missing.simpleName]
    return []
  | .ok [] => do
    report .unknown [.text "primary index has no keys: ", .text target.index.tableName]
    return []
  | .ok keys => return keys

/-- The scan of a write and the filter on it, under the scope of its table. -/
def scanAndFilter (target : WriteTarget) (where_ : Option ScalarExpression) :
    Analysis ρ Graph :=
  let scan := Graph.source (.scan target.index (scanColumns target.info))
  match where_ with
  | none => return scan
  | some e => do
    let (predicate, sawAggregate) ← analyzeScalarExpression (scalar env e)
    if sawAggregate then
      reject .unsupportedFeature
        [.text "aggregated function in WHERE clause is not yet supported"]
    else return .unary (.filter predicate) scan

/-- The column that an element of `UPDATE SET` writes. -/
def updateTarget (target : WriteTarget) (saw : List Nat) (name : Name) : Analysis ρ Column :=
  match name with
  | .qualified _ _ =>
    reject .unsupportedFeature [.text "qualified UPDATE SET target is not supported"]
  | .simple n =>
    match (findByName target.info (identifierOf env n .variable)).bind ColumnInfo.declaration with
    | none =>
      reject .columnNotFound [.text "UPDATE SET target column is not found: ",
        .text target.index.tableName, .text ".", .name name]
    | some column =>
      if column.address ∈ saw then
        reject .columnAlreadyExists [.text "duplicate column in update statement: ",
          .text target.index.tableName, .text ".", .name name]
      else return column

/-- The elements of `UPDATE SET`: a variable, its value and the column that it is written to. -/
def processSetElements (target : WriteTarget) (saw : List Nat) :
    List SetElement → Analysis ρ (List (Variable × Scalar × Column))
  | [] => return []
  | element :: elements => do
    let column ← updateTarget env target saw element.target
    let v ← streamVariable
    let (value, _) ← analyzeScalarExpression (scalar env element.value)
      (.scalar { type := some column.type })
    let rest ← processSetElements target (column.address :: saw) elements
    return (v, value, column) :: rest

/-- `update_statement`. -/
def processUpdateStatement (tableName : Name) (aliasName : Option SimpleName)
    (elements : List SetElement) (where_ : Option ScalarExpression) :
    Analysis ρ StatementResult :=
  match elements with
  | [] => reject .malformedSyntax [.text "empty UPDATE SET is not supported"]
  | _ => do
    let target ← extractTable env tableName aliasName
    let (graph, _) ← withScope (QueryScope.empty.add target.info) do
      let source ← scanAndFilter env target where_
      let keys ← buildWriteKeys target
      let writes ← processSetElements env target [] elements
      return Graph.unary (.write .update target.index keys (writes.map fun w => (w.1, w.2.2)))
        (.unary (.project (writes.map fun w => (w.1, w.2.1))) source)
    return .plan graph

/-- `delete_statement`. -/
def processDeleteStatement (tableName : Name) (aliasName : Option SimpleName)
    (where_ : Option ScalarExpression) : Analysis ρ StatementResult := do
  let target ← extractTable env tableName aliasName
  let (graph, _) ← withScope (QueryScope.empty.add target.info) do
    let source ← scanAndFilter env target where_
    let keys ← buildWriteKeys target
    return Graph.unary (.write .delete target.index keys []) source
  return .plan graph

end Mizugaki.Analyzer
