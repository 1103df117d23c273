import Mizugaki.Analyzer.Description
import Mizugaki.Analyzer.Write

/-! Definitions of tables and indices. The columns of a table are collected first, each
with its constraints; a primary key is one of them or a constraint of the table, whose
key elements are references in a scope of the table alone. The keys of an index refer to
columns of its table, so that they follow a change of these. -/

namespace Mizugaki.Analyzer

open Mizugaki.Ast Mizugaki.Plan Mizugaki.Control

variable {ρ : Type} (env : Environment ρ)

/-! ### Default values -/

/-- `engine::extract_column_value`. -/
def extractColumnValue : Scalar → Analysis ρ ColumnValue
  | .immediate value type => do
    clearExpressionResolution env (.immediate value type)
    return .immediate value
  | .functionCall function arguments => do
    clearExpressionResolution env (.functionCall function arguments)
    if ! arguments.isEmpty then
      reject .unsupportedFeature
        [.text "function call in default value must not have any parameters"]
    else if ! function.scalarFunction then
      reject .inconsistentFunctionType
        [.text "function call in default value must be a scalar function"]
    else return .function function
  | .cast type policy operand => do
    clearExpressionResolution env (.cast type policy operand)
    extractColumnValue operand
  | e => do
    clearExpressionResolution env e
    reject .unsupportedFeature [.text "default value must be a literal"]

/-- A default value is a value. -/
theorem extractColumnValue_ne_nothing (e : Scalar) :
    Check.Returns (· ≠ .nothing) (extractColumnValue env e) := by
  fun_induction extractColumnValue env e with
  | case1 value type => exact .after fun _ => .pure nofun
  | case2 function arguments =>
    refine .after fun _ => ?_
    split_ifs
    · exact .after fun _ => .stop
    · exact .after fun _ => .stop
    · exact .pure nofun
  | case3 type policy operand ih => exact .after fun _ => ih
  | case4 e => exact .after fun _ => .after fun _ => .stop

/-- `engine::process_column_value`, of a DEFAULT clause. -/
def processDefaultClause (expression : ScalarExpression) (prototype : Column) :
    Analysis ρ ColumnValue := do
  let ((value, _), _) ← withScope .empty
    (analyzeScalarExpression (scalar env expression) (.scalar { type := some prototype.type }))
  extractColumnValue env value

/-- The integer that a value stands for, when it is one. -/
def integerValue : ValueData → Option Int
  | .int4 value => some value
  | .int8 value => some value
  | .decimal coefficient exponent =>
    if 0 ≤ exponent then some (coefficient * 10 ^ exponent.toNat)
    else if coefficient % 10 ^ (-exponent).toNat = 0 then
      some (coefficient / 10 ^ (-exponent).toNat)
    else none
  | _ => none

/-- The least and the greatest value of the type of an identity column. -/
def sequenceBounds (isInt8 : Bool) : Int × Int :=
  if isInt8 then (-2 ^ 63, 2 ^ 63 - 1) else (-2 ^ 31, 2 ^ 31 - 1)

/-- Whether a value needs no range check: a four byte integer always fits, an eight byte integer
fits its own type. -/
def needsNoRangeCheck (isInt8 : Bool) : ValueData → Bool
  | .int4 _ => true
  | .int8 _ => isInt8
  | _ => false

/-- `engine::extract_sequence_value`. -/
def extractSequenceValue (expression : ScalarExpression) (isInt8 : Bool) : Analysis ρ Int := do
  let ((e, _), _) ← withScope .empty (analyzeScalarExpression (scalar env expression))
  match e with
  | .immediate value _ =>
    match integerValue value with
    | none =>
      reject .invalidSequenceValue [.text "sequence value must be an integer literal"]
    | some n =>
      if needsNoRangeCheck isInt8 value then return n
      else if n < (sequenceBounds isInt8).1 ∨ (sequenceBounds isInt8).2 < n then
        reject .invalidSequenceValue [.text "sequence value is out of range: ", .value value]
      else return n
  | _ => reject .invalidSequenceValue [.text "sequence value must be an integer literal"]

/-- The value of an option of a sequence, or its default. -/
def sequenceOption (expression : Option ScalarExpression) (isInt8 : Bool) (default_ : Int) :
    Analysis ρ Int :=
  match expression with
  | none => return default_
  | some e => extractSequenceValue env e isInt8

/-- The increment of a sequence. -/
def sequenceIncrement (expression : Option ScalarExpression) (isInt8 : Bool) : Analysis ρ Int := do
  let increment ← sequenceOption env expression isInt8 1
  if increment = 0 then
    reject .invalidSequenceValue [.text "increment value must not be zero"]
  else return increment

/-- The type of an identity column: whether it is of eight bytes. -/
def identityWidth : TypeData → Analysis ρ Bool
  | .int4 => return false
  | .int8 => return true
  | _ =>
    reject .inconsistentType [.text "IDENTITY column must be INT or BIGINT type"]

/-- `engine::process_column_value`, of an identity column. -/
def processIdentityColumn (constraint : IdentityConstraint) (prototype : Column) :
    Analysis ρ Column := do
  let isInt8 ← identityWidth prototype.type
  let readOnly := prototype.readOnly || decide (constraint.generation = .always)
  let increment ← sequenceIncrement env constraint.incrementValue isInt8
  let ascending := decide (0 < increment)
  let minValue ← sequenceOption env constraint.minValue isInt8
    (if ascending then 1 else (sequenceBounds isInt8).1)
  let maxValue ← sequenceOption env constraint.maxValue isInt8
    (if ascending then (sequenceBounds isInt8).2 else -1)
  let initialValue ← sequenceOption env constraint.initialValue isInt8
    (if ascending then minValue else maxValue)
  if initialValue < minValue ∨ maxValue < initialValue then
    reject .invalidSequenceValue
      [.text "initial value is out of range: ", .integer initialValue,
        .text " (min=", .integer minValue, .text ", max=", .integer maxValue, .text ")"]
  else
    return { prototype with
      readOnly := readOnly
      defaultValue := .sequence
        { initialValue := initialValue, incrementValue := increment, minValue := minValue,
          maxValue := maxValue, cycle := constraint.cycle.getD env.options.defaultSequenceCycle } }

/-! ### Columns -/

/-- A column under definition, with the primary key column met so far. -/
structure ColumnDraft where
  prototype : Column
  sawNullity : Bool
  primaryKey : Option Nat

/-- A default value may be given once. -/
def requireNoDefault (prototype : Column) : Analysis ρ Unit :=
  if prototype.defaultValue ≠ .nothing then
    reject .invalidConstraint [.text "multiple default values are not supported"]
  else return ()

/-- One constraint of a column. What a primary key of a column includes is not read. -/
def processColumnConstraint (d : ColumnDraft) : Constraint → Analysis ρ ColumnDraft
  | .primaryKey _ =>
    if d.primaryKey.isSome then
      reject .primaryIndexAlreadyExists [.text "multiple primary keys are not supported"]
    else if d.sawNullity && d.prototype.nullable then
      reject .invalidConstraint [.text "primary key must not be NULL-able"]
    else
      return { d with
        prototype := { d.prototype with nullable := false }
        primaryKey := some d.prototype.address }
  | .null =>
    if d.sawNullity then
      reject .invalidConstraint [.text "multiple NULL-ity constraints are not supported"]
    else if ! d.prototype.nullable then
      reject .invalidConstraint [.text "primary key must not be NULL-able"]
    else return { d with sawNullity := true, prototype := { d.prototype with nullable := true } }
  | .notNull =>
    if d.sawNullity then
      reject .invalidConstraint [.text "multiple NULL-ity constraints are not supported"]
    else return { d with sawNullity := true, prototype := { d.prototype with nullable := false } }
  | .defaultClause expression => do
    requireNoDefault d.prototype
    let value ← processDefaultClause env expression d.prototype
    return { d with prototype := { d.prototype with defaultValue := value } }
  | .identityColumn constraint => do
    requireNoDefault d.prototype
    let prototype ← processIdentityColumn env constraint d.prototype
    return { d with prototype := prototype }
  | .unsupported _ =>
    reject .unsupportedFeature [.text "unsupported column constraint_def: ", .node]

def processColumnConstraints (d : ColumnDraft) : List Constraint → Analysis ρ ColumnDraft
  | [] => return d
  | c :: cs => do
    let d ← processColumnConstraint env d c
    processColumnConstraints d cs

/-- The columns of a table under definition, with their primary key column. -/
structure ColumnsDraft where
  columns : List Column
  primaryKey : Option Nat

/-- One column of `table_definition`. -/
def processColumnDefinition (tableName : String) (d : ColumnsDraft)
    (definition : ColumnDefinition) : Analysis ρ ColumnsDraft := do
  let name := identifierOf env definition.name .variable
  let type ← analyzeType env definition.type
  if name ∈ d.columns.map Column.simpleName then
    reject .columnAlreadyExists
      [.text "duplicate column in table definition: ", .text tableName, .text ".", .text name]
  else do
    let address ← freshNumber
    let prototype : Column :=
      { address := address, simpleName := name, type := type,
        description := analyzeDescription env definition.description }
    let r ← processColumnConstraints env ⟨prototype, false, d.primaryKey⟩ definition.constraints
    return ⟨d.columns ++ [r.prototype], r.primaryKey⟩

def processColumnDefinitions (tableName : String) (d : ColumnsDraft) :
    List TableElement → Analysis ρ ColumnsDraft
  | [] => return d
  | .columnDefinition definition :: elements => do
    let d ← processColumnDefinition env tableName d definition
    processColumnDefinitions tableName d elements
  | .constraintDefinition _ :: elements => processColumnDefinitions tableName d elements

/-! ### Index keys -/

/-- `engine::to_sort_direction`. -/
def toSortDirection : Option OrderingSpecification → SortDirection
  | some .desc => .descendant
  | _ => .ascendant

/-- The table column that an analyzed key element refers to. -/
def keyColumn (e : Scalar) : Analysis ρ Column :=
  match e with
  | .variableReference (.tableColumn column) => return column
  | _ => reject .unsupportedFeature [.text "index key element must be a table column"]

/-- The elements of `engine::build_index_keys`, in the current scope. -/
def processIndexKeys (saw : List Nat) :
    List SortElement → Analysis ρ (List (Column × SortDirection))
  | [] => return []
  | .mk key _ direction nullLocation :: elements =>
    if nullLocation.isSome then
      reject .unsupportedFeature
        [.text "index key element with NULLS location is not supported"]
    else do
      let (e, _) ← analyzeScalarExpression (scalar env key)
      clearExpressionResolution env e
      let column ← keyColumn e
      if column.address ∈ saw then
        reject .columnAlreadyExists
          [.text "duplicate column in index definition: ", .text column.simpleName]
      else do
        let rest ← processIndexKeys (column.address :: saw) elements
        return (column, toSortDirection direction) :: rest

/-- `engine::build_index_keys`, in a scope of the table alone. -/
def buildIndexKeys (table : Table) (keys : List SortElement) :
    Analysis ρ (List (Column × SortDirection)) := do
  let info ← buildRelationInfo env table false false
  let (keys, _) ← withScope (QueryScope.empty.add info) (processIndexKeys env [] keys)
  match keys with
  | [] => reject .malformedSyntax [.text "index with empty key is not supported"]
  | keys => return keys

/-- The keys of an index on the columns of its table as they are now. -/
def refreshKeys (columns : List Column) (keys : List (Column × SortDirection)) :
    List (Column × SortDirection) :=
  keys.map fun (k, d) => ((columns.find? fun c => c.address = k.address).getD k, d)

/-- The report about storage parameters: the analysis goes on after it. -/
def reportIndexParameters (code : Code) (parameters : List StorageParameter) : Analysis ρ Unit :=
  match parameters with
  | [] => return ()
  | _ :: _ => report code [.text "index parameters are not supported yet"]

/-! ### CREATE TABLE -/

/-- A primary index on keys of a table. -/
def primaryIndexOf (table : Table) (address : Nat) (keys : List (Column × SortDirection)) : Index :=
  { address := address, tableAddress := table.address, tableName := table.simpleName,
    simpleName := "", keys := keys, primary := true }

/-- `engine::process_primary_key`. -/
def processPrimaryKey (constraint : KeyConstraint) (table : Table) : Analysis ρ Index :=
  match constraint.values with
  | _ :: _ => reject .unsupportedFeature [.text "index values are not supported yet"]
  | [] => do
    reportIndexParameters .malformedSyntax constraint.parameters
    let keys ← buildIndexKeys env table constraint.key
    let address ← freshNumber
    return primaryIndexOf table address keys

/-- A table under definition, with its primary index. -/
structure TableDraft where
  table : Table
  primaryIndex : Option Index

/-- Primary key columns are implicitly not nullable. -/
def requireKeys (index : Index) (columns : List Column) : List Column :=
  columns.map fun c => if index.isKey c then { c with nullable := false } else c

/-- One constraint of a table. -/
def processTableConstraint (d : TableDraft) : Constraint → Analysis ρ TableDraft
  | .primaryKey constraint =>
    if d.primaryIndex.isSome then
      reject .primaryIndexAlreadyExists [.text "multiple primary keys are not supported"]
    else do
      let index ← processPrimaryKey env constraint d.table
      return ⟨{ d.table with columns := requireKeys index d.table.columns }, some index⟩
  | _ => reject .unsupportedFeature [.text "unsupported column constraint_def: ", .node]

def processTableConstraints (d : TableDraft) : List TableElement → Analysis ρ TableDraft
  | [] => return d
  | .constraintDefinition body :: elements => do
    let d ← processTableConstraint env d body
    processTableConstraints d elements
  | .columnDefinition _ :: elements => processTableConstraints d elements

/-- The primary index on a column that is declared as primary key. -/
def columnPrimaryIndex (table : Table) (address : Nat) (primaryKey : Nat) : Index :=
  primaryIndexOf table address
    ((table.columns.filter fun c => c.address = primaryKey).map (·, .ascendant))

/-- The implicit default value of a column that is nullable. -/
def fillDefault (c : Column) : Column :=
  if c.nullable ∧ c.defaultValue = .nothing then { c with defaultValue := .immediate .unknown }
  else c

/-- The declarations of a table definition: an index without keys stands in for a missing primary
key. -/
def completeTable (d : TableDraft) (address : Nat) : Table × Index :=
  let columns := d.table.columns.map fillDefault
  let index := d.primaryIndex.getD (primaryIndexOf d.table address [])
  ({ d.table with columns := columns }, { index with keys := refreshKeys columns index.keys })

/-- `table_definition`, when the table does not exist. -/
def defineTable (definition : TableDefinition) : Analysis ρ StatementResult :=
  match definition.name with
  | .qualified _ _ =>
    reject .unsupportedFeature [.text "qualified table table_name is not supported"]
  | .simple name => do
    let tableName := identifierOf env name .relation
    let r ← processColumnDefinitions env tableName ⟨[], none⟩ definition.elements
    match r.columns with
    | [] => reject .malformedSyntax [.text "table definition must have at least one column"]
    | columns => do
      let address ← freshNumber
      let indexAddress ← freshNumber
      let table : Table :=
        { address := address, simpleName := tableName, columns := columns, primaryIndex := none,
          description := analyzeDescription env definition.description }
      let d ← processTableConstraints env
        ⟨table, r.primaryKey.map (columnPrimaryIndex table indexAddress)⟩ definition.elements
      let (table, index) := completeTable d indexAddress
      return .statement (.createTable env.options.defaultSchema table index)

/-- The result when a definition meets an existing declaration. -/
def definedAlready (ifNotExists : Bool) (code : Code) (kind : String) (name : Name) :
    Analysis ρ StatementResult :=
  if ifNotExists then return .statement .empty
  else reject code [.text (kind ++ " is already defined: "), .name name]

/-- `table_definition`. -/
def processTableDefinition (definition : TableDefinition) : Analysis ρ StatementResult :=
  match definition.parameters with
  | _ :: _ => reject .unsupportedFeature [.text "table parameters are not supported yet"]
  | [] => do
    match ← analyzeTableName env definition.name false with
    | some _ =>
      definedAlready (decide (.ifNotExists ∈ definition.options)) .tableAlreadyExists "table"
        definition.name
    | none => defineTable env definition

/-! ### CREATE INDEX -/

/-- The name of an index under definition; an index may have none. -/
def indexName (name : Option Name) : Analysis ρ String :=
  match name with
  | none => return ""
  | some (.simple n) => return identifierOf env n .relation
  | some (.qualified _ _) =>
    reject .unsupportedFeature [.text "qualified index name is not supported"]

/-- `index_definition`, when the index does not exist. -/
def defineIndex (definition : IndexDefinition) : Analysis ρ StatementResult := do
  match ← analyzeTableName env definition.tableName true with
  | none => fail
  | some (_, table) => do
    let name ← indexName env definition.name
    let keys ← buildIndexKeys env table definition.keys
    let address ← freshNumber
    return .statement (.createIndex env.options.defaultSchema
      { address := address, tableAddress := table.address, tableName := table.simpleName,
        simpleName := name, keys := keys, primary := false,
        description := analyzeDescription env definition.description })

/-- The index that a definition would redefine. -/
def existingIndex (name : Option Name) : Analysis ρ (Option (Name × Index)) :=
  match name with
  | none => return none
  | some n => do
    let existing ← analyzeIndexName env n false
    return existing.map fun e => (n, e.2)

/-- What the features of an index definition allow. -/
def checkIndexFeatures (definition : IndexDefinition) : Analysis ρ Unit :=
  if ! definition.values.isEmpty then
    reject .unsupportedFeature [.text "index values are not supported yet"]
  else if definition.predicate.isSome then
    reject .unsupportedFeature [.text "index predicate is not supported yet"]
  else if .unique ∈ definition.options then
    reject .unsupportedFeature [.text "unique index is not supported yet"]
  else reportIndexParameters .unsupportedFeature definition.parameters

/-- `index_definition`. -/
def processIndexDefinition (definition : IndexDefinition) : Analysis ρ StatementResult := do
  checkIndexFeatures definition
  match ← existingIndex env definition.name with
  | some (name, _) =>
    definedAlready (decide (.ifNotExists ∈ definition.options)) .indexAlreadyExists "index" name
  | none => defineIndex env definition

end Mizugaki.Analyzer
