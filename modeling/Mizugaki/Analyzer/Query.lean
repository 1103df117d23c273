import Mizugaki.Analyzer.Scalar
import Mizugaki.Analyzer.SetFunction

/-! Query and table expressions. A query is analyzed clause by clause; its operators are
kept apart until the set functions of all clauses are known, since the aggregate operator
goes below the operators that were built before it. The relations of a FROM clause share
one scope, a join remembers the number of relations before its right operand. -/

namespace Mizugaki.Analyzer

open Mizugaki.Ast Mizugaki.Plan Mizugaki.Control Mizugaki.Data.Chain

variable {ρ : Type} (env : Environment ρ)

/-! ### Relations of tables and of common table expressions -/

/-- The variable of a column: a fresh one, or the column itself. -/
def columnVariable (escapeColumns : Bool) (column : Column) : Analysis ρ Variable :=
  if escapeColumns then streamVariable else return .tableColumn column

/-- The column of a relation for a column of its table. -/
def tableColumnInfo (column : Column) (v : Variable) : ColumnInfo where
  declaration := some column
  variable_ := v
  identifier := some column.simpleName
  exported := ! column.hidden && ! column.synthesized

/-- The columns of `build_relation_info` after the ones of a relation that is under construction. -/
def buildColumns (escapeColumns includeSystemColumns : Bool) (info : RelationInfo) :
    List Column → Analysis ρ RelationInfo
  | [] => return info
  | column :: columns =>
    -- system columns are left out on request only
    if column.synthesized && ! includeSystemColumns then
      buildColumns escapeColumns includeSystemColumns info columns
    else do
      let v ← columnVariable escapeColumns column
      resolveAs env v column
      buildColumns escapeColumns includeSystemColumns (info.add (tableColumnInfo column v)) columns

/-- `build_relation_info`. -/
def buildRelationInfo (table : Table) (escapeColumns includeSystemColumns : Bool) :
    Analysis ρ RelationInfo :=
  buildColumns env escapeColumns includeSystemColumns (.empty (some (.table table)) "") table.columns

/-- The columns of a table that become columns of its relation. -/
def includedColumns (includeSystemColumns : Bool) (columns : List Column) : List Column :=
  columns.filter fun c => ! (c.synthesized && ! includeSystemColumns)

/-- With fresh variables the relation of a table has a column for each included one, in order. -/
theorem buildColumns_escaped {includeSystemColumns : Bool} {info r : RelationInfo}
    {columns : List Column} {s t : AnalyzerState ρ}
    (h : buildColumns env true includeSystemColumns info columns s = (some r, t)) :
    r = info.addAll (List.zipWith tableColumnInfo (includedColumns includeSystemColumns columns)
        (freshStreams s.fresh (includedColumns includeSystemColumns columns).length)) ∧
      t = { s with
        fresh := s.fresh + (includedColumns includeSystemColumns columns).length
        resolution := t.resolution } := by
  induction columns generalizing info s with
  | nil =>
    obtain ⟨rfl, rfl⟩ := (Check.pure_yields ..).mp h
    exact ⟨rfl, rfl⟩
  | cons column columns ih =>
    rw [buildColumns] at h
    by_cases hc : (column.synthesized && ! includeSystemColumns) = true
    · have hk : includedColumns includeSystemColumns (column :: columns)
          = includedColumns includeSystemColumns columns := by
        rw [includedColumns, List.filter_cons_of_neg (by simpa using hc), includedColumns]
      rw [if_pos hc] at h
      rw [hk]
      exact ih h
    · have hk : includedColumns includeSystemColumns (column :: columns)
          = column :: includedColumns includeSystemColumns columns := by
        rw [includedColumns, List.filter_cons_of_pos (by simp [hc]), includedColumns]
      simp only [hc, Bool.false_eq_true, if_false, columnVariable, if_true, resolveAs,
        Check.bind_yields, streamVariable_yields, Check.modify_yields] at h
      obtain ⟨_, _, ⟨rfl, rfl⟩, -, _, rfl, h⟩ := h
      obtain ⟨hr, ht⟩ := ih h
      rw [hk, List.length_cons, freshStreams_succ]
      refine ⟨hr, ht.trans ?_⟩
      rw [Nat.add_assoc, Nat.add_comm 1]

/-- The relation of a table is declared by the table. -/
theorem buildRelationInfo_declaration {table : Table} {includeSystemColumns : Bool}
    {s t : AnalyzerState ρ} {r : RelationInfo}
    (h : buildRelationInfo env table true includeSystemColumns s = (some r, t)) :
    r.declaration = some (.table table) := by
  obtain ⟨rfl, -⟩ := buildColumns_escaped env h
  exact RelationInfo.addAll_declaration ..

/-- What a column of the relation takes from its table column only, in order. -/
theorem buildRelationInfo_map {β : Type} {f : ColumnInfo → β} {g : Column → β}
    (hlink : ∀ p c, f { c with next := p } = f c) (hg : ∀ c v, f (tableColumnInfo c v) = g c)
    {table : Table} {includeSystemColumns : Bool} {s t : AnalyzerState ρ} {r : RelationInfo}
    (h : buildRelationInfo env table true includeSystemColumns s = (some r, t)) :
    r.columns.map f = (includedColumns includeSystemColumns table.columns).map g := by
  obtain ⟨rfl, -⟩ := buildColumns_escaped env h
  rw [RelationInfo.addAll_map hlink, List.map_zipWith]
  change [] ++ _ = _
  rw [List.nil_append]
  refine List.ext_getElem ?_ fun i hi hj => ?_
  · simp [freshStreams]
  · rw [List.getElem_zipWith, List.getElem_map, hg]

@[simp] theorem includedColumns_all (columns : List Column) :
    includedColumns true columns = columns := by
  simp [includedColumns]

/-- The columns of a scan: every column of the relation with its declaration. -/
def scanColumns (info : RelationInfo) : List (Column × Variable) :=
  info.columns.filterMap fun c => c.declaration.map (·, c.variable_)

/-- `engine::process_table_reference`. -/
def processTableReference (table : Table) : Analysis ρ QueryResult := do
  let info ← buildRelationInfo env table true false
  match info.primaryIndex with
  | none =>
    reject .primaryIndexNotFound
      [.text "missing primary index for table: ", .text table.simpleName]
  | some index => do
    let op := Operator.scan index (scanColumns info)
    resolveOperator env op
    return ⟨.source op, info⟩

/-- The columns of a reference to a common table expression, with the mappings to them. -/
def queryReferenceColumns (query : QueryInfo) (destinations : List Variable) : List ColumnInfo :=
  destinations.mapIdx fun i v =>
    { variable_ := v, identifier := (query.outputColumnNames[i]?).join }

/-- `engine::process_query_reference`. A graph always has an output port. -/
def processQueryReference (query : QueryInfo) (relation : Name) : Analysis ρ QueryResult := do
  let destinations ← streamVariables query.outputColumns.length
  let info := (RelationInfo.empty none (identifierOf env relation.lastName .relation)).addAll
    (queryReferenceColumns query destinations)
  let op := Operator.subquery query.queryGraph (query.outputColumns.zip destinations) true
  resolveOperator env op
  return ⟨.source op, info⟩

/-- `engine::process_relation_reference`. -/
def processRelationReference (relation : Name) : Analysis ρ QueryResult := do
  match ← analyzeRelationName env relation with
  | .table t => processTableReference env t
  | .query q => processQueryReference env q relation

/-- Give the first columns of a relation the names of a correlation, which must differ. -/
def renameColumns (names : List SimpleName) (seen : List String) (columns : List ColumnInfo) :
    Analysis ρ (List ColumnInfo) :=
  match names, columns with
  | name :: names, column :: columns => do
    let identifier := identifierOf env name .variable
    if identifier ∈ seen then
      reject .columnAlreadyExists
        [.text "duplicate correlation column name: ", .text identifier]
    else do
      let rest ← renameColumns names (identifier :: seen) columns
      return { column with identifier := some identifier } :: rest
  | _, columns => return columns

/-- `engine::rebuild_relation_info`. -/
def rebuildRelationInfo (info : RelationInfo) (correlation : CorrelationClause) :
    Analysis ρ RelationInfo :=
  if correlation.columnNames.length > info.columns.length then
    reject .inconsistentColumns [.text "too many correlation columns: ", .node]
  else
    let info := info.setIdentifier (identifierOf env correlation.correlationName .relation)
    match correlation.columnNames with
    | [] => return info
    | names => do
      let columns ← renameColumns env names [] info.columns
      return info.rebuild (RelationInfo.erase columns names.length columns.length)

/-! ### Table expressions -/

/-- Add a relation to the current scope. -/
def addRelation (info : RelationInfo) : Analysis ρ Unit := modifyScope (·.add info)

/-- Rebuild a relation under a correlation, when there is one. -/
def correlate (info : RelationInfo) : Option CorrelationClause → Analysis ρ RelationInfo
  | none => return info
  | some correlation => rebuildRelationInfo env info correlation

/-- `table::table_reference`. -/
def processTableExpressionReference (name : Name) (correlation : Option CorrelationClause) :
    Analysis ρ Graph := do
  let result ← processRelationReference env name
  let info ← correlate env result.relation correlation
  addRelation info
  return result.output

/-- `table::subquery`: the query has a scope of its own between it and the FROM clause. -/
def processTableSubquery (isLateral : Bool) (query : QueryAction ρ)
    (correlation : CorrelationClause) : Analysis ρ Graph :=
  if isLateral then reject .unsupportedFeature [.text "LATERAL is not yet supported"]
  else do
    let (result, _) ← withScope .empty (query [] false)
    let info ← rebuildRelationInfo env result.relation correlation
    addRelation info
    return result.output

/-! ### Joins -/

/-- What a join specification makes of the position of the join's right operand. -/
abbrev JoinAction (ρ : Type) := Nat → Analysis ρ Scalar

/-- `table::join_condition`. -/
def processJoinCondition (condition : ScalarAction ρ) : JoinAction ρ := fun _ => do
  let (e, sawAggregate) ← analyzeScalarExpression condition
  if sawAggregate then
    reject .unsupportedFeature
      [.text "aggregated function in JOIN ON clause is not yet supported"]
  else return e

/-- The exported columns of a name that following its chain meets, with their positions. -/
def chainColumns (r : RelationInfo) (identifier : String) : List (Nat × Variable) :=
  (r.chain identifier).filterMap fun
    | .ambiguous => none
    | .at_ i => (r.columns[i]?).bind fun c => if c.exported then some (i, c.variable_) else none

/-- The exported columns of a name in the relations from a position on. -/
def usingColumns (identifier : String) : Nat → List RelationInfo → List (Nat × Nat × Variable)
  | _, [] => []
  | position, r :: rs =>
    (chainColumns r identifier).map (position, ·) ++ usingColumns identifier (position + 1) rs

/-- The only column of a name on one side of a join. -/
def usingColumn (side identifier : String) (columns : List (Nat × Nat × Variable)) :
    Analysis ρ (Nat × Nat × Variable) :=
  match columns with
  | [column] => return column
  | [] =>
    reject .columnNotFound
      [.text "column '", .text identifier, .text "' is not found in join left hand side"]
  | _ =>
    reject .columnAmbiguous
      [.text "column '", .text identifier, .text ("' in join " ++ side ++ " hand side is ambiguous")]

/-- Hide a column of a relation of the current scope. -/
def hideColumn (relation column : Nat) : Analysis ρ Unit := modifyScope (·.hide relation column)

/-- One column of a USING clause: the comparison of both sides, the right one is hidden. -/
def processUsingColumn (pivot : Nat) (name : SimpleName) : Analysis ρ Scalar := do
  let scope ← currentScope
  let id := identifierOf env name .variable
  let (_, _, left) ← usingColumn "left" id (usingColumns id 0 (scope.relations.take pivot))
  let (relation, column, right) ←
    usingColumn "right" id (usingColumns id pivot (scope.relations.drop pivot))
  hideColumn relation column
  return .compare .equal (.variableReference left) (.variableReference right)

/-- The columns of a USING clause, joined by `AND` from the left. -/
def processUsingColumns (pivot : Nat) : Scalar → List SimpleName → Analysis ρ Scalar
  | result, [] => return result
  | result, name :: names => do
    let term ← processUsingColumn env pivot name
    processUsingColumns pivot (.binary .conditionalAnd result term) names

/-- `table::join_columns`. -/
def processJoinColumns (columns : List SimpleName) : JoinAction ρ := fun pivot =>
  match columns with
  | [] => reject .malformedSyntax [.text "join columns must not be empty"]
  | name :: names => do
    let first ← processUsingColumn env pivot name
    let result ← processUsingColumns env pivot first names
    let _ ← resolve env result
    return result

/-- How a join type is analyzed: the kind, whether it is natural and whether its operands are
swapped. -/
def convertJoinType : JoinType → Option (JoinKind × Bool × Bool)
  | .cross => some (.inner, false, false)
  | .inner => some (.inner, false, false)
  | .leftOuter => some (.leftOuter, false, false)
  | .rightOuter => some (.leftOuter, false, true)
  | .fullOuter => some (.fullOuter, false, false)
  | .naturalInner => some (.inner, true, false)
  | .naturalLeftOuter => some (.leftOuter, true, false)
  | .naturalRightOuter => some (.leftOuter, true, true)
  | .naturalFullOuter => some (.fullOuter, true, false)
  | .union_ => none

/-- The condition of a join that is not natural. -/
def processSpecification (pivot : Nat) : Option (JoinAction ρ) → Analysis ρ (Option Scalar)
  | none => return none
  | some specification => do
    let condition ← specification pivot
    return some condition

/-- `engine::process_join`. -/
def processJoin (kind : JoinKind) (natural transpose : Bool) (left right : Analysis ρ Graph)
    (specification : Option (JoinAction ρ)) : Analysis ρ Graph := do
  let l ← left
  let scope ← currentScope
  let pivot := scope.createPivot
  let r ← right
  if natural then
    if specification.isSome then
      reject .invalidUnsignedInteger
        [.text "natural join must not have any more join specifications"]
    else reject .unsupportedFeature [.text "unsupported natural join: ", .node]
  else do
    let condition ← processSpecification pivot specification
    resolveOperator env (.join kind condition)
    return if transpose then .binary (.join kind condition) r l
      else .binary (.join kind condition) l r

/-- `table::join`. -/
def processJoinExpression (type : JoinType) (left right : Analysis ρ Graph)
    (specification : Option (JoinAction ρ)) : Analysis ρ Graph :=
  match convertJoinType type with
  | some (kind, natural, transpose) => processJoin env kind natural transpose left right specification
  | none => reject .unsupportedFeature [.text "UNION JOIN is not yet supported"]

/-! ### Apply -/

/-- `engine::convert`, of an apply type. -/
def convertApplyType : Option ApplyType → ApplyKind
  | some .outer => .outer
  | _ => .cross

/-- The arguments of an apply, each analyzed on its own. -/
def analyzeApplyArguments : List (ScalarAction ρ) → Analysis ρ (List (Scalar × TypeData))
  | [] => return []
  | a :: as => do
    let (value, _) ← analyzeScalarExpression a
    let type ← resolve env value
    let rest ← analyzeApplyArguments as
    return (value, type) :: rest

/-- The table-valued functions that accept the argument types. -/
def applicableTableFunctions (types : List TypeData) (functions : List FunctionDecl) :
    List FunctionDecl :=
  functions.filter fun f => f.tableValuedFunction && isApplicable env types f.parameterTypes

/-- The column names that a table-valued function returns. -/
def returnedColumns (target : FunctionDecl) : Analysis ρ (List String) :=
  let mention := [Fragment.text target.name, .text ", id=", .size target.definitionId]
  match target.returnType with
  | .table [] =>
    reject .inconsistentType ([.text "function returned table has no columns: "] ++ mention)
  | .table columns => return columns
  | _ => reject .inconsistentType ([.text "function must return table type: "] ++ mention)

/-- The names of the columns of an apply that its correlation gives, which must differ. -/
def correlationNames (seen : List String) : List SimpleName → Analysis ρ (List String)
  | [] => return []
  | n :: ns => do
    let name := identifierOf env n .variable
    if name ∈ seen then
      reject .columnAlreadyExists [.text "duplicate column name in correlation: ", .text name]
    else do
      let rest ← correlationNames (name :: seen) ns
      return name :: rest

/-- The names of the columns of an apply: those of the correlation, or else those returned. -/
def applyColumnNames (target : FunctionDecl) (returned : List String)
    (correlation : CorrelationClause) : Analysis ρ (List String) :=
  match correlation.columnNames with
  | [] => return returned.map fun n => identifierOf env ⟨n, .regular⟩ .variable
  | names =>
    if names.length ≠ returned.length then
      reject .inconsistentColumns
        [.text "mismatch column count between correlation and function result: function=",
          .text target.name, .text ", correlation-columns=", .size names.length,
          .text ", function-columns=", .size returned.length]
    else correlationNames env [] names

/-- `table::apply`. The correlation name is taken as it is written. -/
def processApply (operand : Analysis ρ Graph) (type : Option ApplyType) (name : Name)
    (arguments : List (ScalarAction ρ)) (correlation : CorrelationClause) : Analysis ρ Graph := do
  let input ← operand
  let args ← analyzeApplyArguments env arguments
  let functions ← analyzeFunctionName env name arguments.length
  match applicableTableFunctions env (args.map Prod.snd) functions with
  | [] =>
    reject .functionNotFound [.text "table-valued function not declared: ", .name name]
  | f :: fs => do
    let target ← resolveOverload env functionOverload f fs
    let returned ← returnedColumns target
    let variables_ ← streamVariables returned.length
    let names ← applyColumnNames env target returned correlation
    addRelation ((RelationInfo.empty none correlation.correlationName.identifier).addAll
      ((variables_.zip names).map fun (v, n) => { variable_ := v, identifier := some n }))
    let op := Operator.apply (convertApplyType type) target (args.map Prod.fst)
      ((List.range returned.length).zip variables_)
    resolveOperator env op
    return .unary op input

/-! ### The FROM clause -/

/-- Join the rest of the elements of a FROM clause to what was built before them. -/
def processFromElements : Graph → List (Analysis ρ Graph) → Analysis ρ Graph
  | output, [] => return output
  | output, element :: elements => do
    let next ← element
    resolveOperator env (.join .inner none)
    processFromElements (.binary (.join .inner none) output next) elements

/-- `engine::process_from_clause`; without elements it is one row without columns. -/
def processFromClause : List (Analysis ρ Graph) → Analysis ρ Graph
  | [] => do
    resolveOperator env (.values [] [[]])
    addRelation .empty
    return .source (.values [] [[]])
  | element :: elements => do
    let output ← element
    processFromElements env output elements

/-- `WHERE`. -/
def processWhere (where_ : Option (ScalarAction ρ)) (output : Graph) : Analysis ρ Graph :=
  match where_ with
  | none => return output
  | some where_ => do
    let (predicate, sawAggregate) ← analyzeScalarExpression where_
    if sawAggregate then
      reject .unsupportedFeature
        [.text "aggregated function in WHERE clause is not yet supported"]
    else do
      resolveOperator env (.filter predicate)
      return .unary (.filter predicate) output

/-! ### Grouping -/

abbrev GroupingAction (ρ : Type) := SetFunctionProcessor → Analysis ρ SetFunctionProcessor

/-- `query::grouping_column`. -/
def processGroupingColumn (column : ScalarAction ρ) : GroupingAction ρ := fun p => do
  let (e, sawAggregate) ← analyzeScalarExpression column
  if sawAggregate then
    reject .unsupportedFeature [.text "set functions are not allowed in GROUP BY clause"]
  else do
    clearExpressionResolution env e
    match e with
    | .variableReference v => return p.addGroupKey v
    | _ =>
      reject .unsupportedFeature [.text "plain variable is required in GROUP BY clause"]

def processGroupingElements (p : SetFunctionProcessor) :
    List (GroupingAction ρ) → Analysis ρ SetFunctionProcessor
  | [] => return p
  | element :: elements => do
    let p ← element p
    processGroupingElements p elements

/-- `GROUP BY`. -/
def processGroupBy : Option (List (GroupingAction ρ)) → Analysis ρ SetFunctionProcessor
  | none => return {}
  | some elements => processGroupingElements ({ } : SetFunctionProcessor).activate elements

/-- `HAVING`: the condition of a filter. -/
def processHaving (having : Option (ScalarAction ρ)) (p : SetFunctionProcessor) :
    Analysis ρ (Option Scalar × SetFunctionProcessor) :=
  match having with
  | none => return (none, p)
  | some having => do
    let (predicate, _) ← analyzeScalarExpression having
    let (condition, p) ← processSetFunctions env false predicate p.activate
    resolveOperator env (.filter condition)
    return (some condition, p)

/-! ### The select list -/

/-- What the elements of a select list have added so far: columns of the projection, columns of the
relation, and whether a set function was seen. -/
structure SelectList where
  columns : List (Variable × Scalar)
  info : RelationInfo
  sawAggregate : Bool

abbrev SelectAction (ρ : Type) := SelectList → Analysis ρ SelectList

/-- The name of a select column: its alias, or else the last name of a plain reference. -/
def selectColumnName (value : ScalarExpression) (name : Option SimpleName) : String :=
  match name, value with
  | some n, _ => identifierOf env n .variable
  | none, .variableReference reference => identifierOf env reference.lastName .variable
  | none, _ => ""

/-- `query::select_column`. -/
def processSelectColumn (value : ScalarExpression) (action : ScalarAction ρ)
    (name : Option SimpleName) : SelectAction ρ := fun s => do
  let (e, sawAggregate) ← analyzeScalarExpression action
  let v ← streamVariable
  return {
    columns := s.columns ++ [(v, e)]
    info := s.info.add { variable_ := v, identifier := some (selectColumnName env value name) }
    sawAggregate := s.sawAggregate || sawAggregate }

/-- `query::select_asterisk`: the exported columns of one relation, or of all. -/
def processSelectAsterisk (qualifier : Option ScalarExpression) : SelectAction ρ := fun s =>
  match qualifier with
  | some (.variableReference name) => do
    let found ← analyzeRelationInfoName env name
    return { s with info := s.info.addAll found.exportedColumns }
  | some _ => reject .unsupportedFeature [.text "qualifier must be a plain name"]
  | none => do
    let scope ← currentScope
    match scope.relations.flatMap RelationInfo.exportedColumns with
    | [] => reject .unsupportedFeature [.text "cannot use '*' for empty relations"]
    | columns => return { s with info := s.info.addAll columns }

def processSelectElements (s : SelectList) : List (SelectAction ρ) → Analysis ρ SelectList
  | [] => return s
  | element :: elements => do
    let s ← element s
    processSelectElements s elements

/-- `SELECT`. -/
def processSelect (elements : List (SelectAction ρ)) : Analysis ρ SelectList := do
  let s ← processSelectElements ⟨[], .empty, false⟩ elements
  resolveOperator env (.project s.columns)
  return s

/-- `SELECT DISTINCT`: the keys of a distinct operator. -/
def processDistinct (quantifier : Option Ast.SetQuantifier) (info : RelationInfo) :
    Analysis ρ (Option (List Variable)) :=
  match quantifier with
  | some .distinct => do
    let keys := info.columns.map ColumnInfo.variable_
    resolveOperator env (.distinct keys)
    return some keys
  | _ => return none

/-! ### ORDER BY and LIMIT -/

/-- `common::sort_element`, with the analysis of its key. -/
structure SortSpecification (ρ : Type) where
  key : ScalarAction ρ
  collation : Option Name
  direction : Option OrderingSpecification
  nullLocation : Option NullOrderingSpecification

/-- The columns of the sort projection and the sort keys, and whether a set function was seen. -/
structure SortList where
  columns : List (Variable × Scalar)
  keys : List (Variable × SortDirection)
  sawAggregate : Bool

/-- `engine::convert`, of an ordering specification. -/
def convertOrdering : Option OrderingSpecification → SortDirection
  | some .desc => .descendant
  | _ => .ascendant

/-- The report about the place of nulls: the analysis goes on after it. -/
def reportNullLocation (nullLocation : Option NullOrderingSpecification) : Analysis ρ Unit :=
  if nullLocation.isSome then
    report .unsupportedFeature [.text "NULLS FIRST/LAST in ORDER BY is not yet supported"]
  else return ()

/-- One element of `ORDER BY`. -/
def processSortElement (spec : SortSpecification ρ) (s : SortList) : Analysis ρ SortList :=
  if spec.collation.isSome then
    reject .unsupportedFeature [.text "collation in ORDER BY is not yet supported"]
  else do
    reportNullLocation spec.nullLocation
    let (e, sawAggregate) ← analyzeScalarExpression spec.key
    match e with
    | .immediate _ _ =>
      reject .unsupportedFeature [.text "plain literal is not allowed in ORDER BY clause"]
    | _ => do
      let v ← streamVariable
      return {
        columns := s.columns ++ [(v, e)]
        keys := s.keys ++ [(v, convertOrdering spec.direction)]
        sawAggregate := s.sawAggregate || sawAggregate }

def processSortElements (s : SortList) : List (SortSpecification ρ) → Analysis ρ SortList
  | [] => return s
  | spec :: specs => do
    let s ← processSortElement spec s
    processSortElements s specs

/-- `ORDER BY`. -/
def processOrderBy (specs : List (SortSpecification ρ)) : Analysis ρ (Option SortList) :=
  match specs with
  | [] => return none
  | _ => do
    let s ← processSortElements ⟨[], [], false⟩ specs
    resolveOperator env (.project s.columns)
    resolveOperator env (.limit none [] s.keys)
    return some s

/-- `engine::extract_int_value`. -/
def extractIntValue : ValueData → Option Int
  | .int4 value => some value
  | .int8 value => some value
  | _ => none

/-- `engine::extract_size`. -/
def extractSize (e : Scalar) : Analysis ρ Nat := do
  clearExpressionResolution env e
  match e with
  | .immediate value _ =>
    match extractIntValue value with
    | some (.ofNat n) => return n
    | _ =>
      reject .invalidUnsignedInteger [.text "not a valid unsigned integer: ", .value value]
  | _ => reject .invalidUnsignedInteger [.text "must be a unsigned integer: ", .node]

/-- `LIMIT`: the count of the limit operator of `ORDER BY`, or of one of its own. -/
def processLimit (limit : Option (ScalarAction ρ)) (sorted : Bool) : Analysis ρ (Option Nat) :=
  match limit with
  | none => return none
  | some limit => do
    let (e, _) ← analyzeScalarExpression limit
    let count ← extractSize env e
    if sorted then return some count
    else do
      resolveOperator env (.limit (some count) [] [])
      return some count

/-! ### The query -/

/-- The operators of a query above its FROM and WHERE part. -/
structure QueryBlock where
  having : Option Scalar
  columns : List (Variable × Scalar)
  distinct : Option (List Variable)
  sort : Option SortList
  limit : Option Nat

namespace QueryBlock

def stack (operator_ : Option Operator) (port : Graph) : Graph :=
  match operator_ with
  | none => port
  | some op => .unary op port

/-- The graph of a query on an output port: with `ORDER BY` the count of `LIMIT` belongs to the limit
operator of the sort. -/
def graph (b : QueryBlock) (port : Graph) : Graph :=
  let filtered := stack (b.having.map .filter) port
  let projected := Graph.unary (.project b.columns) filtered
  let distinct := stack (b.distinct.map .distinct) projected
  match b.sort with
  | some s => .unary (.limit b.limit [] s.keys) (.unary (.project s.columns) distinct)
  | none => stack (b.limit.map fun n => .limit (some n) [] []) distinct

end QueryBlock

/-- Take the set functions out of the columns of a projection; they count as aggregated from then
on. -/
def processColumns : List (Variable × Scalar) → SetFunctionProcessor →
    Analysis ρ (List (Variable × Scalar) × SetFunctionProcessor)
  | [], p => return ([], p)
  | (v, e) :: columns, p => do
    let (e, p) ← processSetFunctions env false e p
    let (rest, p) ← processColumns columns (p.addAggregated v)
    return ((v, e) :: rest, p)

/-- The sort projection, without set functions. -/
def processSortColumns (sort : Option SortList) (p : SetFunctionProcessor) :
    Analysis ρ (Option SortList × SetFunctionProcessor) :=
  match sort with
  | none => return (none, p)
  | some s => do
    let (columns, p) ← processColumns env s.columns p
    return (some { s with columns := columns }, p)

/-- Resolve the sort projection once more. -/
def resolveSort (sort : Option SortList) : Analysis ρ Unit :=
  match sort with
  | none => return ()
  | some s => resolveOperator env (.project s.columns)

/-- The last step of `engine::process_query`: install the set functions below the operators of the
query. -/
def installSetFunctions (p : SetFunctionProcessor) (entry : Graph) (b : QueryBlock) :
    Analysis ρ Graph :=
  if p.active then do
    let (columns, p) ← processColumns env b.columns p
    let (sort, p) ← processSortColumns env b.sort p
    let port ← install env p entry
    resolveOperator env (.project columns)
    resolveSort env sort
    return { b with columns := columns, sort := sort }.graph port
  else return b.graph entry

/-- The clauses of a query, as actions. -/
structure QueryClauses (ρ : Type) where
  quantifier : Option Ast.SetQuantifier
  elements : List (SelectAction ρ)
  from_ : List (Analysis ρ Graph)
  where_ : Option (ScalarAction ρ)
  groupBy : Option (List (GroupingAction ρ))
  having : Option (ScalarAction ρ)
  orderBy : List (SortSpecification ρ)
  limit : Option (ScalarAction ρ)

/-- Activate the processor when a select or sort list has set functions. -/
def activateFor (s : SelectList) (sort : Option SortList) (p : SetFunctionProcessor) :
    SetFunctionProcessor :=
  if s.sawAggregate || sort.any SortList.sawAggregate then p.activate else p

/-- `engine::process_query`. -/
def processQuery (c : QueryClauses ρ) : Analysis ρ QueryResult := do
  let from_ ← processFromClause env c.from_
  let entry ← processWhere env c.where_ from_
  let p ← processGroupBy c.groupBy
  let (having, p) ← processHaving env c.having p
  let select ← processSelect env c.elements
  let distinct ← processDistinct env c.quantifier select.info
  let sort ← processOrderBy env c.orderBy
  let limit ← processLimit env c.limit sort.isSome
  let output ← installSetFunctions env (activateFor select sort p) entry
    { having := having, columns := select.columns, distinct := distinct, sort := sort,
      limit := limit }
  return ⟨output, select.info⟩

/-- The phases of a query that was analyzed: what each clause yields, and the states between. -/
structure QueryRun (c : QueryClauses ρ) (s t : AnalyzerState ρ) (r : QueryResult) where
  from_ : Graph
  afterFrom : AnalyzerState ρ
  fromRun : processFromClause env c.from_ s = (some from_, afterFrom)
  entry : Graph
  afterWhere : AnalyzerState ρ
  whereRun : processWhere env c.where_ from_ afterFrom = (some entry, afterWhere)
  grouped : SetFunctionProcessor
  afterGroupBy : AnalyzerState ρ
  groupByRun : processGroupBy c.groupBy afterWhere = (some grouped, afterGroupBy)
  having : Option Scalar
  filtered : SetFunctionProcessor
  afterHaving : AnalyzerState ρ
  havingRun : processHaving env c.having grouped afterGroupBy = (some (having, filtered), afterHaving)
  select : SelectList
  afterSelect : AnalyzerState ρ
  selectRun : processSelect env c.elements afterHaving = (some select, afterSelect)
  distinct : Option (List Variable)
  afterDistinct : AnalyzerState ρ
  distinctRun :
    processDistinct env c.quantifier select.info afterSelect = (some distinct, afterDistinct)
  sort : Option SortList
  afterOrderBy : AnalyzerState ρ
  orderByRun : processOrderBy env c.orderBy afterDistinct = (some sort, afterOrderBy)
  limit : Option Nat
  afterLimit : AnalyzerState ρ
  limitRun : processLimit env c.limit sort.isSome afterOrderBy = (some limit, afterLimit)
  installRun :
    installSetFunctions env (activateFor select sort filtered) entry
      { having := having, columns := select.columns, distinct := distinct, sort := sort,
        limit := limit } afterLimit = (some r.output, t)
  relation : r.relation = select.info

theorem processQuery_run {c : QueryClauses ρ} {s t : AnalyzerState ρ} {r : QueryResult}
    (h : processQuery env c s = (some r, t)) : Nonempty (QueryRun env c s t r) := by
  simp only [processQuery, Check.bind_yields, Check.pure_yields] at h
  obtain ⟨from_, afterFrom, hfrom, entry, afterWhere, hwhere, grouped, afterGroupBy, hgroup,
    ⟨having, filtered⟩, afterHaving, hhaving, select, afterSelect, hselect, distinct, afterDistinct,
    hdistinct, sort, afterOrderBy, hsort, limit, afterLimit, hlimit, output, afterInstall, hinstall,
    rfl, rfl⟩ := h
  exact ⟨⟨from_, afterFrom, hfrom, entry, afterWhere, hwhere, grouped, afterGroupBy, hgroup, having,
    filtered, afterHaving, hhaving, select, afterSelect, hselect, distinct, afterDistinct, hdistinct,
    sort, afterOrderBy, hsort, limit, afterLimit, hlimit, hinstall, rfl⟩⟩

/-! ### Other query expressions -/

/-- A query that continues a scope needs one. -/
def requireScope : Analysis ρ Unit := do
  let scopes ← Check.gets AnalyzerState.scopes
  match scopes with
  | [] => reject .unknown [.text "scope to continue is not available"]
  | _ => return ()

/-- Run in the current scope, or in a new one below it. -/
def inScope {α : Type} (continueScope : Bool) (m : Analysis ρ α) : Analysis ρ α :=
  if continueScope then do
    requireScope
    m
  else do
    let (a, _) ← withScope .empty m
    return a

theorem inScope_yields {α : Type} {continueScope : Bool} {m : Analysis ρ α} {s t : AnalyzerState ρ}
    {a : α} (h : inScope continueScope m s = (some a, t)) :
    (continueScope = true ∧ s.scopes ≠ [] ∧ m s = (some a, t)) ∨
    (continueScope = false ∧ ∃ u, m (s.enter .empty) = (some a, u) ∧ u.leave = t) := by
  cases continueScope with
  | true =>
    simp only [inScope, if_true, requireScope, Check.bind_yields, Check.gets_yields] at h
    obtain ⟨_, u, ⟨_, v, ⟨rfl, rfl⟩, hr⟩, hm⟩ := h
    rcases hs : s.scopes with _ | ⟨scope, scopes⟩
    · rw [hs] at hr
      cases hr
    · rw [hs] at hr
      cases hr
      exact .inl ⟨rfl, List.cons_ne_nil _ _, hm⟩
  | false =>
    simp only [inScope, Bool.false_eq_true, if_false, Check.bind_yields, Check.pure_yields] at h
    obtain ⟨⟨b, left⟩, u, hw, rfl, rfl⟩ := h
    obtain ⟨v, hm, -, hl⟩ := (withScope_yields ..).mp hw
    exact .inr ⟨rfl, v, hm, hl⟩

/-- What runs in a scope runs somewhere. -/
theorem inScope_some {α : Type} {continueScope : Bool} {m : Analysis ρ α} {s t : AnalyzerState ρ}
    {a : α} (h : inScope continueScope m s = (some a, t)) : ∃ u v, m u = (some a, v) := by
  obtain ⟨-, -, hm⟩ | ⟨-, u, hm, -⟩ := inScope_yields h
  · exact ⟨s, t, hm⟩
  · exact ⟨_, u, hm⟩

/-- The elements of a row, each in the context of its column. -/
def analyzeRow (context : List ScalarValueContext) : Nat → List (ScalarAction ρ) →
    Analysis ρ (List Scalar)
  | _, [] => return []
  | index, e :: es => do
    let (value, _) ← analyzeScalarExpression e (.scalar (context.getD index {}))
    let rest ← analyzeRow context (index + 1) es
    return value :: rest

/-- The rows of a table value constructor; a row that is not written as one has no elements. -/
def analyzeRows (context : List ScalarValueContext) :
    List (Option (List (ScalarAction ρ))) → Analysis ρ (List (List Scalar))
  | [] => return []
  | none :: _ =>
    reject .unsupportedFeature [.text "table value constructor element: ", .node]
  | some elements :: rows => do
    let row ← analyzeRow context 0 elements
    let rest ← analyzeRows context rows
    return row :: rest

/-- `engine::process_table_value_constructor`. -/
def processTableValueConstructor (elements : List (Option (List (ScalarAction ρ))))
    (context : List ScalarValueContext) : Analysis ρ QueryResult := do
  let rows ← analyzeRows context elements
  let columns ← streamVariables ((rows.map List.length).foldl max 0)
  let op := Operator.values columns rows
  resolveOperator env op
  return ⟨.source op,
    RelationInfo.empty.addAll (columns.map fun v => { variable_ := v, identifier := none })⟩

/-- The quantifier of a set operation is `DISTINCT` unless it is `ALL`. -/
def convertSetQuantifier : Option Ast.SetQuantifier → Plan.SetQuantifier
  | some .all => .all
  | _ => .distinct

/-- `engine::process_union`, on the outputs of its operands and the columns that it takes of them. -/
def processUnion (quantifier : Plan.SetQuantifier) (left right : Graph)
    (lefts rights : List ColumnInfo) : Analysis ρ QueryResult := do
  let outputs ← streamVariables lefts.length
  let op := Operator.union_ quantifier
    ((lefts.map ColumnInfo.variable_).zip ((rights.map ColumnInfo.variable_).zip outputs))
  resolveOperator env op
  return ⟨.binary op left right,
    RelationInfo.empty.addAll
      ((outputs.zip lefts).map fun (v, c) => { variable_ := v, identifier := c.identifier })⟩

/-- `engine::process_except_intersect`, on the outputs of its operands and the columns that it
takes of them. -/
def processExceptIntersect (operator_ : List (Variable × Variable) → Operator)
    (left right : Graph) (lefts rights : List ColumnInfo) : Analysis ρ QueryResult := do
  let op := operator_ ((lefts.map ColumnInfo.variable_).zip (rights.map ColumnInfo.variable_))
  return ⟨.binary op left right,
    RelationInfo.empty.addAll
      (lefts.map fun c => { variable_ := c.variable_, identifier := c.identifier })⟩

/-- The set operations that have an analysis. -/
inductive SetOperation where
  | union_ | except | intersect
  deriving DecidableEq, Repr

/-- The operator of the syntax tree. -/
def SetOperation.operator : SetOperation → QueryOperator
  | union_ => .union_
  | except => .except
  | intersect => .intersect

/-- A set operation on operands of one column count. -/
def processSetOperation (operation : SetOperation) (quantifier : Plan.SetQuantifier)
    (left right : Graph) (lefts rights : List ColumnInfo) : Analysis ρ QueryResult :=
  if lefts.length ≠ rights.length then
    reject .inconsistentColumns [.text "column count mismatch"]
  else
    match operation with
    | .union_ => processUnion env quantifier left right lefts rights
    | .except => processExceptIntersect (.difference quantifier) left right lefts rights
    | .intersect => processExceptIntersect (.intersection quantifier) left right lefts rights

/-- A set operation, with the analysis of its operands. -/
def processOperandQueries (operation : SetOperation) (left right : QueryAction ρ)
    (quantifier : Option Ast.SetQuantifier) (corresponding : Bool)
    (context : List ScalarValueContext) : Analysis ρ QueryResult :=
  if corresponding then
    reject .unsupportedFeature [.text "CORRESPONDING clause is not yet supported"]
  else do
    let l ← left context false
    let r ← right context false
    processSetOperation env operation (convertSetQuantifier quantifier) l.output r.output
      l.relation.exportedColumns r.relation.exportedColumns

/-- `query::binary_expression`. -/
def processBinaryQuery (left : QueryAction ρ) (operator_ : QueryOperator)
    (quantifier : Option Ast.SetQuantifier) (corresponding : Bool) (right : QueryAction ρ)
    (context : List ScalarValueContext) : Analysis ρ QueryResult :=
  match operator_ with
  | .union_ => processOperandQueries env .union_ left right quantifier corresponding context
  | .except => processOperandQueries env .except left right quantifier corresponding context
  | .intersect => processOperandQueries env .intersect left right quantifier corresponding context
  | .outerUnion => reject .unsupportedFeature [.text "unsupported binary operator: ", .node]

/-- A binary query that was analyzed is a set operation on its operands. -/
theorem processBinaryQuery_yields {left right : QueryAction ρ} {operator_ : QueryOperator}
    {quantifier : Option Ast.SetQuantifier} {corresponding : Bool}
    {context : List ScalarValueContext} {s t : AnalyzerState ρ} {result : QueryResult}
    (h : processBinaryQuery env left operator_ quantifier corresponding right context s
      = (some result, t)) :
    ∃ operation l u r v, operator_ = SetOperation.operator operation ∧ corresponding = false ∧
      left context false s = (some l, u) ∧ right context false u = (some r, v) ∧
      processSetOperation env operation (convertSetQuantifier quantifier) l.output r.output
        l.relation.exportedColumns r.relation.exportedColumns v = (some result, t) := by
  have hoperands : ∀ operation,
      processOperandQueries env operation left right quantifier corresponding context s
        = (some result, t) →
      ∃ l u r v, corresponding = false ∧ left context false s = (some l, u) ∧
        right context false u = (some r, v) ∧
        processSetOperation env operation (convertSetQuantifier quantifier) l.output r.output
          l.relation.exportedColumns r.relation.exportedColumns v = (some result, t) := by
    intro operation h
    cases corresponding with
    | true => cases h
    | false =>
      simp only [processOperandQueries, Bool.false_eq_true, if_false, Check.bind_yields] at h
      obtain ⟨l, u, hl, r, v, hr, h⟩ := h
      exact ⟨l, u, r, v, rfl, hl, hr, h⟩
  cases operator_ with
  | union_ =>
    obtain ⟨l, u, r, v, hc⟩ := hoperands .union_ h
    exact ⟨.union_, l, u, r, v, rfl, hc⟩
  | except =>
    obtain ⟨l, u, r, v, hc⟩ := hoperands .except h
    exact ⟨.except, l, u, r, v, rfl, hc⟩
  | intersect =>
    obtain ⟨l, u, r, v, hc⟩ := hoperands .intersect h
    exact ⟨.intersect, l, u, r, v, rfl, hc⟩
  | outerUnion => cases h

/-! ### Common table expressions -/

/-- `query::with_element`, with the analysis of its query. -/
structure CommonTable (ρ : Type) where
  name : SimpleName
  columnNames : List SimpleName
  query : QueryAction ρ

/-- The column names that a common table element declares, which must differ. -/
def declaredColumnNames (seen : List String) : List SimpleName → Analysis ρ (List (Option String))
  | [] => return []
  | n :: ns => do
    let identifier := identifierOf env n .variable
    if identifier ∈ seen then
      reject .columnAlreadyExists
        [.text "duplicate column name in common table expression: ", .name (.simple n)]
    else do
      let rest ← declaredColumnNames (identifier :: seen) ns
      return some identifier :: rest

/-- The names of the columns of a common table: those it declares, or else those of its query. -/
def commonTableColumnNames (declared : List SimpleName) (names : List (Option String)) :
    Analysis ρ (List (Option String)) :=
  match declared with
  | [] => return names
  | declared =>
    if declared.length ≠ names.length then
      reject .inconsistentColumns
        [.text "common table expression column count mismatch: expected ", .size names.length,
          .text " but got ", .size declared.length]
    else declaredColumnNames env [] declared

/-- Enter a query into the current scope. -/
def addQuery (name : SimpleName) (query : QueryInfo) : Analysis ρ Unit := do
  let scope ← currentScope
  match scope.addQuery (identifierOf env name .relation) query with
  | some extended => modifyScope fun _ => extended
  | none =>
    reject .viewAlreadyExists
      [.text "common table element is already declared as the same name: ", .name (.simple name)]

/-- The queries of the scopes once one was entered: it, and those before. -/
theorem addQuery_queries {name : SimpleName} {query : QueryInfo} {s t : AnalyzerState ρ} {a : Unit}
    (h : addQuery env name query s = (some a, t)) :
    t = { s with scopes := t.scopes } ∧
      ∀ scope ∈ t.scopes, ∀ n q, scope.queryMap n = some q →
        q = query ∨ ∃ x ∈ s.scopes, x.queryMap n = some q := by
  simp only [addQuery, Check.bind_yields, currentScope_yields] at h
  obtain ⟨_, _, ⟨rfl, rfl⟩, h⟩ := h
  cases hfound : s.scope.queryMap (identifierOf env name .relation) with
  | some q =>
    rw [QueryScope.addQuery, hfound] at h
    cases h
  | none =>
    simp only [QueryScope.addQuery, hfound] at h
    obtain rfl := (Check.modify_yields ..).mp h
    refine ⟨rfl, fun scope hscope n q hq => ?_⟩
    cases hscopes : s.scopes with
    | nil =>
      rw [hscopes] at hscope
      cases hscope
    | cons first rest =>
      have hfirst : s.scope = first := by rw [AnalyzerState.scope, hscopes]; rfl
      rw [hscopes, hfirst] at hscope
      obtain rfl | hscope := List.mem_cons.mp hscope
      · change Function.update first.queryMap _ (some query) n = some q at hq
        rw [Function.update_apply] at hq
        split_ifs at hq
        · exact .inl (Option.some.inj hq).symm
        · exact .inr ⟨first, List.mem_cons_self, hq⟩
      · exact .inr ⟨scope, List.mem_cons_of_mem _ hscope, hq⟩

/-- Enter the query of a common table element, with the columns that are taken of it. -/
def declareCommonTable (name : SimpleName) (columnNames : List SimpleName) (output : Graph)
    (columns : List ColumnInfo) : Analysis ρ Unit := do
  let names ← commonTableColumnNames env columnNames (columns.map ColumnInfo.identifier)
  addQuery env name ⟨output, columns.map ColumnInfo.variable_, names⟩

/-- `engine::process_with_common_table_element`. -/
def processCommonTable (element : CommonTable ρ) : Analysis ρ Unit := do
  let (result, _) ← withScope (.empty { independent := true }) (element.query [] false)
  declareCommonTable env element.name element.columnNames result.output
    result.relation.exportedColumns

def processCommonTables : List (CommonTable ρ) → Analysis ρ Unit
  | [] => return ()
  | element :: elements => do
    processCommonTable env element
    processCommonTables elements

/-- `engine::process_with_common_table`: the query continues the scope of the common tables. -/
def processWith (isRecursive : Bool) (elements : List (CommonTable ρ)) (query : QueryAction ρ)
    (context : List ScalarValueContext) : Analysis ρ QueryResult :=
  if isRecursive then reject .unsupportedFeature [.text "RECURSIVE is not yet supported"]
  else do
    processCommonTables env elements
    query context true

end Mizugaki.Analyzer
