import Mizugaki.Analyzer.Query

/-! The traversal of the syntax tree. Every node hands the analyses of its children to
the function of its kind; a child that a function inspects, rather than analyzes, is
handed over as it is. -/

namespace Mizugaki.Analyzer

open Mizugaki.Ast Mizugaki.Plan

variable {ρ : Type} (env : Environment ρ)

mutual

/-- `scalar::dispatch`, within `engine::process`. -/
def scalar : ScalarExpression → ScalarAction ρ
  | .literalExpression value, context =>
    process env (analyzeLiteral env value (context.find 0))
  | .variableReference name, _ => process env (analyzeVariableName env name)
  | .hostParameterReference name, _ => process env (processHostParameter env name)
  | .caseExpression operand whenClauses defaultResult, context =>
    process env (processCase (scalarOption operand) (scalarPairs whenClauses)
      (scalarOption defaultResult) context)
  | .castExpression operator_ operand type, _ =>
    process env (processCast env operator_ (scalar operand) type)
  | .unaryExpression operator_ operand, _ => process env (processUnary operator_ (scalar operand))
  | .binaryExpression left operator_ right, _ =>
    process env (processBinary (scalar left) operator_ right (scalar right))
  | .extractExpression field subsecondDigits operand, _ =>
    process env (processExtract env field subsecondDigits (scalar operand))
  | .valueConstructor _ _, _ =>
    process env (reject .unsupportedFeature [.text "unsupported scalar expression: ", .node])
  | .subquery q contextKind, _ => process env (processSubquery (query q) contextKind)
  | .comparisonPredicate left operator_ right, _ =>
    process env (processComparison (scalar left) operator_ (scalar right))
  | .quantifiedComparisonPredicate left operator_ quantifier right, _ =>
    process env (processQuantifiedComparison (scalar left) operator_ quantifier (query right))
  | .betweenPredicate target isNot operator_ left right, _ =>
    process env (processBetween (scalar target) isNot operator_ (scalar left) (scalar right))
  | .inPredicate left isNot right, _ =>
    process env (processIn (scalar left) isNot (inValues right) (query right))
  | .patternMatchPredicate matchValue isNot operator_ pattern escape, _ =>
    process env (processPatternMatch (scalar matchValue) isNot operator_ (scalar pattern)
      (scalarOption escape))
  | .tablePredicate operator_ operand, _ =>
    process env (processTablePredicate operator_ (query operand))
  | .functionInvocation name arguments, _ =>
    process env (processFunctionInvocation env name (scalars arguments))
  | .builtinFunctionInvocation function arguments, _ =>
    process env (processBuiltinFunction env function (scalars arguments))
  | .builtinSetFunctionInvocation function quantifier arguments, _ =>
    process env (processBuiltinSetFunction env function quantifier (scalars arguments))
  | .placeholderReference index, _ => process env (processPlaceholder env index)
  | .unsupported _, _ =>
    process env (reject .unsupportedFeature [.text "unsupported scalar expression: ", .node])
termination_by structural e => e

def scalars : List ScalarExpression → List (ScalarAction ρ)
  | [] => []
  | e :: es => scalar e :: scalars es
termination_by structural es => es

def scalarOption : Option ScalarExpression → Option (ScalarAction ρ)
  | none => none
  | some e => some (scalar e)
termination_by structural e => e

def scalarPairs : List (ScalarExpression × ScalarExpression) → List (ScalarAction ρ × ScalarAction ρ)
  | [] => []
  | (a, b) :: rest => (scalar a, scalar b) :: scalarPairs rest
termination_by structural pairs => pairs

/-- `engine::as_row_value_constructor`. -/
def rowElements : ScalarExpression → Option (List (ScalarAction ρ))
  | .valueConstructor .row elements => some (scalars elements)
  | _ => none
termination_by structural e => e

def rows : List ScalarExpression → List (Option (List (ScalarAction ρ)))
  | [] => []
  | e :: es => rowElements e :: rows es
termination_by structural es => es

/-- The elements of a table value constructor on the right of `IN`. -/
def inValues : QueryExpression → Option (List (ScalarAction ρ))
  | .tableValueConstructor elements => some (scalars elements)
  | _ => none
termination_by structural q => q

/-- `query::dispatch`. -/
def query : QueryExpression → QueryAction ρ
  | .query quantifier elements from_ where_ groupBy having orderBy limit, _, continueScope =>
    inScope continueScope (processQuery env
      { quantifier := quantifier
        elements := selectElements elements
        from_ := tableExpressions from_
        where_ := scalarOption where_
        groupBy := groupingClause groupBy
        having := scalarOption having
        orderBy := sortElements orderBy
        limit := scalarOption limit })
  | .tableReference name, _, continueScope =>
    inScope continueScope (processRelationReference env name)
  | .tableValueConstructor elements, context, continueScope =>
    inScope continueScope (processTableValueConstructor env (rows elements) context)
  | .binaryExpression left operator_ quantifier corresponding right, context, _ =>
    processBinaryQuery env (query left) operator_ quantifier corresponding.isSome (query right)
      context
  | .withExpression isRecursive elements expression, context, continueScope =>
    inScope continueScope
      (processWith env isRecursive (withElements elements) (query expression) context)
termination_by structural q => q

def selectElement : SelectElement → SelectAction ρ
  | .selectColumn value name => processSelectColumn env value (scalar value) name
  | .selectAsterisk qualifier => processSelectAsterisk env qualifier
termination_by structural e => e

def selectElements : List SelectElement → List (SelectAction ρ)
  | [] => []
  | e :: es => selectElement e :: selectElements es
termination_by structural es => es

def groupingElement : GroupingElement → GroupingAction ρ
  | .groupingColumn column _ => processGroupingColumn env (scalar column)
termination_by structural e => e

def groupingElements : List GroupingElement → List (GroupingAction ρ)
  | [] => []
  | e :: es => groupingElement e :: groupingElements es
termination_by structural es => es

def groupingClause : Option (List GroupingElement) → Option (List (GroupingAction ρ))
  | none => none
  | some es => some (groupingElements es)
termination_by structural es => es

def sortElement : SortElement → SortSpecification ρ
  | .mk key collation direction nullLocation => ⟨scalar key, collation, direction, nullLocation⟩
termination_by structural e => e

def sortElements : List SortElement → List (SortSpecification ρ)
  | [] => []
  | e :: es => sortElement e :: sortElements es
termination_by structural es => es

def withElement : WithElement → CommonTable ρ
  | .mk name columnNames expression => ⟨name, columnNames, query expression⟩
termination_by structural e => e

def withElements : List WithElement → List (CommonTable ρ)
  | [] => []
  | e :: es => withElement e :: withElements es
termination_by structural es => es

/-- `table::dispatch`. -/
def tableExpression : TableExpression → Analysis ρ Graph
  | .tableReference _ name correlation => processTableExpressionReference env name correlation
  | .unnest _ _ _ =>
    reject .unsupportedFeature [.text "unsupported table expression: ", .node]
  | .join left type right specification =>
    processJoinExpression env type (tableExpression left) (tableExpression right)
      (specificationOption specification)
  | .subquery isLateral expression correlation =>
    processTableSubquery env isLateral (query expression) correlation
  | .apply operand type name arguments correlation =>
    processApply env (tableExpression operand) type name (scalars arguments) correlation
termination_by structural t => t

def tableExpressions : List TableExpression → List (Analysis ρ Graph)
  | [] => []
  | t :: ts => tableExpression t :: tableExpressions ts
termination_by structural ts => ts

def joinSpecification : JoinSpecification → JoinAction ρ
  | .joinCondition expression => processJoinCondition (scalar expression)
  | .joinColumns columns => processJoinColumns env columns
termination_by structural s => s

def specificationOption : Option JoinSpecification → Option (JoinAction ρ)
  | none => none
  | some s => some (joinSpecification s)
termination_by structural s => s

end

/-- `analyze_query_expression`. -/
def analyzeQueryExpression (expression : QueryExpression) (context : List ScalarValueContext) :
    Analysis ρ QueryResult :=
  query env expression context false

end Mizugaki.Analyzer
