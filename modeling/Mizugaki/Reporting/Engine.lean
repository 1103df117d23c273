import Mizugaki.Reporting.Query

/-! The number of reports of an accepted expression, read off its syntax tree. A cast operator
that is not supported and the place of nulls in an ORDER BY element are reported and then
ignored; every other report is followed by a failure. Parts that are never visited do not
count. -/

namespace Mizugaki.Analyzer

open Mizugaki.Ast Mizugaki.Plan Mizugaki.Control

mutual

/-- The number of reports of an accepted scalar expression. -/
def scalarReports : ScalarExpression → Nat
  | .literalExpression _ => 0
  | .variableReference _ => 0
  | .hostParameterReference _ => 0
  | .caseExpression operand whenClauses defaultResult =>
    scalarOptionReports operand + pairSum (scalarPairsReports whenClauses) +
      scalarOptionReports defaultResult
  | .castExpression operator_ operand _ => castReports operator_ + scalarReports operand
  | .unaryExpression _ operand => scalarReports operand
  | .binaryExpression left operator_ right =>
    binaryReports operator_ (scalarReports left) (scalarReports right)
  | .extractExpression _ _ operand => scalarReports operand
  | .valueConstructor _ _ => 0
  | .subquery q _ => queryReports q
  | .comparisonPredicate left _ right => scalarReports left + scalarReports right
  | .quantifiedComparisonPredicate left _ _ right => scalarReports left + queryReports right
  | .betweenPredicate target _ _ left right =>
    scalarReports target + scalarReports left + scalarReports right
  | .inPredicate left _ right =>
    scalarReports left + ((inValuesReports right).map List.sum).getD (queryReports right)
  | .patternMatchPredicate matchValue _ _ pattern escape =>
    scalarReports matchValue + scalarReports pattern + scalarOptionReports escape
  | .tablePredicate _ operand => queryReports operand
  | .functionInvocation _ arguments => (scalarsReports arguments).sum
  | .builtinFunctionInvocation _ arguments => (scalarsReports arguments).sum
  | .builtinSetFunctionInvocation _ _ arguments => (scalarsReports arguments).sum
  | .placeholderReference _ => 0
  | .unsupported _ => 0
termination_by structural e => e

def scalarsReports : List ScalarExpression → List Nat
  | [] => []
  | e :: es => scalarReports e :: scalarsReports es
termination_by structural es => es

def scalarOptionReports : Option ScalarExpression → Nat
  | none => 0
  | some e => scalarReports e
termination_by structural e => e

def scalarPairsReports : List (ScalarExpression × ScalarExpression) → List (Nat × Nat)
  | [] => []
  | (a, b) :: rest => (scalarReports a, scalarReports b) :: scalarPairsReports rest
termination_by structural pairs => pairs

def rowReports : ScalarExpression → Nat
  | .valueConstructor .row elements => (scalarsReports elements).sum
  | _ => 0
termination_by structural e => e

def rowsReports : List ScalarExpression → List Nat
  | [] => []
  | e :: es => rowReports e :: rowsReports es
termination_by structural es => es

def inValuesReports : QueryExpression → Option (List Nat)
  | .tableValueConstructor elements => some (scalarsReports elements)
  | _ => none
termination_by structural q => q

/-- The number of reports of an accepted query expression. -/
def queryReports : QueryExpression → Nat
  | .query _ elements from_ where_ groupBy having orderBy limit =>
    (tableExpressionsReports from_).sum + scalarOptionReports where_ +
      (groupingClauseReports groupBy).sum + scalarOptionReports having +
      (selectElementsReports elements).sum + (sortElementsReports orderBy).sum +
      scalarOptionReports limit
  | .tableReference _ => 0
  | .tableValueConstructor elements => (rowsReports elements).sum
  | .binaryExpression left _ _ _ right => queryReports left + queryReports right
  | .withExpression _ elements expression =>
    (withElementsReports elements).sum + queryReports expression
termination_by structural q => q

def selectElementReports : SelectElement → Nat
  | .selectColumn value _ => scalarReports value
  | .selectAsterisk _ => 0
termination_by structural e => e

def selectElementsReports : List SelectElement → List Nat
  | [] => []
  | e :: es => selectElementReports e :: selectElementsReports es
termination_by structural es => es

def groupingElementReports : GroupingElement → Nat
  | .groupingColumn column _ => scalarReports column
termination_by structural e => e

def groupingElementsReports : List GroupingElement → List Nat
  | [] => []
  | e :: es => groupingElementReports e :: groupingElementsReports es
termination_by structural es => es

def groupingClauseReports : Option (List GroupingElement) → List Nat
  | none => []
  | some es => groupingElementsReports es
termination_by structural es => es

def sortElementReports : SortElement → Nat
  | .mk key _ _ nullLocation => nullLocationReports nullLocation + scalarReports key
termination_by structural e => e

def sortElementsReports : List SortElement → List Nat
  | [] => []
  | e :: es => sortElementReports e :: sortElementsReports es
termination_by structural es => es

def withElementReports : WithElement → Nat
  | .mk _ _ expression => queryReports expression
termination_by structural e => e

def withElementsReports : List WithElement → List Nat
  | [] => []
  | e :: es => withElementReports e :: withElementsReports es
termination_by structural es => es

/-- The number of reports of an accepted table expression. -/
def tableExpressionReports : TableExpression → Nat
  | .tableReference _ _ _ => 0
  | .unnest _ _ _ => 0
  | .join left _ right specification =>
    tableExpressionReports left + tableExpressionReports right +
      specificationOptionReports specification
  | .subquery _ expression _ => queryReports expression
  | .apply operand _ _ arguments _ =>
    tableExpressionReports operand + (scalarsReports arguments).sum
termination_by structural t => t

def tableExpressionsReports : List TableExpression → List Nat
  | [] => []
  | t :: ts => tableExpressionReports t :: tableExpressionsReports ts
termination_by structural ts => ts

def joinSpecificationReports : JoinSpecification → Nat
  | .joinCondition expression => scalarReports expression
  | .joinColumns _ => 0
termination_by structural s => s

def specificationOptionReports : Option JoinSpecification → Nat
  | none => 0
  | some s => joinSpecificationReports s
termination_by structural s => s

end

variable {ρ : Type} (env : Environment ρ)

mutual

theorem scalar_reports : ∀ e, ScalarReports (scalarReports e) (scalar env e)
  | .literalExpression value, context => by
    rw [scalar, scalarReports]
    exact process_reports (analyzeLiteral_reports ..)
  | .variableReference name, _ => by
    rw [scalar, scalarReports]
    exact process_reports (analyzeVariableName_reports env name)
  | .hostParameterReference name, _ => by
    rw [scalar, scalarReports]
    exact process_reports (processHostParameter_reports name)
  | .caseExpression operand whenClauses defaultResult, context => by
    rw [scalar, scalarReports]
    have ho := scalarOption_reports operand
    have hd := scalarOption_reports defaultResult
    exact process_reports (processCase_reports ho.some ho.none
      (scalarPairs_reports whenClauses) hd.some hd.none context)
  | .castExpression operator_ operand type, _ => by
    rw [scalar, scalarReports]
    exact process_reports (processCast_reports operator_ (scalar_reports operand) type)
  | .unaryExpression operator_ operand, _ => by
    rw [scalar, scalarReports]
    exact process_reports (processUnary_reports operator_ (scalar_reports operand))
  | .binaryExpression left operator_ right, _ => by
    rw [scalar, scalarReports]
    exact process_reports
      (processBinary_reports (scalar_reports left) operator_ right (scalar_reports right))
  | .extractExpression field subsecondDigits operand, _ => by
    rw [scalar, scalarReports]
    exact process_reports (processExtract_reports field subsecondDigits (scalar_reports operand))
  | .valueConstructor _ _, _ => by
    rw [scalar, scalarReports]
    exact process_reports (reject_reports ..)
  | .subquery q contextKind, _ => by
    rw [scalar, scalarReports]
    exact process_reports (processSubquery_reports (query_reports q) contextKind)
  | .comparisonPredicate left operator_ right, _ => by
    rw [scalar, scalarReports]
    exact process_reports
      (processComparison_reports (scalar_reports left) operator_ (scalar_reports right))
  | .quantifiedComparisonPredicate left operator_ quantifier right, _ => by
    rw [scalar, scalarReports]
    exact process_reports (processQuantifiedComparison_reports (scalar_reports left) operator_
      quantifier (query_reports right))
  | .betweenPredicate target isNot operator_ left right, _ => by
    rw [scalar, scalarReports]
    exact process_reports (processBetween_reports (scalar_reports target) isNot operator_
      (scalar_reports left) (scalar_reports right))
  | .inPredicate left isNot right, _ => by
    rw [scalar, scalarReports]
    exact process_reports (processIn_reports (scalar_reports left) isNot
      (inValues_reports right) (query_reports right))
  | .patternMatchPredicate matchValue isNot operator_ pattern escape, _ => by
    rw [scalar, scalarReports]
    have hs := scalarOption_reports escape
    exact process_reports (processPatternMatch_reports (scalar_reports matchValue) isNot operator_
      (scalar_reports pattern) hs.some hs.none)
  | .tablePredicate operator_ operand, _ => by
    rw [scalar, scalarReports]
    exact process_reports (processTablePredicate_reports operator_ (query_reports operand))
  | .functionInvocation name arguments, _ => by
    rw [scalar, scalarReports]
    exact process_reports (processFunctionInvocation_reports name (scalars_reports arguments))
  | .builtinFunctionInvocation function arguments, _ => by
    rw [scalar, scalarReports]
    exact process_reports (processBuiltinFunction_reports function (scalars_reports arguments))
  | .builtinSetFunctionInvocation function quantifier arguments, _ => by
    rw [scalar, scalarReports]
    exact process_reports
      (processBuiltinSetFunction_reports function quantifier (scalars_reports arguments))
  | .placeholderReference index, _ => by
    rw [scalar, scalarReports]
    exact process_reports (processPlaceholder_reports index)
  | .unsupported _, _ => by
    rw [scalar, scalarReports]
    exact process_reports (reject_reports ..)
termination_by structural e => e

theorem scalars_reports : ∀ es, ScalarsReport (scalarsReports es) (scalars env es)
  | [] => by
    rw [scalars, scalarsReports]
    exact .nil
  | e :: es => by
    rw [scalars, scalarsReports]
    exact .cons (scalar_reports e) (scalars_reports es)
termination_by structural es => es

theorem scalarOption_reports :
    ∀ e, OptionReports ScalarReports (scalarOptionReports e) (scalarOption env e)
  | none => by
    rw [scalarOption, scalarOptionReports]
    exact .absent
  | some e => by
    rw [scalarOption, scalarOptionReports]
    exact .present (scalar_reports e)
termination_by structural e => e

theorem scalarPairs_reports : ∀ pairs, PairsReport (scalarPairsReports pairs) (scalarPairs env pairs)
  | [] => by
    rw [scalarPairs, scalarPairsReports]
    exact .nil
  | (a, b) :: rest => by
    rw [scalarPairs, scalarPairsReports]
    exact .cons ⟨scalar_reports a, scalar_reports b⟩ (scalarPairs_reports rest)
termination_by structural pairs => pairs

theorem rowElements_reports : ∀ e, RowReports (rowReports e) (rowElements env e)
  | .valueConstructor .row elements, es, hes, context => by
    rw [rowElements, Option.mem_some_iff] at hes
    subst hes
    rw [rowReports]
    exact analyzeRow_reports (scalars_reports elements) context 0
  | .valueConstructor .array _, _, hes, _ => by cases hes
  | .literalExpression _, _, hes, _ => by cases hes
  | .variableReference _, _, hes, _ => by cases hes
  | .hostParameterReference _, _, hes, _ => by cases hes
  | .caseExpression _ _ _, _, hes, _ => by cases hes
  | .castExpression _ _ _, _, hes, _ => by cases hes
  | .unaryExpression _ _, _, hes, _ => by cases hes
  | .binaryExpression _ _ _, _, hes, _ => by cases hes
  | .extractExpression _ _ _, _, hes, _ => by cases hes
  | .subquery _ _, _, hes, _ => by cases hes
  | .comparisonPredicate _ _ _, _, hes, _ => by cases hes
  | .quantifiedComparisonPredicate _ _ _ _, _, hes, _ => by cases hes
  | .betweenPredicate _ _ _ _ _, _, hes, _ => by cases hes
  | .inPredicate _ _ _, _, hes, _ => by cases hes
  | .patternMatchPredicate _ _ _ _ _, _, hes, _ => by cases hes
  | .tablePredicate _ _, _, hes, _ => by cases hes
  | .functionInvocation _ _, _, hes, _ => by cases hes
  | .builtinFunctionInvocation _ _, _, hes, _ => by cases hes
  | .builtinSetFunctionInvocation _ _ _, _, hes, _ => by cases hes
  | .placeholderReference _, _, hes, _ => by cases hes
  | .unsupported _, _, hes, _ => by cases hes
termination_by structural e => e

theorem rows_reports : ∀ es, List.Forall₂ RowReports (rowsReports es) (rows env es)
  | [] => by
    rw [rows, rowsReports]
    exact .nil
  | e :: es => by
    rw [rows, rowsReports]
    exact .cons (rowElements_reports e) (rows_reports es)
termination_by structural es => es

theorem inValues_reports : ∀ q, Option.Rel ScalarsReport (inValuesReports q) (inValues env q)
  | .tableValueConstructor elements => by
    rw [inValuesReports, inValues]
    exact .some (scalars_reports elements)
  | .query _ _ _ _ _ _ _ _ => .none
  | .tableReference _ => .none
  | .binaryExpression _ _ _ _ _ => .none
  | .withExpression _ _ _ => .none
termination_by structural q => q

theorem query_reports : ∀ q, QueryReports (queryReports q) (query env q)
  | .query quantifier elements from_ where_ groupBy having orderBy limit, _, continueScope => by
    rw [query, queryReports]
    have hgroup := groupingClause_reports groupBy
    exact inScope_reports continueScope (processQuery_reports (tableExpressions_reports from_)
      (scalarOption_reports where_) hgroup (scalarOption_reports having)
      (selectElements_reports elements) (sortElements_reports orderBy)
      (scalarOption_reports limit))
  | .tableReference name, _, continueScope => by
    rw [query, queryReports]
    exact inScope_reports continueScope (processRelationReference_reports name)
  | .tableValueConstructor elements, context, continueScope => by
    rw [query, queryReports]
    exact inScope_reports continueScope
      (processTableValueConstructor_reports (rows_reports elements) context)
  | .binaryExpression left operator_ quantifier corresponding right, context, _ => by
    rw [query, queryReports]
    exact processBinaryQuery_reports (query_reports left) operator_ quantifier _
      (query_reports right) context
  | .withExpression isRecursive elements expression, context, continueScope => by
    rw [query, queryReports]
    exact inScope_reports continueScope (processWith_reports isRecursive
      (withElements_reports elements) (query_reports expression) context)
termination_by structural q => q

theorem selectElement_reports : ∀ e, SelectReports (selectElementReports e) (selectElement env e)
  | .selectColumn value name => by
    rw [selectElement, selectElementReports]
    exact processSelectColumn_reports value (scalar_reports value) name
  | .selectAsterisk qualifier => by
    rw [selectElement, selectElementReports]
    exact processSelectAsterisk_reports qualifier
termination_by structural e => e

theorem selectElements_reports :
    ∀ es, List.Forall₂ SelectReports (selectElementsReports es) (selectElements env es)
  | [] => by
    rw [selectElements, selectElementsReports]
    exact .nil
  | e :: es => by
    rw [selectElements, selectElementsReports]
    exact .cons (selectElement_reports e) (selectElements_reports es)
termination_by structural es => es

theorem groupingElement_reports :
    ∀ e, GroupingReports (groupingElementReports e) (groupingElement env e)
  | .groupingColumn column _ => by
    rw [groupingElement, groupingElementReports]
    exact processGroupingColumn_reports (scalar_reports column)
termination_by structural e => e

theorem groupingElements_reports :
    ∀ es, List.Forall₂ GroupingReports (groupingElementsReports es) (groupingElements env es)
  | [] => by
    rw [groupingElements, groupingElementsReports]
    exact .nil
  | e :: es => by
    rw [groupingElements, groupingElementsReports]
    exact .cons (groupingElement_reports e) (groupingElements_reports es)
termination_by structural es => es

theorem groupingClause_reports :
    ∀ es, GroupingClauseReports (groupingClauseReports es) (groupingClause env es)
  | none => by
    rw [groupingClause, groupingClauseReports]
    exact ⟨fun _ h => (nomatch h), fun _ => rfl⟩
  | some es => by
    rw [groupingClause, groupingClauseReports]
    refine ⟨fun x hx => ?_, fun h => nomatch h⟩
    obtain rfl := Option.mem_some_iff.mp hx
    exact groupingElements_reports es
termination_by structural es => es

theorem sortElement_reports : ∀ e, SortReports (sortElementReports e) (sortElement env e)
  | .mk key collation direction nullLocation => by
    rw [sortElement, sortElementReports]
    exact processSortElement_reports (scalar_reports key) collation direction nullLocation
termination_by structural e => e

theorem sortElements_reports :
    ∀ es, List.Forall₂ SortReports (sortElementsReports es) (sortElements env es)
  | [] => by
    rw [sortElements, sortElementsReports]
    exact .nil
  | e :: es => by
    rw [sortElements, sortElementsReports]
    exact .cons (sortElement_reports e) (sortElements_reports es)
termination_by structural es => es

theorem withElement_reports : ∀ e, CommonTableReports (withElementReports e) (withElement env e)
  | .mk name columnNames expression => by
    rw [withElement, withElementReports]
    exact query_reports expression
termination_by structural e => e

theorem withElements_reports :
    ∀ es, List.Forall₂ CommonTableReports (withElementsReports es) (withElements env es)
  | [] => by
    rw [withElements, withElementsReports]
    exact .nil
  | e :: es => by
    rw [withElements, withElementsReports]
    exact .cons (withElement_reports e) (withElements_reports es)
termination_by structural es => es

theorem tableExpression_reports :
    ∀ t, Reports (tableExpressionReports t) (tableExpression env t)
  | .tableReference _ name correlation => by
    rw [tableExpression, tableExpressionReports]
    exact processTableExpressionReference_reports name correlation
  | .unnest _ _ _ => by
    rw [tableExpression, tableExpressionReports]
    exact reject_reports ..
  | .join left type right specification => by
    rw [tableExpression, tableExpressionReports]
    have hs := specificationOption_reports specification
    exact processJoinExpression_reports type (tableExpression_reports left)
      (tableExpression_reports right) hs.some hs.none
  | .subquery isLateral expression correlation => by
    rw [tableExpression, tableExpressionReports]
    exact processTableSubquery_reports isLateral (query_reports expression) correlation
  | .apply operand type name arguments correlation => by
    rw [tableExpression, tableExpressionReports]
    exact processApply_reports (tableExpression_reports operand) type name
      (scalars_reports arguments) correlation
termination_by structural t => t

theorem tableExpressions_reports :
    ∀ ts, List.Forall₂ Reports (tableExpressionsReports ts) (tableExpressions env ts)
  | [] => by
    rw [tableExpressions, tableExpressionsReports]
    exact .nil
  | t :: ts => by
    rw [tableExpressions, tableExpressionsReports]
    exact .cons (tableExpression_reports t) (tableExpressions_reports ts)
termination_by structural ts => ts

theorem joinSpecification_reports :
    ∀ s, JoinReports (joinSpecificationReports s) (joinSpecification env s)
  | .joinCondition expression => by
    rw [joinSpecification, joinSpecificationReports]
    exact processJoinCondition_reports (scalar_reports expression)
  | .joinColumns columns => by
    rw [joinSpecification, joinSpecificationReports]
    exact processJoinColumns_reports columns
termination_by structural s => s

theorem specificationOption_reports :
    ∀ s, OptionReports JoinReports (specificationOptionReports s) (specificationOption env s)
  | none => by
    rw [specificationOption, specificationOptionReports]
    exact .absent
  | some s => by
    rw [specificationOption, specificationOptionReports]
    exact .present (joinSpecification_reports s)
termination_by structural s => s

end

end Mizugaki.Analyzer
