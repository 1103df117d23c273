import Mizugaki.Ast.Expression

/-! The set operations that are written in an expression, at any depth: in its subqueries, its derived
tables and its common tables. -/

namespace Mizugaki.Ast

/-- EXCEPT and INTERSECT. -/
def QueryOperator.isDifference : QueryOperator → Bool
  | except | intersect => true
  | union_ | outerUnion => false

mutual

/-- The set operations in a scalar expression. -/
def ScalarExpression.setOperations : ScalarExpression → List QueryOperator
  | .literalExpression _ => []
  | .variableReference _ => []
  | .hostParameterReference _ => []
  | .caseExpression operand whenClauses defaultResult =>
    setOperationsOption operand ++ (setOperationsPairs whenClauses ++
      setOperationsOption defaultResult)
  | .castExpression _ operand _ => operand.setOperations
  | .unaryExpression _ operand => operand.setOperations
  | .binaryExpression left _ right => left.setOperations ++ right.setOperations
  | .extractExpression _ _ operand => operand.setOperations
  | .valueConstructor _ elements => setOperationsScalars elements
  | .subquery query _ => query.setOperations
  | .comparisonPredicate left _ right => left.setOperations ++ right.setOperations
  | .quantifiedComparisonPredicate left _ _ right => left.setOperations ++ right.setOperations
  | .betweenPredicate target _ _ left right =>
    target.setOperations ++ (left.setOperations ++ right.setOperations)
  | .inPredicate left _ right => left.setOperations ++ right.setOperations
  | .patternMatchPredicate matchValue _ _ pattern escape =>
    matchValue.setOperations ++ (pattern.setOperations ++ setOperationsOption escape)
  | .tablePredicate _ operand => operand.setOperations
  | .functionInvocation _ arguments => setOperationsScalars arguments
  | .builtinFunctionInvocation _ arguments => setOperationsScalars arguments
  | .builtinSetFunctionInvocation _ _ arguments => setOperationsScalars arguments
  | .placeholderReference _ => []
  | .unsupported _ => []
termination_by structural e => e

def setOperationsScalars : List ScalarExpression → List QueryOperator
  | [] => []
  | e :: es => e.setOperations ++ setOperationsScalars es
termination_by structural es => es

def setOperationsOption : Option ScalarExpression → List QueryOperator
  | .none => []
  | .some e => e.setOperations
termination_by structural e => e

def setOperationsPairs : List (ScalarExpression × ScalarExpression) → List QueryOperator
  | [] => []
  | (a, b) :: rest => a.setOperations ++ (b.setOperations ++ setOperationsPairs rest)
termination_by structural pairs => pairs

/-- The set operations in a query. -/
def QueryExpression.setOperations : QueryExpression → List QueryOperator
  | .query _ elements from_ where_ groupBy having orderBy limit =>
    setOperationsElements elements ++ (setOperationsTables from_ ++ (setOperationsOption where_ ++
      (setOperationsGroupBy groupBy ++ (setOperationsOption having ++
        (setOperationsSort orderBy ++ setOperationsOption limit)))))
  | .tableReference _ => []
  | .tableValueConstructor elements => setOperationsScalars elements
  | .binaryExpression left operatorKind _ _ right =>
    operatorKind :: (left.setOperations ++ right.setOperations)
  | .withExpression _ elements expression =>
    setOperationsWith elements ++ expression.setOperations
termination_by structural q => q

def SelectElement.setOperations : SelectElement → List QueryOperator
  | .selectColumn value _ => value.setOperations
  | .selectAsterisk _ => []
termination_by structural e => e

def setOperationsElements : List SelectElement → List QueryOperator
  | [] => []
  | e :: es => e.setOperations ++ setOperationsElements es
termination_by structural es => es

def GroupingElement.setOperations : GroupingElement → List QueryOperator
  | .groupingColumn column _ => column.setOperations
termination_by structural e => e

def setOperationsGrouping : List GroupingElement → List QueryOperator
  | [] => []
  | e :: es => e.setOperations ++ setOperationsGrouping es
termination_by structural es => es

def setOperationsGroupBy : Option (List GroupingElement) → List QueryOperator
  | .none => []
  | .some es => setOperationsGrouping es
termination_by structural es => es

def SortElement.setOperations : SortElement → List QueryOperator
  | .mk key _ _ _ => key.setOperations
termination_by structural e => e

def setOperationsSort : List SortElement → List QueryOperator
  | [] => []
  | e :: es => e.setOperations ++ setOperationsSort es
termination_by structural es => es

def WithElement.setOperations : WithElement → List QueryOperator
  | .mk _ _ expression => expression.setOperations
termination_by structural e => e

def setOperationsWith : List WithElement → List QueryOperator
  | [] => []
  | e :: es => e.setOperations ++ setOperationsWith es
termination_by structural es => es

/-- The set operations in a table expression. -/
def TableExpression.setOperations : TableExpression → List QueryOperator
  | .tableReference _ _ _ => []
  | .unnest expression _ _ => expression.setOperations
  | .join left _ right specification =>
    left.setOperations ++ (right.setOperations ++ setOperationsSpecification specification)
  | .subquery _ expression _ => expression.setOperations
  | .apply operand _ _ arguments _ => operand.setOperations ++ setOperationsScalars arguments
termination_by structural t => t

def setOperationsTables : List TableExpression → List QueryOperator
  | [] => []
  | t :: ts => t.setOperations ++ setOperationsTables ts
termination_by structural ts => ts

def JoinSpecification.setOperations : JoinSpecification → List QueryOperator
  | .joinCondition expression => expression.setOperations
  | .joinColumns _ => []
termination_by structural s => s

def setOperationsSpecification : Option JoinSpecification → List QueryOperator
  | .none => []
  | .some s => s.setOperations
termination_by structural s => s

end

/-! A property of all set operations of an expression is one of those of its parts. -/

variable {P : QueryOperator → Prop}

theorem forall_setOperationsScalars {es : List ScalarExpression} :
    (∀ o ∈ setOperationsScalars es, P o) ↔ ∀ e ∈ es, ∀ o ∈ e.setOperations, P o := by
  induction es with
  | nil => simp [setOperationsScalars]
  | cons e es ih => rw [setOperationsScalars, List.forall_mem_append, ih, List.forall_mem_cons]

theorem forall_setOperationsOption {e : Option ScalarExpression} :
    (∀ o ∈ setOperationsOption e, P o) ↔ ∀ x ∈ e, ∀ o ∈ x.setOperations, P o := by
  cases e with
  | none => simp [setOperationsOption]
  | some e => simp [setOperationsOption]

theorem forall_setOperationsPairs {pairs : List (ScalarExpression × ScalarExpression)} :
    (∀ o ∈ setOperationsPairs pairs, P o) ↔
      ∀ p ∈ pairs, (∀ o ∈ p.1.setOperations, P o) ∧ ∀ o ∈ p.2.setOperations, P o := by
  induction pairs with
  | nil => simp [setOperationsPairs]
  | cons p pairs ih =>
    rw [setOperationsPairs, List.forall_mem_append, List.forall_mem_append, ih, List.forall_mem_cons,
      and_assoc]

theorem forall_setOperationsElements {es : List SelectElement} :
    (∀ o ∈ setOperationsElements es, P o) ↔ ∀ e ∈ es, ∀ o ∈ e.setOperations, P o := by
  induction es with
  | nil => simp [setOperationsElements]
  | cons e es ih => rw [setOperationsElements, List.forall_mem_append, ih, List.forall_mem_cons]

theorem forall_setOperationsGrouping {es : List GroupingElement} :
    (∀ o ∈ setOperationsGrouping es, P o) ↔ ∀ e ∈ es, ∀ o ∈ e.setOperations, P o := by
  induction es with
  | nil => simp [setOperationsGrouping]
  | cons e es ih => rw [setOperationsGrouping, List.forall_mem_append, ih, List.forall_mem_cons]

theorem forall_setOperationsGroupBy {groupBy : Option (List GroupingElement)} :
    (∀ o ∈ setOperationsGroupBy groupBy, P o) ↔
      ∀ es ∈ groupBy, ∀ e ∈ es, ∀ o ∈ e.setOperations, P o := by
  cases groupBy with
  | none => simp [setOperationsGroupBy]
  | some es =>
    rw [setOperationsGroupBy, forall_setOperationsGrouping]
    simp

theorem forall_setOperationsSort {es : List SortElement} :
    (∀ o ∈ setOperationsSort es, P o) ↔ ∀ e ∈ es, ∀ o ∈ e.setOperations, P o := by
  induction es with
  | nil => simp [setOperationsSort]
  | cons e es ih => rw [setOperationsSort, List.forall_mem_append, ih, List.forall_mem_cons]

theorem forall_setOperationsWith {es : List WithElement} :
    (∀ o ∈ setOperationsWith es, P o) ↔ ∀ e ∈ es, ∀ o ∈ e.setOperations, P o := by
  induction es with
  | nil => simp [setOperationsWith]
  | cons e es ih => rw [setOperationsWith, List.forall_mem_append, ih, List.forall_mem_cons]

theorem forall_setOperationsTables {ts : List TableExpression} :
    (∀ o ∈ setOperationsTables ts, P o) ↔ ∀ t ∈ ts, ∀ o ∈ t.setOperations, P o := by
  induction ts with
  | nil => simp [setOperationsTables]
  | cons t ts ih => rw [setOperationsTables, List.forall_mem_append, ih, List.forall_mem_cons]

theorem forall_setOperationsSpecification {s : Option JoinSpecification} :
    (∀ o ∈ setOperationsSpecification s, P o) ↔ ∀ j ∈ s, ∀ o ∈ j.setOperations, P o := by
  cases s with
  | none => simp [setOperationsSpecification]
  | some s => simp [setOperationsSpecification]

end Mizugaki.Ast
