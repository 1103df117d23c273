import Mizugaki.Plan.Variables
import Mizugaki.Relation.Rows

/-! The meaning of expressions over any interpretation of their operators. A set function is
applied to the bag of its argument values over a group of rows; its arguments also see what
is bound around it. A subquery is any function of its graph and of the values of its
parameters. -/

namespace Mizugaki.Plan

open Mizugaki.Relation

/-- The operators of scalar expressions on values, with the functions and subqueries, which values
are true, and the order of values. -/
structure Interpretation (α : Type) where
  truth : α → Bool
  order : SortDirection → α → α → Ordering
  immediate : ValueData → TypeData → α
  cast : TypeData → CastLossPolicy → α → α
  unary : UnaryOperator → α → α
  binary : BinaryOperator → α → α → α
  compare : ComparisonOperator → α → α → α
  match_ : MatchOperator → α → α → α → α
  conditional : List (α × α) → Option α → α
  coalesce : List α → α
  functionCall : FunctionDecl → List α → α
  aggregate : AggregateDecl → Multiset (List α) → α
  subquery : Graph → List (Variable × α) → Variable → α
  exists_ : Graph → List (Variable × α) → α
  quantifiedCompare : ComparisonOperator → Quantifier → α → Graph → List (Variable × α) → Variable → α

variable {α : Type} (I : Interpretation α)

/-- The values that a subquery takes: its parameters, by their destinations. -/
def parameterValues (row : Row Variable α) (parameters : List (Variable × Variable)) :
    List (Variable × α) :=
  parameters.map fun p => (p.2, row p.1)

mutual

/-- The value of an expression in a row, with set functions over a group; `bound` is what is bound
around the expression. -/
def Scalar.eval (group : List (Row Variable α)) (bound : List (Variable × α))
    (row : Row Variable α) : Scalar → α
  | .immediate value type => I.immediate value type
  | .variableReference v => row v
  | .cast type policy operand => I.cast type policy (operand.eval group bound row)
  | .unary op operand => I.unary op (operand.eval group bound row)
  | .binary op left right =>
    I.binary op (left.eval group bound row) (right.eval group bound row)
  | .compare op left right =>
    I.compare op (left.eval group bound row) (right.eval group bound row)
  | .match_ op input pattern escape =>
    I.match_ op (input.eval group bound row) (pattern.eval group bound row)
      (escape.eval group bound row)
  | .conditional alternatives default_ =>
    I.conditional (evalPairs group bound row alternatives) (evalOption group bound row default_)
  | .coalesce alternatives => I.coalesce (evalList group bound row alternatives)
  | .let_ variables_ body =>
    evalBindings group bound row variables_ fun bound row => body.eval group bound row
  | .functionCall function arguments =>
    I.functionCall function (evalList group bound row arguments)
  | .aggregateFunctionCall function arguments =>
    I.aggregate function (group.map fun r => evalList [] bound (extend r bound) arguments)
  | .subquery graph parameters outputColumn =>
    I.subquery graph (parameterValues row parameters) outputColumn
  | .exists_ graph parameters => I.exists_ graph (parameterValues row parameters)
  | .quantifiedCompare op quantifier left graph parameters rightColumn =>
    I.quantifiedCompare op quantifier (left.eval group bound row) graph
      (parameterValues row parameters) rightColumn
termination_by structural e => e

def evalList (group : List (Row Variable α)) (bound : List (Variable × α))
    (row : Row Variable α) : List Scalar → List α
  | [] => []
  | e :: es => e.eval group bound row :: evalList group bound row es
termination_by structural es => es

def evalOption (group : List (Row Variable α)) (bound : List (Variable × α))
    (row : Row Variable α) : Option Scalar → Option α
  | none => none
  | some e => some (e.eval group bound row)
termination_by structural e => e

def evalPairs (group : List (Row Variable α)) (bound : List (Variable × α))
    (row : Row Variable α) : List (Scalar × Scalar) → List (α × α)
  | [] => []
  | (a, b) :: rest =>
    (a.eval group bound row, b.eval group bound row) :: evalPairs group bound row rest
termination_by structural pairs => pairs

/-- Bind variables one after another, and go on with a body. -/
def evalBindings (group : List (Row Variable α)) (bound : List (Variable × α))
    (row : Row Variable α) : List (Variable × Scalar) →
    (List (Variable × α) → Row Variable α → α) → α
  | [], body => body bound row
  | (v, e) :: rest, body =>
    let value := e.eval group bound row
    evalBindings group (bound ++ [(v, value)]) (Function.update row v value) rest body
termination_by structural bindings => bindings

end

/-! ### Operators -/

/-- Whether a row goes before another one, by sort keys. -/
def sortedBefore : List (Variable × SortDirection) → Row Variable α → Row Variable α → Bool
  | [], _, _ => true
  | (v, direction) :: rest, row, row' =>
    match I.order direction (row v) (row' v) with
    | .lt => true
    | .gt => false
    | .eq => sortedBefore rest row row'

/-- The row of a projection for a row. -/
def projectRow (columns : List (Variable × Scalar)) (row : Row Variable α) : Row Variable α :=
  extend row (columns.map fun c => (c.1, c.2.eval I [] [] row))

/-- The columns of an aggregate operator. -/
def aggregates (columns : List AggregateColumn) : Aggregates Variable α :=
  columns.map fun c =>
    (c.destination, fun group => I.aggregate c.function (group.map fun r => c.arguments.map r))

variable [DecidableEq α]

/-- The rows that an operator makes of the rows of its input. Only the operators that a query puts
above its FROM clause have a meaning here. -/
def Operator.rows (surroundings : Row Variable α) :
    Operator → List (Row Variable α) → Option (List (Row Variable α))
  | .filter condition, rows => some (rows.filter fun r => I.truth (condition.eval I [] [] r))
  | .project columns, rows => some (rows.map (projectRow I columns))
  | .distinct keys, rows => some (distinctRows keys rows)
  | .limit count keys sortKeys, rows => some (limitRows count keys (sortedBefore I sortKeys) rows)
  | .aggregate keys columns, rows => some (Relation.aggregate surroundings keys (aggregates I columns) rows)
  | _, _ => none

/-- The rows that come out of operators one above the other, the last one at the input. -/
def rowsAbove (surroundings : Row Variable α) :
    List Operator → List (Row Variable α) → Option (List (Row Variable α))
  | [], rows => some rows
  | op :: ops, rows => (rowsAbove surroundings ops rows).bind (op.rows I surroundings)

theorem rowsAbove_append (surroundings : Row Variable α) (ops ops' : List Operator)
    (rows : List (Row Variable α)) :
    rowsAbove I surroundings (ops ++ ops') rows
      = (rowsAbove I surroundings ops' rows).bind (rowsAbove I surroundings ops) := by
  induction ops with
  | nil =>
    rw [List.nil_append]
    cases rowsAbove I surroundings ops' rows <;> rfl
  | cons op ops ih => rw [List.cons_append, rowsAbove, ih, Option.bind_assoc]; rfl

end Mizugaki.Plan
