import Mizugaki.Aggregation.Presence
import Mizugaki.Literals.ExactNumeric
import Mizugaki.Meaning.Engine
import Mizugaki.Relation.Units

/-! What a query block says about the rows of its FROM clause. WHERE picks rows; with group columns
or set functions the rows fall into groups; HAVING picks among the rows or groups, the select list
gives each of them a tuple, DISTINCT keeps one of every tuple, ORDER BY sorts what is left by its
own keys and LIMIT takes the first of them. -/

namespace Mizugaki.Analyzer

open Mizugaki.Ast Mizugaki.Plan Mizugaki.Relation Mizugaki.Data.Kleene Mizugaki.Control

/-- Where the expressions above WHERE have values: a row, and the group that it stands for. -/
abbrev Place (α : Type) := List (Row Variable α) × Row Variable α

/-- What the clauses of a query block say. -/
structure BlockMeaning (α : Type) where
  where_ : Option (Meaning α)
  keys : List Variable
  grouped : Bool
  having : Option (Meaning α)
  columns : List (Meaning α)
  distinct : Bool
  order : List (SortDirection × Meaning α)
  limit : Option ℕ

section

variable {α : Type}

/-- A condition is true, or there is none. -/
def holdsAt (L : Logic α) (condition : Option (Meaning α)) (p : Place α) : Bool :=
  condition.all fun f => L.truth (f p.1 p.2) = .true_

/-- A place does not come after another one, by sort keys. -/
def precedes (I : Interpretation α) : List (SortDirection × Meaning α) → Place α → Place α → Bool
  | [], _, _ => true
  | (direction, f) :: rest, p, p' =>
    match I.order direction (f p.1 p.2) (f p'.1 p'.2) with
    | .lt => true
    | .gt => false
    | .eq => precedes I rest p p'

namespace BlockMeaning

variable (m : BlockMeaning α)

/-- The tuple of the select list. -/
def tuple (p : Place α) : List α := m.columns.map fun f => f p.1 p.2

variable [DecidableEq α]

/-- The rows, or one row for every group of them. -/
def places (surroundings : Row Variable α) (rows : List (Row Variable α)) : List (Place α) :=
  if m.grouped then (groups m.keys rows).map fun g => (g, representative surroundings m.keys g)
  else rows.map fun row => ([], row)

/-- The output of the block for the rows of its FROM clause, in surroundings that have what no row
has of its own. -/
def outcome (I : Interpretation α) (L : Logic α) (surroundings : Row Variable α)
    (input : List (Row Variable α)) : List (List α) :=
  let rows := input.filter fun row => holdsAt L m.where_ ([], row)
  let kept := (m.places surroundings rows).filter (holdsAt L m.having)
  let distinct := if m.distinct then firsts m.tuple kept else kept
  (atMost m.limit (distinct.mergeSort (precedes I m.order))).map m.tuple

end BlockMeaning

end

/-! ### The clauses -/

variable {ρ α : Type} (env : Environment ρ) (I : Interpretation α) (L : Logic α)

/-- The state in which an expression of a clause is analyzed. -/
def AnalyzerState.unmarked (s : AnalyzerState ρ) : AnalyzerState ρ := { s with sawAggregate := false }

/-- The columns that an asterisk stands for. -/
def columnMeanings (columns : List ColumnInfo) : List (Meaning α) :=
  columns.map fun c _ row => row c.variable_

/-- The values of an element of a select list. -/
def denoteElement : SelectElement → AnalyzerState ρ → Option (List (Meaning α))
  | .selectColumn value _, s => (denote I L env value .unspecified s.unmarked).map fun f => [f]
  | .selectAsterisk none, s =>
    some (columnMeanings (s.scope.relations.flatMap RelationInfo.exportedColumns))
  | .selectAsterisk (some (.variableReference name)), s =>
    (analyzeRelationInfoName env name s).1.map fun found => columnMeanings found.exportedColumns
  | .selectAsterisk (some _), _ => none

/-- The state after an expression of a projection, which gets a variable. -/
def afterColumn (e : ScalarExpression) (s : AnalyzerState ρ) : AnalyzerState ρ :=
  (streamVariable (analyzeScalarExpression (scalar env e) .unspecified s).2).2

/-- The state after an element of a select list. -/
def afterElement : SelectElement → AnalyzerState ρ → AnalyzerState ρ
  | .selectColumn value _, s => afterColumn env value s
  | .selectAsterisk (some (.variableReference name)), s => (analyzeRelationInfoName env name s).2
  | .selectAsterisk _, s => s

def denoteElements : List SelectElement → AnalyzerState ρ → Option (List (Meaning α))
  | [], _ => some []
  | e :: es, s => do
    let fs ← denoteElement env I L e s
    let gs ← denoteElements es (afterElement env e s)
    return fs ++ gs

/-- The sort keys, with their directions. -/
def denoteOrder : List SortElement → AnalyzerState ρ → Option (List (SortDirection × Meaning α))
  | [], _ => some []
  | .mk key _ direction nullLocation :: es, s => do
    let t := (reportNullLocation nullLocation s).2
    let f ← denote I L env key .unspecified t.unmarked
    let rest ← denoteOrder es (afterColumn env key t)
    return (convertOrdering direction, f) :: rest

variable {quantifier : Option Ast.SetQuantifier} {elements : List SelectElement}
  {from_ : List TableExpression} {where_ having limit : Option ScalarExpression}
  {groupBy : Option (List GroupingElement)} {orderBy : List SortElement}

/-- What a block says when its clauses are analyzed in the states of a run. The block is grouped when
GROUP BY has a column or a set function is called above WHERE; the keys are the columns of GROUP BY,
each once. The count of LIMIT is the number that its literal writes. -/
structure BlockMeaning.Of {u v : AnalyzerState ρ} {r : QueryResult}
    (run : QueryRun env (queryClauses env quantifier elements from_ where_ groupBy having orderBy
      limit) u v r) (m : BlockMeaning α) : Prop where
  where_ : denoteOption I L env where_ .unspecified run.afterFrom.unmarked = some m.where_
  keys : m.keys.Nodup ∧ ∃ vs, GroupColumns env (groupBy.getD []) vs run.afterWhere run.afterGroupBy ∧
    ∀ v, v ∈ m.keys ↔ v ∈ vs
  grouped : m.grouped = true ↔ groupBy.getD [] ≠ [] ∨ HavingCalls env having run.afterGroupBy ∨
    hasAggregateBindings run.select.columns = true ∨
      hasAggregateBindings (sortColumns run.sort) = true
  having : denoteOption I L env having .unspecified run.afterGroupBy.unmarked = some m.having
  columns : denoteElements env I L elements run.afterHaving = some m.columns
  distinct : m.distinct = true ↔ quantifier = some .distinct
  order : denoteOrder env I L orderBy run.afterDistinct = some m.order
  unlimited : limit = none → m.limit = none
  limitLiteral : ∀ sign n, limit = some (.literalExpression (.exactNumeric sign n)) →
    m.limit.map (Nat.cast : ℕ → ℚ) = some (ExactNumeric.signedValue sign n)
  limit : m.limit = run.limit

end Mizugaki.Analyzer
