import Mizugaki.Aggregation.Block
import Mizugaki.Plan.Term
import Mizugaki.Relation.Selection

/-! The sort keys of a query with DISTINCT. The sort projection is above the distinct operator, and
reads whichever row of some duplicates is left. What it reads does not depend on the choice exactly
when the terms of the sort keys are determined by those of the output columns: without groups rows
have nothing but the constants around them in common, and with groups the group keys identify a
row. -/

namespace Mizugaki.Analyzer

open Mizugaki.Plan Mizugaki.Relation Mizugaki.Data.Determination

/-- What the rows of a query are made of: a column of the input, or a set function over the values
of terms in the rows of a group. -/
inductive Atom where
  | column (v : Variable)
  | collected (function : AggregateDecl) (arguments : List (Term Symbol Variable))

/-- The row of the columns of the input. -/
def columnTerms : Row Variable (Term Symbol Atom) := fun v => .var (.column v)

namespace SetFunctionProcessor

variable (p : SetFunctionProcessor)

/-- The terms of the arguments of set functions. -/
def argumentTerms : Row Variable (Term Symbol Variable) :=
  projectRow (terms Variable) p.argumentColumns Term.var

/-- The terms of a row above the installed operators. -/
def rowTerms : Row Variable (Term Symbol Atom) :=
  match p.aggregations with
  | none => projectRow (terms Atom) p.argumentColumns columnTerms
  | some (_, columns) =>
    extend columnTerms (columns.map fun c =>
      (c.destination, .var (.collected c.function (c.arguments.map p.argumentTerms))))

/-- The columns that all rows have in common: what is around the query, and, of groups, what is not
a key. -/
def Constant : Atom → Prop
  | .column v => v.isStream = false ∨ ∃ a, p.aggregations = some a ∧ v ∉ a.1
  | .collected _ _ => False

/-- The keys that identify a row. -/
def keyAtoms : Option (List Atom) := p.aggregations.map fun a => a.1.map Atom.column

end SetFunctionProcessor

/-- A query block with DISTINCT and ORDER BY, and the set functions below it. -/
structure DistinctOrder where
  having : Option Scalar
  columns : List (Variable × Scalar)
  keys : List Variable
  sort : SortList
  processor : SetFunctionProcessor

namespace DistinctOrder

variable (d : DistinctOrder)

/-- The operators between the input of the query and the distinct operator. -/
def below : List Operator :=
  .project d.columns :: ((d.having.map .filter).toList ++ d.processor.installed)

/-- The terms of a row of the select list. -/
def selectTerms : Row Variable (Term Symbol Atom) :=
  projectRow (terms Atom) d.columns d.processor.rowTerms

/-- The terms of a row of the sort projection. -/
def sortTerms : Row Variable (Term Symbol Atom) :=
  projectRow (terms Atom) d.sort.columns d.selectTerms

/-- The output columns determine the sort keys. -/
def Determines : Prop :=
  ∀ k ∈ d.sort.keys.map Prod.fst,
    Determined (d.keys.map d.selectTerms) d.processor.Constant d.processor.keyAtoms (d.sortTerms k)

/-- The output columns and the sort keys of a row that the distinct operator leaves. -/
def sorted {α : Type} (I : Interpretation α) (row : Row Variable α) : List α × List α :=
  (keyValues d.keys row, keyValues (d.sort.keys.map Prod.fst) (projectRow I d.sort.columns row))

/-- The output columns and sort keys that reach the sort do not depend on the rows that the distinct
operator leaves: for any meaning of the operators, any surroundings and any rows of the input in
them. -/
def ChoiceFree : Prop :=
  ∀ (α : Type) [DecidableEq α] (I : Interpretation α) (surroundings : Row Variable α)
    (input rows : List (Row Variable α)),
    (∀ row ∈ input, ∀ v, v.isStream = false → row v = surroundings v) →
    rowsAbove I surroundings d.below input = some rows →
    ∀ selected selected', Chooses (keyValues d.keys) rows selected →
      Chooses (keyValues d.keys) rows selected' →
      (selected.map (d.sorted I)).Perm (selected'.map (d.sorted I))

end DistinctOrder

/-! ### Rows -/

section Rows

variable {α : Type} [DecidableEq α] (I : Interpretation α) (surroundings : Row Variable α)
  (input : List (Row Variable α))

namespace SetFunctionProcessor

variable (p : SetFunctionProcessor)

/-- The rows of the input with the arguments of set functions. -/
def argumentRows : List (Row Variable α) := input.map (projectRow I p.argumentColumns)

/-- The rows above the installed operators. -/
def baseRows : List (Row Variable α) :=
  match p.aggregations with
  | none => p.argumentRows I input
  | some a => Relation.aggregate surroundings a.1 (aggregates I a.2) (p.argumentRows I input)

theorem rowsAbove_arguments :
    rowsAbove I surroundings (p.arguments.map Operator.project).toList input =
      some (p.argumentRows I input) := by
  unfold argumentRows argumentColumns
  cases p.arguments with
  | none => exact congrArg some (List.map_id input).symm
  | some columns => rfl

theorem rowsAbove_installed :
    rowsAbove I surroundings p.installed input = some (p.baseRows I surroundings input) := by
  unfold installed baseRows
  rw [rowsAbove_append, rowsAbove_arguments]
  cases p.aggregations with
  | none => rfl
  | some a => rfl

end SetFunctionProcessor

namespace DistinctOrder

variable (d : DistinctOrder)

/-- What the filter of HAVING lets pass. -/
def filtered (rows : List (Row Variable α)) : List (Row Variable α) :=
  match d.having with
  | none => rows
  | some condition => rows.filter fun row => I.truth (condition.eval I [] [] row)

/-- The rows that reach the distinct operator. -/
def rows : List (Row Variable α) :=
  (d.filtered I (d.processor.baseRows I surroundings input)).map (projectRow I d.columns)

theorem rowsAbove_below :
    rowsAbove I surroundings d.below input = some (d.rows I surroundings input) := by
  unfold below rows filtered
  rw [rowsAbove, rowsAbove_append, SetFunctionProcessor.rowsAbove_installed]
  cases d.having with
  | none => rfl
  | some condition => rfl

variable {I surroundings input d}

theorem mem_rows {row : Row Variable α} (h : row ∈ d.rows I surroundings input) :
    ∃ base ∈ d.processor.baseRows I surroundings input, row = projectRow I d.columns base := by
  obtain ⟨base, hbase, rfl⟩ := List.mem_map.mp h
  refine ⟨base, ?_, rfl⟩
  unfold filtered at hbase
  cases hhaving : d.having with
  | none =>
    rw [hhaving] at hbase
    exact hbase
  | some condition =>
    rw [hhaving] at hbase
    exact (List.mem_filter.mp hbase).1

/-- Where everything is true every row passes. -/
theorem mem_rows_of_true (htrue : ∀ a, I.truth a = true) {base : Row Variable α}
    (h : base ∈ d.processor.baseRows I surroundings input) :
    projectRow I d.columns base ∈ d.rows I surroundings input := by
  refine List.mem_map_of_mem ?_
  unfold filtered
  cases d.having with
  | none => exact h
  | some condition => exact List.mem_filter.mpr ⟨h, htrue _⟩

end DistinctOrder

end Rows

end Mizugaki.Analyzer
