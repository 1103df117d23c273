import Mizugaki.Aggregation.Installation
import Mizugaki.Meaning.Block

/-! The rows of a query block. Below the clauses a row is made for every place of the block, with
the aggregated values of its group; where the clauses have on it what the block says, the operators
of the block compute its outcome. -/

namespace Mizugaki.Analyzer

open Mizugaki.Plan Mizugaki.Relation

variable {α : Type} {I : Interpretation α} {L : Logic α}

/-- The row of a place: its own one, with the aggregated values of its group. -/
def placeRow (I : Interpretation α) (f : SetFunctionProcessor) (p : Place α) : Row Variable α :=
  extend p.2 (f.aggregatedValues I p.1)

variable [DecidableEq α]

/-- What is installed makes a row for every place of a block that is grouped just when something is
aggregated. -/
theorem installed_places {f : SetFunctionProcessor} {n l : ℕ} (hf : f.Settled n l)
    {m : BlockMeaning α} (hkeys : m.keys = f.aggregationsStore.1)
    (hbelow : ∀ k ∈ f.aggregationsStore.1, k.Below n) (hgrouped : m.grouped = f.aggregations.isSome)
    (hnone : f.aggregations = none → f.arguments = none) (surroundings : Row Variable α)
    (rows : List (Row Variable α)) :
    rowsAbove I surroundings f.installed rows =
      some ((m.places surroundings rows).map (placeRow I f)) := by
  cases hstored : f.aggregations with
  | none =>
    have hplain : m.grouped = false := by rw [hgrouped, hstored]; rfl
    have hrow : ∀ row : Row Variable α, placeRow I f ([], row) = row := by
      intro row
      rw [placeRow, SetFunctionProcessor.aggregatedValues, SetFunctionProcessor.aggregationsStore,
        hstored]
      rfl
    rw [SetFunctionProcessor.installed, hstored, hnone hstored, BlockMeaning.places, hplain,
      if_neg Bool.false_ne_true, List.map_map]
    change some rows = some (rows.map fun row => placeRow I f ([], row))
    rw [List.map_congr_left fun row _ => hrow row, List.map_id']
  | some store =>
    have hyes : m.grouped = true := by rw [hgrouped, hstored]; rfl
    rw [hf.installed_rows (by rw [hstored]; rfl) hbelow, BlockMeaning.places, hyes, if_pos rfl,
      List.map_map, hkeys]
    rfl

namespace QueryBlock

variable (b : QueryBlock)

/-- A row below the distinct operator, with the columns of the sort projection. -/
def sortedRow (I : Interpretation α) (row : Row Variable α) : Row Variable α :=
  projectRow I (sortColumns b.sort) (projectRow I b.columns row)

/-- On the rows of places the clauses have the values that a meaning says. -/
structure Stands (I : Interpretation α) (L : Logic α) (b : QueryBlock) (m : BlockMeaning α)
    (vs : List Variable) (base : Place α → Row Variable α) : Prop where
  having : ∀ p, (b.having.all fun e => I.truth (e.eval I [] [] (base p))) = holdsAt L m.having p
  tuple : ∀ p, keyValues vs (projectRow I b.columns (base p)) = m.tuple p
  sortedTuple : ∀ p, keyValues vs (b.sortedRow I (base p)) = m.tuple p
  order : ∀ p p', sortedBefore I (sortKeys b.sort) (b.sortedRow I (base p))
    (b.sortedRow I (base p')) = precedes I m.order p p'
  distinct : b.distinct = if m.distinct then some vs else none
  limit : b.limit = m.limit

namespace Stands

variable {b : QueryBlock} {m : BlockMeaning α} {vs : List Variable}
  {base : Place α → Row Variable α} (h : b.Stands I L m vs base) (surroundings : Row Variable α)
  (ps : List (Place α))

include h

theorem having_rows : rowsAbove I surroundings (b.having.map Operator.filter).toList (ps.map base) =
    some ((ps.filter (holdsAt L m.having)).map base) := by
  have hall := h.having
  cases hb : b.having with
  | none =>
    rw [hb] at hall
    have htrue : ps.filter (holdsAt L m.having) = ps :=
      List.filter_eq_self.mpr fun p _ => (hall p).symm
    rw [htrue]
    rfl
  | some condition =>
    rw [hb] at hall
    exact congrArg some (filter_rows base hall ps)

theorem columns_rows :
    rowsAbove I surroundings (.project b.columns :: (b.having.map Operator.filter).toList)
        (ps.map base) =
      some ((ps.filter (holdsAt L m.having)).map fun p => projectRow I b.columns (base p)) := by
  rw [rowsAbove, h.having_rows, Option.bind_some, Operator.rows, List.map_map]
  rfl

/-- The places whose rows reach the sort. -/
theorem distinct_rows :
    rowsAbove I surroundings ((b.distinct.map Operator.distinct).toList ++
        (.project b.columns :: (b.having.map Operator.filter).toList)) (ps.map base) =
      some ((if m.distinct then firsts m.tuple (ps.filter (holdsAt L m.having))
        else ps.filter (holdsAt L m.having)).map fun p => projectRow I b.columns (base p)) := by
  rw [rowsAbove_append, h.columns_rows, Option.bind_some, h.distinct]
  cases m.distinct with
  | false => rfl
  | true => exact congrArg some (distinctRows_rows _ h.tuple _)

/-- The limit, above the sort projection when there is one. -/
theorem limits_rows (us : List (Place α)) :
    (rowsAbove I surroundings b.limits (us.map fun p => projectRow I b.columns (base p))).map
        (List.map (keyValues vs)) =
      some ((atMost m.limit (us.mergeSort (precedes I m.order))).map m.tuple) := by
  unfold limits
  cases hb : b.sort with
  | none =>
    have hall : ∀ p p', precedes I m.order p p' = true := by
      intro p p'
      rw [← h.order, hb]
      rfl
    have hsort : us.mergeSort (precedes I m.order) = us :=
      List.mergeSort_of_pairwise (List.pairwise_of_forall fun p p' => hall p p')
    have htuples : ∀ us : List (Place α), (us.map fun p => projectRow I b.columns (base p)).map
        (keyValues vs) = us.map m.tuple := by
      intro us
      rw [List.map_map]
      exact List.map_congr_left fun p _ => h.tuple p
    rw [hsort, h.limit]
    cases m.limit with
    | none => exact congrArg some (htuples us)
    | some count =>
      have hlimit := limitRows_unordered (fun p => projectRow I b.columns (base p))
        (sortedBefore I []) (fun _ _ => rfl) (some count) us
      change some ((limitRows (some count) [] (sortedBefore I []) _).map (keyValues vs)) = _
      rw [hlimit, htuples]
  | some l =>
    have hrows : (us.map fun p => projectRow I b.columns (base p)).map (projectRow I l.columns) =
        us.map fun p => b.sortedRow I (base p) := by
      rw [List.map_map]
      refine List.map_congr_left fun p _ => ?_
      rw [sortedRow, hb]
      rfl
    have horder : ∀ p p', sortedBefore I l.keys (b.sortedRow I (base p))
        (b.sortedRow I (base p')) = precedes I m.order p p' := by
      intro p p'
      rw [← h.order, hb]
      rfl
    change some ((limitRows b.limit [] (sortedBefore I l.keys)
      ((us.map fun p => projectRow I b.columns (base p)).map (projectRow I l.columns))).map
        (keyValues vs)) = _
    rw [hrows, limitRows_rows _ _ _ horder, h.limit, List.map_map]
    exact congrArg some (List.map_congr_left fun p _ => h.sortedTuple p)

/-- The operators of the block compute the tuples of the meaning. -/
theorem operators_rows :
    (rowsAbove I surroundings b.operators (ps.map base)).map (List.map (keyValues vs)) =
      some ((atMost m.limit ((if m.distinct then firsts m.tuple (ps.filter (holdsAt L m.having))
        else ps.filter (holdsAt L m.having)).mergeSort (precedes I m.order))).map m.tuple) := by
  rw [operators, rowsAbove_append, h.distinct_rows, Option.bind_some]
  exact h.limits_rows surroundings _

end Stands

end QueryBlock

end Mizugaki.Analyzer
