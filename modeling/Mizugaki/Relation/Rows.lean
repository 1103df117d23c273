import Mathlib.Data.List.Dedup
import Mathlib.Data.List.TakeDrop
import Mathlib.Data.Multiset.MapFold

/-! Relations as lists of rows, a row being a function from names to values. A projection
extends rows, grouping splits a relation by the values of its keys, and an aggregation
makes one row of each group; without keys it always makes exactly one. -/

namespace Mizugaki.Relation

variable {ν α : Type} [DecidableEq ν]

/-- A row: the value of every name. -/
abbrev Row (ν α : Type) := ν → α

/-- Give names values, one after another. -/
def extend (row : Row ν α) : List (ν × α) → Row ν α
  | [] => row
  | (n, a) :: rest => extend (Function.update row n a) rest

theorem extend_of_notMem {row : Row ν α} {as : List (ν × α)} {n : ν} (h : n ∉ as.map Prod.fst) :
    extend row as n = row n := by
  induction as generalizing row with
  | nil => rfl
  | cons a as ih =>
    rw [List.map_cons, List.mem_cons, not_or] at h
    rw [extend, ih h.2, Function.update_of_ne h.1]

/-- With different names every name has its own value. -/
theorem extend_of_mem {row : Row ν α} {as : List (ν × α)} (hnodup : (as.map Prod.fst).Nodup)
    {n : ν} {a : α} (h : (n, a) ∈ as) : extend row as n = a := by
  induction as generalizing row with
  | nil => cases h
  | cons b as ih =>
    rw [List.map_cons, List.nodup_cons] at hnodup
    obtain rfl | h := List.mem_cons.mp h
    · rw [extend, extend_of_notMem hnodup.1, Function.update_self]
    · rw [extend, ih hnodup.2 h]

/-- An update of a name that is not among others commutes with them. -/
theorem update_extend {row : Row ν α} {as : List (ν × α)} {n : ν} (h : n ∉ as.map Prod.fst)
    (a : α) : Function.update (extend row as) n a = extend (Function.update row n a) as := by
  induction as generalizing row with
  | nil => rfl
  | cons b as ih =>
    rw [List.map_cons, List.mem_cons, not_or] at h
    rw [extend, extend, ih h.2, Function.update_comm h.1]

/-! ### Grouping -/

/-- The values of keys in a row. -/
def keyValues (keys : List ν) (row : Row ν α) : List α := keys.map row

omit [DecidableEq ν] in
theorem keyValues_congr {keys : List ν} {row row' : Row ν α} (h : ∀ k ∈ keys, row k = row' k) :
    keyValues keys row = keyValues keys row' :=
  List.map_congr_left h

variable [DecidableEq α]

/-- The groups of a relation by keys, in the order of their last rows; without keys the whole
relation is the only group, also when it is empty. -/
def groups (keys : List ν) (rows : List (Row ν α)) : List (List (Row ν α)) :=
  match keys with
  | [] => [rows]
  | _ => (rows.map (keyValues keys)).dedup.map fun k => rows.filter fun row => keyValues keys row = k

/-- The row that stands for a group: the values of the keys, in surroundings that have the rest. -/
def representative (surroundings : Row ν α) (keys : List ν) (group : List (Row ν α)) : Row ν α :=
  fun n => if n ∈ keys then (group.head?.map (· n)).getD (surroundings n) else surroundings n

omit [DecidableEq ν] in
/-- Without keys there is one group. -/
theorem groups_nil (rows : List (Row ν α)) : groups [] rows = [rows] := rfl

omit [DecidableEq ν] in
/-- A change of the rows that keeps the keys changes the rows of the groups alike. -/
theorem groups_map {keys : List ν} {f : Row ν α → Row ν α}
    (hf : ∀ row, ∀ k ∈ keys, f row k = row k) (rows : List (Row ν α)) :
    groups keys (rows.map f) = (groups keys rows).map (List.map f) := by
  have hkeys : ∀ row, keyValues keys (f row) = keyValues keys row :=
    fun row => keyValues_congr (hf row)
  cases keys with
  | nil => rfl
  | cons key keys =>
    simp only [groups, List.map_map, Function.comp_def, hkeys, List.filter_map]

omit [DecidableEq α] in
theorem representative_map {keys : List ν} {f : Row ν α → Row ν α}
    (hf : ∀ row, ∀ k ∈ keys, f row k = row k) (surroundings : Row ν α) (group : List (Row ν α)) :
    representative surroundings keys (group.map f) = representative surroundings keys group := by
  funext n
  unfold representative
  split_ifs with hn
  · cases group with
    | nil => rfl
    | cons row group => exact hf row n hn
  · rfl

/-- The rows of a group agree with the row that stands for it, on the keys. -/
theorem representative_of_mem {keys : List ν} {rows group : List (Row ν α)}
    (hgroup : group ∈ groups keys rows) {row : Row ν α} (hrow : row ∈ group)
    (surroundings : Row ν α) {n : ν} (hn : n ∈ keys) :
    representative surroundings keys group n = row n := by
  rw [representative, if_pos hn]
  cases keys with
  | nil => cases hn
  | cons key keys =>
    obtain ⟨k, -, rfl⟩ := List.mem_map.mp hgroup
    rcases hhead : rows.filter (fun row => keyValues (key :: keys) row = k) with _ | ⟨first, rest⟩
    · rw [hhead] at hrow
      cases hrow
    · have hfirst : keyValues (key :: keys) first = k := by
        have hmem : first ∈ rows.filter fun row => keyValues (key :: keys) row = k := by
          rw [hhead]
          exact List.mem_cons_self
        exact of_decide_eq_true (List.mem_filter.mp hmem).2
      have hthis : keyValues (key :: keys) row = k :=
        of_decide_eq_true (List.mem_filter.mp hrow).2
      exact List.map_inj_left.mp (hfirst.trans hthis.symm) n hn

/-! ### Distinct rows and limits -/

/-- The first row of every group. -/
def distinctRows (keys : List ν) (rows : List (Row ν α)) : List (Row ν α) :=
  (groups keys rows).filterMap List.head?

/-- The first rows of every group, in an order. -/
def limitRows (count : Option ℕ) (keys : List ν) (before : Row ν α → Row ν α → Bool)
    (rows : List (Row ν α)) : List (Row ν α) :=
  (groups keys (rows.mergeSort before)).flatMap fun group => (count.map group.take).getD group

omit [DecidableEq ν] in
theorem distinctRows_length_le (keys : List ν) (rows : List (Row ν α)) :
    (distinctRows keys rows).length ≤ rows.length := by
  cases keys with
  | nil =>
    cases rows with
    | nil => exact le_rfl
    | cons row rows => exact Nat.succ_le_succ (Nat.zero_le _)
  | cons key keys =>
    calc (distinctRows (key :: keys) rows).length
        ≤ ((rows.map (keyValues (key :: keys))).dedup.map fun k =>
            rows.filter fun row => keyValues (key :: keys) row = k).length :=
          List.length_filterMap_le _ _
      _ = (rows.map (keyValues (key :: keys))).dedup.length := List.length_map _
      _ ≤ (rows.map (keyValues (key :: keys))).length := (List.dedup_sublist _).length_le
      _ = rows.length := List.length_map _

omit [DecidableEq ν] in
/-- A limit of the whole relation makes no rows. -/
theorem limitRows_length_le (count : Option ℕ) (before : Row ν α → Row ν α → Bool)
    (rows : List (Row ν α)) : (limitRows count [] before rows).length ≤ rows.length := by
  have hsort : (rows.mergeSort before).length = rows.length := List.length_mergeSort rows
  rw [limitRows, groups_nil, List.flatMap_singleton, ← hsort]
  cases count with
  | none => exact le_rfl
  | some n => exact List.length_take_le' _ _

/-! ### Aggregation -/

/-- The columns of an aggregation: a name, and its value for a group. -/
abbrev Aggregates (ν α : Type) := List (ν × (List (Row ν α) → α))

/-- The row of a group. -/
def aggregateRow (surroundings : Row ν α) (keys : List ν) (columns : Aggregates ν α)
    (group : List (Row ν α)) : Row ν α :=
  extend (representative surroundings keys group) (columns.map fun c => (c.1, c.2 group))

/-- One row for each group. -/
def aggregate (surroundings : Row ν α) (keys : List ν) (columns : Aggregates ν α)
    (rows : List (Row ν α)) : List (Row ν α) :=
  (groups keys rows).map (aggregateRow surroundings keys columns)

/-- Without keys an aggregation makes exactly one row. -/
theorem aggregate_nil (surroundings : Row ν α) (columns : Aggregates ν α)
    (rows : List (Row ν α)) : (aggregate surroundings [] columns rows).length = 1 := rfl

end Mizugaki.Relation
