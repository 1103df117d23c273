import Mizugaki.Relation.Rows

/-! Relations whose rows stand for other things. What is done to the rows of such a relation, a
choice of distinct ones or a sort and a limit, can be done to what they stand for instead, by the
values that the rows give it. -/

namespace Mizugaki.Relation

section

variable {β κ : Type} [DecidableEq κ]

/-- The first thing of every key, by the last places of the keys. -/
def firsts (key : β → κ) (units : List β) : List β :=
  (units.map key).dedup.filterMap fun k => units.find? fun u => key u = k

/-- No more than a count, when there is one. -/
def atMost : Option ℕ → List β → List β
  | none, units => units
  | some n, units => units.take n

omit [DecidableEq κ] in
theorem atMost_eq (count : Option ℕ) (units : List β) :
    atMost count units = (count.map units.take).getD units := by
  cases count <;> rfl

/-- What has one key only has one first thing. -/
theorem firsts_const (k : κ) (units : List β) :
    firsts (fun _ => k) units = units.head?.toList := by
  cases units with
  | nil => rfl
  | cons u units =>
    have hfind : (u :: units).find? (fun _ => decide (k = k)) = some u :=
      List.find?_cons_of_pos (decide_eq_true rfl)
    rw [firsts, List.map_const', List.length_cons, List.replicate_dedup (Nat.succ_ne_zero _),
      List.filterMap_cons, hfind]
    rfl

end

variable {ν α β : Type} {row : β → Row ν α}

/-- A filter of rows keeps what stands for those that pass. -/
theorem filter_rows (row : β → Row ν α) {passes : Row ν α → Bool} {keep : β → Bool}
    (h : ∀ u, passes (row u) = keep u) (units : List β) :
    (units.map row).filter passes = (units.filter keep).map row := by
  rw [List.filter_map]
  exact congrArg (List.map row) (List.filter_congr fun u _ => h u)

/-- Sorted rows stand for sorted things. -/
theorem limitRows_rows [DecidableEq α] (row : β → Row ν α) (before : Row ν α → Row ν α → Bool)
    (precedes : β → β → Bool) (h : ∀ u u', before (row u) (row u') = precedes u u') (count : Option ℕ) (units : List β) :
    limitRows count [] before (units.map row) =
      (atMost count (units.mergeSort precedes)).map row := by
  have hsort : (units.map row).mergeSort before = (units.mergeSort precedes).map row :=
    (List.map_mergeSort fun u _ u' _ => (h u u').symm).symm
  rw [limitRows, groups_nil, List.flatMap_singleton, hsort, atMost_eq]
  cases count with
  | none => rfl
  | some n => exact List.map_take.symm

/-- A limit without an order takes the first rows. -/
theorem limitRows_unordered [DecidableEq α] (row : β → Row ν α) (before : Row ν α → Row ν α → Bool)
    (h : ∀ r r', before r r' = true) (count : Option ℕ) (units : List β) :
    limitRows count [] before (units.map row) = (atMost count units).map row := by
  rw [limitRows_rows row before (fun _ _ => true) (fun u u' => h _ _),
    List.mergeSort_of_pairwise (List.pairwise_of_forall fun _ _ => rfl)]

/-- Distinct rows stand for what is first with its values. -/
theorem distinctRows_rows [DecidableEq α] (row : β → Row ν α) {keys : List ν} {key : β → List α}
    (h : ∀ u, keyValues keys (row u) = key u) (units : List β) :
    distinctRows keys (units.map row) = (firsts key units).map row := by
  cases keys with
  | nil =>
    obtain rfl : key = fun _ => [] := funext fun u => (h u).symm
    rw [firsts_const, distinctRows, groups_nil]
    cases units <;> rfl
  | cons k keys =>
    have hkeys : (units.map row).map (keyValues (k :: keys)) = units.map key := by
      rw [List.map_map]
      exact List.map_congr_left fun u _ => h u
    have hfirst : ∀ values : List α, ((units.map row).filter fun r =>
        keyValues (k :: keys) r = values).head? = (units.find? fun u => key u = values).map row := by
      intro values
      rw [List.head?_filter, List.find?_map]
      refine congrArg (Option.map row) (congrArg (List.find? · units) (funext fun u => ?_))
      exact congrArg (fun vs => decide (vs = values)) (h u)
    change (((units.map row).map (keyValues (k :: keys))).dedup.map fun values =>
      (units.map row).filter fun r => keyValues (k :: keys) r = values).filterMap List.head? = _
    rw [hkeys, List.filterMap_map, firsts, List.map_filterMap]
    exact congrArg (List.filterMap · _) (funext hfirst)

end Mizugaki.Relation
