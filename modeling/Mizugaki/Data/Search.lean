import Mathlib.Order.Lattice

/-! Binary search. On a list that a bound partitions, the two bounds of a key are where the
partition is, and the elements between two bounds are one segment. -/

namespace Mizugaki.Data.Search

variable {α β : Type} [LinearOrder α] (f : β → α)

/-- The index of the first element that is not below the key. -/
def lowerBound (key : α) (xs : List β) : Nat := xs.findIdx fun x => decide (key ≤ f x)

/-- The index of the first element above the key. -/
def upperBound (key : α) (xs : List β) : Nat := xs.findIdx fun x => decide (key < f x)

variable {f} {key low high : α} {a b c : List β}

theorem findIdx_append_of_head (p : β → Bool) (ha : ∀ x ∈ a, p x = false)
    (hb : ∀ x ∈ b, p x = true) : (a ++ b).findIdx p = a.length := by
  have hnone : a.findIdx p = a.length := List.findIdx_eq_length.mpr ha
  rw [List.findIdx_append, hnone, if_neg (by omega)]
  cases b with
  | nil => simp
  | cons x b => simp [List.findIdx_cons, hb x List.mem_cons_self]

theorem lowerBound_append (ha : ∀ x ∈ a, f x < key) (hb : ∀ x ∈ b, key ≤ f x) :
    lowerBound f key (a ++ b) = a.length :=
  findIdx_append_of_head _ (fun x hx => decide_eq_false (not_le.mpr (ha x hx)))
    (fun x hx => decide_eq_true (hb x hx))

theorem upperBound_append (ha : ∀ x ∈ a, f x ≤ key) (hb : ∀ x ∈ b, key < f x) :
    upperBound f key (a ++ b) = a.length :=
  findIdx_append_of_head _ (fun x hx => decide_eq_false (not_lt.mpr (ha x hx)))
    (fun x hx => decide_eq_true (hb x hx))

theorem lowerBound_between (ha : ∀ x ∈ a, f x < low) (hb : ∀ x ∈ b, low ≤ f x)
    (hc : ∀ x ∈ c, low ≤ f x) : lowerBound f low (a ++ (b ++ c)) = a.length := by
  refine lowerBound_append ha fun x hx => ?_
  rcases List.mem_append.mp hx with hx | hx
  · exact hb x hx
  · exact hc x hx

theorem upperBound_between (ha : ∀ x ∈ a, f x ≤ high) (hb : ∀ x ∈ b, f x ≤ high)
    (hc : ∀ x ∈ c, high < f x) :
    upperBound f high (a ++ (b ++ c)) = a.length + b.length := by
  rw [← List.append_assoc, ← List.length_append]
  refine upperBound_append (fun x hx => ?_) hc
  rcases List.mem_append.mp hx with hx | hx
  · exact ha x hx
  · exact hb x hx

end Mizugaki.Data.Search
