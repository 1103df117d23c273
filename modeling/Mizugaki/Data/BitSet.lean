import Mathlib.Data.List.Nodup
import Mathlib.Data.Nat.Bitwise

/-! Sets of numbers as the bits of one number. Whether the numbers of a list differ, and whether a
number is among them, is computed in one pass over the list. -/

namespace Mizugaki.Data.BitSet

/-- The set with one more number. -/
def insert (set n : Nat) : Nat := set ||| 2 ^ n

/-- The numbers of a list. -/
def ofList : List Nat → Nat
  | [] => 0
  | n :: l => insert (ofList l) n

/-- Whether the numbers of a list differ from each other and from those seen before. -/
def distinctFrom (seen : Nat) : List Nat → Bool
  | [] => true
  | n :: l => !seen.testBit n && distinctFrom (insert seen n) l

variable {set m n seen : Nat} {l : List Nat}

@[simp] theorem testBit_insert :
    (insert set n).testBit m = (set.testBit m || decide (n = m)) := by
  rw [insert, Nat.testBit_or, Nat.testBit_two_pow]

@[simp] theorem testBit_ofList : (ofList l).testBit n = decide (n ∈ l) := by
  induction l with
  | nil => simp [ofList]
  | cons m l ih =>
    rw [ofList, testBit_insert, ih]
    by_cases h : m = n
    · simp [h]
    · simp [h, Ne.symm h]

theorem of_distinctFrom (h : distinctFrom seen l = true) :
    (∀ n ∈ l, seen.testBit n = false) ∧ l.Nodup := by
  induction l generalizing seen with
  | nil => exact ⟨by simp, List.nodup_nil⟩
  | cons n l ih =>
    rw [distinctFrom, Bool.and_eq_true, Bool.not_eq_true'] at h
    obtain ⟨hseen, hl⟩ := ih h.2
    have hne : ∀ m ∈ l, seen.testBit m = false ∧ n ≠ m := by
      intro m hm
      have hm := hseen m hm
      rw [testBit_insert, Bool.or_eq_false_iff, decide_eq_false_iff_not] at hm
      exact hm
    constructor
    · rintro m (_ | ⟨_, hm⟩)
      · exact h.1
      · exact (hne m hm).1
    · exact List.nodup_cons.mpr ⟨fun hn => (hne n hn).2 rfl, hl⟩

theorem nodup_of_distinct (h : distinctFrom 0 l = true) : l.Nodup := (of_distinctFrom h).2

end Mizugaki.Data.BitSet
