import Mizugaki.Joining.Using
import Mizugaki.Meaning.Assignment
import Mizugaki.Relation.Join

/-! What a merged column is worth. The name of a USING clause means the column of the left operand,
which in every row of an inner or a left join is worth what `COALESCE` of both columns is. In a right
or a full join it is null where only the right operand has a row. -/

namespace Mizugaki.Plan

open Mizugaki.Relation Mizugaki.Data.Kleene

variable {α : Type}

/-- The rows of a join, by its kind. -/
def JoinKind.rows (null : α) (lefts rights : List Variable) (holds : Row Variable α → Bool) :
    JoinKind → List (Row Variable α) → List (Row Variable α) → List (Row Variable α)
  | .inner => innerJoin rights holds
  | .leftOuter => leftJoin null rights holds
  | .fullOuter => fullJoin null lefts rights holds

end Mizugaki.Plan

namespace Mizugaki.Analyzer

open Mizugaki.Ast Mizugaki.Plan Mizugaki.Control Mizugaki.Relation Mizugaki.Data.Kleene

variable {ρ α : Type} {env : Environment ρ} {I : Interpretation α} {L : Logic α}

/-! ### Rows -/

theorem Requires.holds (hI : I.Documented L) {l r : Variable} {e : Scalar} (h : Requires l r e)
    (row : Row Variable α) (he : L.truth (e.eval I [] [] row) = .true_) :
    L.compare .equal (row l) (row r) = .true_ := by
  have hand : ∀ a b : Truth, a.and b = .true_ → a = .true_ ∧ b = .true_ := by
    intro a b hab
    cases a <;> cases b <;> first | exact ⟨rfl, rfl⟩ | cases hab
  induction h with
  | term => rwa [Scalar.eval, Scalar.eval, Scalar.eval, hI.compare, L.truth_ofTruth] at he
  | left _ ih =>
    rw [Scalar.eval, hI.conditionalAnd, L.truth_ofTruth] at he
    exact ih (hand _ _ he).1
  | right _ ih =>
    rw [Scalar.eval, hI.conditionalAnd, L.truth_ofTruth] at he
    exact ih (hand _ _ he).2

theorem Numbered.older {n m : ℕ} {vs : List Variable} (h : Numbered n m vs) {v : Variable}
    (hv : v ∈ vs) : v.Older m := by
  obtain ⟨k, rfl, -, hk⟩ := h.between v hv
  rintro _ ⟨⟩
  exact hk

end Mizugaki.Analyzer
