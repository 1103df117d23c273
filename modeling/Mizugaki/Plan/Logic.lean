import Mizugaki.Data.Kleene
import Mizugaki.Plan.Semantics

/-! The three-valued logic of values, and what the operators of a plan are documented to do in it:
a comparison with an unknown outcome is unknown, a conditional takes the first alternative whose
condition is true, a coalescing the first operand that is not null. -/

namespace Mizugaki.Plan

open Mizugaki.Data.Kleene

/-- A comparison holds of two values in an order. -/
def ComparisonOperator.holds : ComparisonOperator → Ordering → Bool
  | equal, o => o.isEq
  | notEqual, o => o.isNe
  | less, o => o.isLT
  | lessEqual, o => o.isLE
  | greater, o => o.isGT
  | greaterEqual, o => o.isGE

/-- Values with a null, truth values among them, an order that may be unknown, and what is in the
column of a subquery for the values it takes. -/
structure Logic (α : Type) where
  null : α
  isNull : α → Bool
  truth : α → Truth
  ofTruth : Truth → α
  comparison : α → α → Option Ordering
  contents : Graph → List (Variable × α) → Variable → List α
  truth_ofTruth : ∀ t, truth (ofTruth t) = t
  comparison_swap : ∀ a b, comparison b a = (comparison a b).map Ordering.swap

namespace Logic

variable {α : Type} (L : Logic α)

def compare (op : ComparisonOperator) (a b : α) : Truth :=
  .ofOption ((L.comparison a b).map op.holds)

/-- The comparison of a value with all or with any of others. -/
def quantified (op : ComparisonOperator) : Quantifier → α → List α → Truth
  | .all, a, bs => .all (bs.map (L.compare op a))
  | .any, a, bs => .any (bs.map (L.compare op a))

/-- The result of the first alternative whose condition is true. -/
def choose : List (α × α) → Option α → α
  | [], default_ => default_.getD L.null
  | (condition, value) :: rest, default_ =>
    if L.truth condition = .true_ then value else choose rest default_

def firstNonNull : List α → α
  | [] => L.null
  | a :: as => if L.isNull a then firstNonNull as else a

end Logic

/-- The operators that conditions and cases are made of mean what is documented. -/
structure Interpretation.Documented {α : Type} (I : Interpretation α) (L : Logic α) : Prop where
  truth : ∀ a, I.truth a = decide (L.truth a = .true_)
  unknown : ∀ type, I.immediate .unknown type = L.null
  conditionalNot : ∀ a, I.unary .conditionalNot a = L.ofTruth (L.truth a).not
  isNull : ∀ a, I.unary .isNull a = L.ofTruth (.ofBool (L.isNull a))
  isTrue : ∀ a, I.unary .isTrue a = L.ofTruth (.ofBool (L.truth a = .true_))
  isFalse : ∀ a, I.unary .isFalse a = L.ofTruth (.ofBool (L.truth a = .false_))
  isUnknown : ∀ a, I.unary .isUnknown a = L.ofTruth (.ofBool (L.truth a = .unknown))
  conditionalAnd : ∀ a b, I.binary .conditionalAnd a b = L.ofTruth ((L.truth a).and (L.truth b))
  conditionalOr : ∀ a b, I.binary .conditionalOr a b = L.ofTruth ((L.truth a).or (L.truth b))
  compare : ∀ op a b, I.compare op a b = L.ofTruth (L.compare op a b)
  conditional : ∀ alternatives default_,
    I.conditional alternatives default_ = L.choose alternatives default_
  coalesce : ∀ as, I.coalesce as = L.firstNonNull as
  quantifiedCompare : ∀ op quantifier a graph values column,
    I.quantifiedCompare op quantifier a graph values column =
      L.ofTruth (L.quantified op quantifier a (L.contents graph values column))

/-- Any interpretation, with the documented operators of a logic. -/
def Interpretation.documented {α : Type} (I : Interpretation α) (L : Logic α) :
    Interpretation α where
  truth a := L.truth a = .true_
  order := I.order
  immediate
    | .unknown, _ => L.null
    | value, type => I.immediate value type
  cast := I.cast
  unary
    | .conditionalNot, a => L.ofTruth (L.truth a).not
    | .isNull, a => L.ofTruth (.ofBool (L.isNull a))
    | .isTrue, a => L.ofTruth (.ofBool (L.truth a = .true_))
    | .isFalse, a => L.ofTruth (.ofBool (L.truth a = .false_))
    | .isUnknown, a => L.ofTruth (.ofBool (L.truth a = .unknown))
    | op, a => I.unary op a
  binary
    | .conditionalAnd, a, b => L.ofTruth ((L.truth a).and (L.truth b))
    | .conditionalOr, a, b => L.ofTruth ((L.truth a).or (L.truth b))
    | op, a, b => I.binary op a b
  compare op a b := L.ofTruth (L.compare op a b)
  match_ := I.match_
  conditional := L.choose
  coalesce := L.firstNonNull
  functionCall := I.functionCall
  aggregate := I.aggregate
  subquery := I.subquery
  exists_ := I.exists_
  quantifiedCompare op quantifier a graph values column :=
    L.ofTruth (L.quantified op quantifier a (L.contents graph values column))

theorem Interpretation.documented_documented {α : Type} (I : Interpretation α) (L : Logic α) :
    (I.documented L).Documented L := by
  constructor <;> intros <;> rfl

end Mizugaki.Plan
