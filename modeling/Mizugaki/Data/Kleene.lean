import Mathlib.Tactic.Common

/-! Three-valued logic: a truth value may be unknown, a conjunction is as true as its least true part
and a disjunction as its most true one. -/

namespace Mizugaki.Data.Kleene

inductive Truth where
  | false_ | unknown | true_
  deriving DecidableEq, Repr

namespace Truth

def ofBool : Bool → Truth
  | true => true_
  | false => false_

/-- What is not known is unknown. -/
def ofOption : Option Bool → Truth
  | some b => ofBool b
  | none => unknown

def not : Truth → Truth
  | false_ => true_
  | unknown => unknown
  | true_ => false_

def and : Truth → Truth → Truth
  | false_, _ => false_
  | _, false_ => false_
  | unknown, _ => unknown
  | _, unknown => unknown
  | true_, true_ => true_

def or : Truth → Truth → Truth
  | true_, _ => true_
  | _, true_ => true_
  | unknown, _ => unknown
  | _, unknown => unknown
  | false_, false_ => false_

/-- A conjunction of any number of truth values. -/
def all (ts : List Truth) : Truth := ts.foldr and true_

/-- A disjunction of any number of truth values. -/
def any (ts : List Truth) : Truth := ts.foldr or false_

theorem or_assoc (a b c : Truth) : (a.or b).or c = a.or (b.or c) := by
  cases a <;> cases b <;> cases c <;> rfl

theorem or_false (a : Truth) : a.or false_ = a := by
  cases a <;> rfl

theorem not_or (a b : Truth) : (a.or b).not = a.not.and b.not := by
  cases a <;> cases b <;> rfl

theorem not_ofOption (b : Option Bool) : (ofOption b).not = ofOption (b.map Bool.not) := by
  cases b with
  | none => rfl
  | some b => cases b <;> rfl

/-- A disjunction that is built from the left. -/
theorem foldl_or (t : Truth) (ts : List Truth) : ts.foldl or t = t.or (any ts) := by
  induction ts generalizing t with
  | nil => exact (or_false t).symm
  | cons u ts ih =>
    rw [List.foldl_cons, ih, or_assoc]
    rfl

/-- None holds when all fail to. -/
theorem not_any (ts : List Truth) : (any ts).not = all (ts.map not) := by
  induction ts with
  | nil => rfl
  | cons t ts ih =>
    rw [any, List.foldr_cons, not_or, List.map_cons, all, List.foldr_cons]
    exact congrArg (and t.not) ih

end Truth

end Mizugaki.Data.Kleene
