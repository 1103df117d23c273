import Mizugaki.Relation.Rows

/-! Joins of rows. A row of the left operand and one of the right are put side by side; an outer
join keeps a row that no row of the other operand matches, with nulls beside it. -/

namespace Mizugaki.Relation

variable {ν α : Type} [DecidableEq ν]

/-- Two rows side by side, the second one with names of its own. -/
def beside (names : List ν) (left right : Row ν α) : Row ν α :=
  fun n => if n ∈ names then right n else left n

/-- A row with nulls under some of its names. -/
def nullify (null : α) (names : List ν) (row : Row ν α) : Row ν α :=
  fun n => if n ∈ names then null else row n

variable (null : α) (lefts rights : List ν) (holds : Row ν α → Bool)

/-- The rows that a left row makes with those on the right. -/
def matching (row : Row ν α) (right : List (Row ν α)) : List (Row ν α) :=
  (right.map (beside rights row)).filter holds

def innerJoin (left right : List (Row ν α)) : List (Row ν α) :=
  left.flatMap fun row => matching rights holds row right

/-- A left row without a match stays. -/
def leftJoin (left right : List (Row ν α)) : List (Row ν α) :=
  left.flatMap fun row =>
    if (matching rights holds row right).isEmpty then [nullify null rights row]
    else matching rights holds row right

/-- The right rows without a match. -/
def unmatched (left right : List (Row ν α)) : List (Row ν α) :=
  right.filter fun row => left.all fun other => !holds (beside rights other row)

/-- Rows without a match stay on both sides. -/
def fullJoin (left right : List (Row ν α)) : List (Row ν α) :=
  leftJoin null rights holds left right ++
    (unmatched rights holds left right).map (nullify null lefts)

variable {null lefts rights holds}

end Mizugaki.Relation
