import Mizugaki.Analyzer.Engine
import Mizugaki.Plan.Logic

/-! The value of a scalar expression as it is written, in three-valued logic. Names, literals,
functions and subqueries are what the analyzer finds for them in the state it reaches them in;
conditions, cases and the forms that are defined by others have their values by what they say, and
by no expression that the analyzer builds for them. -/

namespace Mizugaki.Ast

/-- A comparison holds of two values in an order. -/
def ComparisonOperator.holds : ComparisonOperator → Ordering → Bool
  | equals, o => o.isEq
  | notEquals, o | notEqualsAlternative, o => !o.isEq
  | lessThan, o => o.isLT
  | greaterThan, o => o.isGT
  | lessThanOrEquals, o => !o.isGT
  | greaterThanOrEquals, o => !o.isLT

end Mizugaki.Ast

namespace Mizugaki.Plan.Logic

open Mizugaki.Ast Mizugaki.Data.Kleene

variable {α : Type} (L : Logic α)

/-- A comparison as it is written. -/
def compares (op : Ast.ComparisonOperator) (a b : α) : Truth :=
  .ofOption ((L.comparison a b).map op.holds)

/-- A comparison with all or with some of the values of a subquery. -/
def comparesEach (op : Ast.ComparisonOperator) : Ast.Quantifier → α → List α → Truth
  | .all, a, bs => .all (bs.map (L.compares op a))
  | .any, a, bs => .any (bs.map (L.compares op a))
  | .some_, a, bs => .any (bs.map (L.compares op a))

/-- A value lies from a low one to a high one. -/
def within (a low high : α) : Truth :=
  (L.compares .greaterThanOrEquals a low).and (L.compares .lessThanOrEquals a high)

/-- `BETWEEN`: a symmetric one takes its bounds in either order. -/
def between : Option BetweenOperator → α → α → α → Truth
  | some .symmetric, a, low, high => (L.within a low high).or (L.within a high low)
  | some .asymmetric, a, low, high => L.within a low high
  | none, a, low, high => L.within a low high

/-- A predicate that may be written with `NOT`. -/
def predicate (isNot : Bool) (t : Truth) : α := L.ofTruth (if isNot then t.not else t)

/-- A value that may be negated. -/
def negate (isNot : Bool) (a : α) : α := if isNot then L.ofTruth (L.truth a).not else a

/-- What `IS` tests, by the literal on the right of it. -/
def test : Literal → Option (α → Truth)
  | .null => some fun a => .ofBool (L.isNull a)
  | .boolean .true_ => some fun a => .ofBool (L.truth a = .true_)
  | .boolean .false_ => some fun a => .ofBool (L.truth a = .false_)
  | .boolean .unknown => some fun a => .ofBool (L.truth a = .unknown)
  | _ => none

def nullif (a b : α) : α := if L.compares .equals a b = .true_ then L.null else a

/-- A clause of a case expression applies: its value equals the operand or, without one, is true. -/
def applies : Option α → α → Truth
  | some a, b => L.compares .equals a b
  | none, b => L.truth b

/-- The result of the first clause that applies. -/
def case_ (operand : Option α) : List (α × α) → Option α → α
  | [], default_ => default_.getD L.null
  | (when_, result) :: clauses, default_ =>
    if L.applies operand when_ = .true_ then result else case_ operand clauses default_

end Mizugaki.Plan.Logic

namespace Mizugaki.Analyzer

open Mizugaki.Ast Mizugaki.Plan Mizugaki.Relation Mizugaki.Data.Kleene

variable {ρ α : Type}

/-- What an expression is worth in a row, with set functions over a group of rows. -/
abbrev Meaning (α : Type) := List (Row Variable α) → Row Variable α → α

variable (I : Interpretation α) (L : Logic α)

def unaryMeaning : Ast.UnaryOperator → Option (α → α)
  | .plus => some (I.unary .plus)
  | .minus => some (I.unary .signInversion)
  | .not_ => some fun a => L.ofTruth (L.truth a).not
  | .atLocal | .referenceResolution => none

def binaryMeaning : Ast.BinaryOperator → Option (α → α → α)
  | .plus => some (I.binary .add)
  | .minus => some (I.binary .subtract)
  | .asterisk => some (I.binary .multiply)
  | .solidus => some (I.binary .divide)
  | .percent => some (I.binary .remainder)
  | .concatenation => some (I.binary .concat)
  | .and_ => some fun a b => L.ofTruth ((L.truth a).and (L.truth b))
  | .or_ => some fun a b => L.ofTruth ((L.truth a).or (L.truth b))
  | _ => none

/-- A pattern match; without an escape character its operand is an empty text. -/
def patternMeaning (op : PatternMatchOperator) (input pattern : α) (escape : Option α) : α :=
  I.match_ (match op with
    | .like => .like
    | .similarTo => .similar) input pattern
    (escape.getD (I.immediate (.character []) (.character true none)))

/-- `IS` and `IS NOT`: the right of them is looked at and has no value. -/
def isMeaning (isNot : Bool) (right : ScalarExpression) (f : Meaning α) : Option (Meaning α) :=
  match right with
  | .literalExpression literal =>
    (L.test literal).map fun t group row => L.predicate isNot (t (f group row))
  | _ => none

/-- An expression that stands for itself. -/
def leafMeaning (found : Option Scalar) : Option (Meaning α) :=
  found.map fun e group row => e.eval I group [] row

/-- The function or the set function that was found for a call, of the values of its arguments. -/
def callMeaning (found : Option Scalar) (arguments : List (Meaning α)) : Option (Meaning α) :=
  match found with
  | some (.functionCall function _) =>
    some fun group row => I.functionCall function (arguments.map fun f => f group row)
  | some (.aggregateFunctionCall function _) =>
    some fun group _ => I.aggregate function (group.map fun r => arguments.map fun f => f [] r)
  | _ => none

def castMeaning (found : Option Scalar) (f : Meaning α) : Option (Meaning α) :=
  match found with
  | some (.cast type lossPolicy _) => some fun group row => I.cast type lossPolicy (f group row)
  | _ => none

/-- The values of a subquery that something is compared with, in a row. -/
def columnMeaning (found : Option Scalar) : Option (Row Variable α → List α) :=
  match found with
  | some (.quantifiedCompare _ _ _ graph parameters column) =>
    some fun row => L.contents graph (parameterValues row parameters) column
  | _ => none

variable (env : Environment ρ)

/-- The state after an operand is analyzed. -/
def afterOperand (e : ScalarExpression) (context : ValueContext) (s : AnalyzerState ρ) :
    AnalyzerState ρ := (scalar env e context s).2

/-- The state after an argument is analyzed and its type is determined. -/
def afterArgument (e : ScalarExpression) (s : AnalyzerState ρ) : AnalyzerState ρ :=
  (analyzeArguments env [scalar env e] s).2

mutual

/-- The value of a scalar expression that is analyzed from a state. -/
def denote : ScalarExpression → ValueContext → AnalyzerState ρ → Option (Meaning α)
  | .literalExpression value, context, s =>
    leafMeaning I (scalar env (.literalExpression value) context s).1
  | .variableReference name, context, s =>
    leafMeaning I (scalar env (.variableReference name) context s).1
  | .hostParameterReference name, context, s =>
    leafMeaning I (scalar env (.hostParameterReference name) context s).1
  | .placeholderReference index, context, s =>
    leafMeaning I (scalar env (.placeholderReference index) context s).1
  | .subquery q contextKind, context, s =>
    leafMeaning I (scalar env (.subquery q contextKind) context s).1
  | .tablePredicate operator_ operand, context, s =>
    leafMeaning I (scalar env (.tablePredicate operator_ operand) context s).1
  | .caseExpression none whenClauses defaultResult, context, s => do
    let clauses ← denoteClauses whenClauses context s
    let default_ ← denoteOption defaultResult context
      (processWhenClauses none context (scalarPairs env whenClauses) s).2
    return fun group row =>
      L.case_ none (clauses.map fun c => (c.1 group row, c.2 group row))
        (default_.map fun f => f group row)
  | .caseExpression (some operand) whenClauses defaultResult, context, s => do
    let f ← denote operand .unspecified s
    let t := (localVariable (afterOperand env operand .unspecified s)).2
    let clauses ← denoteClauses whenClauses context t
    let default_ ← denoteOption defaultResult context
      (processWhenClauses none context (scalarPairs env whenClauses) t).2
    return fun group row =>
      L.case_ (some (f group row)) (clauses.map fun c => (c.1 group row, c.2 group row))
        (default_.map fun f => f group row)
  | .castExpression operator_ operand type, context, s => do
    let f ← denote operand .unspecified (reportCastOperator operator_ s).2
    castMeaning I (scalar env (.castExpression operator_ operand type) context s).1 f
  | .unaryExpression operator_ operand, _, s => do
    let op ← unaryMeaning I L operator_
    let f ← denote operand .unspecified s
    return fun group row => op (f group row)
  | .binaryExpression left .is right, _, s => do
    let f ← denote left .unspecified s
    isMeaning L false right f
  | .binaryExpression left .isNot right, _, s => do
    let f ← denote left .unspecified s
    isMeaning L true right f
  | .binaryExpression left operator_ right, _, s => do
    let op ← binaryMeaning I L operator_
    let f ← denote left .unspecified s
    let g ← denote right .unspecified (afterOperand env left .unspecified s)
    return fun group row => op (f group row) (g group row)
  | .comparisonPredicate left operator_ right, _, s => do
    let f ← denote left .unspecified s
    let g ← denote right .unspecified (afterOperand env left .unspecified s)
    return fun group row => L.ofTruth (L.compares operator_ (f group row) (g group row))
  | .betweenPredicate target isNot operator_ left right, _, s => do
    let t := afterOperand env target .unspecified s
    let f ← denote target .unspecified s
    let g ← denote left .unspecified t
    let h ← denote right .unspecified (afterOperand env left .unspecified t)
    return fun group row =>
      L.predicate isNot (L.between operator_ (f group row) (g group row) (h group row))
  | .quantifiedComparisonPredicate left operator_ quantifier right, context, s => do
    let f ← denote left .unspecified s
    let column ← columnMeaning L
      (scalar env (.quantifiedComparisonPredicate left operator_ quantifier right) context s).1
    return fun group row => L.ofTruth (L.comparesEach operator_ quantifier (f group row) (column row))
  | .inPredicate left isNot (.tableValueConstructor elements), _, s => do
    let f ← denote left .unspecified s
    let values ← denoteList (fun e => afterOperand env e .unspecified) elements
      (afterOperand env left .unspecified s)
    return fun group row =>
      L.predicate isNot (.any (values.map fun g => L.compares .equals (f group row) (g group row)))
  | .inPredicate left isNot right, context, s => do
    let f ← denote left .unspecified s
    let column ← columnMeaning L (scalar env (.inPredicate left isNot right) context s).1
    return fun group row => L.predicate isNot (.any ((column row).map (L.compares .equals (f group row))))
  | .patternMatchPredicate matchValue isNot operator_ pattern escape, _, s => do
    let t := afterOperand env matchValue .unspecified s
    let f ← denote matchValue .unspecified s
    let g ← denote pattern .unspecified t
    let h ← denoteOption escape .unspecified (afterOperand env pattern .unspecified t)
    return fun group row =>
      L.negate isNot (patternMeaning I operator_ (f group row) (g group row)
        (h.map fun h => h group row))
  | .extractExpression field subsecondDigits operand, context, s => do
    let f ← denote operand .unspecified s
    let precision : List (Meaning α) :=
      if field ∈ extractIncludesSecond then
        [fun group row => (extractSecondPrecision subsecondDigits).eval I group [] row]
      else []
    callMeaning I (scalar env (.extractExpression field subsecondDigits operand) context s).1
      (f :: precision)
  | .functionInvocation name arguments, context, s => do
    let fs ← denoteList (afterArgument env) arguments s
    callMeaning I (scalar env (.functionInvocation name arguments) context s).1 fs
  | .builtinFunctionInvocation .nullif [left, right], _, s => do
    let f ← denote left .unspecified s
    let g ← denote right .unspecified (afterOperand env left .unspecified s)
    return fun group row => L.nullif (f group row) (g group row)
  | .builtinFunctionInvocation .coalesce arguments, _, s => do
    let fs ← denoteList (fun e => afterOperand env e .unspecified) arguments s
    return fun group row => L.firstNonNull (fs.map fun f => f group row)
  | .builtinFunctionInvocation function arguments, context, s => do
    let fs ← denoteList (afterArgument env) arguments s
    callMeaning I (scalar env (.builtinFunctionInvocation function arguments) context s).1 fs
  | .builtinSetFunctionInvocation function quantifier arguments, context, s => do
    let fs ← denoteList (afterArgument env) arguments s
    callMeaning I
      (scalar env (.builtinSetFunctionInvocation function quantifier arguments) context s).1 fs
  | .valueConstructor _ _, _, _ => none
  | .unsupported _, _, _ => none
termination_by structural e => e

/-- The values of expressions that are analyzed one after another. -/
def denoteList (after : ScalarExpression → AnalyzerState ρ → AnalyzerState ρ) :
    List ScalarExpression → AnalyzerState ρ → Option (List (Meaning α))
  | [], _ => some []
  | e :: es, s => do
    let f ← denote e .unspecified s
    let fs ← denoteList after es (after e s)
    return f :: fs
termination_by structural es => es

def denoteOption : Option ScalarExpression → ValueContext → AnalyzerState ρ →
    Option (Option (Meaning α))
  | none, _, _ => some none
  | some e, context, s => (denote e context s).map some
termination_by structural e => e

/-- The values of the clauses of a case expression. -/
def denoteClauses : List (ScalarExpression × ScalarExpression) → ValueContext → AnalyzerState ρ →
    Option (List (Meaning α × Meaning α))
  | [], _, _ => some []
  | (when_, result) :: clauses, context, s => do
    let t := afterOperand env when_ .unspecified s
    let f ← denote when_ .unspecified s
    let g ← denote result context t
    let rest ← denoteClauses clauses context (afterOperand env result context t)
    return (f, g) :: rest
termination_by structural clauses => clauses

end

variable {I L env} in
/-- An operator that is no `IS` is applied to the values of its operands. -/
theorem denote_binary {left right : ScalarExpression} {op : Ast.BinaryOperator} (his : op ≠ .is)
    (hisNot : op ≠ .isNot) (context : ValueContext) (s : AnalyzerState ρ) :
    denote I L env (.binaryExpression left op right) context s = (do
      let op ← binaryMeaning I L op
      let f ← denote I L env left .unspecified s
      let g ← denote I L env right .unspecified (afterOperand env left .unspecified s)
      return fun group row => op (f group row) (g group row)) := by
  cases op
  case is => exact absurd rfl his
  case isNot => exact absurd rfl hisNot
  all_goals rw [denote] <;> simp

end Mizugaki.Analyzer
