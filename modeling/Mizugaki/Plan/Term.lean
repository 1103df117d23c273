import Mizugaki.Data.Determination
import Mizugaki.Plan.Semantics

/-! The terms of scalar expressions: an expression over a row of terms is the term that its operators
build. Bound variables are gone from it, so expressions with one term have one value, whatever the
operators mean. -/

namespace Mizugaki.Plan

open Mizugaki.Data.Determination Mizugaki.Relation

/-- The operators of scalar expressions. A subquery is one, with the destinations of its
parameters; a set function is one over no rows. -/
inductive Symbol where
  | immediate (value : ValueData) (type : TypeData)
  | cast (type : TypeData) (lossPolicy : CastLossPolicy)
  | unary (operator_ : UnaryOperator)
  | binary (operator_ : BinaryOperator)
  | compare (operator_ : ComparisonOperator)
  | match_ (operator_ : MatchOperator)
  | conditional
  | coalesce
  | functionCall (function : FunctionDecl)
  | aggregate (function : AggregateDecl)
  | subquery (graph : Graph) (destinations : List Variable) (outputColumn : Variable)
  | exists_ (graph : Graph) (destinations : List Variable)
  | quantifiedCompare (operator_ : ComparisonOperator) (quantifier : Quantifier) (graph : Graph)
      (destinations : List Variable) (rightColumn : Variable)

/-- The operands of a conditional in one list. -/
def flatten {α : Type} (alternatives : List (α × α)) (default_ : Option α) : List α :=
  alternatives.flatMap (fun p => [p.1, p.2]) ++ default_.toList

def unflatten {α : Type} : List α → List (α × α) × Option α
  | [] => ([], none)
  | [a] => ([], some a)
  | a :: b :: rest => ((a, b) :: (unflatten rest).1, (unflatten rest).2)

theorem unflatten_flatten {α : Type} (alternatives : List (α × α)) (default_ : Option α) :
    unflatten (flatten alternatives default_) = (alternatives, default_) := by
  induction alternatives with
  | nil => cases default_ <;> rfl
  | cons p alternatives ih =>
    change unflatten (p.1 :: p.2 :: flatten alternatives default_) = _
    rw [unflatten, ih]

theorem flatten_map {α β : Type} (f : α → β) (alternatives : List (α × α)) (default_ : Option α) :
    (flatten alternatives default_).map f =
      flatten (alternatives.map (Prod.map f f)) (default_.map f) := by
  unfold flatten
  rw [List.map_append, List.map_flatMap, List.flatMap_map]
  cases default_ <;> rfl

namespace Interpretation

variable {α : Type}

/-- The operators of an interpretation; operands that an operator does not have give some value. -/
def apply (I : Interpretation α) : Symbol → List α → α
  | .immediate value type, _ => I.immediate value type
  | .cast type policy, [a] => I.cast type policy a
  | .unary op, [a] => I.unary op a
  | .binary op, [a, b] => I.binary op a b
  | .compare op, [a, b] => I.compare op a b
  | .match_ op, [a, b, c] => I.match_ op a b c
  | .conditional, args => I.conditional (unflatten args).1 (unflatten args).2
  | .coalesce, args => I.coalesce args
  | .functionCall function, args => I.functionCall function args
  | .aggregate function, _ => I.aggregate function 0
  | .subquery graph destinations outputColumn, args =>
    I.subquery graph (destinations.zip args) outputColumn
  | .exists_ graph destinations, args => I.exists_ graph (destinations.zip args)
  | .quantifiedCompare op quantifier graph destinations rightColumn, a :: args =>
    I.quantifiedCompare op quantifier a graph (destinations.zip args) rightColumn
  | _, _ => I.immediate .unknown .unknown

/-- The interpretation of the operators by their symbols, and of set functions over rows. -/
def ofSymbols (apply : Symbol → List α → α) (collect : AggregateDecl → Multiset (List α) → α) :
    Interpretation α where
  truth _ := true
  order _ _ _ := .eq
  immediate value type := apply (.immediate value type) []
  cast type policy a := apply (.cast type policy) [a]
  unary op a := apply (.unary op) [a]
  binary op a b := apply (.binary op) [a, b]
  compare op a b := apply (.compare op) [a, b]
  match_ op a b c := apply (.match_ op) [a, b, c]
  conditional alternatives default_ := apply .conditional (flatten alternatives default_)
  coalesce args := apply .coalesce args
  functionCall function args := apply (.functionCall function) args
  aggregate function values :=
    if values.card = 0 then apply (.aggregate function) [] else collect function values
  subquery graph values outputColumn :=
    apply (.subquery graph (values.map Prod.fst) outputColumn) (values.map Prod.snd)
  exists_ graph values := apply (.exists_ graph (values.map Prod.fst)) (values.map Prod.snd)
  quantifiedCompare op quantifier a graph values rightColumn :=
    apply (.quantifiedCompare op quantifier graph (values.map Prod.fst) rightColumn)
      (a :: values.map Prod.snd)

/-- An interpretation gives the operators a meaning. -/
structure Realizes (I : Interpretation α) (apply : Symbol → List α → α) : Prop where
  immediate : ∀ value type, I.immediate value type = apply (.immediate value type) []
  cast : ∀ type policy a, I.cast type policy a = apply (.cast type policy) [a]
  unary : ∀ op a, I.unary op a = apply (.unary op) [a]
  binary : ∀ op a b, I.binary op a b = apply (.binary op) [a, b]
  compare : ∀ op a b, I.compare op a b = apply (.compare op) [a, b]
  match_ : ∀ op a b c, I.match_ op a b c = apply (.match_ op) [a, b, c]
  conditional : ∀ alternatives default_,
    I.conditional alternatives default_ = apply .conditional (flatten alternatives default_)
  coalesce : ∀ args, I.coalesce args = apply .coalesce args
  functionCall : ∀ function args, I.functionCall function args = apply (.functionCall function) args
  aggregate : ∀ function, I.aggregate function 0 = apply (.aggregate function) []
  subquery : ∀ graph values outputColumn, I.subquery graph values outputColumn =
    apply (.subquery graph (values.map Prod.fst) outputColumn) (values.map Prod.snd)
  exists_ : ∀ graph values, I.exists_ graph values =
    apply (.exists_ graph (values.map Prod.fst)) (values.map Prod.snd)
  quantifiedCompare : ∀ op quantifier a graph values rightColumn,
    I.quantifiedCompare op quantifier a graph values rightColumn =
      apply (.quantifiedCompare op quantifier graph (values.map Prod.fst) rightColumn)
        (a :: values.map Prod.snd)

theorem ofSymbols_realizes (apply : Symbol → List α → α)
    (collect : AggregateDecl → Multiset (List α) → α) : (ofSymbols apply collect).Realizes apply where
  immediate _ _ := rfl
  cast _ _ _ := rfl
  unary _ _ := rfl
  binary _ _ _ := rfl
  compare _ _ _ := rfl
  match_ _ _ _ _ := rfl
  conditional _ _ := rfl
  coalesce _ := rfl
  functionCall _ _ := rfl
  aggregate _ := rfl
  subquery _ _ _ := rfl
  exists_ _ _ := rfl
  quantifiedCompare _ _ _ _ _ _ := rfl

theorem ofSymbols_aggregate {apply : Symbol → List α → α}
    {collect : AggregateDecl → Multiset (List α) → α} (function : AggregateDecl)
    {values : Multiset (List α)} (h : values.card ≠ 0) :
    (ofSymbols apply collect).aggregate function values = collect function values := if_neg h

theorem zip_columns {β : Type} (values : List (β × α)) :
    (values.map Prod.fst).zip (values.map Prod.snd) = values :=
  (List.zip_of_prod rfl rfl).symm

theorem apply_realizes (I : Interpretation α) : I.Realizes I.apply where
  immediate _ _ := rfl
  cast _ _ _ := rfl
  unary _ _ := rfl
  binary _ _ _ := rfl
  compare _ _ _ := rfl
  match_ _ _ _ _ := rfl
  conditional alternatives default_ := by
    rw [apply, unflatten_flatten]
  coalesce _ := rfl
  functionCall _ _ := rfl
  aggregate _ := rfl
  subquery graph values outputColumn := by
    rw [apply, zip_columns]
  exists_ graph values := by
    rw [apply, zip_columns]
  quantifiedCompare op quantifier a graph values rightColumn := by
    rw [apply, zip_columns]

end Interpretation

/-- The interpretation of the operators by the terms that they build. -/
def terms (ν : Type) : Interpretation (Term Symbol ν) :=
  .ofSymbols .node fun function _ => .node (.aggregate function) []

/-! ### Values -/

section

variable {α ν : Type} {I : Interpretation α} {apply : Symbol → List α → α} {ρ : ν → α}

/-- A row of terms stands for a row of values. -/
def Stands (apply : Symbol → List α → α) (ρ : ν → α) (σ : Row Variable (Term Symbol ν))
    (row : Row Variable α) : Prop :=
  ∀ v, row v = (σ v).eval apply ρ

theorem Stands.update {σ : Row Variable (Term Symbol ν)} {row : Row Variable α}
    (h : Stands apply ρ σ row) (v : Variable) {t : Term Symbol ν} {a : α}
    (ha : a = t.eval apply ρ) : Stands apply ρ (Function.update σ v t) (Function.update row v a) := by
  intro w
  by_cases hw : w = v
  · rw [hw, Function.update_self, Function.update_self, ha]
  · rw [Function.update_of_ne hw, Function.update_of_ne hw, h w]

theorem Stands.parameters {σ : Row Variable (Term Symbol ν)} {row : Row Variable α}
    (h : Stands apply ρ σ row) (parameters : List (Variable × Variable)) :
    parameterValues row parameters =
      (parameterValues σ parameters).map fun p => (p.1, p.2.eval apply ρ) := by
  unfold parameterValues
  rw [List.map_map]
  exact List.map_congr_left fun p _ => congrArg (Prod.mk p.2) (h p.1)

/-- Extending rows by the values of terms. -/
theorem Stands.extend {columns : List (Variable × α)} {columns' : List (Variable × Term Symbol ν)}
    {σ : Row Variable (Term Symbol ν)} {row : Row Variable α} (h : Stands apply ρ σ row)
    (hcolumns : columns = columns'.map fun c => (c.1, c.2.eval apply ρ)) :
    Stands apply ρ (Relation.extend σ columns') (Relation.extend row columns) := by
  subst hcolumns
  induction columns' generalizing σ row with
  | nil => exact h
  | cons c columns' ih => exact ih (h.update c.1 rfl)

set_option linter.unusedSectionVars false

variable (hI : I.Realizes apply)
include hI

mutual

/-- The value of an expression is that of its term. -/
theorem Scalar.eval_term : ∀ (e : Scalar) {bound : List (Variable × α)}
    {bound' : List (Variable × Term Symbol ν)} {σ : Row Variable (Term Symbol ν)}
    {row : Row Variable α}, Stands apply ρ σ row →
    e.eval I [] bound row = (e.eval (terms ν) [] bound' σ).eval apply ρ
  | .immediate value type, _, _, _, _, _ => hI.immediate value type
  | .variableReference v, _, _, _, _, h => h v
  | .cast type policy operand, _, _, _, _, h => by
    rw [Scalar.eval, Scalar.eval, hI.cast, Scalar.eval_term operand h]
    rfl
  | .unary op operand, _, _, _, _, h => by
    rw [Scalar.eval, Scalar.eval, hI.unary, Scalar.eval_term operand h]
    rfl
  | .binary op left right, _, _, _, _, h => by
    rw [Scalar.eval, Scalar.eval, hI.binary, Scalar.eval_term left h, Scalar.eval_term right h]
    rfl
  | .compare op left right, _, _, _, _, h => by
    rw [Scalar.eval, Scalar.eval, hI.compare, Scalar.eval_term left h, Scalar.eval_term right h]
    rfl
  | .match_ op input pattern escape, _, _, _, _, h => by
    rw [Scalar.eval, Scalar.eval, hI.match_, Scalar.eval_term input h, Scalar.eval_term pattern h,
      Scalar.eval_term escape h]
    rfl
  | .conditional alternatives default_, _, _, _, _, h => by
    rw [Scalar.eval, Scalar.eval, hI.conditional, evalPairs_term alternatives h,
      evalOption_term default_ h, ← flatten_map]
    exact (Term.eval_node ..).symm
  | .coalesce alternatives, _, _, _, _, h => by
    rw [Scalar.eval, Scalar.eval, hI.coalesce, evalList_term alternatives h]
    exact (Term.eval_node ..).symm
  | .let_ variables_ body, _, _, _, _, h => by
    rw [Scalar.eval, Scalar.eval]
    exact evalBindings_term variables_ h fun _ _ _ _ hbody => Scalar.eval_term body hbody
  | .functionCall function arguments, _, _, _, _, h => by
    rw [Scalar.eval, Scalar.eval, hI.functionCall, evalList_term arguments h]
    exact (Term.eval_node ..).symm
  | .aggregateFunctionCall function arguments, _, _, _, _, _ => hI.aggregate function
  | .subquery graph parameters outputColumn, _, _, _, _, h => by
    rw [Scalar.eval, Scalar.eval, hI.subquery, h.parameters, List.map_map, List.map_map]
    refine Eq.trans ?_ (Term.eval_node ..).symm
    rw [List.map_map]
    rfl
  | .exists_ graph parameters, _, _, _, _, h => by
    rw [Scalar.eval, Scalar.eval, hI.exists_, h.parameters, List.map_map, List.map_map]
    refine Eq.trans ?_ (Term.eval_node ..).symm
    rw [List.map_map]
    rfl
  | .quantifiedCompare op quantifier left graph parameters rightColumn, _, _, _, _, h => by
    rw [Scalar.eval, Scalar.eval, hI.quantifiedCompare, h.parameters, List.map_map, List.map_map,
      Scalar.eval_term left h]
    refine Eq.trans ?_ (Term.eval_node ..).symm
    rw [List.map_cons, List.map_map]
    rfl
termination_by structural e => e

theorem evalList_term : ∀ (es : List Scalar) {bound : List (Variable × α)}
    {bound' : List (Variable × Term Symbol ν)} {σ : Row Variable (Term Symbol ν)}
    {row : Row Variable α}, Stands apply ρ σ row →
    evalList I [] bound row es = (evalList (terms ν) [] bound' σ es).map fun t => t.eval apply ρ
  | [], _, _, _, _, _ => rfl
  | e :: es, _, _, _, _, h => by
    rw [evalList, evalList, List.map_cons, Scalar.eval_term e h, evalList_term es h]
termination_by structural es => es

theorem evalOption_term : ∀ (e : Option Scalar) {bound : List (Variable × α)}
    {bound' : List (Variable × Term Symbol ν)} {σ : Row Variable (Term Symbol ν)}
    {row : Row Variable α}, Stands apply ρ σ row →
    evalOption I [] bound row e =
      (evalOption (terms ν) [] bound' σ e).map fun t => t.eval apply ρ
  | none, _, _, _, _, _ => rfl
  | some e, _, _, _, _, h => by
    rw [evalOption, evalOption, Option.map_some, Scalar.eval_term e h]
termination_by structural e => e

theorem evalPairs_term : ∀ (pairs : List (Scalar × Scalar)) {bound : List (Variable × α)}
    {bound' : List (Variable × Term Symbol ν)} {σ : Row Variable (Term Symbol ν)}
    {row : Row Variable α}, Stands apply ρ σ row →
    evalPairs I [] bound row pairs = (evalPairs (terms ν) [] bound' σ pairs).map
      (Prod.map (fun t => t.eval apply ρ) fun t => t.eval apply ρ)
  | [], _, _, _, _, _ => rfl
  | (a, b) :: rest, _, _, _, _, h => by
    rw [evalPairs, evalPairs, List.map_cons, Scalar.eval_term a h, Scalar.eval_term b h,
      evalPairs_term rest h]
    rfl
termination_by structural pairs => pairs

theorem evalBindings_term : ∀ (vs : List (Variable × Scalar)) {bound : List (Variable × α)}
    {bound' : List (Variable × Term Symbol ν)} {σ : Row Variable (Term Symbol ν)}
    {row : Row Variable α} {body : List (Variable × α) → Row Variable α → α}
    {body' : List (Variable × Term Symbol ν) → Row Variable (Term Symbol ν) → Term Symbol ν},
    Stands apply ρ σ row →
    (∀ bound bound' σ row, Stands apply ρ σ row →
      body bound row = (body' bound' σ).eval apply ρ) →
    evalBindings I [] bound row vs body =
      (evalBindings (terms ν) [] bound' σ vs body').eval apply ρ
  | [], _, _, _, _, _, _, h, hbody => hbody _ _ _ _ h
  | (v, e) :: rest, _, _, _, _, _, _, h, hbody => by
    rw [evalBindings, evalBindings]
    exact evalBindings_term rest (h.update v (Scalar.eval_term e h)) hbody
termination_by structural vs => vs

end

/-- A projection of a row of terms stands for the projection of the row. -/
theorem Stands.projectRow {σ : Row Variable (Term Symbol ν)} {row : Row Variable α}
    (h : Stands apply ρ σ row) (columns : List (Variable × Scalar)) :
    Stands apply ρ (Plan.projectRow (terms ν) columns σ) (Plan.projectRow I columns row) := by
  refine h.extend ?_
  rw [List.map_map]
  exact List.map_congr_left fun c _ => congrArg (Prod.mk c.1) (c.2.eval_term hI h)

end

end Mizugaki.Plan
