import Mizugaki.Meaning.Denotation

/-! What the expressions of the analyzer are worth. An expression evaluates to a meaning when it has
that value in every row, whatever local variables hold: what an expression is put under may bind
local variables and changes nothing else. -/

namespace Mizugaki.Analyzer

open Mizugaki.Ast Mizugaki.Plan Mizugaki.Relation Mizugaki.Data.Kleene

variable {α : Type}

/-- Rows that differ in local variables only. -/
def Agree (row row' : Row Variable α) : Prop := ∀ v : Variable, v.isLocal = false → row v = row' v

/-- All that is bound are local variables. -/
def Local (bound : List (Variable × α)) : Prop := ∀ p ∈ bound, p.1.isLocal = true

/-- An expression has the value of a meaning, whatever is bound around it. -/
def Evaluates (I : Interpretation α) (e : Scalar) (f : Meaning α) : Prop :=
  ∀ group ⦃bound row row'⦄, Local bound → Agree row row' → e.eval I group bound row = f group row'

namespace Agree

variable {row row' : Row Variable α}

theorem refl (row : Row Variable α) : Agree row row := fun _ _ => rfl

theorem update (h : Agree row row') {v : Variable} (hv : v.isLocal = true) (a : α) :
    Agree (Function.update row v a) row' := by
  intro w hw
  rw [Function.update_of_ne, h w hw]
  rintro rfl
  rw [hv] at hw
  cases hw

theorem extend {bound : List (Variable × α)} (hbound : Local bound) (h : Agree row row') :
    Agree (extend row bound) row' := by
  induction bound generalizing row with
  | nil => exact h
  | cons b bound ih =>
    rw [Local, List.forall_mem_cons] at hbound
    exact ih hbound.2 (h.update hbound.1 b.2)

theorem parameterValues (h : Agree row row') {parameters : List (Variable × Variable)}
    (hp : ∀ p ∈ parameters, p.1.isLocal = false) :
    parameterValues row parameters = parameterValues row' parameters :=
  List.map_congr_left fun p hmem => by rw [h p.1 (hp p hmem)]

end Agree

theorem Local.snoc {bound : List (Variable × α)} (h : Local bound) {v : Variable}
    (hv : v.isLocal = true) (a : α) : Local (bound ++ [(v, a)]) :=
  List.forall_mem_append.mpr ⟨h, List.forall_mem_singleton.mpr hv⟩

variable {I : Interpretation α} {L : Logic α} {x y z : Scalar} {f g h : Meaning α}

/-! ### Plain operators -/

theorem evaluates_immediate (value : ValueData) (type : TypeData) :
    Evaluates I (.immediate value type) fun _ _ => I.immediate value type := fun _ _ _ _ _ _ => rfl

theorem evaluates_reference {v : Variable} (hv : v.isLocal = false) :
    Evaluates I (.variableReference v) fun _ row => row v := fun _ _ _ _ _ hrow => hrow v hv

theorem Evaluates.unary (hx : Evaluates I x f) (op : Plan.UnaryOperator) :
    Evaluates I (.unary op x) fun group row => I.unary op (f group row) := by
  intro group bound row row' hbound hrow
  rw [Scalar.eval, hx group hbound hrow]

theorem Evaluates.binary (hx : Evaluates I x f) (hy : Evaluates I y g) (op : Plan.BinaryOperator) :
    Evaluates I (.binary op x y) fun group row => I.binary op (f group row) (g group row) := by
  intro group bound row row' hbound hrow
  rw [Scalar.eval, hx group hbound hrow, hy group hbound hrow]

theorem Evaluates.cast (hx : Evaluates I x f) (type : TypeData) (policy : CastLossPolicy) :
    Evaluates I (.cast type policy x) fun group row => I.cast type policy (f group row) := by
  intro group bound row row' hbound hrow
  rw [Scalar.eval, hx group hbound hrow]

theorem Evaluates.match_ (hx : Evaluates I x f) (hy : Evaluates I y g) (hz : Evaluates I z h)
    (op : MatchOperator) : Evaluates I (.match_ op x y z) fun group row =>
      I.match_ op (f group row) (g group row) (h group row) := by
  intro group bound row row' hbound hrow
  rw [Scalar.eval, hx group hbound hrow, hy group hbound hrow, hz group hbound hrow]

variable {es : List Scalar} {fs : List (Meaning α)}

theorem evaluates_list (hes : List.Forall₂ (Evaluates I) es fs) (group : List (Row Variable α))
    {bound : List (Variable × α)} {row row' : Row Variable α} (hbound : Local bound)
    (hrow : Agree row row') :
    evalList I group bound row es = fs.map fun f => f group row' := by
  induction hes with
  | nil => rfl
  | cons hx _ ih => rw [evalList, List.map_cons, hx group hbound hrow, ih]

theorem evaluates_call (hes : List.Forall₂ (Evaluates I) es fs) (function : FunctionDecl) :
    Evaluates I (.functionCall function es) fun group row =>
      I.functionCall function (fs.map fun f => f group row) := by
  intro group bound row row' hbound hrow
  rw [Scalar.eval, evaluates_list hes group hbound hrow]

/-- The arguments of a set function see the rows of the group, and what is bound around the call. -/
theorem evaluates_aggregate (hes : List.Forall₂ (Evaluates I) es fs) (function : AggregateDecl) :
    Evaluates I (.aggregateFunctionCall function es) fun group _ =>
      I.aggregate function (group.map fun r => fs.map fun f => f [] r) := by
  intro group bound row row' hbound _
  rw [Scalar.eval]
  refine congrArg (fun rows : List (List α) => I.aggregate function rows) ?_
  exact List.map_congr_left fun r _ => evaluates_list hes [] hbound (.extend hbound (.refl r))

theorem evaluates_subquery {graph : Graph} {parameters : List (Variable × Variable)}
    (hp : ∀ p ∈ parameters, p.1.isLocal = false) (column : Variable) :
    Evaluates I (.subquery graph parameters column) fun _ row =>
      I.subquery graph (parameterValues row parameters) column := by
  intro group bound row row' _ hrow
  rw [Scalar.eval, hrow.parameterValues hp]

theorem evaluates_exists {graph : Graph} {parameters : List (Variable × Variable)}
    (hp : ∀ p ∈ parameters, p.1.isLocal = false) :
    Evaluates I (.exists_ graph parameters) fun _ row =>
      I.exists_ graph (parameterValues row parameters) := by
  intro group bound row row' _ hrow
  rw [Scalar.eval, hrow.parameterValues hp]

/-! ### Local variables -/

/-- A body that reads a local variable, under the binding of the variable. -/
theorem Evaluates.let_ (hx : Evaluates I x f) {v : Variable} (hv : v.isLocal = true) {body : Scalar}
    (hbody : ∀ group ⦃bound row row'⦄, Local bound → Agree row row' → row v = f group row' →
      body.eval I group bound row = h group row') : Evaluates I (.let_ [(v, x)] body) h := by
  intro group bound row row' hbound hrow
  rw [Scalar.eval, evalBindings, evalBindings, hx group hbound hrow]
  exact hbody group (hbound.snoc hv _) (hrow.update hv _) (Function.update_self ..)

/-! ### Documented operators -/

section

variable (hI : I.Documented L)

include hI

theorem Evaluates.compare (hx : Evaluates I x f) (hy : Evaluates I y g)
    (op : Plan.ComparisonOperator) : Evaluates I (.compare op x y) fun group row =>
      L.ofTruth (L.compare op (f group row) (g group row)) := by
  intro group bound row row' hbound hrow
  rw [Scalar.eval, hI.compare, hx group hbound hrow, hy group hbound hrow]

theorem Evaluates.negate (hx : Evaluates I x f) (isNot : Bool) :
    Evaluates I (negateIf isNot x) fun group row => L.negate isNot (f group row) := by
  cases isNot with
  | false => exact hx
  | true =>
    have hnot := hx.unary .conditionalNot
    simp only [hI.conditionalNot] at hnot
    exact hnot

theorem Evaluates.predicate {p : List (Row Variable α) → Row Variable α → Truth}
    (hx : Evaluates I x fun group row => L.ofTruth (p group row)) (isNot : Bool) :
    Evaluates I (negateIf isNot x) fun group row => L.predicate isNot (p group row) := by
  have hnot := hx.negate hI isNot
  cases isNot with
  | false => exact hnot
  | true =>
    simp only [Logic.negate, L.truth_ofTruth] at hnot
    exact hnot

end

end Mizugaki.Analyzer
