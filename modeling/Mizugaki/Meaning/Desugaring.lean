import Mizugaki.Meaning.Evaluation
import Mizugaki.Scoping.Expression

/-! What the expressions are worth that stand for `BETWEEN`, `IN`, `NULLIF`, `IS` and the case
expressions. The operand that is tested is bound to a local variable, and the rest is made of
comparisons, conditions and conditionals. -/

namespace Mizugaki.Plan.Logic

open Mizugaki.Ast Mizugaki.Analyzer Mizugaki.Data.Kleene

variable {α : Type} (L : Logic α)

theorem convert_holds (op : Ast.ComparisonOperator) (o : Ordering) :
    (convertComparisonOperator op).holds o = op.holds o := by
  cases op <;> cases o <;> rfl

theorem compare_convert (op : Ast.ComparisonOperator) (a b : α) :
    L.compare (convertComparisonOperator op) a b = L.compares op a b := by
  rw [compare, compares]
  exact congrArg Truth.ofOption (Option.map_congr fun o _ => convert_holds op o)

theorem compare_equal (a b : α) : L.compare .equal a b = L.compares .equals a b :=
  L.compare_convert .equals a b

theorem compare_lessEqual (a b : α) : L.compare .lessEqual a b = L.compares .lessThanOrEquals a b :=
  L.compare_convert .lessThanOrEquals a b

/-- A lower bound is compared from its own side. -/
theorem compare_lower (a low : α) :
    L.compare .lessEqual low a = L.compares .greaterThanOrEquals a low := by
  rw [compare, compares, L.comparison_swap, Option.map_map]
  refine congrArg Truth.ofOption (Option.map_congr fun o _ => ?_)
  cases o <;> rfl

theorem compare_within (a low high : α) :
    (L.compare .lessEqual low a).and (L.compare .lessEqual a high) = L.within a low high := by
  rw [compare_lower, compare_lessEqual, within]

/-- Two values differ when it is not so that they are equal. -/
theorem compare_notEqual (a b : α) : L.compare .notEqual a b = (L.compares .equals a b).not := by
  rw [compare, compares, Truth.not_ofOption, Option.map_map]
  refine congrArg Truth.ofOption (Option.map_congr fun o _ => ?_)
  cases o <;> rfl

theorem quantified_convert (op : Ast.ComparisonOperator) (q : Ast.Quantifier) (a : α)
    (bs : List α) :
    L.quantified (convertComparisonOperator op) (convertQuantifier q) a bs =
      L.comparesEach op q a bs := by
  have hcompare : L.compare (convertComparisonOperator op) a = L.compares op a :=
    funext fun b => L.compare_convert op a b
  cases q <;> simp only [quantified, comparesEach, convertQuantifier, hcompare]

end Mizugaki.Plan.Logic

namespace Mizugaki.Analyzer

open Mizugaki.Ast Mizugaki.Plan Mizugaki.Relation Mizugaki.Data.Kleene

variable {α : Type} {I : Interpretation α} {L : Logic α} (hI : I.Documented L)
  {x y z : Scalar} {f g h : Meaning α}

include hI

/-! ### Between -/

/-- Two comparisons with a value in the middle. -/
theorem eval_within {group : List (Row Variable α)} {bound : List (Variable × α)}
    {row : Row Variable α} {low middle high : Scalar} {a b c : α}
    (hlow : low.eval I group bound row = a) (hmiddle : middle.eval I group bound row = b)
    (hhigh : high.eval I group bound row = c) :
    (Scalar.binary .conditionalAnd (.compare .lessEqual low middle)
      (.compare .lessEqual middle high)).eval I group bound row = L.ofTruth (L.within b a c) := by
  simp only [Scalar.eval, hI.conditionalAnd, hI.compare, hlow, hmiddle, hhigh, L.truth_ofTruth,
    L.compare_within]

theorem evaluates_between (hx : Evaluates I x f) (hy : Evaluates I y g) (hz : Evaluates I z h)
    {v : Variable} (hv : v.isLocal = true) :
    Evaluates I (.let_ [(v, x)] (.binary .conditionalAnd (.compare .lessEqual y (.variableReference v))
        (.compare .lessEqual (.variableReference v) z)))
      fun group row => L.ofTruth (L.within (f group row) (g group row) (h group row)) :=
  hx.let_ hv fun group _ _ _ hbound hrow hvalue =>
    eval_within hI (hy group hbound hrow) hvalue (hz group hbound hrow)

/-- All three operands are bound, since each is compared twice. -/
theorem evaluates_symmetric (hx : Evaluates I x f) (hy : Evaluates I y g) (hz : Evaluates I z h)
    {k l m : Nat} (hkl : k ≠ l) (hkm : k ≠ m) (hlm : l ≠ m) :
    Evaluates I (.let_ [(.localVariable k, x), (.localVariable l, y), (.localVariable m, z)]
        (.binary .conditionalOr
          (.binary .conditionalAnd
            (.compare .lessEqual (.variableReference (.localVariable l))
              (.variableReference (.localVariable k)))
            (.compare .lessEqual (.variableReference (.localVariable k))
              (.variableReference (.localVariable m))))
          (.binary .conditionalAnd
            (.compare .lessEqual (.variableReference (.localVariable m))
              (.variableReference (.localVariable k)))
            (.compare .lessEqual (.variableReference (.localVariable k))
              (.variableReference (.localVariable l))))))
      fun group row =>
        L.ofTruth (L.between (some .symmetric) (f group row) (g group row) (h group row)) := by
  intro group bound row row' hbound hrow
  have hlocal : ∀ n, (Variable.localVariable n).isLocal = true := fun _ => rfl
  have hx' := hx group hbound hrow
  have hy' := hy group (hbound.snoc (hlocal k) (f group row')) (hrow.update (hlocal k) (f group row'))
  have hz' := hz group ((hbound.snoc (hlocal k) (f group row')).snoc (hlocal l) (g group row'))
    ((hrow.update (hlocal k) (f group row')).update (hlocal l) (g group row'))
  have hne : ∀ {i j : Nat}, i ≠ j → Variable.localVariable i ≠ .localVariable j :=
    fun hij heq => hij (Variable.localVariable.inj heq)
  simp only [Scalar.eval, evalBindings, hx', hy', hz', hI.conditionalOr, hI.conditionalAnd,
    hI.compare, L.truth_ofTruth, L.compare_within, Function.update_self,
    Function.update_of_ne (hne hkl), Function.update_of_ne (hne hkm),
    Function.update_of_ne (hne hlm)]
  rfl

/-! ### In -/

variable {es : List Scalar} {fs : List (Meaning α)}

/-- The comparisons with the elements of a list, joined from the left. -/
theorem eval_compareAny (hy : Evaluates I y g) (hes : List.Forall₂ (Evaluates I) es fs)
    {v : Variable} {group : List (Row Variable α)} {bound : List (Variable × α)}
    {row row' : Row Variable α} (hbound : Local bound) (hrow : Agree row row') :
    (compareAny v y es).eval I group bound row =
      L.ofTruth (.any ((g :: fs).map fun g => L.compares .equals (row v) (g group row'))) := by
  have hcompare : ∀ {e : Scalar} {m : Meaning α}, Evaluates I e m →
      (Scalar.compare .equal (.variableReference v) e).eval I group bound row =
        L.ofTruth (L.compares .equals (row v) (m group row')) := by
    intro e m he
    rw [Scalar.eval, Scalar.eval, hI.compare, he group hbound hrow, L.compare_equal]
  have hfold : ∀ {body : Scalar} {t : Truth}, body.eval I group bound row = L.ofTruth t →
      (es.foldl (fun body e => Scalar.binary .conditionalOr body
        (.compare .equal (.variableReference v) e)) body).eval I group bound row =
        L.ofTruth ((fs.map fun m => L.compares .equals (row v) (m group row')).foldl Truth.or t) := by
    clear hy
    induction hes with
    | nil => exact fun h => h
    | cons he _ ih =>
      intro body t hbody
      refine ih ?_
      rw [Scalar.eval, hcompare he, hbody, hI.conditionalOr, L.truth_ofTruth, L.truth_ofTruth]
  rw [compareAny, hfold (hcompare hy), Truth.foldl_or]
  rfl

theorem evaluates_in (hx : Evaluates I x f) (hy : Evaluates I y g)
    (hes : List.Forall₂ (Evaluates I) es fs) {v : Variable} (hv : v.isLocal = true) :
    Evaluates I (.let_ [(v, x)] (compareAny v y es)) fun group row =>
      L.ofTruth (.any ((g :: fs).map fun g => L.compares .equals (f group row) (g group row))) :=
  hx.let_ hv fun _ _ _ _ hbound hrow hvalue =>
    hvalue ▸ eval_compareAny hI hy hes hbound hrow

/-- Some value of a subquery is equal, or all of them differ when `NOT` is written. -/
theorem evaluates_inQuery (hx : Evaluates I x f) {graph : Graph}
    {parameters : List (Variable × Variable)} (hp : ∀ p ∈ parameters, p.1.isLocal = false)
    (column : Variable) (isNot : Bool) :
    Evaluates I (if isNot then .quantifiedCompare .notEqual .all x graph parameters column
        else .quantifiedCompare .equal .any x graph parameters column)
      fun group row => L.predicate isNot (.any ((L.contents graph (parameterValues row parameters)
        column).map (L.compares .equals (f group row)))) := by
  intro group bound row row' hbound hrow
  cases isNot with
  | false =>
    simp only [Bool.false_eq_true, if_false, Scalar.eval, hI.quantifiedCompare, hx group hbound hrow,
      hrow.parameterValues hp, Logic.predicate, Logic.quantified]
    rw [funext fun b => L.compare_equal (f group row') b]
  | true =>
    simp only [if_true, Scalar.eval, hI.quantifiedCompare, hx group hbound hrow,
      hrow.parameterValues hp, Logic.predicate, Logic.quantified, Truth.not_any, List.map_map]
    rw [funext fun b => L.compare_notEqual (f group row') b]
    rfl

theorem evaluates_quantified (hx : Evaluates I x f) {graph : Graph}
    {parameters : List (Variable × Variable)} (hp : ∀ p ∈ parameters, p.1.isLocal = false)
    (op : Ast.ComparisonOperator) (q : Ast.Quantifier) (column : Variable) :
    Evaluates I (.quantifiedCompare (convertComparisonOperator op) (convertQuantifier q) x graph
        parameters column)
      fun group row => L.ofTruth (L.comparesEach op q (f group row)
        (L.contents graph (parameterValues row parameters) column)) := by
  intro group bound row row' hbound hrow
  rw [Scalar.eval, hI.quantifiedCompare, hx group hbound hrow, hrow.parameterValues hp,
    L.quantified_convert]

/-! ### Conditionals -/

theorem evaluates_nullif (hx : Evaluates I x f) (hy : Evaluates I y g) (type : TypeData)
    {v : Variable} (hv : v.isLocal = true) :
    Evaluates I (.let_ [(v, x)] (.conditional
        [(.compare .equal (.variableReference v) y, .immediate .unknown type)]
        (some (.variableReference v))))
      fun group row => L.nullif (f group row) (g group row) := by
  refine hx.let_ hv fun group bound row row' hbound hrow hvalue => ?_
  simp only [Scalar.eval, evalPairs, evalOption, hI.conditional, hI.compare, hI.unknown, hvalue,
    hy group hbound hrow, Logic.choose, L.truth_ofTruth, L.compare_equal, Option.getD_some]
  rfl

theorem evaluates_coalesce (hes : List.Forall₂ (Evaluates I) es fs) :
    Evaluates I (.coalesce es) fun group row => L.firstNonNull (fs.map fun f => f group row) := by
  intro group bound row row' hbound hrow
  rw [Scalar.eval, hI.coalesce, evaluates_list hes group hbound hrow]

/-- The alternatives of a case expression, for what the variable of its operand holds. -/
theorem eval_conditional {parts : List (Scalar × Scalar)} {clauses : List (Meaning α × Meaning α)}
    (hparts : List.Forall₂ (fun p m => Evaluates I p.1 m.1 ∧ Evaluates I p.2 m.2) parts clauses)
    {d : Option Scalar} {default_ : Option (Meaning α)} (hd : Option.Rel (Evaluates I) d default_)
    (v : Option Variable) {group : List (Row Variable α)} {bound : List (Variable × α)}
    {row row' : Row Variable α} (hbound : Local bound) (hrow : Agree row row') :
    (Scalar.conditional (parts.map (caseAlternative v)) d).eval I group bound row =
      L.case_ (v.map row) (clauses.map fun c => (c.1 group row', c.2 group row'))
        (default_.map fun f => f group row') := by
  have hdefault : evalOption I group bound row d = default_.map fun f => f group row' := by
    cases hd with
    | none => rfl
    | some h => exact congrArg some (h group hbound hrow)
  rw [Scalar.eval, hI.conditional, hdefault]
  induction hparts with
  | nil => rfl
  | @cons p m parts clauses hp _ ih =>
    have hresult : (caseAlternative v p).2.eval I group bound row = m.2 group row' :=
      hp.2 group hbound hrow
    have hcondition : L.truth ((caseAlternative v p).1.eval I group bound row) =
        L.applies (v.map row) (m.1 group row') := by
      cases v with
      | none => exact congrArg L.truth (hp.1 group hbound hrow)
      | some v =>
        change L.truth ((Scalar.compare .equal (.variableReference v) p.1).eval I group bound row) = _
        rw [Scalar.eval, Scalar.eval, hI.compare, hp.1 group hbound hrow, L.truth_ofTruth,
          L.compare_equal]
        rfl
    change (if L.truth ((caseAlternative v p).1.eval I group bound row) = .true_
      then (caseAlternative v p).2.eval I group bound row else L.choose _ _) = _
    rw [hcondition, hresult, ih]
    rfl

end Mizugaki.Analyzer
