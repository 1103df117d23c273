import Mizugaki.Meaning.Scalar

/-! The forms of several operands, and every scalar expression. An operand is analyzed where the
ones before it have left the state, so each form is followed operand by operand; what holds of a
form when it holds of its operands then holds of every expression. -/

namespace Mizugaki.Analyzer

open Mizugaki.Ast Mizugaki.Plan Mizugaki.Control Mizugaki.Relation Mizugaki.Data.Kleene

variable {ρ α : Type} {env : Environment ρ} {I : Interpretation α} {L : Logic α}

theorem localVariable_yields {s t : AnalyzerState ρ} {v : Variable}
    (h : localVariable s = (some v, t)) :
    v = .localVariable s.fresh ∧ t = { s with fresh := s.fresh + 1 } := by
  simp only [localVariable, freshNumber, Check.map_yields, Check.bind_yields, Check.get_yields,
    Check.modify_yields, Check.pure_yields] at h
  obtain ⟨_, ⟨_, _, ⟨rfl, rfl⟩, -, _, rfl, rfl, rfl⟩, rfl⟩ := h
  exact ⟨rfl, rfl⟩

/-! ### Lists of operands -/

theorem option_valued {o : Option ScalarExpression} (h : ∀ e ∈ o, Valued env I L e)
    {context : ValueContext} {s t : AnalyzerState ρ} {x : Option Scalar} (hs : s.Sound)
    (hrun : Check.option ((scalarOption env o).map (· context)) s = (some x, t)) :
    ∃ f, denoteOption I L env o context s = some f ∧ Option.Rel (Evaluates I) x f := by
  cases o with
  | none =>
    obtain ⟨rfl, -⟩ := (Check.pure_yields ..).mp hrun
    exact ⟨none, rfl, .none⟩
  | some e =>
    simp only [scalarOption, Option.map_some, Check.option, Check.bind_yields, Check.pure_yields] at hrun
    obtain ⟨y, u, hy, rfl, -⟩ := hrun
    obtain ⟨f, hf, hfy⟩ := h e rfl context hs hy
    exact ⟨some f, by rw [denoteOption, hf]; rfl, .some hfy⟩

/-- Expressions that are analyzed in order, with or without a look at their types. -/
theorem analyzeAll_valued {es : List ScalarExpression} (h : ∀ e ∈ es, Valued env I L e)
    {s t : AnalyzerState ρ} {xs : List Scalar} (hs : s.Sound)
    (hrun : analyzeAll (scalars env es) s = (some xs, t)) :
    ∃ fs, denoteList I L env (fun e => afterOperand env e .unspecified) es s = some fs ∧
      List.Forall₂ (Evaluates I) xs fs := by
  induction es generalizing s t xs with
  | nil =>
    obtain ⟨rfl, -⟩ := (Check.pure_yields ..).mp hrun
    exact ⟨[], rfl, .nil⟩
  | cons e es ih =>
    obtain ⟨he, hes⟩ := List.forall_mem_cons.mp h
    simp only [scalars, analyzeAll, Check.bind_yields, Check.pure_yields] at hrun
    obtain ⟨x, u, hx, rest, v, hrest, rfl, -⟩ := hrun
    obtain ⟨f, hf, hfx⟩ := he .unspecified hs hx
    obtain ⟨fs, hfs, hall⟩ := ih hes (scalar_sound hx hs) hrest
    refine ⟨f :: fs, ?_, .cons hfx hall⟩
    rw [denoteList, hf, afterOperand_eq hx, hfs]
    rfl

theorem analyzeArguments_valued {es : List ScalarExpression} (h : ∀ e ∈ es, Valued env I L e)
    {s t : AnalyzerState ρ} {args : List (Scalar × TypeData)} (hs : s.Sound)
    (hrun : analyzeArguments env (scalars env es) s = (some args, t)) :
    ∃ fs, denoteList I L env (afterArgument env) es s = some fs ∧
      List.Forall₂ (Evaluates I) (args.map Prod.fst) fs := by
  induction es generalizing s t args with
  | nil =>
    obtain ⟨rfl, -⟩ := (Check.pure_yields ..).mp hrun
    exact ⟨[], rfl, .nil⟩
  | cons e es ih =>
    obtain ⟨he, hes⟩ := List.forall_mem_cons.mp h
    simp only [scalars, analyzeArguments, Check.bind_yields, Check.pure_yields] at hrun
    obtain ⟨x, u, hx, type, v, htype, rest, w, hrest, rfl, -⟩ := hrun
    have hafter : afterArgument env e s = v := by
      have hone : analyzeArguments env [scalar env e] s = (some [(x, type)], v) := by
        simp only [analyzeArguments, Check.bind_yields, Check.pure_yields]
        exact ⟨x, u, hx, type, v, htype, [], v, ⟨rfl, rfl⟩, rfl, rfl⟩
      rw [afterArgument, hone]
    obtain ⟨f, hf, hfx⟩ := he .unspecified hs hx
    obtain ⟨fs, hfs, hall⟩ :=
      ih hes ((scalar_sound hx hs).of_quiet (resolve_quiet env _ _ htype)) hrest
    refine ⟨f :: fs, ?_, .cons hfx hall⟩
    rw [denoteList, hf, hafter, hfs]
    rfl

/-! ### Predicates -/

section

variable (hI : I.Documented L)

include hI

theorem between_valued {target left right : ScalarExpression} (ht : Valued env I L target)
    (hl : Valued env I L left) (hr : Valued env I L right) (isNot : Bool)
    (op : Option BetweenOperator) :
    Valued env I L (.betweenPredicate target isNot op left right) := by
  intro context s t x hs hrun
  rw [scalar] at hrun
  obtain ⟨u, hrun, -⟩ := process_runs hrun
  simp only [processBetween, Check.bind_yields] at hrun
  obtain ⟨x', u₁, hx, l, u₂, hl', r, u₃, hr', hrun⟩ := hrun
  obtain ⟨f, hf, hfx⟩ := ht .unspecified hs hx
  obtain ⟨g, hg, hgl⟩ := hl .unspecified (scalar_sound hx hs) hl'
  obtain ⟨h, hh, hhr⟩ := hr .unspecified (scalar_sound hl' (scalar_sound hx hs)) hr'
  refine ⟨fun group row =>
    L.predicate isNot (L.between op (f group row) (g group row) (h group row)), ?_, ?_⟩
  · rw [denote, hf, afterOperand_eq hx, hg, afterOperand_eq hl', hh]
    rfl
  · rcases op with _ | _ | _
    · simp only [Check.bind_yields, Check.pure_yields] at hrun
      obtain ⟨v, _, hv, rfl, -⟩ := hrun
      obtain ⟨rfl, -⟩ := localVariable_yields hv
      exact (evaluates_between hI hfx hgl hhr rfl).predicate hI isNot
    · simp only [Check.bind_yields, Check.pure_yields] at hrun
      obtain ⟨v, _, hv, rfl, -⟩ := hrun
      obtain ⟨rfl, -⟩ := localVariable_yields hv
      exact (evaluates_between hI hfx hgl hhr rfl).predicate hI isNot
    · simp only [Check.bind_yields, Check.pure_yields] at hrun
      obtain ⟨vt, _, hvt, vl, _, hvl, vr, _, hvr, rfl, -⟩ := hrun
      obtain ⟨rfl, rfl⟩ := localVariable_yields hvt
      obtain ⟨rfl, rfl⟩ := localVariable_yields hvl
      obtain ⟨rfl, -⟩ := localVariable_yields hvr
      exact (evaluates_symmetric hI hfx hgl hhr (by simp) (by simp; omega) (by simp)).predicate hI isNot

theorem patternMatch_valued {input pattern : ScalarExpression} {escape : Option ScalarExpression}
    (hi : Valued env I L input) (hp : Valued env I L pattern) (he : ∀ e ∈ escape, Valued env I L e)
    (isNot : Bool) (op : PatternMatchOperator) :
    Valued env I L (.patternMatchPredicate input isNot op pattern escape) := by
  intro context s t x hs hrun
  rw [scalar] at hrun
  obtain ⟨u, hrun, -⟩ := process_runs hrun
  simp only [processPatternMatch, Check.bind_yields, Check.pure_yields] at hrun
  obtain ⟨y, u₁, hy, z, u₂, hz, w, u₃, hw, rfl, -⟩ := hrun
  have hu₁ := scalar_sound hy hs
  obtain ⟨f, hf, hfy⟩ := hi .unspecified hs hy
  obtain ⟨g, hg, hgz⟩ := hp .unspecified hu₁ hz
  obtain ⟨h, hh, hhw⟩ := option_valued he (scalar_sound hz hu₁) hw
  have hescape : Evaluates I (w.getD (.immediate (.character []) (.character true none)))
      fun group row => (h.map fun h => h group row).getD
        (I.immediate (.character []) (.character true none)) := by
    cases hhw with
    | none => exact evaluates_immediate _ _
    | some hvalue => exact hvalue
  refine ⟨fun group row => L.negate isNot (patternMeaning I op (f group row) (g group row)
    (h.map fun h => h group row)), ?_, ?_⟩
  · rw [denote, hf, afterOperand_eq hy, hg, afterOperand_eq hz, hh]
    rfl
  · cases op with
    | like => exact (hfy.match_ hgz hescape .like).negate hI isNot
    | similarTo => exact (hfy.match_ hgz hescape .similar).negate hI isNot

theorem quantified_valued {left : ScalarExpression} (hl : Valued env I L left)
    (op : Ast.ComparisonOperator) (quantifier : Ast.Quantifier) (right : QueryExpression) :
    Valued env I L (.quantifiedComparisonPredicate left op quantifier right) := by
  intro context s t x hs hrun
  have hscalar := hrun
  have hscoped := scalar_scoped hrun hs
  have ht := scalar_sound hrun hs
  rw [scalar] at hrun
  obtain ⟨u, hrun, -⟩ := process_runs hrun
  simp only [processQuantifiedComparison, quantifiedCompare, Check.bind_yields,
    Check.pure_yields] at hrun
  obtain ⟨l, u₁, hl', ⟨result, parameters⟩, u₂, -, column, u₃, -, rfl, -⟩ := hrun
  obtain ⟨f, hf, hfl⟩ := hl .unspecified hs hl'
  refine ⟨fun group row => L.ofTruth (L.comparesEach op quantifier (f group row)
    (L.contents result.output (parameterValues row parameters) column)), ?_, ?_⟩
  · rw [denote, hf, hscalar]
    rfl
  · exact evaluates_quantified hI hfl
      (parameters_notLocal ht (scoped_quantifiedCompare.mp hscoped).2) op quantifier column

/-- `IN` with the values of a table value constructor. -/
theorem inValues_valued {left : ScalarExpression} {elements : List ScalarExpression}
    (hl : Valued env I L left) (h : ∀ e ∈ elements, Valued env I L e) (isNot : Bool) :
    Valued env I L (.inPredicate left isNot (.tableValueConstructor elements)) := by
  intro context s t x hs hrun
  rw [scalar, inValues] at hrun
  obtain ⟨u, hrun, -⟩ := process_runs hrun
  cases elements with
  | nil => cases hrun
  | cons e es =>
    simp only [processIn, scalars, processInValues, Check.bind_yields, Check.pure_yields] at hrun
    obtain ⟨l, u₁, hl', y, u₂, hy, ys, u₃, hys, v, u₄, hv, rfl, -⟩ := hrun
    obtain ⟨he, hes⟩ := List.forall_mem_cons.mp h
    have hu₁ := scalar_sound hl' hs
    obtain ⟨f, hf, hfl⟩ := hl .unspecified hs hl'
    obtain ⟨g, hg, hgy⟩ := he .unspecified hu₁ hy
    obtain ⟨gs, hgs, hgys⟩ := analyzeAll_valued hes (scalar_sound hy hu₁) hys
    obtain ⟨rfl, -⟩ := localVariable_yields hv
    refine ⟨fun group row => L.predicate isNot
      (.any ((g :: gs).map fun g => L.compares .equals (f group row) (g group row))), ?_, ?_⟩
    · rw [denote, hf, denoteList, afterOperand_eq hl', hg, afterOperand_eq hy, hgs]
      rfl
    · exact (evaluates_in hI hfl hgy hgys rfl).predicate hI isNot

/-- `IN` with a query: what is negated is a comparison with all values, and not a comparison with
any of them. -/
theorem inQuery_valued {left : ScalarExpression} (hl : Valued env I L left) (isNot : Bool)
    {right : QueryExpression} (hright : inValues env right = none)
    (hd : ∀ context s, denote I L env (.inPredicate left isNot right) context s = (do
      let f ← denote I L env left .unspecified s
      let column ← columnMeaning L (scalar env (.inPredicate left isNot right) context s).1
      return fun group row =>
        L.predicate isNot (.any ((column row).map (L.compares .equals (f group row)))))) :
    Valued env I L (.inPredicate left isNot right) := by
  intro context s t x hs hrun
  have hscalar := hrun
  have hscoped := scalar_scoped hrun hs
  have ht := scalar_sound hrun hs
  rw [scalar, hright] at hrun
  obtain ⟨u, hrun, -⟩ := process_runs hrun
  have hcompare : ∃ f result parameters column, denote I L env left .unspecified s = some f ∧
      (∃ l, Evaluates I l f ∧ x =
        if isNot then .quantifiedCompare .notEqual .all l result parameters column
        else .quantifiedCompare .equal .any l result parameters column) := by
    cases isNot with
    | false =>
      simp only [processIn, processInQuery, Bool.false_eq_true, if_false, quantifiedCompare,
        Check.bind_yields, Check.pure_yields] at hrun
      obtain ⟨l, u₁, hl', ⟨result, parameters⟩, u₂, -, column, u₃, -, rfl, -⟩ := hrun
      obtain ⟨f, hf, hfl⟩ := hl .unspecified hs hl'
      exact ⟨f, _, _, _, hf, l, hfl, rfl⟩
    | true =>
      simp only [processIn, processInQuery, if_true, quantifiedCompare, Check.bind_yields,
        Check.pure_yields] at hrun
      obtain ⟨l, u₁, hl', ⟨result, parameters⟩, u₂, -, column, u₃, -, rfl, -⟩ := hrun
      obtain ⟨f, hf, hfl⟩ := hl .unspecified hs hl'
      exact ⟨f, _, _, _, hf, l, hfl, rfl⟩
  obtain ⟨f, result, parameters, column, hf, l, hfl, rfl⟩ := hcompare
  have hp : ∀ p ∈ parameters, p.1.isLocal = false := by
    cases isNot with
    | false => exact parameters_notLocal ht (scoped_quantifiedCompare.mp hscoped).2
    | true => exact parameters_notLocal ht (scoped_quantifiedCompare.mp hscoped).2
  refine ⟨fun group row => L.predicate isNot (.any ((L.contents result
    (parameterValues row parameters) column).map (L.compares .equals (f group row)))), ?_,
    evaluates_inQuery hI hfl hp column isNot⟩
  rw [hd, hf, hscalar]
  cases isNot <;> rfl

theorem in_valued {left : ScalarExpression} {right : QueryExpression} (hl : Valued env I L left)
    (hr : ∀ elements, right = .tableValueConstructor elements → ∀ e ∈ elements, Valued env I L e)
    (isNot : Bool) : Valued env I L (.inPredicate left isNot right) := by
  cases right with
  | tableValueConstructor elements => exact inValues_valued hI hl (hr elements rfl) isNot
  | query => exact inQuery_valued hI hl isNot rfl fun _ _ => by rw [denote]; simp
  | tableReference => exact inQuery_valued hI hl isNot rfl fun _ _ => by rw [denote]; simp
  | binaryExpression => exact inQuery_valued hI hl isNot rfl fun _ _ => by rw [denote]; simp
  | withExpression => exact inQuery_valued hI hl isNot rfl fun _ _ => by rw [denote]; simp

/-! ### Case expressions -/

omit hI in
/-- The clauses of a case expression, each analyzed where the one before it has left the state. -/
theorem clauses_valued {clauses : List (ScalarExpression × ScalarExpression)}
    (h : ∀ p ∈ clauses, Valued env I L p.1 ∧ Valued env I L p.2) (v : Option Variable)
    {context : ValueContext} {s t : AnalyzerState ρ} {pairs : List (Scalar × Scalar)}
    (hs : s.Sound)
    (hrun : processWhenClauses v context (scalarPairs env clauses) s = (some pairs, t)) :
    t.Sound ∧ (∃ others, processWhenClauses none context (scalarPairs env clauses) s =
      (some others, t)) ∧ ∃ parts meanings, denoteClauses I L env clauses context s = some meanings ∧
        pairs = parts.map (caseAlternative v) ∧
        List.Forall₂ (fun p m => Evaluates I p.1 m.1 ∧ Evaluates I p.2 m.2) parts meanings := by
  induction clauses generalizing s pairs with
  | nil =>
    obtain ⟨rfl, rfl⟩ := (Check.pure_yields ..).mp hrun
    exact ⟨hs, ⟨[], rfl⟩, [], [], rfl, rfl, .nil⟩
  | cons clause clauses ih =>
    obtain ⟨⟨hwhen, hthen⟩, hclauses⟩ := List.forall_mem_cons.mp h
    obtain ⟨when_, then_⟩ := clause
    simp only [scalarPairs, processWhenClauses, Check.bind_yields, Check.pure_yields] at hrun
    obtain ⟨w, u₁, hw, e, u₂, he, rest, u₃, hrest, rfl, rfl⟩ := hrun
    obtain ⟨f, hf, hfw⟩ := hwhen .unspecified hs hw
    obtain ⟨g, hg, hge⟩ := hthen context (scalar_sound hw hs) he
    obtain ⟨ht, ⟨others, hothers⟩, parts, meanings, hmeanings, rfl, hall⟩ :=
      ih hclauses (scalar_sound he (scalar_sound hw hs)) hrest
    refine ⟨ht, ?_, (w, e) :: parts, (f, g) :: meanings, ?_, rfl, .cons ⟨hfw, hge⟩ hall⟩
    · refine ⟨(w, e) :: others, ?_⟩
      simp only [scalarPairs, processWhenClauses, Check.bind_yields, Check.pure_yields]
      exact ⟨w, u₁, hw, e, u₂, he, others, u₃, hothers, rfl, rfl⟩
    · rw [denoteClauses, hf, afterOperand_eq hw, hg, afterOperand_eq he, hmeanings]
      rfl

theorem case_valued {operand default_ : Option ScalarExpression}
    {clauses : List (ScalarExpression × ScalarExpression)} (ho : ∀ e ∈ operand, Valued env I L e)
    (hc : ∀ p ∈ clauses, Valued env I L p.1 ∧ Valued env I L p.2)
    (hd : ∀ e ∈ default_, Valued env I L e) :
    Valued env I L (.caseExpression operand clauses default_) := by
  intro context s t x hs hrun
  rw [scalar] at hrun
  obtain ⟨u, hrun, -⟩ := process_runs hrun
  generalize hactions : scalarPairs env clauses = actions at hrun
  cases actions with
  | nil => cases hrun
  | cons action actions =>
    cases operand with
    | none =>
      simp only [scalarOption, processCase, Check.bind_yields, Check.pure_yields] at hrun
      obtain ⟨as, u₁, has, d, u₂, hde, rfl, -⟩ := hrun
      rw [← hactions] at has
      obtain ⟨hu₁, ⟨others, hothers⟩, parts, ms, hms, rfl, hall⟩ := clauses_valued hc none hs has
      obtain ⟨m, hm, hmd⟩ := option_valued hd hu₁ hde
      refine ⟨fun group row => L.case_ none (ms.map fun c => (c.1 group row, c.2 group row))
        (m.map fun f => f group row), ?_, fun group bound row row' hbound hrow => ?_⟩
      · rw [denote, hms, hothers, hm]
        rfl
      · exact eval_conditional hI hall hmd none hbound hrow
    | some operand =>
      simp only [scalarOption, processCase, Check.bind_yields, Check.pure_yields] at hrun
      obtain ⟨y, u₁, hy, v, u₂, hv, as, u₃, has, d, u₄, hde, rfl, -⟩ := hrun
      rw [← hactions] at has
      have hu₂ := (scalar_sound hy hs).of_quiet (localVariable_quiet hv)
      obtain ⟨f, hf, hfy⟩ := ho operand rfl .unspecified hs hy
      obtain ⟨hu₃, ⟨others, hothers⟩, parts, ms, hms, rfl, hall⟩ := clauses_valued hc _ hu₂ has
      obtain ⟨m, hm, hmd⟩ := option_valued hd hu₃ hde
      have hlocal : (localVariable (afterOperand env operand .unspecified s)).2 = u₂ := by
        rw [afterOperand_eq hy, hv]
      obtain ⟨rfl, -⟩ := localVariable_yields hv
      refine ⟨fun group row => L.case_ (some (f group row))
        (ms.map fun c => (c.1 group row, c.2 group row)) (m.map fun f => f group row), ?_, ?_⟩
      · rw [denote, hf]
        dsimp only [bind, Option.bind]
        rw [hlocal, hms, hothers]
        dsimp only [Option.bind]
        rw [hm]
        rfl
      · refine hfy.let_ rfl fun group bound row row' hbound hrow hvalue => ?_
        rw [← hvalue]
        exact eval_conditional hI hall hmd (some (.localVariable u₁.fresh)) hbound hrow

/-! ### Functions -/

omit hI in
/-- A call of the function that was found, with or without set functions. -/
theorem evaluates_found {es : List Scalar} {fs : List (Meaning α)}
    (hes : List.Forall₂ (Evaluates I) es fs) {x : Scalar}
    (hx : (∃ function, x = .functionCall function es) ∨
      ∃ function, x = .aggregateFunctionCall function es) :
    ∃ f, callMeaning I (some x) fs = some f ∧ Evaluates I x f := by
  obtain ⟨function, rfl⟩ | ⟨function, rfl⟩ := hx
  · exact ⟨_, rfl, evaluates_call hes function⟩
  · exact ⟨_, rfl, evaluates_aggregate hes function⟩

omit hI in
theorem callAggregate_yields {function : AggregateDecl} {arguments : List Scalar}
    {s t : AnalyzerState ρ} {x : Scalar}
    (h : callAggregate function arguments s = (some x, t)) :
    x = .aggregateFunctionCall function arguments := by
  simp only [callAggregate, Check.bind_yields, Check.modify_yields, Check.pure_yields] at h
  obtain ⟨-, _, -, rfl, -⟩ := h
  rfl

omit hI in
theorem function_valued {arguments : List ScalarExpression}
    (h : ∀ e ∈ arguments, Valued env I L e) (name : Name) :
    Valued env I L (.functionInvocation name arguments) := by
  intro context s t x hs hrun
  have hscalar := hrun
  rw [scalar] at hrun
  obtain ⟨u, hrun, -⟩ := process_runs hrun
  simp only [processFunctionInvocation, Check.bind_yields] at hrun
  obtain ⟨args, u₁, hargs, functions, u₂, -, hrun⟩ := hrun
  obtain ⟨fs, hfs, hall⟩ := analyzeArguments_valued h hs hargs
  rw [denote, hfs, hscalar]
  refine evaluates_found hall ?_
  cases hscalarFunctions : applicableFunctions env (args.map Prod.snd) functions with
  | cons f rest =>
    simp only [hscalarFunctions, Check.bind_yields, Check.pure_yields] at hrun
    obtain ⟨target, u₃, -, rfl, -⟩ := hrun
    exact .inl ⟨target, rfl⟩
  | nil =>
    simp only [hscalarFunctions, Check.bind_yields] at hrun
    obtain ⟨aggregates, u₃, -, hrun⟩ := hrun
    cases happlicable : applicableAggregates env (args.map Prod.snd) aggregates with
    | nil =>
      simp only [happlicable] at hrun
      cases hrun
    | cons a rest =>
      simp only [happlicable, Check.bind_yields] at hrun
      obtain ⟨target, u₄, -, hrun⟩ := hrun
      exact .inr ⟨target, callAggregate_yields hrun⟩

omit hI in
theorem builtinSetFunction_valued {arguments : List ScalarExpression}
    (h : ∀ e ∈ arguments, Valued env I L e) (function : BuiltinSetFunctionKind)
    (quantifier : Option Ast.SetQuantifier) :
    Valued env I L (.builtinSetFunctionInvocation function quantifier arguments) := by
  intro context s t x hs hrun
  have hscalar := hrun
  rw [scalar] at hrun
  obtain ⟨u, hrun, -⟩ := process_runs hrun
  simp only [processBuiltinSetFunction, Check.bind_yields] at hrun
  obtain ⟨args, u₁, hargs, hrun⟩ := hrun
  obtain ⟨fs, hfs, hall⟩ := analyzeArguments_valued h hs hargs
  rw [denote, hfs, hscalar]
  refine evaluates_found hall ?_
  generalize applicableAggregates env (args.map Prod.snd) _ = candidates at hrun
  cases candidates with
  | nil => cases hrun
  | cons a rest =>
    simp only [Check.bind_yields] at hrun
    obtain ⟨target, u₂, -, hrun⟩ := hrun
    exact .inr ⟨target, callAggregate_yields hrun⟩

omit hI in
/-- A built-in function that is declared in the schemas. -/
theorem declaredBuiltin_valued {arguments : List ScalarExpression}
    (h : ∀ e ∈ arguments, Valued env I L e) {function : BuiltinFunctionKind}
    (hnullif : function ≠ .nullif) (hcoalesce : function ≠ .coalesce) :
    Valued env I L (.builtinFunctionInvocation function arguments) := by
  intro context s t x hs hrun
  have hscalar := hrun
  rw [scalar] at hrun
  obtain ⟨u, hrun, -⟩ := process_runs hrun
  have hdeclared : processDeclaredBuiltin env function (scalars env arguments) s = (some x, u) := by
    unfold processBuiltinFunction at hrun
    split at hrun
    · exact absurd rfl hnullif
    · exact absurd rfl hcoalesce
    all_goals first | exact hrun | cases hrun
  simp only [processDeclaredBuiltin, Check.bind_yields] at hdeclared
  obtain ⟨args, u₁, hargs, hrun⟩ := hdeclared
  obtain ⟨fs, hfs, hall⟩ := analyzeArguments_valued h hs hargs
  rw [denote, hfs, hscalar]
  · refine evaluates_found hall ?_
    generalize applicableFunctions env (args.map Prod.snd) _ = candidates at hrun
    cases candidates with
    | nil => cases hrun
    | cons f rest =>
      simp only [Check.bind_yields, Check.pure_yields] at hrun
      obtain ⟨target, u₂, -, rfl, -⟩ := hrun
      exact .inl ⟨target, rfl⟩
  · exact fun _ _ hf => absurd hf hnullif
  · exact hcoalesce

theorem nullif_valued {arguments : List ScalarExpression}
    (h : ∀ e ∈ arguments, Valued env I L e) :
    Valued env I L (.builtinFunctionInvocation .nullif arguments) := by
  intro context s t x hs hrun
  rw [scalar] at hrun
  obtain ⟨u, hrun, -⟩ := process_runs hrun
  rcases arguments with _ | ⟨left, _ | ⟨right, _ | ⟨third, rest⟩⟩⟩
  · cases hrun
  · cases hrun
  · simp only [processBuiltinFunction, scalars, processNullif, Check.bind_yields,
      Check.pure_yields] at hrun
    obtain ⟨l, u₁, hl, r, u₂, hr, type, u₃, -, v, u₄, hv, rfl, -⟩ := hrun
    obtain ⟨f, hf, hfl⟩ := h left (by simp) .unspecified hs hl
    obtain ⟨g, hg, hgr⟩ := h right (by simp) .unspecified (scalar_sound hl hs) hr
    obtain ⟨rfl, -⟩ := localVariable_yields hv
    refine ⟨fun group row => L.nullif (f group row) (g group row), ?_,
      evaluates_nullif hI hfl hgr type rfl⟩
    rw [denote, hf, afterOperand_eq hl, hg]
    rfl
  · cases hrun

theorem coalesce_valued {arguments : List ScalarExpression}
    (h : ∀ e ∈ arguments, Valued env I L e) :
    Valued env I L (.builtinFunctionInvocation .coalesce arguments) := by
  intro context s t x hs hrun
  rw [scalar] at hrun
  obtain ⟨u, hrun, -⟩ := process_runs hrun
  cases arguments with
  | nil => cases hrun
  | cons e arguments =>
    simp only [processBuiltinFunction, scalars, processCoalesce, Check.bind_yields,
      Check.pure_yields] at hrun
    obtain ⟨es, u₁, hes, rfl, -⟩ := hrun
    obtain ⟨fs, hfs, hall⟩ := analyzeAll_valued h hs hes
    refine ⟨fun group row => L.firstNonNull (fs.map fun f => f group row), ?_,
      evaluates_coalesce hI hall⟩
    rw [denote, hfs]
    rfl

omit hI in
theorem extract_valued {operand : ScalarExpression} (h : Valued env I L operand)
    (field : ExtractFieldKind) (digits : Option Nat) :
    Valued env I L (.extractExpression field digits operand) := by
  intro context s t x hs hrun
  have hscalar := hrun
  rw [scalar] at hrun
  obtain ⟨u, hrun, -⟩ := process_runs hrun
  simp only [processExtract, Check.bind_yields] at hrun
  obtain ⟨e, u₁, he, type, u₂, -, _, u₃, -, functions, u₄, -, hrun⟩ := hrun
  obtain ⟨f, hf, hfe⟩ := h .unspecified hs he
  generalize hargs : (if field ∈ extractIncludesSecond then
    [(e, type), (extractSecondPrecision digits, TypeData.int4)] else [(e, type)]) = args at hrun
  have hall : List.Forall₂ (Evaluates I) (args.map Prod.fst)
      (f :: if field ∈ extractIncludesSecond then
        [fun group row => (extractSecondPrecision digits).eval I group [] row] else []) := by
    rw [← hargs]
    split_ifs with hsecond
    · exact .cons hfe (.cons (evaluates_immediate _ _) .nil)
    · exact .cons hfe .nil
  rw [denote, hf, hscalar]
  refine evaluates_found hall ?_
  generalize applicableFunctions env _ functions = candidates at hrun
  cases candidates with
  | nil => cases hrun
  | cons g rest =>
    simp only [Check.bind_yields, Check.pure_yields] at hrun
    obtain ⟨target, u₅, -, rfl, -⟩ := hrun
    exact .inl ⟨target, rfl⟩

/-! ### Every expression -/

theorem builtinFunction_valued {arguments : List ScalarExpression}
    (h : ∀ e ∈ arguments, Valued env I L e) (function : BuiltinFunctionKind) :
    Valued env I L (.builtinFunctionInvocation function arguments) := by
  by_cases hnullif : function = .nullif
  · exact hnullif ▸ nullif_valued hI h
  · by_cases hcoalesce : function = .coalesce
    · exact hcoalesce ▸ coalesce_valued hI h
    · exact declaredBuiltin_valued h hnullif hcoalesce

omit hI in
/-- An expression that is not accepted. -/
theorem rejected_valued {e : ScalarExpression} {code : Code} {message : List Fragment}
    (he : ∀ context, scalar env e context = process env (reject code message)) :
    Valued env I L e := by
  intro context s t x hs hrun
  rw [he] at hrun
  obtain ⟨u, hrun, -⟩ := process_runs hrun
  cases hrun

/-- The value of a scalar expression follows the structure of the expression. -/
theorem valued_induction : SyntaxInduction (Valued env I L) (fun _ => True) (fun _ => True)
    (fun _ => True) (fun _ => True) (fun _ => True) where
  literal := literal_valued
  variableReference := variableName_valued
  hostParameter := hostParameter_valued
  case_ ho hc hd := case_valued hI ho hc hd
  cast op type h := cast_valued h op type
  unary op h := unary_valued hI h op
  binary op hl hr := binary_valued hI hl hr op
  extract field digits h := extract_valued h field digits
  valueConstructor _ _ := rejected_valued fun _ => by rw [scalar]
  subquery {q} contextKind _ := subquery_valued q contextKind
  comparison op hl hr := comparison_valued hI hl hr op
  quantified {_ right} op quantifier hl _ := quantified_valued hI hl op quantifier right
  between isNot op ht hl hr := between_valued hI ht hl hr isNot op
  in_ isNot hl hr _ := in_valued hI hl hr isNot
  patternMatch isNot op hi hp he := patternMatch_valued hI hi hp he isNot op
  tablePredicate {operand} op _ := tablePredicate_valued op operand
  function name h := function_valued h name
  builtinFunction kind h := builtinFunction_valued hI h kind
  builtinSetFunction kind quantifier h := builtinSetFunction_valued h kind quantifier
  placeholder := placeholder_valued
  unsupported _ := rejected_valued fun _ => by rw [scalar]
  query _ _ _ _ _ _ _ _ := trivial
  relationReference _ := trivial
  values _ := trivial
  binaryQuery _ _ _ _ _ := trivial
  with_ _ _ _ := trivial
  selectColumn _ _ := trivial
  selectAsterisk _ := trivial
  groupingColumn _ _ := trivial
  tableReference _ _ _ := trivial
  unnest _ _ _ := trivial
  join _ _ _ _ := trivial
  tableSubquery _ _ _ := trivial
  apply _ _ _ _ _ := trivial
  joinCondition _ := trivial
  joinColumns _ := trivial

/-- Every scalar expression that is accepted has a value as it is written, and what is built for
it has that value in every row of every group, whatever the local variables around it hold. -/
theorem scalar_evaluates (e : ScalarExpression) (context : ValueContext) {s t : AnalyzerState ρ}
    {x : Scalar} (hs : s.Sound) (h : scalar env e context s = (some x, t)) :
    ∃ f, denote I L env e context s = some f ∧ ∀ (group : List (Row Variable α))
      (bound : List (Variable × α)) (row row' : Row Variable α), Local bound → Agree row row' →
        x.eval I group bound row = f group row' := by
  obtain ⟨f, hf, hx⟩ := (valued_induction hI).scalar e context hs h
  exact ⟨f, hf, fun group bound row row' hbound hrow => hx group hbound hrow⟩

end

/-- Integers that may be null, with 0 and 1 for truth values. -/
def integerLogic : Logic (Option Int) where
  null := none
  isNull a := a.isNone
  truth
    | none => .unknown
    | some n => .ofBool (n != 0)
  ofTruth
    | .unknown => none
    | .false_ => some 0
    | .true_ => some 1
  comparison a b := do return compare (← a) (← b)
  contents _ _ _ := []
  truth_ofTruth t := by cases t <;> rfl
  comparison_swap a b := by
    cases a with
    | none => cases b <;> rfl
    | some m =>
      cases b with
      | none => rfl
      | some n => exact congrArg some (Std.OrientedCmp.eq_swap : compare n m = (compare m n).swap)

/-- The immediate values of integers; all other operators give a null. -/
def integerOperators : Interpretation (Option Int) where
  truth a := a != some 0
  order _ _ _ := .eq
  immediate
    | .int8 n, _ => some n
    | _, _ => none
  cast _ _ a := a
  unary _ _ := none
  binary _ _ _ := none
  compare _ _ _ := none
  match_ _ _ _ _ := none
  conditional _ _ := none
  coalesce _ := none
  functionCall _ _ := none
  aggregate _ _ := none
  subquery _ _ _ := none
  exists_ _ _ := none
  quantifiedCompare _ _ _ _ _ _ := none

/-- An environment where a null may stand anywhere. -/
def nullEnvironment : Environment Types :=
  let env := Environment.ofSchema (.ofTables [] [])
  { env with options := { env.options with allowContextIndependentNull := true } }

/-- `CASE WHEN (2 NOT IN (1, NULL)) IS UNKNOWN THEN NULLIF(5, 3) END`. -/
def nestedCase : ScalarExpression :=
  let number (n : Nat) : ScalarExpression :=
    .literalExpression (.exactNumeric none (.ofDigits [n]))
  .caseExpression none
    [(.binaryExpression (.inPredicate (number 2) true (.tableValueConstructor [number 1,
        .literalExpression .null])) .is (.literalExpression (.boolean .unknown)),
      .builtinFunctionInvocation .nullif [number 5, number 3])] none

/-- The negation of what is unknown is unknown, so the case applies. -/
theorem scalar_evaluates_nested :
    (scalar nullEnvironment nestedCase .unspecified (.initial [])).1.map (fun x =>
      x.eval (integerOperators.documented integerLogic) [] [] fun _ => none) = some (some 5) := by
  have hvalue : (denote (integerOperators.documented integerLogic) integerLogic nullEnvironment
      nestedCase .unspecified (.initial [])).map (fun f => f [] fun _ => none) = some (some 5) := by
    decide +kernel
  generalize hrun : scalar nullEnvironment nestedCase .unspecified (.initial []) = run
  have hsome : run.1.isSome = true := by
    rw [← hrun]
    decide +kernel
  obtain ⟨x, t⟩ := run
  obtain ⟨x, rfl⟩ := Option.isSome_iff_exists.mp hsome
  obtain ⟨f, hf, heval⟩ := scalar_evaluates (integerOperators.documented_documented integerLogic)
    nestedCase .unspecified (initial_sound []) hrun
  rw [hf] at hvalue
  rw [Option.map_some, heval [] [] _ _ (fun _ hp => by cases hp) (.refl _)]
  exact hvalue

end Mizugaki.Analyzer
