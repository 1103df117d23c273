import Mizugaki.Aggregation.ScalarMark

/-! The operators that an analysis places. Whatever an analysis returns, its operators are those of
what its parts return, apart from the ones it places itself; a relation between the states
before and after a run that lists these operators is carried along accordingly. This file has the
relation and the functions of the scalar expression analyzer. -/

namespace Mizugaki.Plan

/-- The operators in nested graphs. -/
def placed (nodes : List SubqueryNode) : List Operator := nodes.flatMap fun n => n.graph.operators

theorem placed_append (ns ms : List SubqueryNode) : placed (ns ++ ms) = placed ns ++ placed ms :=
  List.flatMap_append

theorem placed_subset {ns ms : List SubqueryNode} (h : ms ⊆ ns) : placed ms ⊆ placed ns := by
  intro op hop
  obtain ⟨n, hn, hop⟩ := List.mem_flatMap.mp hop
  exact List.mem_flatMap.mpr ⟨n, h hn, hop⟩

end Mizugaki.Plan

namespace Mizugaki.Analyzer

set_option linter.unusedSectionVars false

open Mizugaki.Ast Mizugaki.Plan Mizugaki.Control

variable {ρ : Type}

/-- A relation that lists operators which were placed between two states. Operators of EXCEPT and
INTERSECT are listed when `merging` holds. -/
structure Tracks (env : Environment ρ) (merging : Prop)
    (J : List Operator → AnalyzerState ρ → AnalyzerState ρ → Prop) : Prop where
  append {os ps : List Operator} {s t u : AnalyzerState ρ} :
    J os s t → J ps t u → J (os ++ ps) s u
  subset {os ps : List Operator} {s t : AnalyzerState ρ} : J os s t → ps ⊆ os → J ps s t
  mark (s : AnalyzerState ρ) (b : Bool) : J [] s { s with sawAggregate := b }
  modify (s : AnalyzerState ρ) (i : Nat) {g : QueryScope → QueryScope}
    (hg : ∀ scope, (g scope).queryMap = scope.queryMap) :
    J [] s { s with scopes := s.scopes.modify i g }
  entered {os : List Operator} {s t : AnalyzerState ρ} {scope : QueryScope}
    (hscope : scope.queryMap = fun _ => none) : J os (s.enter scope) t → J os s t.leave
  resolved {op : Operator} {os : List Operator} {s t u : AnalyzerState ρ} {a : Unit} :
    J os s t → placed op.nested ⊆ os → op.isDifference = false →
    resolveOperator env op t = (some a, u) → J (op :: os) s u
  counted {c c' : Option Nat} {keys : List Variable} {sort : List (Variable × SortDirection)}
    {os : List Operator} {s t : AnalyzerState ρ} :
    J (.limit c keys sort :: os) s t → J (.limit c' keys sort :: os) s t
  merged (h : merging) {op : Operator} (hop : op.isDifference = true) (s : AnalyzerState ρ) :
    J [op] s s
  referred {s : AnalyzerState ρ} {scope : QueryScope} {name : String} {q : QueryInfo}
    (hscope : scope ∈ s.scopes) (hq : scope.queryMap name = some q) :
    J q.queryGraph.operators s s
  declared {s t u : AnalyzerState ρ} {name : SimpleName} {q : QueryInfo} {a : Unit} :
    J q.queryGraph.operators s t → addQuery env name q t = (some a, u) → J [] s u

/-- The analysis of a scalar expression, in any context. -/
def ScalarTracked (J : List Operator → AnalyzerState ρ → AnalyzerState ρ → Prop)
    (a : ScalarAction ρ) : Prop :=
  ∀ context ⦃s t e⦄, a context s = (some e, t) → J (placed e.subqueries) s t

/-- The analysis of a query, in any context. -/
def QueryTracked (J : List Operator → AnalyzerState ρ → AnalyzerState ρ → Prop)
    (q : QueryAction ρ) : Prop :=
  ∀ context continueScope ⦃s t r⦄, q context continueScope s = (some r, t) →
    J r.output.operators s t

/-- Analyses of expressions, each in any context. -/
abbrev ListTracked (J : List Operator → AnalyzerState ρ → AnalyzerState ρ → Prop)
    (actions : List (ScalarAction ρ)) : Prop :=
  ∀ a ∈ actions, ScalarTracked J a

abbrev OptionTracked (J : List Operator → AnalyzerState ρ → AnalyzerState ρ → Prop)
    (action : Option (ScalarAction ρ)) : Prop :=
  ∀ a ∈ action, ScalarTracked J a

abbrev PairsTracked (J : List Operator → AnalyzerState ρ → AnalyzerState ρ → Prop)
    (pairs : List (ScalarAction ρ × ScalarAction ρ)) : Prop :=
  ∀ p ∈ pairs, ScalarTracked J p.1 ∧ ScalarTracked J p.2

/-- The analysis of an expression. -/
abbrev NodesTracked (J : List Operator → AnalyzerState ρ → AnalyzerState ρ → Prop)
    (m : Analysis ρ Scalar) : Prop :=
  ∀ ⦃s t e⦄, m s = (some e, t) → J (placed e.subqueries) s t

section Rules

variable {env : Environment ρ} {merging : Prop}
  {J : List Operator → AnalyzerState ρ → AnalyzerState ρ → Prop} (T : Tracks env merging J)
  {os : List Operator} {ns ms : List SubqueryNode} {s t u : AnalyzerState ρ}

include T

namespace Tracks

/-- A step that places nothing, before others. -/
theorem before (h : J [] s t) (k : J os t u) : J os s u := T.append h k

/-- A step that places nothing, after others. -/
theorem after (h : J os s t) (k : J [] t u) : J os s u := by
  have hall := T.append h k
  rwa [List.append_nil] at hall

theorem trans (h : J (placed ns) s t) (k : J (placed ms) t u) : J (placed (ns ++ ms)) s u := by
  rw [placed_append]
  exact T.append h k

theorem congr (h : J (placed ns) s t) (hns : ms ⊆ ns) : J (placed ms) s t :=
  T.subset h (placed_subset hns)

end Tracks

end Rules

variable {env : Environment ρ} {merging : Prop}
  {J : List Operator → AnalyzerState ρ → AnalyzerState ρ → Prop} (T : Tracks env merging J)
  [Numbering (J [])] [Resolving env (J [])] {s t u : AnalyzerState ρ}

omit [Resolving env (J [])] in
/-- Nothing is placed while nothing happens. -/
theorem stay_tracked (s : AnalyzerState ρ) : J [] s s := Check.Frame.refl s

/-- What returns expressions without subqueries. -/
theorem NodesTracked.of_quiet {m : Analysis ρ Scalar} (hm : Check.Keeps (J []) m)
    (he : ∀ ⦃s t e⦄, m s = (some e, t) → e.subqueries = []) : NodesTracked J m := by
  intro s t e h
  rw [he h]
  exact hm h

theorem reject_tracked (code : Code) (message : List Fragment) :
    NodesTracked J (reject code message : Analysis ρ Scalar) :=
  .of_quiet (reject_quiet code message) fun _ _ _ h => by cases h

theorem analyzeLiteral_tracked (literal : Literal) (context : ScalarValueContext) :
    NodesTracked J (analyzeLiteral env literal context) := by
  refine .of_quiet (analyzeLiteral_quiet env literal context) fun s t e h => ?_
  simp only [analyzeLiteral, Check.bind_yields] at h
  obtain ⟨⟨value, type⟩, u, -, h⟩ := h
  cases htype : context.type with
  | none =>
    simp only [htype, Check.pure_yields] at h
    obtain ⟨rfl, rfl⟩ := h
    rfl
  | some type' =>
    simp only [htype] at h
    split_ifs at h
    all_goals
      obtain ⟨rfl, rfl⟩ := (Check.pure_yields ..).mp h
      rfl

theorem findPlaceholder_tracked (identifier : String) (message : List Fragment) :
    NodesTracked J (findPlaceholder env identifier message) := by
  refine .of_quiet (findPlaceholder_quiet env identifier message) fun s t e h => ?_
  unfold findPlaceholder at h
  rcases hvalue : env.placeholders identifier with _ | ⟨value, type⟩
  · rcases hvariable : env.hostParameters identifier with _ | v
    · simp only [hvalue, hvariable] at h
      cases h
    · simp only [hvalue, hvariable, Check.pure_yields] at h
      obtain ⟨rfl, rfl⟩ := h
      rfl
  · simp only [hvalue, Check.pure_yields] at h
    obtain ⟨rfl, rfl⟩ := h
    rfl

include T

theorem process_tracked {m : Analysis ρ Scalar} (h : NodesTracked J m) :
    NodesTracked J (process env m) := by
  intro s t e hrun
  simp only [process, Check.bind_yields] at hrun
  obtain ⟨e', u, hm, hrun⟩ := hrun
  split at hrun
  · simp only [Check.bind_yields, Check.pure_yields] at hrun
    obtain ⟨_, v, hresolve, rfl, rfl⟩ := hrun
    exact T.after (h hm) (resolve_quiet env _ _ hresolve)
  · obtain ⟨rfl, rfl⟩ := (Check.pure_yields ..).mp hrun
    exact h hm

/-! ### Variable names -/

theorem addParameter_tracked {position : Nat} {free parameter : Variable}
    (h : addParameter position free s = (some parameter, t)) : J [] s t := by
  simp only [addParameter, Check.bind_yields, Check.gets_yields] at h
  obtain ⟨_, _, ⟨rfl, rfl⟩, h⟩ := h
  cases hfound : s.scopes[position]?.bind (·.findParameter free) with
  | some found =>
    rw [hfound] at h
    obtain ⟨-, rfl⟩ := (Check.pure_yields ..).mp h
    exact stay_tracked s
  | none =>
    rw [hfound] at h
    simp only [Check.bind_yields, Check.modify_yields, Check.pure_yields] at h
    obtain ⟨v, u, hv, _, w, rfl, rfl, rfl⟩ := h
    exact T.before (frameVariable_quiet hv) (T.modify u position fun scope => by rfl)

theorem addParameters_tracked {found current v : Variable} {positions : List Nat}
    (h : addParameters env found current positions s = (some v, t)) : J [] s t := by
  induction positions generalizing current s with
  | nil =>
    obtain ⟨-, rfl⟩ := (Check.pure_yields ..).mp h
    exact stay_tracked s
  | cons position positions ih =>
    simp only [addParameters, Check.bind_yields] at h
    obtain ⟨parameter, u, hparameter, _, w, halias, h⟩ := h
    have halias : J [] u w := resolveAsAlias_quiet env _ _ halias
    exact T.before (addParameter_tracked T hparameter) (T.before halias (ih h))

theorem analyzeVariableName_tracked (name : Name) : NodesTracked J (analyzeVariableName env name) := by
  intro s t e h
  obtain ⟨found, depth, u, v, hfound, rfl, hcases⟩ := analyzeVariableName_cases env h
  have hsearch : J [] s u := findSymbol_quiet env s.scopes name variableTargets true hfound
  obtain ⟨-, -, rfl⟩ | ⟨d, -, -, -, hadd⟩ := hcases
  · exact hsearch
  · exact T.before hsearch (addParameters_tracked T hadd)

/-! ### Case, cast and operators -/

theorem processWhenClauses_tracked {clauses : List (ScalarAction ρ × ScalarAction ρ)}
    (h : PairsTracked J clauses) {v : Option Variable} {context : ValueContext}
    {pairs : List (Scalar × Scalar)}
    (hrun : processWhenClauses v context clauses s = (some pairs, t)) :
    J (placed (subqueriesPairs pairs)) s t := by
  induction clauses generalizing s pairs with
  | nil =>
    obtain ⟨rfl, rfl⟩ := (Check.pure_yields ..).mp hrun
    exact stay_tracked s
  | cons clause clauses ih =>
    obtain ⟨⟨hfirst, hsecond⟩, hclauses⟩ := List.forall_mem_cons.mp h
    simp only [processWhenClauses, Check.bind_yields, Check.pure_yields] at hrun
    obtain ⟨w, u₁, hw, e, u₂, he, rest, u₃, hrest, rfl, rfl⟩ := hrun
    refine T.congr (T.trans (hfirst _ hw) (T.trans (hsecond _ he) (ih hclauses hrest))) ?_
    cases v <;> simp [subqueriesPairs, Scalar.subqueries]

theorem option_tracked {o : Option (ScalarAction ρ)} (h : OptionTracked J o)
    {context : ValueContext} {e : Option Scalar}
    (hrun : Check.option (o.map (· context)) s = (some e, t)) :
    J (placed (subqueriesOption e)) s t := by
  cases o with
  | none =>
    obtain ⟨rfl, rfl⟩ := (Check.pure_yields ..).mp hrun
    exact stay_tracked s
  | some a =>
    simp only [Option.map_some, Check.option, Check.bind_yields, Check.pure_yields] at hrun
    obtain ⟨value, u, hvalue, rfl, rfl⟩ := hrun
    exact h a rfl _ hvalue

theorem processCase_tracked {operand : Option (ScalarAction ρ)}
    {whenClauses : List (ScalarAction ρ × ScalarAction ρ)}
    {defaultResult : Option (ScalarAction ρ)} (ho : OptionTracked J operand)
    (hw : PairsTracked J whenClauses) (hd : OptionTracked J defaultResult)
    (context : ValueContext) :
    NodesTracked J (processCase operand whenClauses defaultResult context) := by
  intro s t e h
  cases whenClauses with
  | nil => cases h
  | cons clause clauses =>
    cases operand with
    | none =>
      simp only [processCase, Check.bind_yields, Check.pure_yields] at h
      obtain ⟨as, u, has, de, v, hde, rfl, rfl⟩ := h
      exact T.trans (processWhenClauses_tracked T hw has) (option_tracked T hd hde)
    | some operand =>
      simp only [processCase, Check.bind_yields, Check.pure_yields] at h
      obtain ⟨value, u, hvalue, v, u', hv, as, u₂, has, de, u₃, hde, rfl, rfl⟩ := h
      have hrest := T.trans (processWhenClauses_tracked T hw has) (option_tracked T hd hde)
      refine T.congr (T.trans (ho operand rfl _ hvalue) (T.before (localVariable_quiet hv) hrest)) ?_
      simp [Scalar.subqueries, subqueriesBindings]

theorem processCast_tracked {operand : ScalarAction ρ} (h : ScalarTracked J operand)
    (op : CastOperator) (type : TypeNode) : NodesTracked J (processCast env op operand type) := by
  intro s t e hrun
  simp only [processCast, Check.bind_yields, Check.pure_yields] at hrun
  obtain ⟨_, u, hreport, e', v, he, type', w, htype, rfl, rfl⟩ := hrun
  have hoperand := h _ he
  exact T.before (reportCastOperator_quiet op hreport)
    (T.after hoperand (analyzeType_quiet env type htype))

theorem processUnary_tracked {operand : ScalarAction ρ} (h : ScalarTracked J operand)
    (op : Ast.UnaryOperator) : NodesTracked J (processUnary op operand) := by
  intro s t e hrun
  simp only [processUnary, Check.bind_yields, Check.pure_yields] at hrun
  obtain ⟨op', u, hop, e', v, he, rfl, rfl⟩ := hrun
  have hoperand := h _ he
  exact T.before (convertUnaryOperator_quiet op hop) hoperand

theorem processIs_tracked {left : ScalarAction ρ} (h : ScalarTracked J left) (isNot : Bool)
    (right : ScalarExpression) : NodesTracked J (processIs left isNot right) := by
  intro s t e hrun
  unfold processIs at hrun
  split at hrun
  · simp only [Check.bind_yields, Check.pure_yields] at hrun
    obtain ⟨op, u, hop, e', v, he, rfl, rfl⟩ := hrun
    have hleft := T.before (convertIsRight_quiet _ hop) (h _ he)
    cases isNot <;> exact hleft
  · cases hrun

theorem processBinary_tracked {left right : ScalarAction ρ} (hl : ScalarTracked J left)
    (hr : ScalarTracked J right) (op : Ast.BinaryOperator) (node : ScalarExpression) :
    NodesTracked J (processBinary left op node right) := by
  intro s t e hrun
  unfold processBinary at hrun
  split at hrun
  · exact processIs_tracked T hl _ _ hrun
  · exact processIs_tracked T hl _ _ hrun
  · simp only [Check.bind_yields, Check.pure_yields] at hrun
    obtain ⟨op', u, hop, l, v, hl', r, w, hr', rfl, rfl⟩ := hrun
    exact T.before (convertBinaryOperator_quiet op hop) (T.trans (hl _ hl') (hr _ hr'))

theorem processComparison_tracked {left right : ScalarAction ρ} (hl : ScalarTracked J left)
    (hr : ScalarTracked J right) (op : Ast.ComparisonOperator) :
    NodesTracked J (processComparison left op right) := by
  intro s t e hrun
  simp only [processComparison, Check.bind_yields, Check.pure_yields] at hrun
  obtain ⟨l, v, hl', r, w, hr', rfl, rfl⟩ := hrun
  exact T.trans (hl _ hl') (hr _ hr')

theorem processBetween_tracked {target left right : ScalarAction ρ} (ht : ScalarTracked J target)
    (hl : ScalarTracked J left) (hr : ScalarTracked J right) (isNot : Bool)
    (op : Option BetweenOperator) :
    NodesTracked J (processBetween target isNot op left right) := by
  intro s t e hrun
  simp only [processBetween, Check.bind_yields] at hrun
  obtain ⟨x, u₁, hx, l, u₂, hl', r', u₃, hr', hrun⟩ := hrun
  have hall := T.trans (ht _ hx) (T.trans (hl _ hl') (hr _ hr'))
  split at hrun
  · simp only [Check.bind_yields, Check.pure_yields] at hrun
    obtain ⟨vt, v₁, hvt, vl, v₂, hvl, vr, v₃, hvr, rfl, rfl⟩ := hrun
    refine T.congr (T.after (T.after (T.after hall (localVariable_quiet hvt))
      (localVariable_quiet hvl)) (localVariable_quiet hvr)) ?_
    cases isNot <;> simp [negateIf, Scalar.subqueries, subqueriesBindings]
  · simp only [Check.bind_yields, Check.pure_yields] at hrun
    obtain ⟨vt, v₁, hvt, rfl, rfl⟩ := hrun
    refine T.congr (T.after hall (localVariable_quiet hvt)) ?_
    cases isNot <;> simp [negateIf, Scalar.subqueries, subqueriesBindings]

theorem processPatternMatch_tracked {matchValue pattern : ScalarAction ρ}
    {escape : Option (ScalarAction ρ)} (hm : ScalarTracked J matchValue)
    (hp : ScalarTracked J pattern) (he : OptionTracked J escape) (isNot : Bool)
    (op : PatternMatchOperator) :
    NodesTracked J (processPatternMatch matchValue isNot op pattern escape) := by
  intro s t e hrun
  simp only [processPatternMatch, Check.bind_yields, Check.pure_yields] at hrun
  obtain ⟨x, u₁, hx, y, u₂, hy, z, u₃, hz, rfl, rfl⟩ := hrun
  refine T.congr (T.trans (hm _ hx) (T.trans (hp _ hy) (option_tracked T he hz))) ?_
  cases z <;> cases isNot <;> simp [negateIf, Scalar.subqueries, subqueriesOption]

/-! ### Functions -/

theorem analyzeArguments_tracked {arguments : List (ScalarAction ρ)}
    (h : ListTracked J arguments) {args : List (Scalar × TypeData)}
    (hrun : analyzeArguments env arguments s = (some args, t)) :
    J (placed (subqueriesList (args.map Prod.fst))) s t := by
  induction arguments generalizing s args with
  | nil =>
    obtain ⟨rfl, rfl⟩ := (Check.pure_yields ..).mp hrun
    exact stay_tracked s
  | cons a as ih =>
    obtain ⟨ha, has⟩ := List.forall_mem_cons.mp h
    simp only [analyzeArguments, Check.bind_yields, Check.pure_yields] at hrun
    obtain ⟨value, u₁, hvalue, type, u₂, htype, rest, u₃, hrest, rfl, rfl⟩ := hrun
    exact T.trans (ha _ hvalue) (T.before (resolve_quiet env _ _ htype) (ih has hrest))

theorem analyzeAll_tracked {actions : List (ScalarAction ρ)} (h : ListTracked J actions)
    {es : List Scalar} (hrun : analyzeAll actions s = (some es, t)) :
    J (placed (subqueriesList es)) s t := by
  induction actions generalizing s es with
  | nil =>
    obtain ⟨rfl, rfl⟩ := (Check.pure_yields ..).mp hrun
    exact stay_tracked s
  | cons a as ih =>
    obtain ⟨ha, has⟩ := List.forall_mem_cons.mp h
    simp only [analyzeAll, Check.bind_yields, Check.pure_yields] at hrun
    obtain ⟨e, u, he, rest, v, hrest, rfl, rfl⟩ := hrun
    exact T.trans (ha _ he) (ih has hrest)

theorem callAggregate_tracked {function : AggregateDecl} {arguments : List Scalar} {e : Scalar}
    (h : J (placed (subqueriesList arguments)) s t)
    (hrun : callAggregate function arguments t = (some e, u)) : J (placed e.subqueries) s u := by
  simp only [callAggregate, Check.bind_yields, Check.modify_yields, Check.pure_yields] at hrun
  obtain ⟨-, _, rfl, rfl, rfl⟩ := hrun
  exact T.after h (T.mark t true)

theorem processFunctionInvocation_tracked {arguments : List (ScalarAction ρ)}
    (h : ListTracked J arguments) (name : Name) :
    NodesTracked J (processFunctionInvocation env name arguments) := by
  intro s t e hrun
  simp only [processFunctionInvocation, Check.bind_yields] at hrun
  obtain ⟨args, u₁, hargs, functions, u₂, hfunctions, hrun⟩ := hrun
  have hall := T.after (analyzeArguments_tracked T h hargs)
    (analyzeFunctionName_quiet env _ _ hfunctions)
  cases hscalar : applicableFunctions env (args.map Prod.snd) functions with
  | cons f fs =>
    simp only [hscalar, Check.bind_yields, Check.pure_yields] at hrun
    obtain ⟨target, u₃, htarget, rfl, rfl⟩ := hrun
    exact T.after hall (resolveOverload_quiet env _ _ _ htarget)
  | nil =>
    simp only [hscalar, Check.bind_yields] at hrun
    obtain ⟨aggregates, u₃, haggregates, hrun⟩ := hrun
    have hall := T.after hall (analyzeAggregationName_quiet env _ _ haggregates)
    cases happlicable : applicableAggregates env (args.map Prod.snd) aggregates with
    | nil =>
      simp only [happlicable] at hrun
      cases hrun
    | cons a as =>
      simp only [happlicable, Check.bind_yields] at hrun
      obtain ⟨target, u₄, htarget, hrun⟩ := hrun
      exact callAggregate_tracked T (T.after hall (resolveOverload_quiet env _ _ _ htarget)) hrun

theorem processNullif_tracked {arguments : List (ScalarAction ρ)} (h : ListTracked J arguments) :
    NodesTracked J (processNullif env arguments) := by
  intro s t e hrun
  unfold processNullif at hrun
  split at hrun
  next left right =>
    obtain ⟨hl, hr⟩ := List.forall_mem_cons.mp h
    simp only [Check.bind_yields, Check.pure_yields] at hrun
    obtain ⟨l, u₁, hl', r, u₂, hr', type, u₃, htype, v, u₄, hv, rfl, rfl⟩ := hrun
    have hall := T.trans (hl _ hl') (hr right List.mem_cons_self _ hr')
    refine T.congr (T.after (T.after hall (resolve_quiet env _ _ htype))
      (localVariable_quiet hv)) ?_
    simp [Scalar.subqueries, subqueriesBindings, subqueriesPairs, subqueriesOption]
  next => cases hrun

theorem processCoalesce_tracked {arguments : List (ScalarAction ρ)}
    (h : ListTracked J arguments) : NodesTracked J (processCoalesce arguments) := by
  intro s t e hrun
  unfold processCoalesce at hrun
  split at hrun
  · cases hrun
  · simp only [Check.bind_yields, Check.pure_yields] at hrun
    obtain ⟨es, u, hes, rfl, rfl⟩ := hrun
    exact analyzeAll_tracked T h hes

theorem processDeclaredBuiltin_tracked {arguments : List (ScalarAction ρ)}
    (h : ListTracked J arguments) (function : BuiltinFunctionKind) :
    NodesTracked J (processDeclaredBuiltin env function arguments) := by
  intro s t e hrun
  simp only [processDeclaredBuiltin, Check.bind_yields] at hrun
  obtain ⟨args, u₁, hargs, hrun⟩ := hrun
  generalize applicableFunctions env (args.map Prod.snd) _ = candidates at hrun
  cases candidates with
  | nil => cases hrun
  | cons candidate rest =>
    simp only [Check.bind_yields, Check.pure_yields] at hrun
    obtain ⟨target, u₂, htarget, rfl, rfl⟩ := hrun
    exact T.after (analyzeArguments_tracked T h hargs) (resolveOverload_quiet env _ _ _ htarget)

theorem processBuiltinFunction_tracked {arguments : List (ScalarAction ρ)}
    (h : ListTracked J arguments) (function : BuiltinFunctionKind) :
    NodesTracked J (processBuiltinFunction env function arguments) := by
  unfold processBuiltinFunction
  split
  · exact processNullif_tracked T h
  · exact processCoalesce_tracked T h
  all_goals first | exact reject_tracked .. | exact processDeclaredBuiltin_tracked T h _

theorem processBuiltinSetFunction_tracked {arguments : List (ScalarAction ρ)}
    (h : ListTracked J arguments) (function : BuiltinSetFunctionKind)
    (quantifier : Option Ast.SetQuantifier) :
    NodesTracked J (processBuiltinSetFunction env function quantifier arguments) := by
  intro s t e hrun
  simp only [processBuiltinSetFunction, Check.bind_yields] at hrun
  obtain ⟨args, u₁, hargs, hrun⟩ := hrun
  have hall := analyzeArguments_tracked T h hargs
  generalize applicableAggregates env (args.map Prod.snd) _ = candidates at hrun
  cases candidates with
  | nil => cases hrun
  | cons candidate rest =>
    simp only [Check.bind_yields] at hrun
    obtain ⟨target, u₂, htarget, hrun⟩ := hrun
    exact callAggregate_tracked T (T.after hall (resolveOverload_quiet env _ _ _ htarget)) hrun

theorem processExtract_tracked {operand : ScalarAction ρ} (h : ScalarTracked J operand)
    (field : ExtractFieldKind) (subsecondDigits : Option Nat) :
    NodesTracked J (processExtract env field subsecondDigits operand) := by
  intro s t e hrun
  simp only [processExtract, Check.bind_yields] at hrun
  obtain ⟨e', u₁, he, type, u₂, htype, _, u₃, hvalid, functions, u₄, hfunctions, hrun⟩ := hrun
  have hall := T.after (T.after (T.after (h _ he) (resolve_quiet env _ _ htype))
    (validateExtractField_quiet _ _ hvalid)) (analyzeFunctionName_quiet env _ _ hfunctions)
  generalize applicableFunctions env _ functions = candidates at hrun
  cases candidates with
  | nil => cases hrun
  | cons candidate rest =>
    simp only [Check.bind_yields, Check.pure_yields] at hrun
    obtain ⟨target, u₅, htarget, rfl, rfl⟩ := hrun
    refine T.congr (T.after hall (resolveOverload_quiet env _ _ _ htarget)) ?_
    split_ifs <;> simp [Scalar.subqueries, subqueriesList, extractSecondPrecision]

/-! ### Subqueries -/

/-- A change of the current scope that keeps the queries. -/
theorem modifyScope_tracked {g : QueryScope → QueryScope}
    (hg : ∀ scope, (g scope).queryMap = scope.queryMap) {a : Unit}
    (h : modifyScope g s = (some a, t)) : J [] s t := by
  obtain rfl := (Check.modify_yields ..).mp h
  exact T.modify s 0 hg

/-- A run under a new scope without queries. -/
theorem withScope_tracked {α : Type} {operators : α → List Operator} {m : Analysis ρ α}
    (h : ∀ ⦃s t a⦄, m s = (some a, t) → J (operators a) s t) {scope left : QueryScope}
    (hscope : scope.queryMap = fun _ => none) {a : α}
    (hrun : withScope scope m s = (some (a, left), t)) : J (operators a) s t := by
  obtain ⟨u, hm, -, rfl⟩ := (withScope_yields ..).mp hrun
  exact T.entered hscope (h hm)

theorem analyzeSubquery_tracked {query : QueryAction ρ} (h : QueryTracked J query)
    {result : QueryResult} {parameters : List (Variable × Variable)}
    (hrun : analyzeSubquery query s = (some (result, parameters), t)) :
    J (placed [⟨result.output, parameters⟩]) s t := by
  simp only [analyzeSubquery, Check.bind_yields, Check.map_yields, currentScope_yields,
    Check.pure_yields, Prod.mk.injEq] at hrun
  obtain ⟨original, _, ⟨_, ⟨rfl, rfl⟩, rfl⟩, _, u₁, hset, ⟨r, scope⟩, u₂, hquery, _, u₃, hreset,
    ⟨rfl, rfl⟩, rfl⟩ := hrun
  have henter : J [] s u₁ := modifyScope_tracked T (fun scope => by rfl) hset
  have hleave : J [] u₂ u₃ := modifyScope_tracked T (fun scope => by rfl) hreset
  have hrun := withScope_tracked T (h [] false) (by rfl) hquery
  refine T.subset (T.before henter (T.after hrun hleave)) ?_
  simp [placed]

theorem processSubquery_tracked {query : QueryAction ρ} (h : QueryTracked J query)
    (contextKind : ExpressionContextKind) : NodesTracked J (processSubquery query contextKind) := by
  intro s t e hrun
  cases contextKind with
  | row => cases hrun
  | scalar =>
    simp only [processSubquery, Check.bind_yields, Check.pure_yields] at hrun
    obtain ⟨⟨result, parameters⟩, u, hquery, column, v, hcolumn, rfl, rfl⟩ := hrun
    exact T.after (analyzeSubquery_tracked T h hquery) (singleColumn_quiet _ hcolumn)

theorem quantifiedCompare_tracked {left : ScalarAction ρ} {right : QueryAction ρ}
    (hl : ScalarTracked J left) (hr : QueryTracked J right) (op : Plan.ComparisonOperator)
    (quantifier : Plan.Quantifier) :
    NodesTracked J (quantifiedCompare op quantifier left right) := by
  intro s t e hrun
  simp only [quantifiedCompare, Check.bind_yields, Check.pure_yields] at hrun
  obtain ⟨l, u₁, hl', ⟨result, parameters⟩, u₂, hquery, column, u₃, hcolumn, rfl, rfl⟩ := hrun
  exact T.trans (hl _ hl') (T.after (analyzeSubquery_tracked T hr hquery)
    (singleColumn_quiet _ hcolumn))

theorem processInValues_tracked {left : ScalarAction ρ} {values : List (ScalarAction ρ)}
    (hl : ScalarTracked J left) (hv : ListTracked J values) (isNot : Bool) :
    NodesTracked J (processInValues left isNot values) := by
  intro s t e hrun
  cases values with
  | nil => cases hrun
  | cons first rest =>
    obtain ⟨hfirst, hrest⟩ := List.forall_mem_cons.mp hv
    simp only [processInValues, Check.bind_yields, Check.pure_yields] at hrun
    obtain ⟨l, u₁, hl', e₁, u₂, he, es, u₃, hes, v, u₄, hv, rfl, rfl⟩ := hrun
    have hall := T.trans (hl _ hl') (T.trans (hfirst _ he) (analyzeAll_tracked T hrest hes))
    refine T.congr (T.after hall (localVariable_quiet hv)) ?_
    cases isNot <;> simp [negateIf, Scalar.subqueries, subqueriesBindings, compareAny_subqueries]

theorem processIn_tracked {left : ScalarAction ρ} {values : Option (List (ScalarAction ρ))}
    {right : QueryAction ρ} (hl : ScalarTracked J left)
    (hv : ∀ vs ∈ values, ListTracked J vs) (hr : QueryTracked J right) (isNot : Bool) :
    NodesTracked J (processIn left isNot values right) := by
  cases values with
  | some vs => exact processInValues_tracked T hl (hv vs rfl) isNot
  | none =>
    unfold processIn processInQuery
    dsimp only
    split_ifs
    all_goals exact quantifiedCompare_tracked T hl hr _ _

theorem processTablePredicate_tracked {operand : QueryAction ρ} (h : QueryTracked J operand)
    (op : TableOperator) : NodesTracked J (processTablePredicate op operand) := by
  intro s t e hrun
  cases op with
  | unique => cases hrun
  | exists_ =>
    simp only [processTablePredicate, Check.bind_yields, Check.pure_yields] at hrun
    obtain ⟨⟨result, parameters⟩, u, hquery, rfl, rfl⟩ := hrun
    exact analyzeSubquery_tracked T h hquery

/-- The mark belongs to one expression. -/
theorem analyzeScalarExpression_tracked {a : ScalarAction ρ} (h : ScalarTracked J a)
    {context : ValueContext} {e : Scalar} {sawAggregate : Bool}
    (hrun : analyzeScalarExpression a context s = (some (e, sawAggregate), t)) :
    J (placed e.subqueries) s t := by
  simp only [analyzeScalarExpression, Check.bind_yields, Check.gets_yields, Check.modify_yields,
    Check.pure_yields, Prod.mk.injEq] at hrun
  obtain ⟨_, _, ⟨rfl, rfl⟩, -, _, rfl, value, u, ha, _, _, ⟨rfl, rfl⟩, -, _, rfl, ⟨rfl, rfl⟩, rfl⟩ :=
    hrun
  exact T.before (T.mark s false) (T.after (h context ha) (T.mark u s.sawAggregate))

end Mizugaki.Analyzer
