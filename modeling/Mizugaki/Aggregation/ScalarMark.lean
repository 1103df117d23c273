import Mizugaki.Aggregation.Mark

/-! The mark of set functions, over the functions of the scalar expression analyzer. Each adds
up what its operands are marked with; a call of a set function marks the state itself, and a
subquery keeps the mark of the expression around it. -/

namespace Mizugaki.Analyzer

open Mizugaki.Ast Mizugaki.Plan Mizugaki.Control

variable {ρ : Type} {env : Environment ρ}

theorem process_marks {m : Analysis ρ Scalar} (h : Marks m) : Marks (process env m) := by
  intro s t e hrun
  simp only [process, Check.bind_yields] at hrun
  obtain ⟨e', u, hm, hrun⟩ := hrun
  split at hrun
  · simp only [Check.bind_yields, Check.pure_yields] at hrun
    obtain ⟨_, v, hresolve, rfl, rfl⟩ := hrun
    exact (h hm).trans_quiet (resolve_quiet env _ _ hresolve)
  · obtain ⟨rfl, rfl⟩ := (Check.pure_yields ..).mp hrun
    exact h hm

/-! ### References and literals -/

theorem reject_marks (code : Code) (message : List Fragment) :
    Marks (reject code message : Analysis ρ Scalar) :=
  .of_quiet (reject_quiet code message) fun _ _ _ h => by cases h

theorem analyzeLiteral_marks (literal : Literal) (context : ScalarValueContext) :
    Marks (analyzeLiteral env literal context) := by
  refine .of_quiet (analyzeLiteral_quiet env literal context) fun s t e h => ?_
  simp only [analyzeLiteral, Check.bind_yields] at h
  obtain ⟨⟨value, type⟩, u, -, h⟩ := h
  cases htype : context.type with
  | none =>
    simp only [htype, Check.pure_yields] at h
    obtain ⟨rfl, rfl⟩ := h
    exact ⟨rfl, rfl⟩
  | some type' =>
    simp only [htype] at h
    split_ifs at h
    all_goals
      obtain ⟨rfl, rfl⟩ := (Check.pure_yields ..).mp h
      exact ⟨rfl, rfl⟩

theorem analyzeVariableName_marks (name : Name) : Marks (analyzeVariableName env name) := by
  intro s t e h
  obtain ⟨⟨v, rfl⟩, hcapturing⟩ := analyzeVariableName_yields env h
  exact .of_capturing hcapturing

theorem findPlaceholder_marks (identifier : String) (message : List Fragment) :
    Marks (findPlaceholder env identifier message) := by
  refine .of_quiet (findPlaceholder_quiet env identifier message) fun s t e h => ?_
  unfold findPlaceholder at h
  rcases hvalue : env.placeholders identifier with _ | ⟨value, type⟩
  · rcases hvariable : env.hostParameters identifier with _ | v
    · simp only [hvalue, hvariable] at h
      cases h
    · simp only [hvalue, hvariable, Check.pure_yields] at h
      obtain ⟨rfl, rfl⟩ := h
      exact ⟨rfl, rfl⟩
  · simp only [hvalue, Check.pure_yields] at h
    obtain ⟨rfl, rfl⟩ := h
    exact ⟨rfl, rfl⟩

/-! ### Case, cast and operators -/

/-- The when clauses of a case expression: a comparison with its operand adds no set function. -/
theorem processWhenClauses_marked {clauses : List (ScalarAction ρ × ScalarAction ρ)}
    (h : PairsMarks clauses) {v : Option Variable} {context : ValueContext}
    {s t : AnalyzerState ρ} {pairs : List (Scalar × Scalar)}
    (hrun : processWhenClauses v context clauses s = (some pairs, t)) :
    Marked (hasAggregatePairs pairs) (subqueriesPairs pairs) s t := by
  induction clauses generalizing s pairs with
  | nil =>
    obtain ⟨rfl, rfl⟩ := (Check.pure_yields ..).mp hrun
    exact .of_quiet (Check.Frame.refl s)
  | cons clause clauses ih =>
    obtain ⟨⟨hfirst, hsecond⟩, hclauses⟩ := List.forall_mem_cons.mp h
    simp only [processWhenClauses, Check.bind_yields, Check.pure_yields] at hrun
    obtain ⟨w, u₁, hw, e, u₂, he, rest, u₃, hrest, rfl, rfl⟩ := hrun
    have hall := (hfirst _ hw).trans ((hsecond _ he).trans (ih hclauses hrest))
    refine hall.congr ?_ ?_
    · cases v <;> simp [hasAggregatePairs, Scalar.hasAggregate, Bool.or_assoc]
    · cases v <;> simp [subqueriesPairs, Scalar.subqueries]

theorem option_marked {o : Option (ScalarAction ρ)} (h : OptionMarks o) {context : ValueContext}
    {s t : AnalyzerState ρ} {e : Option Scalar}
    (hrun : Check.option (o.map (· context)) s = (some e, t)) :
    Marked (hasAggregateOption e) (subqueriesOption e) s t := by
  cases o with
  | none =>
    obtain ⟨rfl, rfl⟩ := (Check.pure_yields ..).mp hrun
    exact .of_quiet (Check.Frame.refl s)
  | some a =>
    simp only [Option.map_some, Check.option, Check.bind_yields, Check.pure_yields] at hrun
    obtain ⟨value, u, hvalue, rfl, rfl⟩ := hrun
    exact h a rfl _ hvalue

theorem processCase_marks {operand : Option (ScalarAction ρ)}
    {whenClauses : List (ScalarAction ρ × ScalarAction ρ)} {defaultResult : Option (ScalarAction ρ)}
    (ho : OptionMarks operand) (hw : PairsMarks whenClauses)
    (hd : OptionMarks defaultResult) (context : ValueContext) :
    Marks (processCase operand whenClauses defaultResult context) := by
  intro s t e h
  cases whenClauses with
  | nil => cases h
  | cons clause clauses =>
    cases operand with
    | none =>
      simp only [processCase, Check.bind_yields, Check.pure_yields] at h
      obtain ⟨as, u, has, de, v, hde, rfl, rfl⟩ := h
      exact (processWhenClauses_marked hw has).trans (option_marked hd hde)
    | some operand =>
      simp only [processCase, Check.bind_yields, Check.pure_yields] at h
      obtain ⟨value, u, hvalue, v, u', hv, as, u₂, has, de, u₃, hde, rfl, rfl⟩ := h
      have hrest := (processWhenClauses_marked hw has).trans (option_marked hd hde)
      refine ((ho operand rfl _ hvalue).trans
        (.quiet_trans (localVariable_quiet hv) hrest)).congr ?_ ?_
      · simp [Scalar.hasAggregate, hasAggregateBindings]
      · simp [Scalar.subqueries, subqueriesBindings]

theorem processCast_marks {operand : ScalarAction ρ} (h : ActionMarks operand)
    (op : CastOperator) (type : TypeNode) : Marks (processCast env op operand type) := by
  intro s t e hrun
  simp only [processCast, Check.bind_yields, Check.pure_yields] at hrun
  obtain ⟨_, u, hreport, e', v, he, type', w, htype, rfl, rfl⟩ := hrun
  exact .quiet_trans (reportCastOperator_quiet op hreport)
    ((h _ he).trans_quiet (analyzeType_quiet env type htype))

theorem processUnary_marks {operand : ScalarAction ρ} (h : ActionMarks operand)
    (op : Ast.UnaryOperator) : Marks (processUnary op operand) := by
  intro s t e hrun
  simp only [processUnary, Check.bind_yields, Check.pure_yields] at hrun
  obtain ⟨op', u, hop, e', v, he, rfl, rfl⟩ := hrun
  have hoperand := Marked.quiet_trans (convertUnaryOperator_quiet op hop) (h _ he)
  exact hoperand

theorem processIs_marks {left : ScalarAction ρ} (h : ActionMarks left) (isNot : Bool)
    (right : ScalarExpression) : Marks (processIs left isNot right) := by
  intro s t e hrun
  unfold processIs at hrun
  split at hrun
  · simp only [Check.bind_yields, Check.pure_yields] at hrun
    obtain ⟨op, u, hop, e', v, he, rfl, rfl⟩ := hrun
    have hleft := Marked.quiet_trans (convertIsRight_quiet _ hop) (h _ he)
    cases isNot <;> exact hleft
  · cases hrun

theorem processBinary_marks {left right : ScalarAction ρ} (hl : ActionMarks left)
    (hr : ActionMarks right) (op : Ast.BinaryOperator) (node : ScalarExpression) :
    Marks (processBinary left op node right) := by
  intro s t e hrun
  unfold processBinary at hrun
  split at hrun
  · exact processIs_marks hl _ _ hrun
  · exact processIs_marks hl _ _ hrun
  · simp only [Check.bind_yields, Check.pure_yields] at hrun
    obtain ⟨op', u, hop, l, v, hl', r, w, hr', rfl, rfl⟩ := hrun
    exact .quiet_trans (convertBinaryOperator_quiet op hop) ((hl _ hl').trans (hr _ hr'))

theorem processComparison_marks {left right : ScalarAction ρ} (hl : ActionMarks left)
    (hr : ActionMarks right) (op : Ast.ComparisonOperator) :
    Marks (processComparison left op right) := by
  intro s t e hrun
  simp only [processComparison, Check.bind_yields, Check.pure_yields] at hrun
  obtain ⟨l, v, hl', r, w, hr', rfl, rfl⟩ := hrun
  exact (hl _ hl').trans (hr _ hr')

@[simp] theorem hasAggregate_negateIf (isNot : Bool) (e : Scalar) :
    (negateIf isNot e).hasAggregate = e.hasAggregate := by
  cases isNot <;> rfl

@[simp] theorem subqueries_negateIf (isNot : Bool) (e : Scalar) :
    (negateIf isNot e).subqueries = e.subqueries := by
  cases isNot <;> rfl

theorem processBetween_marks {target left right : ScalarAction ρ} (ht : ActionMarks target)
    (hl : ActionMarks left) (hr : ActionMarks right) (isNot : Bool)
    (op : Option BetweenOperator) :
    Marks (processBetween target isNot op left right) := by
  intro s t e hrun
  simp only [processBetween, Check.bind_yields] at hrun
  obtain ⟨x, u₁, hx, l, u₂, hl', r', u₃, hr', hrun⟩ := hrun
  have hall := (ht _ hx).trans ((hl _ hl').trans (hr _ hr'))
  split at hrun
  · simp only [Check.bind_yields, Check.pure_yields] at hrun
    obtain ⟨vt, v₁, hvt, vl, v₂, hvl, vr, v₃, hvr, rfl, rfl⟩ := hrun
    refine (((hall.trans_quiet (localVariable_quiet hvt)).trans_quiet
      (localVariable_quiet hvl)).trans_quiet (localVariable_quiet hvr)).congr ?_ ?_
    · simp [Scalar.hasAggregate, hasAggregateBindings]
    · simp [Scalar.subqueries, subqueriesBindings]
  · simp only [Check.bind_yields, Check.pure_yields] at hrun
    obtain ⟨vt, v₁, hvt, rfl, rfl⟩ := hrun
    refine (hall.trans_quiet (localVariable_quiet hvt)).congr ?_ ?_
    · simp [Scalar.hasAggregate, hasAggregateBindings]
    · simp [Scalar.subqueries, subqueriesBindings]

theorem processPatternMatch_marks {matchValue pattern : ScalarAction ρ}
    {escape : Option (ScalarAction ρ)} (hm : ActionMarks matchValue)
    (hp : ActionMarks pattern) (he : OptionMarks escape) (isNot : Bool)
    (op : PatternMatchOperator) :
    Marks (processPatternMatch matchValue isNot op pattern escape) := by
  intro s t e hrun
  simp only [processPatternMatch, Check.bind_yields, Check.pure_yields] at hrun
  obtain ⟨x, u₁, hx, y, u₂, hy, z, u₃, hz, rfl, rfl⟩ := hrun
  refine ((hm _ hx).trans ((hp _ hy).trans (option_marked he hz))).congr ?_ ?_
  · cases z <;> simp [Scalar.hasAggregate, hasAggregateOption, Bool.or_assoc]
  · cases z <;> simp [Scalar.subqueries, subqueriesOption]

/-! ### Functions -/

theorem analyzeArguments_marked {arguments : List (ScalarAction ρ)} (h : ListMarks arguments)
    {s t : AnalyzerState ρ} {args : List (Scalar × TypeData)}
    (hrun : analyzeArguments env arguments s = (some args, t)) :
    Marked (hasAggregateList (args.map Prod.fst)) (subqueriesList (args.map Prod.fst)) s t := by
  induction arguments generalizing s args with
  | nil =>
    obtain ⟨rfl, rfl⟩ := (Check.pure_yields ..).mp hrun
    exact .of_quiet (Check.Frame.refl s)
  | cons a as ih =>
    obtain ⟨ha, has⟩ := List.forall_mem_cons.mp h
    simp only [analyzeArguments, Check.bind_yields, Check.pure_yields] at hrun
    obtain ⟨value, u₁, hvalue, type, u₂, htype, rest, u₃, hrest, rfl, rfl⟩ := hrun
    exact (ha _ hvalue).trans (.quiet_trans (resolve_quiet env _ _ htype) (ih has hrest))

theorem analyzeAll_marked {actions : List (ScalarAction ρ)} (h : ListMarks actions)
    {s t : AnalyzerState ρ} {es : List Scalar} (hrun : analyzeAll actions s = (some es, t)) :
    Marked (hasAggregateList es) (subqueriesList es) s t := by
  induction actions generalizing s es with
  | nil =>
    obtain ⟨rfl, rfl⟩ := (Check.pure_yields ..).mp hrun
    exact .of_quiet (Check.Frame.refl s)
  | cons a as ih =>
    obtain ⟨ha, has⟩ := List.forall_mem_cons.mp h
    simp only [analyzeAll, Check.bind_yields, Check.pure_yields] at hrun
    obtain ⟨e, u, he, rest, v, hrest, rfl, rfl⟩ := hrun
    exact (ha _ he).trans (ih has hrest)

/-- A call of a set function marks the state. -/
theorem callAggregate_marked {function : AggregateDecl} {arguments : List Scalar} {e : Scalar}
    {has : Bool} {s t u : AnalyzerState ρ}
    (h : Marked has (subqueriesList arguments) s t)
    (hrun : callAggregate function arguments t = (some e, u)) :
    Marked e.hasAggregate e.subqueries s u := by
  simp only [callAggregate, Check.bind_yields, Check.modify_yields, Check.pure_yields] at hrun
  obtain ⟨-, _, rfl, rfl, rfl⟩ := hrun
  exact ⟨(Bool.or_true _).symm, h.queries, h.graphs⟩

theorem processFunctionInvocation_marks {arguments : List (ScalarAction ρ)}
    (h : ListMarks arguments) (name : Name) :
    Marks (processFunctionInvocation env name arguments) := by
  intro s t e hrun
  simp only [processFunctionInvocation, Check.bind_yields] at hrun
  obtain ⟨args, u₁, hargs, functions, u₂, hfunctions, hrun⟩ := hrun
  have hall := (analyzeArguments_marked h hargs).trans_quiet
    (analyzeFunctionName_quiet env _ _ hfunctions)
  cases hscalar : applicableFunctions env (args.map Prod.snd) functions with
  | cons f fs =>
    simp only [hscalar, Check.bind_yields, Check.pure_yields] at hrun
    obtain ⟨target, u₃, htarget, rfl, rfl⟩ := hrun
    exact hall.trans_quiet (resolveOverload_quiet env _ _ _ htarget)
  | nil =>
    simp only [hscalar, Check.bind_yields] at hrun
    obtain ⟨aggregates, u₃, haggregates, hrun⟩ := hrun
    have hall := hall.trans_quiet (analyzeAggregationName_quiet env _ _ haggregates)
    cases happlicable : applicableAggregates env (args.map Prod.snd) aggregates with
    | nil =>
      simp only [happlicable] at hrun
      cases hrun
    | cons a as =>
      simp only [happlicable, Check.bind_yields] at hrun
      obtain ⟨target, u₄, htarget, hrun⟩ := hrun
      exact callAggregate_marked (hall.trans_quiet (resolveOverload_quiet env _ _ _ htarget)) hrun

theorem processNullif_marks {arguments : List (ScalarAction ρ)} (h : ListMarks arguments) :
    Marks (processNullif env arguments) := by
  intro s t e hrun
  unfold processNullif at hrun
  split at hrun
  next left right =>
    obtain ⟨hl, hr⟩ := List.forall_mem_cons.mp h
    simp only [Check.bind_yields, Check.pure_yields] at hrun
    obtain ⟨l, u₁, hl', r, u₂, hr', type, u₃, htype, v, u₄, hv, rfl, rfl⟩ := hrun
    have hall := ((hl _ hl').trans (hr right List.mem_cons_self _ hr')).trans_quiet
      (resolve_quiet env _ _ htype)
    refine (hall.trans_quiet (localVariable_quiet hv)).congr ?_ ?_
    · simp [Scalar.hasAggregate, hasAggregateBindings, hasAggregatePairs, hasAggregateOption]
    · simp [Scalar.subqueries, subqueriesBindings, subqueriesPairs, subqueriesOption]
  next => cases hrun

theorem processCoalesce_marks {arguments : List (ScalarAction ρ)} (h : ListMarks arguments) :
    Marks (processCoalesce arguments) := by
  intro s t e hrun
  unfold processCoalesce at hrun
  split at hrun
  · cases hrun
  · simp only [Check.bind_yields, Check.pure_yields] at hrun
    obtain ⟨es, u, hes, rfl, rfl⟩ := hrun
    exact analyzeAll_marked h hes

theorem processDeclaredBuiltin_marks {arguments : List (ScalarAction ρ)}
    (h : ListMarks arguments) (function : BuiltinFunctionKind) :
    Marks (processDeclaredBuiltin env function arguments) := by
  intro s t e hrun
  simp only [processDeclaredBuiltin, Check.bind_yields] at hrun
  obtain ⟨args, u₁, hargs, hrun⟩ := hrun
  generalize applicableFunctions env (args.map Prod.snd) _ = candidates at hrun
  cases candidates with
  | nil => cases hrun
  | cons candidate rest =>
    simp only [Check.bind_yields, Check.pure_yields] at hrun
    obtain ⟨target, u₂, htarget, rfl, rfl⟩ := hrun
    exact (analyzeArguments_marked h hargs).trans_quiet (resolveOverload_quiet env _ _ _ htarget)

theorem processBuiltinFunction_marks {arguments : List (ScalarAction ρ)}
    (h : ListMarks arguments) (function : BuiltinFunctionKind) :
    Marks (processBuiltinFunction env function arguments) := by
  unfold processBuiltinFunction
  split
  · exact processNullif_marks h
  · exact processCoalesce_marks h
  all_goals first | exact reject_marks .. | exact processDeclaredBuiltin_marks h _

theorem processBuiltinSetFunction_marks {arguments : List (ScalarAction ρ)}
    (h : ListMarks arguments) (function : BuiltinSetFunctionKind)
    (quantifier : Option Ast.SetQuantifier) :
    Marks (processBuiltinSetFunction env function quantifier arguments) := by
  intro s t e hrun
  simp only [processBuiltinSetFunction, Check.bind_yields] at hrun
  obtain ⟨args, u₁, hargs, hrun⟩ := hrun
  have hall := analyzeArguments_marked h hargs
  generalize applicableAggregates env (args.map Prod.snd) _ = candidates at hrun
  cases candidates with
  | nil => cases hrun
  | cons candidate rest =>
    simp only [Check.bind_yields] at hrun
    obtain ⟨target, u₂, htarget, hrun⟩ := hrun
    exact callAggregate_marked (hall.trans_quiet (resolveOverload_quiet env _ _ _ htarget)) hrun

theorem processExtract_marks {operand : ScalarAction ρ} (h : ActionMarks operand)
    (field : ExtractFieldKind) (subsecondDigits : Option Nat) :
    Marks (processExtract env field subsecondDigits operand) := by
  intro s t e hrun
  simp only [processExtract, Check.bind_yields] at hrun
  obtain ⟨e', u₁, he, type, u₂, htype, _, u₃, hvalid, functions, u₄, hfunctions, hrun⟩ := hrun
  have hall := (((h _ he).trans_quiet (resolve_quiet env _ _ htype)).trans_quiet
    (validateExtractField_quiet _ _ hvalid)).trans_quiet (analyzeFunctionName_quiet env _ _ hfunctions)
  generalize applicableFunctions env _ functions = candidates at hrun
  cases candidates with
  | nil => cases hrun
  | cons candidate rest =>
    simp only [Check.bind_yields, Check.pure_yields] at hrun
    obtain ⟨target, u₅, htarget, rfl, rfl⟩ := hrun
    refine (hall.trans_quiet (resolveOverload_quiet env _ _ _ htarget)).congr ?_ ?_
    · split_ifs <;> simp [Scalar.hasAggregate, hasAggregateList, extractSecondPrecision]
    · split_ifs <;> simp [Scalar.subqueries, subqueriesList, extractSecondPrecision]

/-! ### Subqueries -/

/-- Entering, leaving and changing scopes keeps the queries that are entered in them. -/
theorem ConfinedQueries.enter {s : AnalyzerState ρ} (h : ConfinedQueries s) {scope : QueryScope}
    (hscope : scope.queryMap = fun _ => none) : ConfinedQueries (s.enter scope) := by
  refine List.forall_mem_cons.mpr ⟨fun name q hq => ?_, h⟩
  rw [hscope] at hq
  cases hq

theorem ConfinedQueries.leave {s : AnalyzerState ρ} (h : ConfinedQueries s) : ConfinedQueries s.leave :=
  fun scope hscope => h scope (List.mem_of_mem_tail hscope)

theorem ConfinedQueries.modify {s : AnalyzerState ρ} (h : ConfinedQueries s) {g : QueryScope → QueryScope}
    (hg : ∀ scope, (g scope).queryMap = scope.queryMap) :
    ConfinedQueries { s with scopes := s.scopes.modify 0 g } := by
  unfold ConfinedQueries at h ⊢
  cases hs : s.scopes with
  | nil => simp
  | cons scope scopes =>
    rw [hs] at h
    obtain ⟨hscope, hscopes⟩ := List.forall_mem_cons.mp h
    exact List.forall_mem_cons.mpr ⟨fun name q hq => hscope name q (hg scope ▸ hq), hscopes⟩

/-- A change of the current scope that keeps the queries. -/
theorem modifyScope_marked {g : QueryScope → QueryScope}
    (hg : ∀ scope, (g scope).queryMap = scope.queryMap) {s t : AnalyzerState ρ} {u : Unit}
    (h : modifyScope g s = (some u, t)) : Marked false [] s t := by
  obtain rfl := (Check.modify_yields ..).mp h
  exact ⟨(Bool.or_false _).symm, fun hs => hs.modify hg, fun _ _ hn => nomatch hn⟩

/-- A run between entering a scope without queries and leaving it. -/
theorem Marked.entered {has : Bool} {nodes : List SubqueryNode} {scope : QueryScope}
    {s t : AnalyzerState ρ} (hscope : scope.queryMap = fun _ => none)
    (h : Marked has nodes (s.enter scope) t) : Marked has nodes s t.leave where
  mark := h.mark
  queries hs := (h.queries (hs.enter hscope)).leave
  graphs hs := h.graphs (hs.enter hscope)

/-- A run under a new scope without queries. -/
theorem withScope_marked {α : Type} {graph : α → Graph} {m : Analysis ρ α} (h : GraphMarks graph m)
    {scope left : QueryScope} (hscope : scope.queryMap = fun _ => none) {s t : AnalyzerState ρ} {a : α}
    (hrun : withScope scope m s = (some (a, left), t)) :
    Marked false [⟨graph a, []⟩] s t := by
  obtain ⟨u, hm, -, rfl⟩ := (withScope_yields ..).mp hrun
  exact (h hm).entered hscope

theorem analyzeSubquery_marked {query : QueryAction ρ} (h : QueryMarks query)
    {s t : AnalyzerState ρ} {result : QueryResult} {parameters : List (Variable × Variable)}
    (hrun : analyzeSubquery query s = (some (result, parameters), t)) :
    Marked false [⟨result.output, parameters⟩] s t := by
  simp only [analyzeSubquery, Check.bind_yields, Check.map_yields, currentScope_yields,
    Check.pure_yields, Prod.mk.injEq] at hrun
  obtain ⟨original, _, ⟨_, ⟨rfl, rfl⟩, rfl⟩, _, u₁, hset, ⟨r, scope⟩, u₂, hquery, _, u₃, hreset,
    ⟨rfl, rfl⟩, rfl⟩ := hrun
  have henter : Marked false [] s u₁ := modifyScope_marked (fun scope => by rfl) hset
  have hleave : Marked false [] u₂ u₃ := modifyScope_marked (fun scope => by rfl) hreset
  have hall := henter.trans ((withScope_marked (h [] false) rfl hquery).trans hleave)
  refine ⟨hall.mark, hall.queries, fun hs n hn => ?_⟩
  rw [List.mem_singleton.mp hn]
  have hgraph : r.output.Confined := hall.graphs hs _ List.mem_cons_self
  exact hgraph.node scope.parameters

theorem processSubquery_marks {query : QueryAction ρ} (h : QueryMarks query)
    (contextKind : ExpressionContextKind) : Marks (processSubquery query contextKind) := by
  intro s t e hrun
  cases contextKind with
  | row => cases hrun
  | scalar =>
    simp only [processSubquery, Check.bind_yields, Check.pure_yields] at hrun
    obtain ⟨⟨result, parameters⟩, u, hquery, column, v, hcolumn, rfl, rfl⟩ := hrun
    exact (analyzeSubquery_marked h hquery).trans_quiet (singleColumn_quiet _ hcolumn)

theorem quantifiedCompare_marks {left : ScalarAction ρ} {right : QueryAction ρ}
    (hl : ActionMarks left) (hr : QueryMarks right) (op : Plan.ComparisonOperator)
    (quantifier : Plan.Quantifier) :
    Marks (quantifiedCompare op quantifier left right) := by
  intro s t e hrun
  simp only [quantifiedCompare, Check.bind_yields, Check.pure_yields] at hrun
  obtain ⟨l, u₁, hl', ⟨result, parameters⟩, u₂, hquery, column, u₃, hcolumn, rfl, rfl⟩ := hrun
  have hall := (hl _ hl').trans ((analyzeSubquery_marked hr hquery).trans_quiet
    (singleColumn_quiet _ hcolumn))
  rwa [Bool.or_false] at hall

theorem compareAny_hasAggregate (v : Variable) (first : Scalar) (rest : List Scalar) :
    (compareAny v first rest).hasAggregate = (first.hasAggregate || hasAggregateList rest) := by
  have hfold : ∀ (rest : List Scalar) (body : Scalar),
      (rest.foldl (fun body e => Scalar.binary .conditionalOr body
        (.compare .equal (.variableReference v) e)) body).hasAggregate
        = (body.hasAggregate || hasAggregateList rest) := by
    intro rest
    induction rest with
    | nil => exact fun body => (Bool.or_false _).symm
    | cons e rest ih =>
      intro body
      rw [List.foldl_cons, ih]
      simp [Scalar.hasAggregate, hasAggregateList, Bool.or_assoc]
  rw [compareAny, hfold]
  simp [Scalar.hasAggregate]

theorem compareAny_subqueries (v : Variable) (first : Scalar) (rest : List Scalar) :
    (compareAny v first rest).subqueries = first.subqueries ++ subqueriesList rest := by
  have hfold : ∀ (rest : List Scalar) (body : Scalar),
      (rest.foldl (fun body e => Scalar.binary .conditionalOr body
        (.compare .equal (.variableReference v) e)) body).subqueries
        = body.subqueries ++ subqueriesList rest := by
    intro rest
    induction rest with
    | nil => exact fun body => (List.append_nil _).symm
    | cons e rest ih =>
      intro body
      rw [List.foldl_cons, ih]
      simp [Scalar.subqueries, subqueriesList]
  rw [compareAny, hfold]
  simp [Scalar.subqueries]

theorem processInValues_marks {left : ScalarAction ρ} {values : List (ScalarAction ρ)}
    (hl : ActionMarks left) (hv : ListMarks values) (isNot : Bool) :
    Marks (processInValues left isNot values) := by
  intro s t e hrun
  cases values with
  | nil => cases hrun
  | cons first rest =>
    obtain ⟨hfirst, hrest⟩ := List.forall_mem_cons.mp hv
    simp only [processInValues, Check.bind_yields, Check.pure_yields] at hrun
    obtain ⟨l, u₁, hl', e₁, u₂, he, es, u₃, hes, v, u₄, hv, rfl, rfl⟩ := hrun
    have hall := (hl _ hl').trans ((hfirst _ he).trans (analyzeAll_marked hrest hes))
    refine (hall.trans_quiet (localVariable_quiet hv)).congr ?_ ?_
    · simp [Scalar.hasAggregate, hasAggregateBindings, compareAny_hasAggregate]
    · simp [Scalar.subqueries, subqueriesBindings, compareAny_subqueries]

theorem processIn_marks {left : ScalarAction ρ} {values : Option (List (ScalarAction ρ))}
    {right : QueryAction ρ} (hl : ActionMarks left)
    (hv : ∀ vs ∈ values, ListMarks vs) (hr : QueryMarks right) (isNot : Bool) :
    Marks (processIn left isNot values right) := by
  cases values with
  | some vs => exact processInValues_marks hl (hv vs rfl) isNot
  | none =>
    unfold processIn processInQuery
    dsimp only
    split_ifs
    all_goals exact quantifiedCompare_marks hl hr _ _

theorem processTablePredicate_marks {operand : QueryAction ρ} (h : QueryMarks operand)
    (op : TableOperator) : Marks (processTablePredicate op operand) := by
  intro s t e hrun
  cases op with
  | unique => cases hrun
  | exists_ =>
    simp only [processTablePredicate, Check.bind_yields, Check.pure_yields] at hrun
    obtain ⟨⟨result, parameters⟩, u, hquery, rfl, rfl⟩ := hrun
    exact analyzeSubquery_marked h hquery

end Mizugaki.Analyzer
