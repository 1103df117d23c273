import Mizugaki.Analyzer.Quiet
import Mizugaki.Scoping.Scalar

/-! Scoping, over the functions of the scalar expression analyzer. A subquery runs under a
correlation scope to which the scope around it is exposed; the parameters the correlation scope is
left with are what the graph of the subquery takes. -/

namespace Mizugaki.Analyzer

open Mizugaki.Ast Mizugaki.Plan Mizugaki.Control

variable {ρ : Type} {env : Environment ρ}

theorem process_scoped {a : ScalarAction ρ} (h : ScalarScoped a) :
    ScalarScoped fun context => process env (a context) := by
  intro context s t e hrun
  simp only [process, Check.bind_yields] at hrun
  obtain ⟨e', u, hm, hrun⟩ := hrun
  split at hrun
  · simp only [Check.bind_yields, Check.pure_yields] at hrun
    obtain ⟨_, v, hresolve, rfl, rfl⟩ := hrun
    exact (h context hm).trans_quiet (resolve_quiet env _ _ hresolve)
  · obtain ⟨rfl, rfl⟩ := (Check.pure_yields ..).mp hrun
    exact h context hm

theorem analyzeScalarExpression_reads {a : ScalarAction ρ} (h : ScalarScoped a)
    {context : ValueContext} {s t : AnalyzerState ρ} {e : Scalar} {sawAggregate : Bool}
    (hrun : analyzeScalarExpression a context s = (some (e, sawAggregate), t)) : Reads s t [e] := by
  simp only [analyzeScalarExpression, Check.bind_yields, Check.gets_yields, Check.modify_yields,
    Check.pure_yields, Prod.mk.injEq] at hrun
  obtain ⟨_, _, ⟨rfl, rfl⟩, -, _, rfl, value, u, ha, _, _, ⟨rfl, rfl⟩, -, _, rfl, ⟨rfl, rfl⟩, rfl⟩ :=
    hrun
  have hvalue := h context ha
  have hstart : s.Sound → AnalyzerState.Sound { s with sawAggregate := false } :=
    fun hs => ⟨hs.chain, hs.hidden⟩
  exact
    { sound := fun hs => ⟨(hvalue.sound (hstart hs)).chain, (hvalue.sound (hstart hs)).hidden⟩
      frame := fun hs => ⟨(hvalue.frame (hstart hs)).scopes, (hvalue.frame (hstart hs)).fresh⟩
      expressions := fun hs => hvalue.expressions (hstart hs) }

/-! ### References and literals -/

theorem analyzeLiteral_scoped (literal : Literal) :
    ScalarScoped fun context => analyzeLiteral env literal (context.find 0) := by
  intro context s t e h
  refine .of_legible (analyzeLiteral_quiet env literal (context.find 0) h) fun scopes n => ?_
  simp only [analyzeLiteral, Check.bind_yields] at h
  obtain ⟨⟨value, type⟩, u, -, h⟩ := h
  cases htype : (context.find 0).type with
  | none =>
    simp only [htype, Check.pure_yields] at h
    obtain ⟨rfl, rfl⟩ := h
    exact scoped_immediate ..
  | some type' =>
    simp only [htype] at h
    split_ifs at h
    all_goals
      obtain ⟨rfl, rfl⟩ := (Check.pure_yields ..).mp h
      simp

theorem variableName_scoped (name : Name) : ScalarScoped fun _ => analyzeVariableName env name := by
  intro context s t e h
  have hrun := fun hs : s.Sound => analyzeVariableName_scoped env hs h
  refine ⟨fun hs => (hrun hs).1, fun hs => (hrun hs).2.1, fun hs e' he => ?_⟩
  obtain ⟨v, rfl, hv⟩ := (hrun hs).2.2
  rw [List.mem_singleton.mp he]
  exact scoped_variableReference.mpr (hv.imp_right .inl)

theorem findPlaceholder_scoped (identifier : String) (message : List Fragment) :
    ScalarScoped fun _ => findPlaceholder env identifier message := by
  intro context s t e h
  refine .of_legible (findPlaceholder_quiet env identifier message h) fun scopes n => ?_
  unfold findPlaceholder at h
  rcases hvalue : env.placeholders identifier with _ | ⟨value, type⟩
  · rcases hvariable : env.hostParameters identifier with _ | v
    · simp only [hvalue, hvariable] at h
      cases h
    · simp only [hvalue, hvariable, Check.pure_yields] at h
      obtain ⟨rfl, rfl⟩ := h
      exact scoped_variableReference.mpr (.inr (.inl ⟨v, rfl⟩))
  · simp only [hvalue, Check.pure_yields] at h
    obtain ⟨rfl, rfl⟩ := h
    exact scoped_immediate ..

theorem reject_scoped (code : Code) (message : List Fragment) :
    ScalarScoped fun _ => (reject code message : Analysis ρ Scalar) := by
  intro context s t e h
  cases h

/-! ### Case, cast and operators -/

/-- The expressions of when clauses. -/
def pairExpressions (pairs : List (Scalar × Scalar)) : List Scalar :=
  pairs.flatMap fun p => [p.1, p.2]

theorem mem_pairExpressions {pairs : List (Scalar × Scalar)} {p : Scalar × Scalar}
    (hp : p ∈ pairs) : p.1 ∈ pairExpressions pairs ∧ p.2 ∈ pairExpressions pairs :=
  ⟨List.mem_flatMap.mpr ⟨p, hp, by simp⟩, List.mem_flatMap.mpr ⟨p, hp, by simp⟩⟩

theorem option_scoped {o : Option (ScalarAction ρ)} (h : ∀ a ∈ o, ScalarScoped a)
    {context : ValueContext} {s t : AnalyzerState ρ} {e : Option Scalar}
    (hrun : Check.option (o.map (· context)) s = (some e, t)) : Reads s t e.toList := by
  cases o with
  | none =>
    obtain ⟨rfl, rfl⟩ := (Check.pure_yields ..).mp hrun
    exact .refl s
  | some a =>
    simp only [Option.map_some, Check.option, Check.bind_yields, Check.pure_yields] at hrun
    obtain ⟨value, u, hvalue, rfl, rfl⟩ := hrun
    exact h a rfl context hvalue

/-- An alternative of a case expression: a simple case compares its operand. -/
def caseAlternative (v : Option Variable) (p : Scalar × Scalar) : Scalar × Scalar :=
  (match v with
    | some v => .compare .equal (.variableReference v) p.1
    | none => p.1, p.2)

/-- The when clauses of a case expression, each compared with the operand if there is one. -/
theorem processWhenClauses_scoped {clauses : List (ScalarAction ρ × ScalarAction ρ)}
    (h : ∀ p ∈ clauses, ScalarScoped p.1 ∧ ScalarScoped p.2) {v : Option Variable}
    {context : ValueContext} {s t : AnalyzerState ρ} {pairs : List (Scalar × Scalar)}
    (hrun : processWhenClauses v context clauses s = (some pairs, t)) :
    ∃ parts : List (Scalar × Scalar), Reads s t (pairExpressions parts) ∧
      pairs = parts.map (caseAlternative v) := by
  induction clauses generalizing s pairs with
  | nil =>
    obtain ⟨rfl, rfl⟩ := (Check.pure_yields ..).mp hrun
    exact ⟨[], .refl s, rfl⟩
  | cons clause clauses ih =>
    obtain ⟨⟨hfirst, hsecond⟩, hclauses⟩ := List.forall_mem_cons.mp h
    simp only [processWhenClauses, Check.bind_yields, Check.pure_yields] at hrun
    obtain ⟨w, u₁, hw, e, u₂, he, rest, u₃, hrest, rfl, rfl⟩ := hrun
    obtain ⟨parts, hparts, rfl⟩ := ih hclauses hrest
    exact ⟨(w, e) :: parts, (hfirst _ hw).trans ((hsecond _ he).trans hparts), rfl⟩

theorem processCase_scoped {operand default_ : Option (ScalarAction ρ)}
    {whenClauses : List (ScalarAction ρ × ScalarAction ρ)} (ho : ∀ a ∈ operand, ScalarScoped a)
    (hw : ∀ p ∈ whenClauses, ScalarScoped p.1 ∧ ScalarScoped p.2)
    (hd : ∀ a ∈ default_, ScalarScoped a) :
    ScalarScoped (processCase operand whenClauses default_) := by
  intro context s t e h
  cases whenClauses with
  | nil => cases h
  | cons clause clauses =>
    cases operand with
    | none =>
      simp only [processCase, Check.bind_yields, Check.pure_yields] at h
      obtain ⟨as, u, has, de, v, hde, rfl, rfl⟩ := h
      obtain ⟨parts, hparts, rfl⟩ := processWhenClauses_scoped hw has
      refine (hparts.trans (option_scoped hd hde)).build fun hes => ?_
      rw [List.forall_mem_append] at hes
      rw [List.forall_mem_singleton, scoped_conditional]
      refine ⟨fun p hp => ?_, fun e he => hes.2 e (Option.mem_toList.mpr he)⟩
      obtain ⟨q, hq, rfl⟩ := List.mem_map.mp hp
      exact ⟨hes.1 _ (mem_pairExpressions hq).1, hes.1 _ (mem_pairExpressions hq).2⟩
    | some action =>
      simp only [processCase, Check.bind_yields, Check.pure_yields] at h
      obtain ⟨value, u, hvalue, v, u', hv, as, u₂, has, de, u₃, hde, rfl, rfl⟩ := h
      obtain ⟨parts, hparts, rfl⟩ := processWhenClauses_scoped hw has
      have hoperand := (ho action rfl _ hvalue).localVariable hv
      refine (hoperand.trans (hparts.trans (option_scoped hd hde))).build fun hes => ?_
      rw [List.forall_mem_append, List.forall_mem_append, List.forall_mem_cons,
        List.forall_mem_singleton] at hes
      obtain ⟨⟨hreference, hvalue⟩, hpairs, hdefault⟩ := hes
      rw [List.forall_mem_singleton, scoped_let, List.forall_mem_singleton, scoped_conditional]
      refine ⟨⟨scoped_variableReference.mp hreference, hvalue⟩, fun p hp => ?_,
        fun e he => hdefault e (Option.mem_toList.mpr he)⟩
      obtain ⟨q, hq, rfl⟩ := List.mem_map.mp hp
      exact ⟨scoped_compare.mpr ⟨hreference, hpairs _ (mem_pairExpressions hq).1⟩,
        hpairs _ (mem_pairExpressions hq).2⟩

theorem processCast_scoped {operand : ScalarAction ρ} (h : ScalarScoped operand)
    (op : CastOperator) (type : TypeNode) :
    ScalarScoped fun _ => processCast env op operand type := by
  intro context s t e hrun
  simp only [processCast, Check.bind_yields, Check.pure_yields] at hrun
  obtain ⟨_, u, hreport, e', v, he, type', w, htype, rfl, rfl⟩ := hrun
  have hall := (Reads.quiet_trans (reportCastOperator_quiet op hreport) (h _ he)).trans_quiet
    (analyzeType_quiet env type htype)
  exact hall.build fun hes => by simpa using hes

theorem processUnary_scoped {operand : ScalarAction ρ} (h : ScalarScoped operand)
    (op : Ast.UnaryOperator) : ScalarScoped fun _ => processUnary op operand := by
  intro context s t e hrun
  simp only [processUnary, Check.bind_yields, Check.pure_yields] at hrun
  obtain ⟨op', u, hop, e', v, he, rfl, rfl⟩ := hrun
  have hall := Reads.quiet_trans (convertUnaryOperator_quiet op hop) (h _ he)
  exact hall.build fun hes => by simpa using hes

theorem processIs_scoped {left : ScalarAction ρ} (h : ScalarScoped left) (isNot : Bool)
    (right : ScalarExpression) : ScalarScoped fun _ => processIs left isNot right := by
  intro context s t e hrun
  unfold processIs at hrun
  split at hrun
  · simp only [Check.bind_yields, Check.pure_yields] at hrun
    obtain ⟨op, u, hop, e', v, he, rfl, rfl⟩ := hrun
    have hall := Reads.quiet_trans (convertIsRight_quiet _ hop) (h _ he)
    refine hall.build fun hes => ?_
    cases isNot <;> simpa using hes
  · cases hrun

theorem processBinary_scoped {left right : ScalarAction ρ} (hl : ScalarScoped left)
    (hr : ScalarScoped right) (op : Ast.BinaryOperator) (node : ScalarExpression) :
    ScalarScoped fun _ => processBinary left op node right := by
  intro context s t e hrun
  unfold processBinary at hrun
  split at hrun
  · exact processIs_scoped hl _ _ context hrun
  · exact processIs_scoped hl _ _ context hrun
  · simp only [Check.bind_yields, Check.pure_yields] at hrun
    obtain ⟨op', u, hop, l, v, hl', r, w, hr', rfl, rfl⟩ := hrun
    have hall := Reads.quiet_trans (convertBinaryOperator_quiet op hop)
      ((hl _ hl').trans (hr _ hr'))
    exact hall.build fun hes => by simpa using hes

theorem processComparison_scoped {left right : ScalarAction ρ} (hl : ScalarScoped left)
    (hr : ScalarScoped right) (op : Ast.ComparisonOperator) :
    ScalarScoped fun _ => processComparison left op right := by
  intro context s t e hrun
  simp only [processComparison, Check.bind_yields, Check.pure_yields] at hrun
  obtain ⟨l, v, hl', r, w, hr', rfl, rfl⟩ := hrun
  exact ((hl _ hl').trans (hr _ hr')).build fun hes => by simpa using hes

theorem processBetween_scoped {target left right : ScalarAction ρ} (ht : ScalarScoped target)
    (hl : ScalarScoped left) (hr : ScalarScoped right) (isNot : Bool)
    (op : Option BetweenOperator) :
    ScalarScoped fun _ => processBetween target isNot op left right := by
  intro context s t e hrun
  simp only [processBetween, Check.bind_yields] at hrun
  obtain ⟨x, u₁, hx, l, u₂, hl', r, u₃, hr', hrun⟩ := hrun
  have hall := (ht _ hx).trans ((hl _ hl').trans (hr _ hr'))
  split at hrun
  · simp only [Check.bind_yields, Check.pure_yields] at hrun
    obtain ⟨vt, v₁, hvt, vl, v₂, hvl, vr, v₃, hvr, rfl, rfl⟩ := hrun
    refine (((hall.localVariable hvt).localVariable hvl).localVariable hvr).build fun hes => ?_
    simp only [List.forall_mem_cons, List.forall_mem_append, scoped_variableReference] at hes
    obtain ⟨hvr, hvl, hvt, ⟨hx, -⟩, ⟨hl, -⟩, hr, -⟩ := hes
    simp [hvr, hvl, hvt, hx, hl, hr]
  · simp only [Check.bind_yields, Check.pure_yields] at hrun
    obtain ⟨vt, v₁, hvt, rfl, rfl⟩ := hrun
    refine (hall.localVariable hvt).build fun hes => ?_
    simp only [List.forall_mem_cons, List.forall_mem_append, scoped_variableReference] at hes
    obtain ⟨hvt, ⟨hx, -⟩, ⟨hl, -⟩, hr, -⟩ := hes
    simp [hvt, hx, hl, hr]

theorem processPatternMatch_scoped {input pattern : ScalarAction ρ}
    {escape : Option (ScalarAction ρ)} (hi : ScalarScoped input) (hp : ScalarScoped pattern)
    (he : ∀ a ∈ escape, ScalarScoped a) (isNot : Bool) (op : PatternMatchOperator) :
    ScalarScoped fun _ => processPatternMatch input isNot op pattern escape := by
  intro context s t e hrun
  simp only [processPatternMatch, Check.bind_yields, Check.pure_yields] at hrun
  obtain ⟨x, u₁, hx, y, u₂, hy, z, u₃, hz, rfl, rfl⟩ := hrun
  refine ((hi _ hx).trans ((hp _ hy).trans (option_scoped he hz))).build fun hes => ?_
  cases z <;> simpa using hes

/-! ### Functions -/

theorem analyzeArguments_scoped {arguments : List (ScalarAction ρ)}
    (h : ∀ a ∈ arguments, ScalarScoped a) {s t : AnalyzerState ρ} {args : List (Scalar × TypeData)}
    (hrun : analyzeArguments env arguments s = (some args, t)) :
    Reads s t (args.map Prod.fst) := by
  induction arguments generalizing s args with
  | nil =>
    obtain ⟨rfl, rfl⟩ := (Check.pure_yields ..).mp hrun
    exact .refl s
  | cons a as ih =>
    obtain ⟨ha, has⟩ := List.forall_mem_cons.mp h
    simp only [analyzeArguments, Check.bind_yields, Check.pure_yields] at hrun
    obtain ⟨value, u₁, hvalue, type, u₂, htype, rest, u₃, hrest, rfl, rfl⟩ := hrun
    exact (ha _ hvalue).trans (.quiet_trans (resolve_quiet env _ _ htype) (ih has hrest))

theorem analyzeAll_scoped {actions : List (ScalarAction ρ)} (h : ∀ a ∈ actions, ScalarScoped a)
    {s t : AnalyzerState ρ} {es : List Scalar} (hrun : analyzeAll actions s = (some es, t)) :
    Reads s t es := by
  induction actions generalizing s es with
  | nil =>
    obtain ⟨rfl, rfl⟩ := (Check.pure_yields ..).mp hrun
    exact .refl s
  | cons a as ih =>
    obtain ⟨ha, has⟩ := List.forall_mem_cons.mp h
    simp only [analyzeAll, Check.bind_yields, Check.pure_yields] at hrun
    obtain ⟨e, u, he, rest, v, hrest, rfl, rfl⟩ := hrun
    exact (ha _ he).trans (ih has hrest)

theorem callAggregate_scoped {function : AggregateDecl} {arguments : List Scalar} {e : Scalar}
    {s t u : AnalyzerState ρ} (h : Reads s t arguments)
    (hrun : callAggregate function arguments t = (some e, u)) : Reads s u [e] := by
  simp only [callAggregate, Check.bind_yields, Check.modify_yields, Check.pure_yields] at hrun
  obtain ⟨-, _, rfl, rfl, rfl⟩ := hrun
  have hmarked : Reads t { t with sawAggregate := true } [] :=
    ⟨fun ht => ⟨ht.chain, ht.hidden⟩, fun _ => ⟨.refl _, le_rfl⟩, fun _ _ he => by cases he⟩
  exact (h.trans hmarked).build fun hes => by simpa using hes

theorem processFunctionInvocation_scoped {arguments : List (ScalarAction ρ)}
    (h : ∀ a ∈ arguments, ScalarScoped a) (name : Name) :
    ScalarScoped fun _ => processFunctionInvocation env name arguments := by
  intro context s t e hrun
  simp only [processFunctionInvocation, Check.bind_yields] at hrun
  obtain ⟨args, u₁, hargs, functions, u₂, hfunctions, hrun⟩ := hrun
  have hall := (analyzeArguments_scoped h hargs).trans_quiet
    (analyzeFunctionName_quiet env _ _ hfunctions)
  cases hscalar : applicableFunctions env (args.map Prod.snd) functions with
  | cons f fs =>
    simp only [hscalar, Check.bind_yields, Check.pure_yields] at hrun
    obtain ⟨target, u₃, htarget, rfl, rfl⟩ := hrun
    exact (hall.trans_quiet (resolveOverload_quiet env _ _ _ htarget)).build fun hes => by
      simpa using hes
  | nil =>
    simp only [hscalar, Check.bind_yields] at hrun
    obtain ⟨aggregates, u₃, haggregates, hrun⟩ := hrun
    have hall := hall.trans_quiet (analyzeAggregationName_quiet env _ _ haggregates)
    cases happlicable : applicableAggregates env (args.map Prod.snd) aggregates with
    | nil =>
      simp only [happlicable] at hrun
      cases hrun
    | cons a as =>
      simp only [happlicable, Check.bind_yields] at hrun
      obtain ⟨target, u₄, htarget, hrun⟩ := hrun
      exact callAggregate_scoped (hall.trans_quiet (resolveOverload_quiet env _ _ _ htarget)) hrun

theorem processNullif_scoped {arguments : List (ScalarAction ρ)}
    (h : ∀ a ∈ arguments, ScalarScoped a) : ScalarScoped fun _ => processNullif env arguments := by
  intro context s t e hrun
  match arguments, h with
  | [], _ => cases hrun
  | [_], _ => cases hrun
  | _ :: _ :: _ :: _, _ => cases hrun
  | [left, right], h =>
    simp only [processNullif, Check.bind_yields, Check.pure_yields] at hrun
    obtain ⟨l, u₁, hl, r, u₂, hr, type, u₃, htype, v, u₄, hv, rfl, rfl⟩ := hrun
    have hall := ((h left (by simp) _ hl).trans (h right (by simp) _ hr)).trans_quiet
      (resolve_quiet env _ _ htype)
    refine (hall.localVariable hv).build fun hes => ?_
    simp only [List.forall_mem_cons, List.forall_mem_append, scoped_variableReference] at hes
    obtain ⟨hv, ⟨hl, -⟩, hr, -⟩ := hes
    simp [hv, hl, hr]

theorem processCoalesce_scoped {arguments : List (ScalarAction ρ)}
    (h : ∀ a ∈ arguments, ScalarScoped a) :
    ScalarScoped fun _ => (processCoalesce arguments : Analysis ρ Scalar) := by
  intro context s t e hrun
  unfold processCoalesce at hrun
  split at hrun
  · cases hrun
  · simp only [Check.bind_yields, Check.pure_yields] at hrun
    obtain ⟨es, u, hes, rfl, rfl⟩ := hrun
    exact (analyzeAll_scoped h hes).build fun hes => by simpa using hes

theorem processDeclaredBuiltin_scoped {arguments : List (ScalarAction ρ)}
    (h : ∀ a ∈ arguments, ScalarScoped a) (function : BuiltinFunctionKind) :
    ScalarScoped fun _ => processDeclaredBuiltin env function arguments := by
  intro context s t e hrun
  simp only [processDeclaredBuiltin, Check.bind_yields] at hrun
  obtain ⟨args, u₁, hargs, hrun⟩ := hrun
  generalize applicableFunctions env (args.map Prod.snd) _ = candidates at hrun
  cases candidates with
  | nil => cases hrun
  | cons candidate rest =>
    simp only [Check.bind_yields, Check.pure_yields] at hrun
    obtain ⟨target, u₂, htarget, rfl, rfl⟩ := hrun
    exact ((analyzeArguments_scoped h hargs).trans_quiet
      (resolveOverload_quiet env _ _ _ htarget)).build fun hes => by simpa using hes

theorem processBuiltinFunction_scoped {arguments : List (ScalarAction ρ)}
    (h : ∀ a ∈ arguments, ScalarScoped a) (function : BuiltinFunctionKind) :
    ScalarScoped fun _ => processBuiltinFunction env function arguments := by
  unfold processBuiltinFunction
  split
  · exact processNullif_scoped h
  · exact processCoalesce_scoped h
  all_goals first | exact reject_scoped _ _ | exact processDeclaredBuiltin_scoped h _

theorem processBuiltinSetFunction_scoped {arguments : List (ScalarAction ρ)}
    (h : ∀ a ∈ arguments, ScalarScoped a) (function : BuiltinSetFunctionKind)
    (quantifier : Option Ast.SetQuantifier) :
    ScalarScoped fun _ => processBuiltinSetFunction env function quantifier arguments := by
  intro context s t e hrun
  simp only [processBuiltinSetFunction, Check.bind_yields] at hrun
  obtain ⟨args, u₁, hargs, hrun⟩ := hrun
  have hall := analyzeArguments_scoped h hargs
  generalize applicableAggregates env (args.map Prod.snd) _ = candidates at hrun
  cases candidates with
  | nil => cases hrun
  | cons candidate rest =>
    simp only [Check.bind_yields] at hrun
    obtain ⟨target, u₂, htarget, hrun⟩ := hrun
    exact callAggregate_scoped (hall.trans_quiet (resolveOverload_quiet env _ _ _ htarget)) hrun

theorem processExtract_scoped {operand : ScalarAction ρ} (h : ScalarScoped operand)
    (field : ExtractFieldKind) (digits : Option Nat) :
    ScalarScoped fun _ => processExtract env field digits operand := by
  intro context s t e hrun
  simp only [processExtract, Check.bind_yields] at hrun
  obtain ⟨e', u₁, he, type, u₂, htype, _, u₃, hvalid, functions, u₄, hfunctions, hrun⟩ := hrun
  have hall := (((h _ he).trans_quiet (resolve_quiet env _ _ htype)).trans_quiet
    (validateExtractField_quiet _ _ hvalid)).trans_quiet (analyzeFunctionName_quiet env _ _ hfunctions)
  generalize applicableFunctions env _ functions = candidates at hrun
  cases candidates with
  | nil => cases hrun
  | cons candidate rest =>
    simp only [Check.bind_yields, Check.pure_yields] at hrun
    obtain ⟨target, u₅, htarget, rfl, rfl⟩ := hrun
    refine (hall.trans_quiet (resolveOverload_quiet env _ _ _ htarget)).build fun hes => ?_
    rw [List.forall_mem_singleton] at hes
    rw [List.forall_mem_singleton, scoped_functionCall]
    split_ifs <;> simp [hes, extractSecondPrecision]

end Mizugaki.Analyzer
