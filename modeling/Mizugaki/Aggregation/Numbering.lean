import Mizugaki.Scoping.Query

/-! Columns that set functions are installed in. Whatever calls a processor takes in, in whatever
order, the columns of its projection and of its aggregate operator are different from each other:
each of them was numbered once. -/

namespace Mizugaki.Plan

theorem Graph.defines_stack (ops : List Operator) (g : Graph) :
    (ops.foldr Graph.unary g).defines = ops.flatMap Operator.defines ++ g.defines := by
  rw [Graph.defines, Graph.operators_stack, List.flatMap_append]
  rfl

end Mizugaki.Plan

namespace Mizugaki.Analyzer

open Mizugaki.Plan Mizugaki.Control

variable {ρ : Type} {env : Environment ρ}

namespace Numbered

variable {n m : ℕ} {vs ws : List Variable}

theorem perm (h : Numbered n m vs) (hperm : ws.Perm vs) : Numbered n m ws :=
  ⟨hperm.nodup_iff.mpr h.nodup, fun v hv => h.between v (hperm.mem_iff.mp hv)⟩

theorem freshStreams (first count : ℕ) :
    Numbered first (first + count) (freshStreams first count) where
  nodup := List.Nodup.map (fun i j hij => by cases hij; rfl) List.nodup_range'
  between v hv := by
    obtain ⟨k, hk, rfl⟩ := List.mem_map.mp hv
    obtain ⟨hle, hlt⟩ := List.mem_range'_1.mp hk
    exact ⟨k, rfl, hle, hlt⟩

end Numbered

namespace SetFunctionProcessor

/-- The columns that installing a processor defines. -/
def columns (p : SetFunctionProcessor) : List Variable :=
  p.aggregationsStore.2.map AggregateColumn.destination ++ p.argumentColumns.map Prod.fst

/-- Between the counters `n` and `m` a processor gets columns that were numbered meanwhile. -/
structure Fills (p : SetFunctionProcessor) (n : ℕ) (q : SetFunctionProcessor) (m : ℕ) : Prop where
  counter : n ≤ m
  added : ∃ vs, Numbered n m vs ∧ q.columns.Perm (p.columns ++ vs)

namespace Fills

variable {p q r : SetFunctionProcessor} {n m l : ℕ}

theorem of_eq (h : q.columns = p.columns) (hnm : n ≤ m) : p.Fills n q m :=
  ⟨hnm, [], .nil n m, by rw [h, List.append_nil]⟩

theorem trans (h : p.Fills n q m) (k : q.Fills m r l) : p.Fills n r l where
  counter := h.counter.trans k.counter
  added := by
    obtain ⟨vs, hvs, hq⟩ := h.added
    obtain ⟨ws, hws, hr⟩ := k.added
    refine ⟨vs ++ ws, hvs.append hws h.counter k.counter, hr.trans ?_⟩
    rw [← List.append_assoc]
    exact hq.append_right ws

end Fills

end SetFunctionProcessor

open SetFunctionProcessor (Fills)

/-! ### One call -/

theorem replaceArguments_fills {arguments : List Scalar} {p q : SetFunctionProcessor}
    {replacements : List Variable} {s t : AnalyzerState ρ}
    (h : replaceArguments p arguments s = (some (replacements, q), t)) :
    p.Fills s.fresh q t.fresh := by
  induction arguments generalizing p replacements s with
  | nil =>
    simp only [replaceArguments, Check.pure_yields, Prod.mk.injEq] at h
    obtain ⟨⟨-, rfl⟩, rfl⟩ := h
    exact .of_eq rfl le_rfl
  | cons e es ih =>
    simp only [replaceArguments, Check.bind_yields, Check.pure_yields, streamVariable_yields,
      Prod.mk.injEq] at h
    obtain ⟨_, _, ⟨rfl, rfl⟩, ⟨rs, q'⟩, u, hrest, ⟨-, rfl⟩, rfl⟩ := h
    refine Fills.trans ⟨s.fresh.le_succ, [Variable.stream s.fresh], .single s.fresh, ?_⟩ (ih hrest)
    change List.Perm (_ ++ (p.argumentColumns ++ [(Variable.stream s.fresh, e)]).map Prod.fst) _
    rw [List.map_append, ← List.append_assoc]
    exact .refl _

theorem consume_fills {function : AggregateDecl} {arguments : List Scalar}
    {p q : SetFunctionProcessor} {e : Scalar} {s t : AnalyzerState ρ}
    (h : consume env p function arguments s = (some (e, q), t)) : p.Fills s.fresh q t.fresh := by
  simp only [consume, Check.bind_yields, clearExpressionResolution, Check.modify_yields] at h
  obtain ⟨-, _, rfl, ⟨rs, p₁⟩, u, hreplace, h⟩ := h
  have hfills := replaceArguments_fills hreplace
  refine Fills.trans ⟨hfills.counter, hfills.added⟩ ?_
  dsimp only at h
  cases hfind : p₁.findAggregation function rs with
  | none =>
    -- a new column of the aggregate operator
    simp only [hfind, Check.bind_yields, streamVariable_yields, Check.pure_yields,
      Prod.mk.injEq] at h
    obtain ⟨_, _, ⟨rfl, rfl⟩, ⟨-, rfl⟩, rfl⟩ := h
    refine ⟨u.fresh.le_succ, [.stream u.fresh], .single u.fresh, ?_⟩
    change List.Perm ((p₁.aggregationsStore.2 ++ [_]).map AggregateColumn.destination ++ _) _
    rw [List.map_append, List.append_assoc]
    rw [SetFunctionProcessor.columns, List.append_assoc]
    exact List.perm_append_comm.append_left _
  | some existing =>
    simp only [hfind, Check.pure_yields, Prod.mk.injEq] at h
    obtain ⟨⟨-, rfl⟩, rfl⟩ := h
    exact .of_eq rfl le_rfl

/-! ### Expressions -/

mutual

theorem processSetFunctions_fills : ∀ (e : Scalar) {e' : Scalar} {p q : SetFunctionProcessor}
    {s t : AnalyzerState ρ}, processSetFunctions env false e p s = (some (e', q), t) →
    p.Fills s.fresh q t.fresh
  | .immediate value type, _, p, q, s, t, h => by
    simp only [processSetFunctions, Check.pure_yields, Prod.mk.injEq] at h
    obtain ⟨⟨-, rfl⟩, rfl⟩ := h
    exact .of_eq rfl le_rfl
  | .variableReference v, _, p, q, s, t, h => by
    simp only [processSetFunctions, Check.bind_yields, Check.pure_yields, Prod.mk.injEq] at h
    obtain ⟨_, u, hc, ⟨-, rfl⟩, rfl⟩ := h
    obtain ⟨rfl, -⟩ := checkReference_yields hc
    exact .of_eq rfl le_rfl
  | .cast type policy operand, _, p, q, s, t, h => by
    simp only [processSetFunctions, Check.bind_yields, Check.pure_yields, Prod.mk.injEq] at h
    obtain ⟨⟨e, p₁⟩, u, he, ⟨-, rfl⟩, rfl⟩ := h
    exact processSetFunctions_fills operand he
  | .unary op operand, _, p, q, s, t, h => by
    simp only [processSetFunctions, Check.bind_yields, Check.pure_yields, Prod.mk.injEq] at h
    obtain ⟨⟨e, p₁⟩, u, he, ⟨-, rfl⟩, rfl⟩ := h
    exact processSetFunctions_fills operand he
  | .binary op left right, _, p, q, s, t, h => by
    simp only [processSetFunctions, Check.bind_yields, Check.pure_yields, Prod.mk.injEq] at h
    obtain ⟨⟨l, p₁⟩, u, hl, ⟨r, p₂⟩, v, hr, ⟨-, rfl⟩, rfl⟩ := h
    exact (processSetFunctions_fills left hl).trans (processSetFunctions_fills right hr)
  | .compare op left right, _, p, q, s, t, h => by
    simp only [processSetFunctions, Check.bind_yields, Check.pure_yields, Prod.mk.injEq] at h
    obtain ⟨⟨l, p₁⟩, u, hl, ⟨r, p₂⟩, v, hr, ⟨-, rfl⟩, rfl⟩ := h
    exact (processSetFunctions_fills left hl).trans (processSetFunctions_fills right hr)
  | .match_ op input pattern escape, _, p, q, s, t, h => by
    simp only [processSetFunctions, Check.bind_yields, Check.pure_yields, Prod.mk.injEq] at h
    obtain ⟨⟨i, p₁⟩, u, hi, ⟨m, p₂⟩, v, hm, ⟨e, p₃⟩, w, he, ⟨-, rfl⟩, rfl⟩ := h
    exact ((processSetFunctions_fills input hi).trans
      (processSetFunctions_fills pattern hm)).trans (processSetFunctions_fills escape he)
  | .conditional alternatives default_, _, p, q, s, t, h => by
    simp only [processSetFunctions, Check.bind_yields, Check.pure_yields, Prod.mk.injEq] at h
    obtain ⟨⟨as, p₁⟩, u, ha, ⟨d, p₂⟩, v, hd, ⟨-, rfl⟩, rfl⟩ := h
    exact (processAlternatives_fills alternatives ha).trans (processDefault_fills default_ hd)
  | .coalesce alternatives, _, p, q, s, t, h => by
    simp only [processSetFunctions, Check.bind_yields, Check.pure_yields, Prod.mk.injEq] at h
    obtain ⟨⟨es, p₁⟩, u, he, ⟨-, rfl⟩, rfl⟩ := h
    exact processOperands_fills alternatives he
  | .let_ variables_ body, _, p, q, s, t, h => by
    simp only [processSetFunctions, Check.bind_yields, Check.pure_yields, Prod.mk.injEq] at h
    obtain ⟨⟨vs, p₁⟩, u, hv, ⟨e, p₂⟩, w, he, ⟨-, rfl⟩, rfl⟩ := h
    exact (processLetVariables_fills variables_ hv).trans (processSetFunctions_fills body he)
  | .functionCall function arguments, _, p, q, s, t, h => by
    simp only [processSetFunctions, Check.bind_yields, Check.pure_yields, Prod.mk.injEq] at h
    obtain ⟨⟨es, p₁⟩, u, he, ⟨-, rfl⟩, rfl⟩ := h
    exact processOperands_fills arguments he
  | .aggregateFunctionCall function arguments, _, p, q, s, t, h => by
    simp only [processSetFunctions, Bool.false_eq_true, if_false, Check.bind_yields] at h
    obtain ⟨⟨es, p₁⟩, u, he, h⟩ := h
    obtain ⟨rfl, rfl, rfl, -⟩ := processOperands_inside arguments he
    exact consume_fills h
  | .subquery graph parameters outputColumn, _, p, q, s, t, h => by
    simp only [processSetFunctions, Check.bind_yields, Check.pure_yields, Prod.mk.injEq] at h
    obtain ⟨_, u, hc, ⟨-, rfl⟩, rfl⟩ := h
    obtain ⟨rfl, -⟩ := checkParameters_yields hc
    exact .of_eq rfl le_rfl
  | .exists_ graph parameters, _, p, q, s, t, h => by
    simp only [processSetFunctions, Check.bind_yields, Check.pure_yields, Prod.mk.injEq] at h
    obtain ⟨_, u, hc, ⟨-, rfl⟩, rfl⟩ := h
    obtain ⟨rfl, -⟩ := checkParameters_yields hc
    exact .of_eq rfl le_rfl
  | .quantifiedCompare op quantifier left graph parameters rightColumn, _, p, q, s, t, h => by
    simp only [processSetFunctions, Check.bind_yields, Check.pure_yields, Prod.mk.injEq] at h
    obtain ⟨_, u, hc, ⟨l, p₁⟩, v, hl, ⟨-, rfl⟩, rfl⟩ := h
    obtain ⟨rfl, -⟩ := checkParameters_yields hc
    exact processSetFunctions_fills left hl
termination_by structural e => e

theorem processOperands_fills : ∀ (es : List Scalar) {es' : List Scalar}
    {p q : SetFunctionProcessor} {s t : AnalyzerState ρ},
    processOperands env false es p s = (some (es', q), t) → p.Fills s.fresh q t.fresh
  | [], _, p, q, s, t, h => by
    simp only [processOperands, Check.pure_yields, Prod.mk.injEq] at h
    obtain ⟨⟨-, rfl⟩, rfl⟩ := h
    exact .of_eq rfl le_rfl
  | e :: es, _, p, q, s, t, h => by
    simp only [processOperands, Check.bind_yields, Check.pure_yields, Prod.mk.injEq] at h
    obtain ⟨⟨e', p₁⟩, u, he, ⟨es', p₂⟩, v, hes, ⟨-, rfl⟩, rfl⟩ := h
    exact (processSetFunctions_fills e he).trans (processOperands_fills es hes)
termination_by structural es => es

theorem processAlternatives_fills : ∀ (as : List (Scalar × Scalar)) {as' : List (Scalar × Scalar)}
    {p q : SetFunctionProcessor} {s t : AnalyzerState ρ},
    processAlternatives env false as p s = (some (as', q), t) → p.Fills s.fresh q t.fresh
  | [], _, p, q, s, t, h => by
    simp only [processAlternatives, Check.pure_yields, Prod.mk.injEq] at h
    obtain ⟨⟨-, rfl⟩, rfl⟩ := h
    exact .of_eq rfl le_rfl
  | (condition, body) :: rest, _, p, q, s, t, h => by
    simp only [processAlternatives, Check.bind_yields, Check.pure_yields, Prod.mk.injEq] at h
    obtain ⟨⟨c, p₁⟩, u, hc, ⟨b, p₂⟩, v, hb, ⟨rest', p₃⟩, w, hrest, ⟨-, rfl⟩, rfl⟩ := h
    exact ((processSetFunctions_fills condition hc).trans
      (processSetFunctions_fills body hb)).trans (processAlternatives_fills rest hrest)
termination_by structural as => as

theorem processDefault_fills : ∀ (e : Option Scalar) {e' : Option Scalar}
    {p q : SetFunctionProcessor} {s t : AnalyzerState ρ},
    processDefault env false e p s = (some (e', q), t) → p.Fills s.fresh q t.fresh
  | none, _, p, q, s, t, h => by
    simp only [processDefault, Check.pure_yields, Prod.mk.injEq] at h
    obtain ⟨⟨-, rfl⟩, rfl⟩ := h
    exact .of_eq rfl le_rfl
  | some e, _, p, q, s, t, h => by
    simp only [processDefault, Check.bind_yields, Check.pure_yields, Prod.mk.injEq] at h
    obtain ⟨⟨e', p₁⟩, u, he, ⟨-, rfl⟩, rfl⟩ := h
    exact processSetFunctions_fills e he
termination_by structural e => e

theorem processLetVariables_fills : ∀ (vs : List (Variable × Scalar))
    {vs' : List (Variable × Scalar)} {p q : SetFunctionProcessor} {s t : AnalyzerState ρ},
    processLetVariables env false vs p s = (some (vs', q), t) → p.Fills s.fresh q t.fresh
  | [], _, p, q, s, t, h => by
    simp only [processLetVariables, Check.pure_yields, Prod.mk.injEq] at h
    obtain ⟨⟨-, rfl⟩, rfl⟩ := h
    exact .of_eq rfl le_rfl
  | (v, value) :: rest, _, p, q, s, t, h => by
    simp only [processLetVariables, Check.bind_yields, Check.pure_yields, Prod.mk.injEq] at h
    obtain ⟨⟨e, p₁⟩, u, he, ⟨rest', p₂⟩, w, hrest, ⟨-, rfl⟩, rfl⟩ := h
    exact (processSetFunctions_fills value he).trans (processLetVariables_fills rest hrest)
termination_by structural vs => vs

end

theorem processColumns_fills {columns columns' : List (Variable × Scalar)}
    {p q : SetFunctionProcessor} {s t : AnalyzerState ρ}
    (h : processColumns env columns p s = (some (columns', q), t)) : p.Fills s.fresh q t.fresh := by
  induction columns generalizing p columns' s with
  | nil =>
    simp only [processColumns, Check.pure_yields, Prod.mk.injEq] at h
    obtain ⟨⟨-, rfl⟩, rfl⟩ := h
    exact .of_eq rfl le_rfl
  | cons column columns ih =>
    obtain ⟨v, e⟩ := column
    simp only [processColumns, Check.bind_yields, Check.pure_yields, Prod.mk.injEq] at h
    obtain ⟨⟨e', p₁⟩, u, he, ⟨rest, p₂⟩, w, hrest, ⟨-, rfl⟩, rfl⟩ := h
    have hfirst := processSetFunctions_fills e he
    have hkept : p₁.Fills u.fresh (p₁.addAggregated v) u.fresh := .of_eq rfl le_rfl
    exact (hfirst.trans hkept).trans (ih hrest)

/-! ### The operators of a query -/

namespace QueryBlock

/-- The projections are all that defines columns, above those that are installed. -/
theorem operators_defines (b : QueryBlock) : b.operators.flatMap Operator.defines =
    (sortColumns b.sort).map Prod.fst ++ b.columns.map Prod.fst := by
  have hnone : ∀ o : Option Operator, (∀ op ∈ o, op.defines = []) →
      o.toList.flatMap Operator.defines = [] := by
    intro o ho
    cases o with
    | none => rfl
    | some op => simp [ho op rfl]
  have hlimits : b.limits.flatMap Operator.defines = (sortColumns b.sort).map Prod.fst := by
    unfold limits
    cases b.sort with
    | none =>
      refine hnone _ fun op hop => ?_
      obtain ⟨n, -, rfl⟩ := Option.map_eq_some_iff.mp hop
      rfl
    | some l => simp [Operator.defines, sortColumns]
  have hdistinct := hnone (b.distinct.map .distinct) fun op hop => by
    obtain ⟨keys, -, rfl⟩ := Option.map_eq_some_iff.mp hop
    rfl
  have hhaving := hnone (b.having.map .filter) fun op hop => by
    obtain ⟨e, -, rfl⟩ := Option.map_eq_some_iff.mp hop
    rfl
  rw [operators, List.flatMap_append, List.flatMap_append, List.flatMap_cons, hlimits, hdistinct,
    hhaving, List.nil_append, List.append_nil]
  rfl

end QueryBlock

/-- The operators that are put on the FROM and WHERE part of a query define the columns of its
projections, which keep their names, and what the processor got columns for. -/
theorem installSetFunctions_fills {p : SetFunctionProcessor} {entry output : Graph} {b : QueryBlock}
    {s t : AnalyzerState ρ} (hinactive : p.active = false → p.installed = [])
    (h : installSetFunctions env p entry b s = (some output, t)) :
    ∃ q, p.Fills s.fresh q t.fresh ∧ output.defines =
      ((sortColumns b.sort).map Prod.fst ++ b.columns.map Prod.fst) ++ (q.columns ++ entry.defines) := by
  cases hactive : p.active with
  | false =>
    simp only [installSetFunctions, hactive, Bool.false_eq_true, if_false, Check.pure_yields] at h
    obtain ⟨rfl, rfl⟩ := h
    refine ⟨p, .of_eq rfl le_rfl, ?_⟩
    have hcolumns : p.columns = [] := by
      rw [SetFunctionProcessor.columns, ← p.installed_defines, hinactive hactive]
      rfl
    rw [QueryBlock.graph_eq, Graph.defines_stack, b.operators_defines, hcolumns, List.nil_append]
  | true =>
    simp only [installSetFunctions, hactive, if_true, Check.bind_yields, Check.pure_yields] at h
    obtain ⟨⟨columns, p₁⟩, u₁, hcolumns, ⟨sort, p₂⟩, u₂, hsort, port, u₃, hport, _, u₄, hproject, _, u₅,
      hresort, rfl, rfl⟩ := h
    have hquiet : Quiet u₂ u₅ := Check.Frame.trans (install_quiet env _ _ hport)
      (Check.Frame.trans (resolveOperator_quiet env _ rfl hproject) (resolveSort_quiet env _ hresort))
    obtain ⟨hsortNames, hsortFills⟩ : (sortColumns sort).map Prod.fst =
        (sortColumns b.sort).map Prod.fst ∧ p₁.Fills u₁.fresh p₂ u₂.fresh := by
      cases hb : b.sort with
      | none =>
        simp only [hb, processSortColumns, Check.pure_yields, Prod.mk.injEq] at hsort
        obtain ⟨⟨rfl, rfl⟩, rfl⟩ := hsort
        exact ⟨rfl, .of_eq rfl le_rfl⟩
      | some l =>
        simp only [hb, processSortColumns, Check.bind_yields, Check.pure_yields,
          Prod.mk.injEq] at hsort
        obtain ⟨⟨sorted, q⟩, v, hsorted, ⟨rfl, rfl⟩, rfl⟩ := hsort
        exact ⟨(processColumns_processed hsorted).1, processColumns_fills hsorted⟩
    refine ⟨p₂, ((processColumns_fills hcolumns).trans hsortFills).trans
      (.of_eq rfl hquiet.fresh), ?_⟩
    rw [QueryBlock.graph_eq, install_yields hport, Graph.defines_stack, Graph.defines_stack,
      QueryBlock.operators_defines, p₂.installed_defines, hsortNames,
      (processColumns_processed hcolumns).1]
    rfl

end Mizugaki.Analyzer
