import Mizugaki.Aggregation.Block
import Mizugaki.Plan.Semantics

/-! The rewrite of set functions preserves values. A row of the aggregate operator stands for
a group of rows of its input: on it a rewritten expression has the value that the
expression has over the group. The row is the one that stands for the group, extended by
the aggregated values; these are fresh, so nothing else in the expression reads them. -/

namespace Mizugaki.Plan

open Mizugaki.Relation

variable {α : Type} {I : Interpretation α}

theorem parameterValues_congr {row row' : Row Variable α} {parameters : List (Variable × Variable)}
    (h : ∀ v ∈ parameters.map Prod.fst, row v = row' v) :
    parameterValues row parameters = parameterValues row' parameters :=
  List.map_congr_left fun p hp => by rw [h p.1 (List.mem_map_of_mem hp)]

mutual

/-- Without set functions the value of an expression is that of its free variables. -/
theorem Scalar.eval_congr : ∀ (e : Scalar) {group group' : List (Row Variable α)}
    {bound bound' : List (Variable × α)} {row row' : Row Variable α}, e.hasAggregate = false →
    (∀ v ∈ e.free, row v = row' v) → e.eval I group bound row = e.eval I group' bound' row'
  | .immediate _ _, _, _, _, _, _, _, _, _ => rfl
  | .variableReference v, _, _, _, _, _, _, _, h => h v List.mem_cons_self
  | .cast type policy operand, _, _, _, _, _, _, hp, h => by
    rw [Scalar.eval, Scalar.eval, Scalar.eval_congr operand hp h]
  | .unary op operand, _, _, _, _, _, _, hp, h => by
    rw [Scalar.eval, Scalar.eval, Scalar.eval_congr operand hp h]
  | .binary op left right, _, _, _, _, _, _, hp, h => by
    rw [Scalar.hasAggregate, Bool.or_eq_false_iff] at hp
    rw [Scalar.free, List.forall_mem_append] at h
    rw [Scalar.eval, Scalar.eval, Scalar.eval_congr left hp.1 h.1, Scalar.eval_congr right hp.2 h.2]
  | .compare op left right, _, _, _, _, _, _, hp, h => by
    rw [Scalar.hasAggregate, Bool.or_eq_false_iff] at hp
    rw [Scalar.free, List.forall_mem_append] at h
    rw [Scalar.eval, Scalar.eval, Scalar.eval_congr left hp.1 h.1, Scalar.eval_congr right hp.2 h.2]
  | .match_ op input pattern escape, _, _, _, _, _, _, hp, h => by
    rw [Scalar.hasAggregate, Bool.or_eq_false_iff, Bool.or_eq_false_iff] at hp
    rw [Scalar.free, List.forall_mem_append, List.forall_mem_append] at h
    rw [Scalar.eval, Scalar.eval, Scalar.eval_congr input hp.1.1 h.1.1,
      Scalar.eval_congr pattern hp.1.2 h.1.2, Scalar.eval_congr escape hp.2 h.2]
  | .conditional alternatives default_, _, _, _, _, _, _, hp, h => by
    rw [Scalar.hasAggregate, Bool.or_eq_false_iff] at hp
    rw [Scalar.free, List.forall_mem_append] at h
    rw [Scalar.eval, Scalar.eval, evalPairs_congr alternatives hp.1 h.1,
      evalOption_congr default_ hp.2 h.2]
  | .coalesce alternatives, _, _, _, _, _, _, hp, h => by
    rw [Scalar.eval, Scalar.eval, evalList_congr alternatives hp h]
  | .let_ variables_ body, _, _, _, _, _, _, hp, h => by
    rw [Scalar.hasAggregate, Bool.or_eq_false_iff] at hp
    rw [Scalar.eval, Scalar.eval]
    exact evalBindings_congr variables_ hp.1 h fun _ _ _ _ hbody =>
      Scalar.eval_congr body hp.2 hbody
  | .functionCall function arguments, _, _, _, _, _, _, hp, h => by
    rw [Scalar.eval, Scalar.eval, evalList_congr arguments hp h]
  | .aggregateFunctionCall _ _, _, _, _, _, _, _, hp, _ => by cases hp
  | .subquery graph parameters outputColumn, _, _, _, _, _, _, _, h => by
    rw [Scalar.eval, Scalar.eval, parameterValues_congr h]
  | .exists_ graph parameters, _, _, _, _, _, _, _, h => by
    rw [Scalar.eval, Scalar.eval, parameterValues_congr h]
  | .quantifiedCompare op quantifier left graph parameters rightColumn, _, _, _, _, _, _, hp, h => by
    rw [Scalar.free, List.forall_mem_append] at h
    rw [Scalar.eval, Scalar.eval, Scalar.eval_congr left hp h.1, parameterValues_congr h.2]
termination_by structural e => e

theorem evalList_congr : ∀ (es : List Scalar) {group group' : List (Row Variable α)}
    {bound bound' : List (Variable × α)} {row row' : Row Variable α}, hasAggregateList es = false →
    (∀ v ∈ freeList es, row v = row' v) → evalList I group bound row es = evalList I group' bound' row' es
  | [], _, _, _, _, _, _, _, _ => rfl
  | e :: es, _, _, _, _, _, _, hp, h => by
    rw [hasAggregateList, Bool.or_eq_false_iff] at hp
    rw [freeList, List.forall_mem_append] at h
    rw [evalList, evalList, Scalar.eval_congr e hp.1 h.1, evalList_congr es hp.2 h.2]
termination_by structural es => es

theorem evalOption_congr : ∀ (e : Option Scalar) {group group' : List (Row Variable α)}
    {bound bound' : List (Variable × α)} {row row' : Row Variable α}, hasAggregateOption e = false →
    (∀ v ∈ freeOption e, row v = row' v) → evalOption I group bound row e = evalOption I group' bound' row' e
  | none, _, _, _, _, _, _, _, _ => rfl
  | some e, _, _, _, _, _, _, hp, h => by
    rw [evalOption, evalOption, Scalar.eval_congr e hp h]
termination_by structural e => e

theorem evalPairs_congr : ∀ (as : List (Scalar × Scalar)) {group group' : List (Row Variable α)}
    {bound bound' : List (Variable × α)} {row row' : Row Variable α}, hasAggregatePairs as = false →
    (∀ v ∈ freePairs as, row v = row' v) → evalPairs I group bound row as = evalPairs I group' bound' row' as
  | [], _, _, _, _, _, _, _, _ => rfl
  | (a, b) :: rest, _, _, _, _, _, _, hp, h => by
    rw [hasAggregatePairs, Bool.or_eq_false_iff, Bool.or_eq_false_iff] at hp
    rw [freePairs, List.forall_mem_append, List.forall_mem_append] at h
    rw [evalPairs, evalPairs, Scalar.eval_congr a hp.1.1 h.1.1, Scalar.eval_congr b hp.1.2 h.1.2,
      evalPairs_congr rest hp.2 h.2]
termination_by structural as => as

theorem evalBindings_congr : ∀ (vs : List (Variable × Scalar)) {group group' : List (Row Variable α)}
    {bound bound' : List (Variable × α)} {row row' : Row Variable α} {read : List Variable}
    {body body' : List (Variable × α) → Row Variable α → α}, hasAggregateBindings vs = false →
    (∀ v ∈ freeBindings vs read, row v = row' v) →
    (∀ bound bound' row row', (∀ v ∈ read, row v = row' v) → body bound row = body' bound' row') →
    evalBindings I group bound row vs body = evalBindings I group' bound' row' vs body'
  | [], _, _, _, _, _, _, _, _, _, _, h, hbody => hbody _ _ _ _ h
  | (v, e) :: rest, group, group', bound, bound', row, row', _, _, _, hp, h, hbody => by
    rw [hasAggregateBindings, Bool.or_eq_false_iff] at hp
    rw [freeBindings, List.forall_mem_append] at h
    have he : e.eval I group bound row = e.eval I group' bound' row' :=
      Scalar.eval_congr e hp.1 h.1
    rw [evalBindings, evalBindings]
    refine evalBindings_congr rest hp.2 (fun w hw => ?_) hbody
    by_cases hwv : w = v
    · rw [hwv, Function.update_self, Function.update_self, he]
    · rw [Function.update_of_ne hwv, Function.update_of_ne hwv]
      exact h.2 w (List.mem_filter.mpr ⟨hw, decide_eq_true hwv⟩)
termination_by structural vs => vs

end

mutual

/-- No argument of a set function refers to what is bound around the set function. -/
def Scalar.ArgumentsAvoid (bound : List Variable) : Scalar → Prop
  | .immediate _ _ => True
  | .variableReference _ => True
  | .cast _ _ operand => operand.ArgumentsAvoid bound
  | .unary _ operand => operand.ArgumentsAvoid bound
  | .binary _ left right => left.ArgumentsAvoid bound ∧ right.ArgumentsAvoid bound
  | .compare _ left right => left.ArgumentsAvoid bound ∧ right.ArgumentsAvoid bound
  | .match_ _ input pattern escape =>
    input.ArgumentsAvoid bound ∧ pattern.ArgumentsAvoid bound ∧ escape.ArgumentsAvoid bound
  | .conditional alternatives default_ =>
    ArgumentsAvoidPairs bound alternatives ∧ ArgumentsAvoidOption bound default_
  | .coalesce alternatives => ArgumentsAvoidList bound alternatives
  | .let_ variables_ body =>
    ArgumentsAvoidBindings bound variables_ ∧ body.ArgumentsAvoid (bound ++ variables_.map Prod.fst)
  | .functionCall _ arguments => ArgumentsAvoidList bound arguments
  | .aggregateFunctionCall _ arguments => ∀ v ∈ freeList arguments, v ∉ bound
  | .subquery _ _ _ => True
  | .exists_ _ _ => True
  | .quantifiedCompare _ _ left _ _ _ => left.ArgumentsAvoid bound
termination_by structural e => e

def ArgumentsAvoidList (bound : List Variable) : List Scalar → Prop
  | [] => True
  | e :: es => e.ArgumentsAvoid bound ∧ ArgumentsAvoidList bound es
termination_by structural es => es

def ArgumentsAvoidOption (bound : List Variable) : Option Scalar → Prop
  | none => True
  | some e => e.ArgumentsAvoid bound
termination_by structural e => e

def ArgumentsAvoidPairs (bound : List Variable) : List (Scalar × Scalar) → Prop
  | [] => True
  | (a, b) :: rest => a.ArgumentsAvoid bound ∧ b.ArgumentsAvoid bound ∧ ArgumentsAvoidPairs bound rest
termination_by structural as => as

def ArgumentsAvoidBindings (bound : List Variable) : List (Variable × Scalar) → Prop
  | [] => True
  | (v, e) :: rest => e.ArgumentsAvoid bound ∧ ArgumentsAvoidBindings (bound ++ [v]) rest
termination_by structural vs => vs

end

end Mizugaki.Plan

namespace Mizugaki.Analyzer

open Mizugaki.Plan Mizugaki.Relation Mizugaki.Control

variable {ρ α : Type} {env : Environment ρ} (I : Interpretation α)

namespace SetFunctionProcessor

/-! ### The rows of the installed operators -/

/-- A row of the projection of the arguments. -/
def projected (f : SetFunctionProcessor) : Row Variable α → Row Variable α :=
  projectRow I f.argumentColumns

/-- The aggregated values of a group of input rows. -/
def aggregatedValues (f : SetFunctionProcessor) (group : List (Row Variable α)) :
    List (Variable × α) :=
  (aggregates I f.aggregationsStore.2).map fun c => (c.1, c.2 (group.map (f.projected I)))

/-- What a processor stores was numbered from `n` up to `m`; the arguments are free of set functions,
and the aggregations read them only. -/
structure Settled (f : SetFunctionProcessor) (n m : Nat) : Prop where
  arguments : Numbered n m (f.argumentColumns.map Prod.fst)
  destinations : Numbered n m (f.aggregationsStore.2.map AggregateColumn.destination)
  plain : ∀ a ∈ f.argumentColumns, a.2.hasAggregate = false
  read : ∀ c ∈ f.aggregationsStore.2, ∀ v ∈ c.arguments, v ∈ f.argumentColumns.map Prod.fst

/-- What grew out of an empty store. -/
theorem Grows.settled {p f : SetFunctionProcessor} {n m : Nat} (h : p.Grows n f m)
    (harguments : p.argumentColumns = []) (haggregates : p.aggregationsStore.2 = []) :
    f.Settled n m := by
  obtain ⟨as, ha, hn, hp⟩ := h.arguments
  obtain ⟨cs, hc, hd, hr⟩ := h.aggregates
  rw [harguments, List.nil_append] at ha
  rw [haggregates, List.nil_append] at hc
  exact ⟨by rwa [ha], by rwa [hc], by rwa [ha], by rwa [hc]⟩

/-- What a processor stores is stored in another one. -/
structure Within (q f : SetFunctionProcessor) : Prop where
  arguments : q.argumentColumns ⊆ f.argumentColumns
  aggregates : q.aggregationsStore.2 ⊆ f.aggregationsStore.2

theorem Grows.within {p q : SetFunctionProcessor} {n m : Nat} (h : p.Grows n q m) : p.Within q :=
  ⟨fun _ => h.argument_mem, fun _ => h.aggregate_mem⟩

theorem Within.trans {p q f : SetFunctionProcessor} (h : p.Within q) (k : q.Within f) : p.Within f :=
  ⟨fun _ ha => k.arguments (h.arguments ha), fun _ hc => k.aggregates (h.aggregates hc)⟩

variable {I} {f : SetFunctionProcessor} {n m : Nat}

theorem aggregatedValues_names (group : List (Row Variable α)) :
    (f.aggregatedValues I group).map Prod.fst
      = f.aggregationsStore.2.map AggregateColumn.destination := by
  simp [aggregatedValues, aggregates, Function.comp_def]

/-- In a projected row the columns of a call have the values of its arguments. -/
theorem Settled.projected_arguments (hf : f.Settled n m) (row : Row Variable α) {vs : List Variable}
    {as : List Scalar} (h : List.Forall₂ (fun v a => (v, a) ∈ f.argumentColumns) vs as) :
    vs.map (f.projected I row) = evalList I [] [] row as := by
  induction h with
  | nil => rfl
  | @cons v a vs as hv _ ih =>
    rw [List.map_cons, evalList, ih]
    refine congrArg (· :: _) (extend_of_mem ?_ ?_)
    · rw [List.map_map]
      exact hf.arguments.nodup
    · exact List.mem_map.mpr ⟨(v, a), hv, rfl⟩

/-- In the row of a group the destination of a column has the aggregated value. -/
theorem Settled.destination_value (hf : f.Settled n m) {c : AggregateColumn}
    (hc : c ∈ f.aggregationsStore.2) (row : Row Variable α) (group : List (Row Variable α)) :
    extend row (f.aggregatedValues I group) c.destination
      = I.aggregate c.function (group.map fun r => c.arguments.map (f.projected I r)) := by
  refine extend_of_mem ?_ ?_
  · rw [aggregatedValues_names]
    exact hf.destinations.nodup
  · rw [aggregatedValues, aggregates, List.map_map]
    refine List.mem_map.mpr ⟨c, hc, ?_⟩
    simp [Function.comp_def]

/-- A variable is not the destination of an aggregation. -/
def Apart (f : SetFunctionProcessor) (v : Variable) : Prop :=
  v ∉ f.aggregationsStore.2.map AggregateColumn.destination

/-- Variables from before are not aggregated values. -/
theorem Settled.apart (hf : f.Settled n m) {v : Variable} (hv : v.Below n) : f.Apart v :=
  hf.destinations.notMem_of_below hv

theorem Apart.extend_eq {v : Variable} (hv : f.Apart v) (row : Row Variable α)
    (group : List (Row Variable α)) : extend row (f.aggregatedValues I group) v = row v := by
  refine extend_of_notMem ?_
  rw [aggregatedValues_names]
  exact hv

theorem Apart.update_extend {v : Variable} (hv : f.Apart v) (a : α) (row : Row Variable α)
    (group : List (Row Variable α)) :
    Function.update (extend row (f.aggregatedValues I group)) v a
      = extend (Function.update row v a) (f.aggregatedValues I group) := by
  refine Relation.update_extend ?_ a
  rw [aggregatedValues_names]
  exact hv

theorem parameterValues_eq {parameters : List (Variable × Variable)}
    (h : ∀ p ∈ parameters, f.Apart p.1) (row : Row Variable α) (group : List (Row Variable α)) :
    parameterValues (extend row (f.aggregatedValues I group)) parameters
      = parameterValues row parameters :=
  List.map_congr_left fun p hp => by rw [(h p hp).extend_eq]

/-- The value of a consumed call is that of the set function over the group. -/
theorem Settled.consumed_eval (hf : f.Settled n m) {function : AggregateDecl}
    {arguments : List Scalar} {e : Scalar} {q : SetFunctionProcessor}
    (h : Replaced function arguments e q) (hq : q.Within f)
    (hplain : hasAggregateList arguments = false) {bound : List (Variable × α)}
    (havoid : ∀ v ∈ freeList arguments, v ∉ bound.map Prod.fst) (row : Row Variable α)
    (group : List (Row Variable α)) :
    e.eval I [] bound (extend row (f.aggregatedValues I group))
      = (Scalar.aggregateFunctionCall function arguments).eval I group bound row := by
  obtain ⟨c, hc, rfl, rfl, hforall⟩ := h.column
  have hvalue : ∀ r : Row Variable α,
      c.arguments.map (f.projected I r) = evalList I [] bound (extend r bound) arguments := by
    intro r
    rw [hf.projected_arguments r (hforall.imp fun _ _ ha => hq.arguments ha)]
    exact evalList_congr arguments hplain fun v hv => (extend_of_notMem (havoid v hv)).symm
  rw [Scalar.eval, hf.destination_value (hq.aggregates hc), Scalar.eval]
  simp only [hvalue]

end SetFunctionProcessor

/-! ### Rewritten expressions -/

section

set_option linter.unusedSectionVars false

variable {I} {f : SetFunctionProcessor} {n m : Nat} (hf : f.Settled n m)
  (group : List (Row Variable α))

include hf

mutual

/-- On the row of a group a rewritten expression has the value of the expression over the group. -/
theorem processSetFunctions_value : ∀ (e : Scalar) {e' : Scalar} {p q : SetFunctionProcessor}
    {s t : AnalyzerState ρ}, processSetFunctions env false e p s = (some (e', q), t) → q.Within f →
    e.AllVariables f.Apart → ∀ (bound : List (Variable × α)) (row : Row Variable α),
    e.ArgumentsAvoid (bound.map Prod.fst) →
    e'.eval I [] bound (extend row (f.aggregatedValues I group)) = e.eval I group bound row
  | .immediate value type, _, p, q, s, t, h, _, _, _, _, _ => by
    simp only [processSetFunctions, Check.pure_yields, Prod.mk.injEq] at h
    obtain ⟨⟨rfl, rfl⟩, rfl⟩ := h
    rfl
  | .variableReference v, _, p, q, s, t, h, _, hb, _, row, _ => by
    simp only [processSetFunctions, Check.bind_yields, Check.pure_yields, Prod.mk.injEq] at h
    obtain ⟨_, u, -, ⟨rfl, rfl⟩, rfl⟩ := h
    exact hb.extend_eq row group
  | .cast type policy operand, _, p, q, s, t, h, hq, hb, bound, row, ha => by
    simp only [processSetFunctions, Check.bind_yields, Check.pure_yields, Prod.mk.injEq] at h
    obtain ⟨⟨e, p₁⟩, u, he, ⟨rfl, rfl⟩, rfl⟩ := h
    rw [Scalar.eval, Scalar.eval, processSetFunctions_value operand he hq hb bound row ha]
  | .unary op operand, _, p, q, s, t, h, hq, hb, bound, row, ha => by
    simp only [processSetFunctions, Check.bind_yields, Check.pure_yields, Prod.mk.injEq] at h
    obtain ⟨⟨e, p₁⟩, u, he, ⟨rfl, rfl⟩, rfl⟩ := h
    rw [Scalar.eval, Scalar.eval, processSetFunctions_value operand he hq hb bound row ha]
  | .binary op left right, _, p, q, s, t, h, hq, hb, bound, row, ha => by
    simp only [processSetFunctions, Check.bind_yields, Check.pure_yields, Prod.mk.injEq] at h
    obtain ⟨⟨l, p₁⟩, u, hl, ⟨r, p₂⟩, v, hr, ⟨rfl, rfl⟩, rfl⟩ := h
    have hp := (processSetFunctions_processed right hr).grows.within.trans hq
    rw [Scalar.eval, Scalar.eval, processSetFunctions_value left hl hp hb.1 bound row ha.1,
      processSetFunctions_value right hr hq hb.2 bound row ha.2]
  | .compare op left right, _, p, q, s, t, h, hq, hb, bound, row, ha => by
    simp only [processSetFunctions, Check.bind_yields, Check.pure_yields, Prod.mk.injEq] at h
    obtain ⟨⟨l, p₁⟩, u, hl, ⟨r, p₂⟩, v, hr, ⟨rfl, rfl⟩, rfl⟩ := h
    have hp := (processSetFunctions_processed right hr).grows.within.trans hq
    rw [Scalar.eval, Scalar.eval, processSetFunctions_value left hl hp hb.1 bound row ha.1,
      processSetFunctions_value right hr hq hb.2 bound row ha.2]
  | .match_ op input pattern escape, _, p, q, s, t, h, hq, hb, bound, row, ha => by
    simp only [processSetFunctions, Check.bind_yields, Check.pure_yields, Prod.mk.injEq] at h
    obtain ⟨⟨i, p₁⟩, u, hi, ⟨k, p₂⟩, v, hk, ⟨e, p₃⟩, w, he, ⟨rfl, rfl⟩, rfl⟩ := h
    have hp₂ := (processSetFunctions_processed escape he).grows.within.trans hq
    have hp₁ := (processSetFunctions_processed pattern hk).grows.within.trans hp₂
    rw [Scalar.eval, Scalar.eval, processSetFunctions_value input hi hp₁ hb.1 bound row ha.1,
      processSetFunctions_value pattern hk hp₂ hb.2.1 bound row ha.2.1,
      processSetFunctions_value escape he hq hb.2.2 bound row ha.2.2]
  | .conditional alternatives default_, _, p, q, s, t, h, hq, hb, bound, row, ha => by
    simp only [processSetFunctions, Check.bind_yields, Check.pure_yields, Prod.mk.injEq] at h
    obtain ⟨⟨as, p₁⟩, u, has, ⟨d, p₂⟩, v, hd, ⟨rfl, rfl⟩, rfl⟩ := h
    have hp := (processDefault_processed default_ hd).grows.within.trans hq
    rw [Scalar.eval, Scalar.eval, processAlternatives_value alternatives has hp hb.1 bound row ha.1,
      processDefault_value default_ hd hq hb.2 bound row ha.2]
  | .coalesce alternatives, _, p, q, s, t, h, hq, hb, bound, row, ha => by
    simp only [processSetFunctions, Check.bind_yields, Check.pure_yields, Prod.mk.injEq] at h
    obtain ⟨⟨es, p₁⟩, u, he, ⟨rfl, rfl⟩, rfl⟩ := h
    rw [Scalar.eval, Scalar.eval, processOperands_value alternatives he hq hb bound row ha]
  | .let_ variables_ body, _, p, q, s, t, h, hq, hb, bound, row, ha => by
    simp only [processSetFunctions, Check.bind_yields, Check.pure_yields, Prod.mk.injEq] at h
    obtain ⟨⟨vs, p₁⟩, u, hv, ⟨e, p₂⟩, v, he, ⟨rfl, rfl⟩, rfl⟩ := h
    have hp := (processSetFunctions_processed body he).grows.within.trans hq
    rw [Scalar.eval, Scalar.eval]
    exact processLetVariables_value variables_ hv hp hb.1 bound row ha.1 fun bound' row' hnames =>
      processSetFunctions_value body he hq hb.2 bound' row' (hnames ▸ ha.2)
  | .functionCall function arguments, _, p, q, s, t, h, hq, hb, bound, row, ha => by
    simp only [processSetFunctions, Check.bind_yields, Check.pure_yields, Prod.mk.injEq] at h
    obtain ⟨⟨es, p₁⟩, u, he, ⟨rfl, rfl⟩, rfl⟩ := h
    rw [Scalar.eval, Scalar.eval, processOperands_value arguments he hq hb bound row ha]
  | .aggregateFunctionCall function arguments, _, p, q, s, t, h, hq, hb, bound, row, ha => by
    simp only [processSetFunctions, Bool.false_eq_true, if_false, Check.bind_yields] at h
    obtain ⟨⟨es, p₁⟩, u, he, h⟩ := h
    obtain ⟨rfl, rfl, rfl, hplain⟩ := processOperands_inside arguments he
    obtain ⟨-, -, -, hconsumed⟩ := consume_grows hplain h
    exact hf.consumed_eval hconsumed hq hplain ha row group
  | .subquery graph parameters outputColumn, _, p, q, s, t, h, _, hb, _, row, _ => by
    simp only [processSetFunctions, Check.bind_yields, Check.pure_yields, Prod.mk.injEq] at h
    obtain ⟨_, u, -, ⟨rfl, rfl⟩, rfl⟩ := h
    rw [Scalar.eval, Scalar.eval, f.parameterValues_eq hb]
  | .exists_ graph parameters, _, p, q, s, t, h, _, hb, _, row, _ => by
    simp only [processSetFunctions, Check.bind_yields, Check.pure_yields, Prod.mk.injEq] at h
    obtain ⟨_, u, -, ⟨rfl, rfl⟩, rfl⟩ := h
    rw [Scalar.eval, Scalar.eval, f.parameterValues_eq hb]
  | .quantifiedCompare op quantifier left graph parameters rightColumn, _, p, q, s, t, h, hq, hb,
      bound, row, ha => by
    simp only [processSetFunctions, Check.bind_yields, Check.pure_yields, Prod.mk.injEq] at h
    obtain ⟨_, u, -, ⟨l, p₁⟩, v, hl, ⟨rfl, rfl⟩, rfl⟩ := h
    rw [Scalar.eval, Scalar.eval, processSetFunctions_value left hl hq hb.1 bound row ha,
      f.parameterValues_eq hb.2]
termination_by structural e => e

theorem processOperands_value : ∀ (es : List Scalar) {es' : List Scalar}
    {p q : SetFunctionProcessor} {s t : AnalyzerState ρ},
    processOperands env false es p s = (some (es', q), t) → q.Within f →
    AllVariablesList f.Apart es → ∀ (bound : List (Variable × α)) (row : Row Variable α),
    ArgumentsAvoidList (bound.map Prod.fst) es →
    evalList I [] bound (extend row (f.aggregatedValues I group)) es' = evalList I group bound row es
  | [], _, p, q, s, t, h, _, _, _, _, _ => by
    simp only [processOperands, Check.pure_yields, Prod.mk.injEq] at h
    obtain ⟨⟨rfl, rfl⟩, rfl⟩ := h
    rfl
  | e :: es, _, p, q, s, t, h, hq, hb, bound, row, ha => by
    simp only [processOperands, Check.bind_yields, Check.pure_yields, Prod.mk.injEq] at h
    obtain ⟨⟨e', p₁⟩, u, he, ⟨es', p₂⟩, v, hes, ⟨rfl, rfl⟩, rfl⟩ := h
    have hp := (processOperands_processed es hes).grows.within.trans hq
    rw [evalList, evalList, processSetFunctions_value e he hp hb.1 bound row ha.1,
      processOperands_value es hes hq hb.2 bound row ha.2]
termination_by structural es => es

theorem processAlternatives_value : ∀ (as : List (Scalar × Scalar)) {as' : List (Scalar × Scalar)}
    {p q : SetFunctionProcessor} {s t : AnalyzerState ρ},
    processAlternatives env false as p s = (some (as', q), t) → q.Within f →
    AllVariablesPairs f.Apart as →
    ∀ (bound : List (Variable × α)) (row : Row Variable α),
    ArgumentsAvoidPairs (bound.map Prod.fst) as →
    evalPairs I [] bound (extend row (f.aggregatedValues I group)) as' = evalPairs I group bound row as
  | [], _, p, q, s, t, h, _, _, _, _, _ => by
    simp only [processAlternatives, Check.pure_yields, Prod.mk.injEq] at h
    obtain ⟨⟨rfl, rfl⟩, rfl⟩ := h
    rfl
  | (condition, body) :: rest, _, p, q, s, t, h, hq, hb, bound, row, ha => by
    simp only [processAlternatives, Check.bind_yields, Check.pure_yields, Prod.mk.injEq] at h
    obtain ⟨⟨c, p₁⟩, u, hc, ⟨b, p₂⟩, v, hbody, ⟨rest', p₃⟩, w, hrest, ⟨rfl, rfl⟩, rfl⟩ := h
    have hp₂ := (processAlternatives_processed rest hrest).grows.within.trans hq
    have hp₁ := (processSetFunctions_processed body hbody).grows.within.trans hp₂
    rw [evalPairs, evalPairs, processSetFunctions_value condition hc hp₁ hb.1 bound row ha.1,
      processSetFunctions_value body hbody hp₂ hb.2.1 bound row ha.2.1,
      processAlternatives_value rest hrest hq hb.2.2 bound row ha.2.2]
termination_by structural as => as

theorem processDefault_value : ∀ (e : Option Scalar) {e' : Option Scalar}
    {p q : SetFunctionProcessor} {s t : AnalyzerState ρ},
    processDefault env false e p s = (some (e', q), t) → q.Within f →
    AllVariablesOption f.Apart e →
    ∀ (bound : List (Variable × α)) (row : Row Variable α),
    ArgumentsAvoidOption (bound.map Prod.fst) e →
    evalOption I [] bound (extend row (f.aggregatedValues I group)) e' = evalOption I group bound row e
  | none, _, p, q, s, t, h, _, _, _, _, _ => by
    simp only [processDefault, Check.pure_yields, Prod.mk.injEq] at h
    obtain ⟨⟨rfl, rfl⟩, rfl⟩ := h
    rfl
  | some e, _, p, q, s, t, h, hq, hb, bound, row, ha => by
    simp only [processDefault, Check.bind_yields, Check.pure_yields, Prod.mk.injEq] at h
    obtain ⟨⟨e', p₁⟩, u, he, ⟨rfl, rfl⟩, rfl⟩ := h
    rw [evalOption, evalOption, processSetFunctions_value e he hq hb bound row ha]
termination_by structural e => e

theorem processLetVariables_value : ∀ (vs : List (Variable × Scalar))
    {vs' : List (Variable × Scalar)} {p q : SetFunctionProcessor} {s t : AnalyzerState ρ},
    processLetVariables env false vs p s = (some (vs', q), t) → q.Within f →
    AllVariablesBindings f.Apart vs →
    ∀ (bound : List (Variable × α)) (row : Row Variable α),
    ArgumentsAvoidBindings (bound.map Prod.fst) vs →
    ∀ {body body' : List (Variable × α) → Row Variable α → α},
    (∀ bound' row', bound'.map Prod.fst = bound.map Prod.fst ++ vs.map Prod.fst →
      body' bound' (extend row' (f.aggregatedValues I group)) = body bound' row') →
    evalBindings I [] bound (extend row (f.aggregatedValues I group)) vs' body'
      = evalBindings I group bound row vs body
  | [], _, p, q, s, t, h, _, _, bound, row, _, body, body', hbody => by
    simp only [processLetVariables, Check.pure_yields, Prod.mk.injEq] at h
    obtain ⟨⟨rfl, rfl⟩, rfl⟩ := h
    exact hbody bound row (List.append_nil _).symm
  | (v, value) :: rest, _, p, q, s, t, h, hq, hb, bound, row, ha, body, body', hbody => by
    simp only [processLetVariables, Check.bind_yields, Check.pure_yields, Prod.mk.injEq] at h
    obtain ⟨⟨e, p₁⟩, u, he, ⟨rest', p₂⟩, w, hrest, ⟨rfl, rfl⟩, rfl⟩ := h
    have hp := (processLetVariables_processed rest hrest).grows.within.trans hq
    have hvalue := processSetFunctions_value value he hp hb.2.1 bound row ha.1
    rw [evalBindings, evalBindings, hvalue]
    dsimp only
    rw [hb.1.update_extend]
    refine processLetVariables_value rest hrest hq hb.2.2 _ _ ?_ fun bound' row' hnames => ?_
    · rw [List.map_append]
      exact ha.2
    · refine hbody bound' row' (hnames.trans ?_)
      rw [List.map_append, List.map_cons, List.append_assoc]
      rfl
termination_by structural vs => vs

end

theorem processOperands_eval (es : List Scalar) {es' : List Scalar} {p q : SetFunctionProcessor}
    {s t : AnalyzerState ρ} (h : processOperands env false es p s = (some (es', q), t))
    (hq : q.Within f) (hes : AllVariablesList (Variable.Below n) es) (bound : List (Variable × α))
    (row : Row Variable α) (havoid : ArgumentsAvoidList (bound.map Prod.fst) es) :
    evalList I [] bound (extend row (f.aggregatedValues I group)) es'
      = evalList I group bound row es :=
  processOperands_value hf group es h hq (hes.mono fun _ hv => hf.apart hv) bound row havoid

end

/-! ### The installed operators -/

namespace SetFunctionProcessor

variable {I} [DecidableEq α] {f : SetFunctionProcessor} {n m : Nat}

/-- The projection of the arguments, when there is one, makes projected rows. -/
theorem arguments_rows (f : SetFunctionProcessor) (surroundings : Row Variable α)
    (rows : List (Row Variable α)) :
    rowsAbove I surroundings (f.arguments.map Operator.project).toList rows
      = some (rows.map (f.projected I)) := by
  unfold projected argumentColumns
  cases f.arguments with
  | none =>
    change some rows = some (rows.map (projectRow I []))
    rw [show projectRow I [] = id from rfl, List.map_id]
  | some columns => rfl

/-- The row of the aggregate operator for a group of input rows. -/
def outputRow (I : Interpretation α) (f : SetFunctionProcessor) (surroundings : Row Variable α)
    (group : List (Row Variable α)) : Row Variable α :=
  extend (representative surroundings f.aggregationsStore.1 group) (f.aggregatedValues I group)

/-- With an aggregate operator the installed operators make one row for every group of the input. -/
theorem Settled.installed_rows (hf : f.Settled n m) (hstored : f.aggregations.isSome = true)
    (hkeys : ∀ k ∈ f.aggregationsStore.1, k.Below n) (surroundings : Row Variable α)
    (rows : List (Row Variable α)) :
    rowsAbove I surroundings f.installed rows
      = some ((groups f.aggregationsStore.1 rows).map (f.outputRow I surroundings)) := by
  have hprojected : ∀ row : Row Variable α, ∀ k ∈ f.aggregationsStore.1,
      f.projected I row k = row k := by
    intro row k hk
    refine extend_of_notMem ?_
    rw [List.map_map]
    exact hf.arguments.notMem_of_below (hkeys k hk)
  have hrow : ∀ group : List (Row Variable α),
      aggregateRow surroundings f.aggregationsStore.1 (Plan.aggregates I f.aggregationsStore.2)
          (group.map (f.projected I)) = f.outputRow I surroundings group := by
    intro group
    rw [aggregateRow, representative_map hprojected]
    rfl
  obtain ⟨store, hs⟩ := Option.isSome_iff_exists.mp hstored
  have hstore : f.aggregationsStore = store := by rw [aggregationsStore, hs]; rfl
  rw [installed, hs, Option.map_some, Option.toList_some, List.singleton_append, rowsAbove,
    arguments_rows, Option.bind_some, Operator.rows, ← hstore, Relation.aggregate,
    groups_map hprojected, List.map_map]
  exact congrArg some (List.map_congr_left fun group _ => hrow group)

end SetFunctionProcessor

/-- Expressions processed one after another: no set function is left in them. With group keys or set
functions the installed operators make a row for every group of the input by the keys, and on it
the rewritten expressions have the values of the expressions over the group. Otherwise nothing is
installed, and the values are those on the rows of the input. -/
theorem processOperands_refines [DecidableEq α] {keys : List Variable} {es es' : List Scalar}
    {q : SetFunctionProcessor} {s t u : AnalyzerState ρ} {port port' : Graph}
    (hprocess : processOperands env false es (.groupBy keys) s = (some (es', q), t))
    (hinstall : install env q port t = (some port', u))
    (hkeys : ∀ k ∈ keys, k.Below s.fresh) (hes : AllVariablesList (Variable.Below s.fresh) es)
    (havoid : ArgumentsAvoidList [] es) :
    hasAggregateList es' = false ∧
    ∃ operators, port' = operators.foldr Graph.unary port ∧
      ∃ distinctKeys : List Variable, distinctKeys.Nodup ∧ (∀ v, v ∈ distinctKeys ↔ v ∈ keys) ∧
        ∀ (I : Interpretation α) (surroundings : Row Variable α) (rows : List (Row Variable α)),
          ((keys ≠ [] ∨ hasAggregateList es = true) →
            ∃ output : List (Row Variable α) → Row Variable α,
              rowsAbove I surroundings operators rows
                = some ((groups distinctKeys rows).map output) ∧
              ∀ group ∈ groups distinctKeys rows,
                evalList I [] [] (output group) es'
                  = evalList I group [] (representative surroundings distinctKeys group) es) ∧
          ((keys = [] ∧ hasAggregateList es = false) →
            rowsAbove I surroundings operators rows = some rows ∧
            ∀ row ∈ rows, evalList I [] [] row es' = evalList I [] [] row es) := by
  have hgrouped := SetFunctionProcessor.groupBy_grouped keys
  have hp := processOperands_processed es hprocess
  have hsettled : q.Settled s.fresh t.fresh :=
    hp.grows.settled (by rw [SetFunctionProcessor.argumentColumns, hgrouped.arguments]; rfl)
      hgrouped.columns
  have hstore : q.aggregationsStore.1 = (SetFunctionProcessor.groupBy keys).groupingColumns := by
    rw [hp.grows.keys, hgrouped.storeKeys]
  have heval : ∀ (I : Interpretation α) (group : List (Row Variable α)) (row : Row Variable α),
      evalList I [] [] (extend row (q.aggregatedValues I group)) es' = evalList I group [] row es :=
    fun I group row => processOperands_eval hsettled group es hprocess ⟨fun _ h => h, fun _ h => h⟩
      hes [] row havoid
  refine ⟨hp.plain, q.installed, install_yields hinstall, _, hgrouped.nodup, hgrouped.mem,
    fun I surroundings rows => ⟨fun hsome => ?_, fun hnone => ?_⟩⟩
  · have hstored : q.aggregations.isSome = true := by
      rw [hp.stored, Bool.or_eq_true]
      exact hsome.imp_left hgrouped.stored.mpr
    refine ⟨q.outputRow I surroundings, ?_, fun group _ => ?_⟩
    · rw [← hstore]
      refine hsettled.installed_rows hstored (fun k hk => ?_) surroundings rows
      exact hkeys k ((hgrouped.mem k).mp (hstore ▸ hk))
    · rw [SetFunctionProcessor.outputRow, hstore]
      exact heval I group _
  · obtain ⟨rfl, hplain⟩ := hnone
    obtain ⟨harguments, haggregations⟩ := hp.kept hplain
    have hnothing : q.arguments = none ∧ q.aggregations = none :=
      ⟨harguments, haggregations⟩
    have hvalues : q.aggregatedValues I ([] : List (Row Variable α)) = [] := by
      rw [SetFunctionProcessor.aggregatedValues, SetFunctionProcessor.aggregationsStore, hnothing.2]
      rfl
    refine ⟨?_, fun row _ => ?_⟩
    · rw [SetFunctionProcessor.installed, hnothing.1, hnothing.2]
      rfl
    · have hrow := heval I [] row
      rwa [hvalues] at hrow

/-- `k` and `sum(x)` under `GROUP BY k`: the installed operators make one row for every value of `k`
in the input, on which the rewritten list has the value of `k` and the sum of `x`. -/
theorem processOperands_refines_sum :
    let sum : AggregateDecl := ⟨0, "sum", .int8, [.int8]⟩
    let es := [Scalar.variableReference (.stream 0),
      .aggregateFunctionCall sum [.variableReference (.stream 1)]]
    let s : AnalyzerState Types := ⟨[], 2, [], [], false⟩
    ∃ es' q t port' u,
      processOperands (.ofSchema (.ofTables [] [])) false es (.groupBy [.stream 0]) s
        = (some (es', q), t) ∧
      install (.ofSchema (.ofTables [] [])) q (.source (.values [] [])) t = (some port', u) ∧
      ∃ operators distinctKeys, port' = operators.foldr Graph.unary (.source (.values [] [])) ∧
        ∀ (I : Interpretation Int) (surroundings : Row Variable Int)
          (rows : List (Row Variable Int)), ∃ output : List (Row Variable Int) → Row Variable Int,
          rowsAbove I surroundings operators rows = some ((groups distinctKeys rows).map output) ∧
          ∀ group ∈ groups distinctKeys rows,
            evalList I [] [] (output group) es'
              = evalList I group [] (representative surroundings distinctKeys group) es := by
  intro sum es s
  refine ⟨_, _, _, _, _, rfl, rfl, ?_⟩
  obtain ⟨-, operators, hport, distinctKeys, -, -, hrows⟩ :=
    @processOperands_refines Types Int (.ofSchema (.ofTables [] [])) _ [.stream 0] es _ _ s _ _ _ _
      rfl rfl
      (fun k hk => by rw [List.mem_singleton.mp hk]; exact Nat.zero_lt_two)
      ⟨Nat.zero_lt_two, ⟨Nat.one_lt_two, trivial⟩, trivial⟩
      ⟨trivial, fun v _ h => (nomatch h), trivial⟩
  exact ⟨operators, distinctKeys, hport, fun I surroundings rows =>
    (hrows I surroundings rows).1 (.inl (List.cons_ne_nil _ _))⟩

end Mizugaki.Analyzer
