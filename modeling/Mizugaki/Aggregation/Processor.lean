import Mizugaki.Analyzer.Quiet
import Mizugaki.Plan.Subquery

/-! What a run of the set function processor does to it. Inside of a set function nothing
changes; elsewhere the projection of arguments and the aggregate operator only grow, by
variables that are fresh, and the aggregate operator exists as soon as one set function
was met. -/

namespace Mizugaki.Analyzer

open Mizugaki.Plan Mizugaki.Control

variable {ρ : Type} {env : Environment ρ}

/-! ### Inside of a set function -/

theorem checkVariable_yields {p : SetFunctionProcessor} {inside : Bool} {v : Variable}
    {s t : AnalyzerState ρ} {u : Unit} (h : checkVariable p inside v s = (some u, t)) :
    t = s ∧ p.accepts inside v = true := by
  unfold checkVariable at h
  split at h
  · rename_i ha
    obtain ⟨-, rfl⟩ := (Check.pure_yields ..).mp h
    exact ⟨rfl, ha⟩
  · cases h

theorem checkReference_yields {p : SetFunctionProcessor} {inside : Bool} {v : Variable}
    {s t : AnalyzerState ρ} {u : Unit} (h : checkReference p inside v s = (some u, t)) :
    t = s ∧ (v.isStream = true → p.accepts inside v = true) := by
  unfold checkReference at h
  split at h
  · obtain ⟨rfl, ha⟩ := checkVariable_yields h
    exact ⟨rfl, fun _ => ha⟩
  · rename_i hv
    obtain ⟨-, rfl⟩ := (Check.pure_yields ..).mp h
    exact ⟨rfl, fun hs => absurd hs hv⟩

theorem checkParameters_yields {p : SetFunctionProcessor} {inside : Bool}
    {parameters : List (Variable × Variable)} {s t : AnalyzerState ρ} {u : Unit}
    (h : checkParameters p inside parameters s = (some u, t)) :
    t = s ∧ ∀ v ∈ parameters.map Prod.fst, p.accepts inside v = true := by
  induction parameters with
  | nil =>
    obtain ⟨-, rfl⟩ := (Check.pure_yields ..).mp h
    exact ⟨rfl, fun _ hv => nomatch hv⟩
  | cons parameter rest ih =>
    rw [checkParameters] at h
    split at h
    · rename_i ha
      obtain ⟨rfl, hrest⟩ := ih h
      exact ⟨rfl, List.forall_mem_cons.mpr ⟨ha, hrest⟩⟩
    · obtain ⟨-, u, -, h⟩ := (Check.bind_yields ..).mp h
      obtain ⟨-, v, -, h⟩ := (Check.bind_yields ..).mp h
      cases h

/-- A run inside of a set function that succeeds: nothing changed, and no set function was met. -/
structure Unchanged {β : Type} (contains : Bool) (x x' : β) (p q : SetFunctionProcessor)
    (s t : AnalyzerState ρ) : Prop where
  result : x' = x
  processor : q = p
  state : t = s
  plain : contains = false

mutual

theorem processSetFunctions_inside : ∀ (e : Scalar) {e' : Scalar} {p q : SetFunctionProcessor}
    {s t : AnalyzerState ρ}, processSetFunctions env true e p s = (some (e', q), t) →
    Unchanged e.hasAggregate e e' p q s t
  | .immediate value type, _, p, q, s, t, h => by
    simp only [processSetFunctions, Check.pure_yields, Prod.mk.injEq] at h
    obtain ⟨⟨rfl, rfl⟩, rfl⟩ := h
    exact ⟨rfl, rfl, rfl, rfl⟩
  | .variableReference v, _, p, q, s, t, h => by
    simp only [processSetFunctions, Check.bind_yields, Check.pure_yields, Prod.mk.injEq] at h
    obtain ⟨_, u, hc, ⟨rfl, rfl⟩, rfl⟩ := h
    obtain ⟨rfl, -⟩ := checkReference_yields hc
    exact ⟨rfl, rfl, rfl, rfl⟩
  | .cast type policy operand, _, p, q, s, t, h => by
    simp only [processSetFunctions, Check.bind_yields, Check.pure_yields, Prod.mk.injEq] at h
    obtain ⟨⟨e, p₁⟩, u, he, ⟨rfl, rfl⟩, rfl⟩ := h
    obtain ⟨rfl, rfl, rfl, hp⟩ := processSetFunctions_inside operand he
    exact ⟨rfl, rfl, rfl, hp⟩
  | .unary op operand, _, p, q, s, t, h => by
    simp only [processSetFunctions, Check.bind_yields, Check.pure_yields, Prod.mk.injEq] at h
    obtain ⟨⟨e, p₁⟩, u, he, ⟨rfl, rfl⟩, rfl⟩ := h
    obtain ⟨rfl, rfl, rfl, hp⟩ := processSetFunctions_inside operand he
    exact ⟨rfl, rfl, rfl, hp⟩
  | .binary op left right, _, p, q, s, t, h => by
    simp only [processSetFunctions, Check.bind_yields, Check.pure_yields, Prod.mk.injEq] at h
    obtain ⟨⟨l, p₁⟩, u, hl, ⟨r, p₂⟩, v, hr, ⟨rfl, rfl⟩, rfl⟩ := h
    obtain ⟨rfl, rfl, rfl, hpl⟩ := processSetFunctions_inside left hl
    obtain ⟨rfl, rfl, rfl, hpr⟩ := processSetFunctions_inside right hr
    exact ⟨rfl, rfl, rfl, by rw [Scalar.hasAggregate, hpl, hpr]; rfl⟩
  | .compare op left right, _, p, q, s, t, h => by
    simp only [processSetFunctions, Check.bind_yields, Check.pure_yields, Prod.mk.injEq] at h
    obtain ⟨⟨l, p₁⟩, u, hl, ⟨r, p₂⟩, v, hr, ⟨rfl, rfl⟩, rfl⟩ := h
    obtain ⟨rfl, rfl, rfl, hpl⟩ := processSetFunctions_inside left hl
    obtain ⟨rfl, rfl, rfl, hpr⟩ := processSetFunctions_inside right hr
    exact ⟨rfl, rfl, rfl, by rw [Scalar.hasAggregate, hpl, hpr]; rfl⟩
  | .match_ op input pattern escape, _, p, q, s, t, h => by
    simp only [processSetFunctions, Check.bind_yields, Check.pure_yields, Prod.mk.injEq] at h
    obtain ⟨⟨i, p₁⟩, u, hi, ⟨m, p₂⟩, v, hm, ⟨e, p₃⟩, w, he, ⟨rfl, rfl⟩, rfl⟩ := h
    obtain ⟨rfl, rfl, rfl, hpi⟩ := processSetFunctions_inside input hi
    obtain ⟨rfl, rfl, rfl, hpm⟩ := processSetFunctions_inside pattern hm
    obtain ⟨rfl, rfl, rfl, hpe⟩ := processSetFunctions_inside escape he
    exact ⟨rfl, rfl, rfl, by rw [Scalar.hasAggregate, hpi, hpm, hpe]; rfl⟩
  | .conditional alternatives default_, _, p, q, s, t, h => by
    simp only [processSetFunctions, Check.bind_yields, Check.pure_yields, Prod.mk.injEq] at h
    obtain ⟨⟨as, p₁⟩, u, ha, ⟨d, p₂⟩, v, hd, ⟨rfl, rfl⟩, rfl⟩ := h
    obtain ⟨rfl, rfl, rfl, hpa⟩ := processAlternatives_inside alternatives ha
    obtain ⟨rfl, rfl, rfl, hpd⟩ := processDefault_inside default_ hd
    exact ⟨rfl, rfl, rfl, by rw [Scalar.hasAggregate, hpa, hpd]; rfl⟩
  | .coalesce alternatives, _, p, q, s, t, h => by
    simp only [processSetFunctions, Check.bind_yields, Check.pure_yields, Prod.mk.injEq] at h
    obtain ⟨⟨es, p₁⟩, u, he, ⟨rfl, rfl⟩, rfl⟩ := h
    obtain ⟨rfl, rfl, rfl, hp⟩ := processOperands_inside alternatives he
    exact ⟨rfl, rfl, rfl, hp⟩
  | .let_ variables_ body, _, p, q, s, t, h => by
    simp only [processSetFunctions, Check.bind_yields, Check.pure_yields, Prod.mk.injEq] at h
    obtain ⟨⟨vs, p₁⟩, u, hv, ⟨e, p₂⟩, v, he, ⟨rfl, rfl⟩, rfl⟩ := h
    obtain ⟨rfl, rfl, rfl, hpv⟩ := processLetVariables_inside variables_ hv
    obtain ⟨rfl, rfl, rfl, hpe⟩ := processSetFunctions_inside body he
    exact ⟨rfl, rfl, rfl, by rw [Scalar.hasAggregate, hpv, hpe]; rfl⟩
  | .functionCall function arguments, _, p, q, s, t, h => by
    simp only [processSetFunctions, Check.bind_yields, Check.pure_yields, Prod.mk.injEq] at h
    obtain ⟨⟨es, p₁⟩, u, he, ⟨rfl, rfl⟩, rfl⟩ := h
    obtain ⟨rfl, rfl, rfl, hp⟩ := processOperands_inside arguments he
    exact ⟨rfl, rfl, rfl, hp⟩
  | .aggregateFunctionCall function arguments, _, p, q, s, t, h => by
    rw [processSetFunctions, if_pos rfl] at h
    cases h
  | .subquery graph parameters outputColumn, _, p, q, s, t, h => by
    simp only [processSetFunctions, Check.bind_yields, Check.pure_yields, Prod.mk.injEq] at h
    obtain ⟨_, u, hc, ⟨rfl, rfl⟩, rfl⟩ := h
    obtain ⟨rfl, -⟩ := checkParameters_yields hc
    exact ⟨rfl, rfl, rfl, rfl⟩
  | .exists_ graph parameters, _, p, q, s, t, h => by
    simp only [processSetFunctions, Check.bind_yields, Check.pure_yields, Prod.mk.injEq] at h
    obtain ⟨_, u, hc, ⟨rfl, rfl⟩, rfl⟩ := h
    obtain ⟨rfl, -⟩ := checkParameters_yields hc
    exact ⟨rfl, rfl, rfl, rfl⟩
  | .quantifiedCompare op quantifier left graph parameters rightColumn, _, p, q, s, t, h => by
    simp only [processSetFunctions, Check.bind_yields, Check.pure_yields, Prod.mk.injEq] at h
    obtain ⟨_, u, hc, ⟨l, p₁⟩, v, hl, ⟨rfl, rfl⟩, rfl⟩ := h
    obtain ⟨rfl, -⟩ := checkParameters_yields hc
    obtain ⟨rfl, rfl, rfl, hp⟩ := processSetFunctions_inside left hl
    exact ⟨rfl, rfl, rfl, hp⟩
termination_by structural e => e

theorem processOperands_inside : ∀ (es : List Scalar) {es' : List Scalar}
    {p q : SetFunctionProcessor} {s t : AnalyzerState ρ},
    processOperands env true es p s = (some (es', q), t) →
    Unchanged (hasAggregateList es) es es' p q s t
  | [], _, p, q, s, t, h => by
    simp only [processOperands, Check.pure_yields, Prod.mk.injEq] at h
    obtain ⟨⟨rfl, rfl⟩, rfl⟩ := h
    exact ⟨rfl, rfl, rfl, rfl⟩
  | e :: es, _, p, q, s, t, h => by
    simp only [processOperands, Check.bind_yields, Check.pure_yields, Prod.mk.injEq] at h
    obtain ⟨⟨e', p₁⟩, u, he, ⟨es', p₂⟩, v, hes, ⟨rfl, rfl⟩, rfl⟩ := h
    obtain ⟨rfl, rfl, rfl, hp⟩ := processSetFunctions_inside e he
    obtain ⟨rfl, rfl, rfl, hps⟩ := processOperands_inside es hes
    exact ⟨rfl, rfl, rfl, by rw [hasAggregateList, hp, hps]; rfl⟩
termination_by structural es => es

theorem processAlternatives_inside : ∀ (as : List (Scalar × Scalar)) {as' : List (Scalar × Scalar)}
    {p q : SetFunctionProcessor} {s t : AnalyzerState ρ},
    processAlternatives env true as p s = (some (as', q), t) →
    Unchanged (hasAggregatePairs as) as as' p q s t
  | [], _, p, q, s, t, h => by
    simp only [processAlternatives, Check.pure_yields, Prod.mk.injEq] at h
    obtain ⟨⟨rfl, rfl⟩, rfl⟩ := h
    exact ⟨rfl, rfl, rfl, rfl⟩
  | (condition, body) :: rest, _, p, q, s, t, h => by
    simp only [processAlternatives, Check.bind_yields, Check.pure_yields, Prod.mk.injEq] at h
    obtain ⟨⟨c, p₁⟩, u, hc, ⟨b, p₂⟩, v, hb, ⟨rest', p₃⟩, w, hrest, ⟨rfl, rfl⟩, rfl⟩ := h
    obtain ⟨rfl, rfl, rfl, hpc⟩ := processSetFunctions_inside condition hc
    obtain ⟨rfl, rfl, rfl, hpb⟩ := processSetFunctions_inside body hb
    obtain ⟨rfl, rfl, rfl, hps⟩ := processAlternatives_inside rest hrest
    exact ⟨rfl, rfl, rfl, by rw [hasAggregatePairs, hpc, hpb, hps]; rfl⟩
termination_by structural as => as

theorem processDefault_inside : ∀ (e : Option Scalar) {e' : Option Scalar}
    {p q : SetFunctionProcessor} {s t : AnalyzerState ρ},
    processDefault env true e p s = (some (e', q), t) →
    Unchanged (hasAggregateOption e) e e' p q s t
  | none, _, p, q, s, t, h => by
    simp only [processDefault, Check.pure_yields, Prod.mk.injEq] at h
    obtain ⟨⟨rfl, rfl⟩, rfl⟩ := h
    exact ⟨rfl, rfl, rfl, rfl⟩
  | some e, _, p, q, s, t, h => by
    simp only [processDefault, Check.bind_yields, Check.pure_yields, Prod.mk.injEq] at h
    obtain ⟨⟨e', p₁⟩, u, he, ⟨rfl, rfl⟩, rfl⟩ := h
    obtain ⟨rfl, rfl, rfl, hp⟩ := processSetFunctions_inside e he
    exact ⟨rfl, rfl, rfl, hp⟩
termination_by structural e => e

theorem processLetVariables_inside : ∀ (vs : List (Variable × Scalar))
    {vs' : List (Variable × Scalar)} {p q : SetFunctionProcessor} {s t : AnalyzerState ρ},
    processLetVariables env true vs p s = (some (vs', q), t) →
    Unchanged (hasAggregateBindings vs) vs vs' p q s t
  | [], _, p, q, s, t, h => by
    simp only [processLetVariables, Check.pure_yields, Prod.mk.injEq] at h
    obtain ⟨⟨rfl, rfl⟩, rfl⟩ := h
    exact ⟨rfl, rfl, rfl, rfl⟩
  | (v, value) :: rest, _, p, q, s, t, h => by
    simp only [processLetVariables, Check.bind_yields, Check.pure_yields, Prod.mk.injEq] at h
    obtain ⟨⟨e, p₁⟩, u, he, ⟨rest', p₂⟩, w, hrest, ⟨rfl, rfl⟩, rfl⟩ := h
    obtain ⟨rfl, rfl, rfl, hp⟩ := processSetFunctions_inside value he
    obtain ⟨rfl, rfl, rfl, hps⟩ := processLetVariables_inside rest hrest
    exact ⟨rfl, rfl, rfl, by rw [hasAggregateBindings, hp, hps]; rfl⟩
termination_by structural vs => vs

end

/-! ### Growth -/

/-- Different stream variables that were numbered from `n` up to `m`. -/
structure Numbered (n m : Nat) (vs : List Variable) : Prop where
  nodup : vs.Nodup
  between : ∀ v ∈ vs, ∃ k, v = .stream k ∧ n ≤ k ∧ k < m

namespace Numbered

variable {n m l : Nat} {vs ws : List Variable}

theorem nil (n m : Nat) : Numbered n m [] := ⟨.nil, fun _ h => nomatch h⟩

theorem single (n : Nat) : Numbered n (n + 1) [.stream n] :=
  ⟨List.pairwise_singleton _ _, fun _ hv => ⟨n, List.mem_singleton.mp hv, le_rfl, n.lt_succ_self⟩⟩

theorem widen (h : Numbered n m vs) {i j : Nat} (hi : i ≤ n) (hj : m ≤ j) : Numbered i j vs :=
  ⟨h.nodup, fun v hv => by
    obtain ⟨k, rfl, hn, hm⟩ := h.between v hv
    exact ⟨k, rfl, by omega, by omega⟩⟩

/-- Later variables are different from earlier ones. -/
theorem append (h : Numbered n m vs) (hw : Numbered m l ws) (hnm : n ≤ m) (hml : m ≤ l) :
    Numbered n l (vs ++ ws) where
  nodup := by
    refine List.nodup_append.mpr ⟨h.nodup, hw.nodup, fun v hv w hws heq => ?_⟩
    obtain ⟨i, rfl, -, hi⟩ := h.between v hv
    obtain ⟨j, rfl, hj, -⟩ := hw.between w hws
    cases heq
    omega
  between v hv := by
    obtain hv | hv := List.mem_append.mp hv
    · exact (h.widen le_rfl hml).between v hv
    · exact (hw.widen hnm le_rfl).between v hv

/-- What was numbered before is not among them. -/
theorem notMem_of_below (h : Numbered n m vs) {v : Variable} (hv : v.Below n) : v ∉ vs := by
  intro hmem
  obtain ⟨k, rfl, hk, -⟩ := h.between v hmem
  exact absurd hv (Nat.not_lt.mpr hk)

end Numbered

namespace SetFunctionProcessor

/-- Between the counters `n` and `m` a processor takes arguments and aggregations in, and changes
nothing else. -/
structure Grows (p : SetFunctionProcessor) (n : Nat) (q : SetFunctionProcessor) (m : Nat) : Prop where
  counter : n ≤ m
  active : p.active = true → q.active = true
  grouping : q.groupingColumns = p.groupingColumns
  keys : q.aggregationsStore.1 = p.aggregationsStore.1
  arguments : ∃ as, q.argumentColumns = p.argumentColumns ++ as ∧ Numbered n m (as.map Prod.fst) ∧
    ∀ a ∈ as, a.2.hasAggregate = false
  aggregates : ∃ cs, q.aggregationsStore.2 = p.aggregationsStore.2 ++ cs ∧
    Numbered n m (cs.map AggregateColumn.destination) ∧
    ∀ c ∈ cs, ∀ v ∈ c.arguments, v ∈ q.argumentColumns.map Prod.fst
  aggregated : ∃ vs, q.aggregatedColumns = p.aggregatedColumns ++ vs
  stored : p.aggregations.isSome = true → q.aggregations.isSome = true

namespace Grows

variable {p q r : SetFunctionProcessor} {n m l : Nat}

theorem refl (p : SetFunctionProcessor) {n m : Nat} (h : n ≤ m) : p.Grows n p m where
  counter := h
  active := id
  grouping := rfl
  keys := rfl
  arguments := ⟨[], (List.append_nil _).symm, .nil n m, fun _ ha => nomatch ha⟩
  aggregates := ⟨[], (List.append_nil _).symm, .nil n m, fun _ hc => nomatch hc⟩
  aggregated := ⟨[], (List.append_nil _).symm⟩
  stored := id

theorem trans (h : p.Grows n q m) (k : q.Grows m r l) : p.Grows n r l where
  counter := h.counter.trans k.counter
  active := k.active ∘ h.active
  grouping := k.grouping.trans h.grouping
  keys := k.keys.trans h.keys
  arguments := by
    obtain ⟨as, ha, hn, hp⟩ := h.arguments
    obtain ⟨bs, hb, hm, hq⟩ := k.arguments
    refine ⟨as ++ bs, by rw [hb, ha, List.append_assoc], ?_, fun a hab => ?_⟩
    · rw [List.map_append]
      exact hn.append hm h.counter k.counter
    · exact (List.mem_append.mp hab).elim (hp a) (hq a)
  aggregates := by
    obtain ⟨as, ha, hn, hp⟩ := h.aggregates
    obtain ⟨bs, hb, hm, hq⟩ := k.aggregates
    obtain ⟨xs, hx, -⟩ := k.arguments
    refine ⟨as ++ bs, by rw [hb, ha, List.append_assoc], ?_, fun c hc v hv => ?_⟩
    · rw [List.map_append]
      exact hn.append hm h.counter k.counter
    · obtain hc | hc := List.mem_append.mp hc
      · rw [hx, List.map_append]
        exact List.mem_append_left _ (hp c hc v hv)
      · exact hq c hc v hv
  aggregated := by
    obtain ⟨vs, hv⟩ := h.aggregated
    obtain ⟨ws, hw⟩ := k.aggregated
    exact ⟨vs ++ ws, by rw [hw, hv, List.append_assoc]⟩
  stored := k.stored ∘ h.stored

/-- What was accepted outside of set functions stays accepted. -/
theorem accepts (h : p.Grows n q m) {v : Variable} (hv : p.accepts false v = true) :
    q.accepts false v = true := by
  obtain ⟨vs, hvs⟩ := h.aggregated
  simp only [SetFunctionProcessor.accepts, Bool.false_eq_true, if_false, decide_eq_true_eq,
    h.grouping, hvs, List.mem_append] at hv ⊢
  exact hv.imp_right .inl

theorem argument_mem (h : p.Grows n q m) {a : Variable × Scalar} (ha : a ∈ p.argumentColumns) :
    a ∈ q.argumentColumns := by
  obtain ⟨as, he, -⟩ := h.arguments
  rw [he]
  exact List.mem_append_left _ ha

theorem aggregate_mem (h : p.Grows n q m) {c : AggregateColumn} (hc : c ∈ p.aggregationsStore.2) :
    c ∈ q.aggregationsStore.2 := by
  obtain ⟨cs, he, -⟩ := h.aggregates
  rw [he]
  exact List.mem_append_left _ hc

end Grows

/-- The aggregated columns that a processor knows: those of its aggregate operator, and `names`. -/
def Covered (p : SetFunctionProcessor) (names : List Variable) : Prop :=
  ∀ v, v ∈ p.aggregatedColumns ↔
    v ∈ p.aggregationsStore.2.map AggregateColumn.destination ∨ v ∈ names

theorem Covered.addAggregated {p : SetFunctionProcessor} {names : List Variable}
    (h : p.Covered names) (v : Variable) : (p.addAggregated v).Covered (names ++ [v]) := by
  intro w
  change w ∈ p.aggregatedColumns ++ [v] ↔ _
  rw [List.mem_append, List.mem_append, h w, or_assoc]
  rfl

end SetFunctionProcessor

/-! ### Consuming a call -/

/-- The call of a set function became a reference to a column of the aggregate operator, whose
arguments are columns of the projection for those of the call. -/
structure Replaced (function : AggregateDecl) (arguments : List Scalar) (e : Scalar)
    (q : SetFunctionProcessor) : Prop where
  column : ∃ c ∈ q.aggregationsStore.2, e = .variableReference c.destination ∧
    c.function = function ∧ List.Forall₂ (fun v a => (v, a) ∈ q.argumentColumns) c.arguments arguments

theorem replaceArguments_grows {arguments : List Scalar} {p q : SetFunctionProcessor}
    {replacements : List Variable} {s t : AnalyzerState ρ}
    (hplain : hasAggregateList arguments = false)
    (h : replaceArguments p arguments s = (some (replacements, q), t)) :
    p.Grows s.fresh q t.fresh ∧ q.aggregations = p.aggregations ∧
      q.aggregatedColumns = p.aggregatedColumns ∧
      List.Forall₂ (fun v a => (v, a) ∈ q.argumentColumns) replacements arguments := by
  induction arguments generalizing p replacements s with
  | nil =>
    simp only [replaceArguments, Check.pure_yields, Prod.mk.injEq] at h
    obtain ⟨⟨rfl, rfl⟩, rfl⟩ := h
    exact ⟨.refl p le_rfl, rfl, rfl, .nil⟩
  | cons e es ih =>
    simp only [replaceArguments, Check.bind_yields, Check.pure_yields, streamVariable_yields,
      Prod.mk.injEq] at h
    obtain ⟨_, _, ⟨rfl, rfl⟩, ⟨rs, q'⟩, u, hrest, ⟨rfl, rfl⟩, rfl⟩ := h
    rw [hasAggregateList, Bool.or_eq_false_iff] at hplain
    obtain ⟨hgrows, haggregations, haggregated, hforall⟩ := ih hplain.2 hrest
    have hfirst : p.Grows s.fresh { p with arguments := some (p.argumentColumns ++ [(.stream s.fresh, e)]) }
        (s.fresh + 1) :=
      { SetFunctionProcessor.Grows.refl p s.fresh.le_succ with
        arguments := ⟨[(.stream s.fresh, e)], rfl, .single s.fresh, fun a ha => by
          rw [List.mem_singleton.mp ha]
          exact hplain.1⟩
        aggregates := ⟨[], (List.append_nil _).symm, .nil _ _, fun _ hc => by cases hc⟩ }
    refine ⟨hfirst.trans hgrows, haggregations, haggregated, .cons ?_ hforall⟩
    refine hgrows.argument_mem ?_
    change _ ∈ p.argumentColumns ++ [_]
    exact List.mem_append_right _ List.mem_cons_self

theorem consume_grows {function : AggregateDecl} {arguments : List Scalar}
    {p q : SetFunctionProcessor} {e : Scalar} {s t : AnalyzerState ρ}
    (hplain : hasAggregateList arguments = false)
    (h : consume env p function arguments s = (some (e, q), t)) :
    p.Grows s.fresh q t.fresh ∧ q.aggregations.isSome = true ∧
      (∀ names, p.Covered names → q.Covered names) ∧ Replaced function arguments e q := by
  simp only [consume, Check.bind_yields, clearExpressionResolution, Check.modify_yields] at h
  obtain ⟨-, _, rfl, ⟨rs, p₁⟩, u, hreplace, h⟩ := h
  obtain ⟨hgrows, haggregations, haggregated, hforall⟩ :=
    replaceArguments_grows hplain hreplace
  have hactivate : p.Grows s.fresh p.activate s.fresh :=
    { SetFunctionProcessor.Grows.refl p le_rfl with active := fun _ => rfl }
  have hgrows := hactivate.trans hgrows
  have hcovered : ∀ names, p.Covered names → p₁.Covered names := by
    intro names hp v
    rw [haggregated, SetFunctionProcessor.aggregationsStore, haggregations]
    exact hp v
  dsimp only at h
  rcases hfind : p₁.findAggregation function rs with _ | existing
  · simp only [hfind, Check.bind_yields, streamVariable_yields, Check.pure_yields,
      Prod.mk.injEq] at h
    obtain ⟨_, _, ⟨rfl, rfl⟩, ⟨rfl, rfl⟩, rfl⟩ := h
    refine ⟨hgrows.trans ?_, rfl, fun names hp v => ?_,
      ⟨⟨function, rs, .stream u.fresh⟩, ?_, rfl, rfl, hforall⟩⟩
    · exact
        { counter := u.fresh.le_succ
          active := id
          grouping := rfl
          keys := rfl
          arguments := ⟨[], (List.append_nil _).symm, .nil _ _, fun _ ha => by cases ha⟩
          aggregates := ⟨[⟨function, rs, .stream u.fresh⟩], rfl, .single u.fresh, fun c hc v hv => by
            rw [List.mem_singleton.mp hc] at hv
            obtain ⟨i, hi, rfl⟩ := List.mem_iff_getElem.mp hv
            have ha := (List.forall₂_iff_get.mp hforall).2 i hi
              (by rw [← hforall.length_eq]; exact hi)
            exact List.mem_map.mpr ⟨_, ha, rfl⟩⟩
          aggregated := ⟨[.stream u.fresh], rfl⟩
          stored := fun _ => rfl }
    · change v ∈ p₁.aggregatedColumns ++ [.stream u.fresh] ↔
        v ∈ (p₁.aggregationsStore.2 ++ [_]).map AggregateColumn.destination ∨ v ∈ names
      rw [List.map_append, List.mem_append, List.mem_append, hcovered names hp v, or_right_comm]
      rfl
    · exact List.mem_append_right _ List.mem_cons_self
  · simp only [hfind, Check.pure_yields, Prod.mk.injEq] at h
    obtain ⟨⟨rfl, rfl⟩, rfl⟩ := h
    obtain ⟨c, hc, rfl⟩ := Option.map_eq_some_iff.mp hfind
    have hmem := List.mem_of_find?_eq_some hc
    have hfound := List.find?_some hc
    obtain ⟨hfunction, harguments⟩ := of_decide_eq_true hfound
    refine ⟨hgrows.trans ?_, rfl, hcovered, ⟨c, hmem, rfl, hfunction, ?_⟩⟩
    · exact { SetFunctionProcessor.Grows.refl p₁ le_rfl with stored := fun _ => rfl }
    · rw [harguments]
      exact hforall

/-- The arguments of the call are moved, as they are, to the projection. -/
theorem replaceArguments_moved {arguments : List Scalar} {p q : SetFunctionProcessor}
    {replacements : List Variable} {s t : AnalyzerState ρ}
    (h : replaceArguments p arguments s = (some (replacements, q), t)) :
    variablesBindings q.argumentColumns ⊆
        variablesBindings p.argumentColumns ++ variablesList arguments ∧
      subqueriesBindings q.argumentColumns ⊆
        subqueriesBindings p.argumentColumns ++ subqueriesList arguments := by
  induction arguments generalizing p replacements s with
  | nil =>
    simp only [replaceArguments, Check.pure_yields, Prod.mk.injEq] at h
    obtain ⟨⟨rfl, rfl⟩, rfl⟩ := h
    exact ⟨List.subset_append_left _ _, List.subset_append_left _ _⟩
  | cons e es ih =>
    simp only [replaceArguments, Check.bind_yields, Check.pure_yields, streamVariable_yields,
      Prod.mk.injEq] at h
    obtain ⟨_, _, ⟨rfl, rfl⟩, ⟨rs, q'⟩, u, hrest, ⟨rfl, rfl⟩, rfl⟩ := h
    obtain ⟨hvariables, hsubqueries⟩ := ih hrest
    have hcolumns : ({ p with arguments := some (p.argumentColumns ++ [(.stream s.fresh, e)]) } :
        SetFunctionProcessor).argumentColumns = p.argumentColumns ++ [(.stream s.fresh, e)] := rfl
    rw [hcolumns, variablesBindings_append] at hvariables
    rw [hcolumns, subqueriesBindings_append] at hsubqueries
    refine ⟨List.Subset.trans hvariables ?_, List.Subset.trans hsubqueries ?_⟩
    · simp [variablesBindings, variablesList]
    · simp [subqueriesBindings, subqueriesList]

theorem consume_moved {function : AggregateDecl} {arguments : List Scalar}
    {p q : SetFunctionProcessor} {e : Scalar} {s t : AnalyzerState ρ}
    (h : consume env p function arguments s = (some (e, q), t)) :
    variablesBindings q.argumentColumns ⊆
        variablesBindings p.argumentColumns ++ variablesList arguments ∧
      subqueriesBindings q.argumentColumns ⊆
        subqueriesBindings p.argumentColumns ++ subqueriesList arguments := by
  simp only [consume, Check.bind_yields, clearExpressionResolution, Check.modify_yields] at h
  obtain ⟨-, _, rfl, ⟨rs, p₁⟩, u, hreplace, h⟩ := h
  have hmoved := replaceArguments_moved hreplace
  dsimp only at h
  cases hfind : p₁.findAggregation function rs with
  | none =>
    simp only [hfind, Check.bind_yields, Check.pure_yields, Prod.mk.injEq] at h
    obtain ⟨v, w, -, ⟨-, rfl⟩, -⟩ := h
    exact hmoved
  | some existing =>
    simp only [hfind, Check.pure_yields, Prod.mk.injEq] at h
    obtain ⟨⟨-, rfl⟩, -⟩ := h
    exact hmoved

/-! ### Outside of set functions -/

/-- A run outside of set functions: `contains` tells whether there were set functions, `contains'`
whether some are left. The result reads `vars'`, where the expression read `vars`, and the graphs
`nodes'` are nested in it, of those `nodes` that were nested in the expression; what is moved to the
arguments is of the expression too. The columns `added` count as aggregated from then on. -/
structure Processed (contains contains' : Bool) (vars vars' : List Variable)
    (nodes nodes' : List SubqueryNode) (added : List Variable) (p q : SetFunctionProcessor)
    (s t : AnalyzerState ρ) : Prop where
  grows : p.Grows s.fresh q t.fresh
  quiet : Quiet s t
  stored : q.aggregations.isSome = (p.aggregations.isSome || contains)
  kept : contains = false → q.arguments = p.arguments ∧ q.aggregations = p.aggregations
  covered : ∀ names, p.Covered names → q.Covered (names ++ added)
  plain : contains' = false
  checked : ∀ names, p.Covered names → ∀ v ∈ vars', v.isStream = true → q.accepts false v = true
  reads : ∀ v ∈ vars', v ∈ vars ∨ v ∈ q.aggregationsStore.2.map AggregateColumn.destination
  moved : variablesBindings q.argumentColumns ⊆ variablesBindings p.argumentColumns ++ vars
  nested : nodes' ⊆ nodes
  movedNodes : subqueriesBindings q.argumentColumns ⊆ subqueriesBindings p.argumentColumns ++ nodes

namespace Processed

variable {p q r : SetFunctionProcessor} {s t u : AnalyzerState ρ} {c c' d d' : Bool}
  {f f' g g' a b : List Variable} {ns ns' ms ms' : List SubqueryNode}

/-- Nothing changes but what is checked. -/
theorem check (s : AnalyzerState ρ) (ns : List SubqueryNode)
    (h : ∀ v ∈ f, v.isStream = true → p.accepts false v = true) :
    Processed false false f f ns ns [] p p s s where
  grows := .refl p le_rfl
  quiet := Check.Frame.refl s
  stored := (Bool.or_false _).symm
  kept _ := ⟨rfl, rfl⟩
  covered names hp := by rwa [List.append_nil]
  plain := rfl
  checked _ _ := h
  reads _ := .inl
  moved := List.subset_append_left _ _
  nested := List.Subset.refl _
  movedNodes := List.subset_append_left _ _

theorem nil (p : SetFunctionProcessor) (s : AnalyzerState ρ) :
    Processed false false [] [] [] [] [] p p s s :=
  check s [] fun _ h => nomatch h

theorem trans (h : Processed c c' f f' ns ns' a p q s t)
    (k : Processed d d' g g' ms ms' b q r t u) :
    Processed (c || d) (c' || d') (f ++ g) (f' ++ g') (ns ++ ms) (ns' ++ ms') (a ++ b) p r s u where
  grows := h.grows.trans k.grows
  quiet := Check.Frame.trans h.quiet k.quiet
  stored := by rw [k.stored, h.stored, Bool.or_assoc]
  kept hcd := by
    rw [Bool.or_eq_false_iff] at hcd
    exact ⟨(k.kept hcd.2).1.trans (h.kept hcd.1).1, (k.kept hcd.2).2.trans (h.kept hcd.1).2⟩
  covered names hp := by
    have hcovered := k.covered _ (h.covered names hp)
    rwa [List.append_assoc] at hcovered
  plain := by rw [h.plain, k.plain]; rfl
  checked names hp v hv hs := by
    obtain hv | hv := List.mem_append.mp hv
    · exact k.grows.accepts (h.checked names hp v hv hs)
    · exact k.checked _ (h.covered names hp) v hv hs
  reads v hv := by
    obtain hv | hv := List.mem_append.mp hv
    · refine (h.reads v hv).imp (List.mem_append_left _) fun hd => ?_
      obtain ⟨c, hc, rfl⟩ := List.mem_map.mp hd
      exact List.mem_map_of_mem (k.grows.aggregate_mem hc)
    · exact (k.reads v hv).imp_left (List.mem_append_right _)
  moved v hv := by
    have hmoved := k.moved hv
    rw [List.mem_append] at hmoved
    obtain hq | hg := hmoved
    · have hp := h.moved hq
      simp only [List.mem_append] at hp ⊢
      exact hp.imp_right .inl
    · exact List.mem_append_right _ (List.mem_append_right _ hg)
  nested n hn := by
    obtain hn | hn := List.mem_append.mp hn
    · exact List.mem_append_left _ (h.nested hn)
    · exact List.mem_append_right _ (k.nested hn)
  movedNodes n hn := by
    have hmoved := k.movedNodes hn
    rw [List.mem_append] at hmoved
    obtain hq | hg := hmoved
    · have hp := h.movedNodes hq
      simp only [List.mem_append] at hp ⊢
      exact hp.imp_right .inl
    · exact List.mem_append_right _ (List.mem_append_right _ hg)

/-- Variables and graphs in another order. -/
theorem reorder (h : Processed c c' f f' ns ns' a p q s t) (hf : f ⊆ g) (hg : g' ⊆ f')
    (hn : ns ⊆ ms) (hm : ms' ⊆ ns') : Processed c c' g g' ms ms' a p q s t :=
  { h with
    checked := fun names hp v hv => h.checked names hp v (hg hv)
    reads := fun v hv => (h.reads v (hg hv)).imp_left fun hv => hf hv
    moved := fun _ hv => (List.mem_append.mp (h.moved hv)).elim (List.mem_append_left _)
      fun hv => List.mem_append_right _ (hf hv)
    nested := fun _ hmem => hn (h.nested (hm hmem))
    movedNodes := fun _ hmem => (List.mem_append.mp (h.movedNodes hmem)).elim
      (List.mem_append_left _) fun hmem => List.mem_append_right _ (hn hmem) }

end Processed

mutual

theorem processSetFunctions_processed : ∀ (e : Scalar) {e' : Scalar} {p q : SetFunctionProcessor}
    {s t : AnalyzerState ρ}, processSetFunctions env false e p s = (some (e', q), t) →
    Processed e.hasAggregate e'.hasAggregate e.variables e'.variables e.subqueries e'.subqueries
      [] p q s t
  | .immediate value type, _, p, q, s, t, h => by
    simp only [processSetFunctions, Check.pure_yields, Prod.mk.injEq] at h
    obtain ⟨⟨rfl, rfl⟩, rfl⟩ := h
    exact .nil p s
  | .variableReference v, _, p, q, s, t, h => by
    simp only [processSetFunctions, Check.bind_yields, Check.pure_yields, Prod.mk.injEq] at h
    obtain ⟨_, u, hc, ⟨rfl, rfl⟩, rfl⟩ := h
    obtain ⟨rfl, hv⟩ := checkReference_yields hc
    exact .check _ [] fun w hw => by rwa [List.mem_singleton.mp hw]
  | .cast type policy operand, _, p, q, s, t, h => by
    simp only [processSetFunctions, Check.bind_yields, Check.pure_yields, Prod.mk.injEq] at h
    obtain ⟨⟨e, p₁⟩, u, he, ⟨rfl, rfl⟩, rfl⟩ := h
    have hoperand := processSetFunctions_processed operand he
    exact hoperand
  | .unary op operand, _, p, q, s, t, h => by
    simp only [processSetFunctions, Check.bind_yields, Check.pure_yields, Prod.mk.injEq] at h
    obtain ⟨⟨e, p₁⟩, u, he, ⟨rfl, rfl⟩, rfl⟩ := h
    have hoperand := processSetFunctions_processed operand he
    exact hoperand
  | .binary op left right, _, p, q, s, t, h => by
    simp only [processSetFunctions, Check.bind_yields, Check.pure_yields, Prod.mk.injEq] at h
    obtain ⟨⟨l, p₁⟩, u, hl, ⟨r, p₂⟩, v, hr, ⟨rfl, rfl⟩, rfl⟩ := h
    exact (processSetFunctions_processed left hl).trans (processSetFunctions_processed right hr)
  | .compare op left right, _, p, q, s, t, h => by
    simp only [processSetFunctions, Check.bind_yields, Check.pure_yields, Prod.mk.injEq] at h
    obtain ⟨⟨l, p₁⟩, u, hl, ⟨r, p₂⟩, v, hr, ⟨rfl, rfl⟩, rfl⟩ := h
    exact (processSetFunctions_processed left hl).trans (processSetFunctions_processed right hr)
  | .match_ op input pattern escape, _, p, q, s, t, h => by
    simp only [processSetFunctions, Check.bind_yields, Check.pure_yields, Prod.mk.injEq] at h
    obtain ⟨⟨i, p₁⟩, u, hi, ⟨m, p₂⟩, v, hm, ⟨e, p₃⟩, w, he, ⟨rfl, rfl⟩, rfl⟩ := h
    exact ((processSetFunctions_processed input hi).trans
      (processSetFunctions_processed pattern hm)).trans (processSetFunctions_processed escape he)
  | .conditional alternatives default_, _, p, q, s, t, h => by
    simp only [processSetFunctions, Check.bind_yields, Check.pure_yields, Prod.mk.injEq] at h
    obtain ⟨⟨as, p₁⟩, u, ha, ⟨d, p₂⟩, v, hd, ⟨rfl, rfl⟩, rfl⟩ := h
    exact (processAlternatives_processed alternatives ha).trans
      (processDefault_processed default_ hd)
  | .coalesce alternatives, _, p, q, s, t, h => by
    simp only [processSetFunctions, Check.bind_yields, Check.pure_yields, Prod.mk.injEq] at h
    obtain ⟨⟨es, p₁⟩, u, he, ⟨rfl, rfl⟩, rfl⟩ := h
    exact processOperands_processed alternatives he
  | .let_ variables_ body, _, p, q, s, t, h => by
    simp only [processSetFunctions, Check.bind_yields, Check.pure_yields, Prod.mk.injEq] at h
    obtain ⟨⟨vs, p₁⟩, u, hv, ⟨e, p₂⟩, v, he, ⟨rfl, rfl⟩, rfl⟩ := h
    exact (processLetVariables_processed variables_ hv).trans (processSetFunctions_processed body he)
  | .functionCall function arguments, _, p, q, s, t, h => by
    simp only [processSetFunctions, Check.bind_yields, Check.pure_yields, Prod.mk.injEq] at h
    obtain ⟨⟨es, p₁⟩, u, he, ⟨rfl, rfl⟩, rfl⟩ := h
    exact processOperands_processed arguments he
  | .aggregateFunctionCall function arguments, _, p, q, s, t, h => by
    simp only [processSetFunctions, Bool.false_eq_true, if_false, Check.bind_yields] at h
    obtain ⟨⟨es, p₁⟩, u, he, h⟩ := h
    obtain ⟨rfl, rfl, rfl, hplain⟩ := processOperands_inside arguments he
    have hmoved := consume_moved h
    obtain ⟨hgrows, hstored, hcovered, ⟨c, hc, rfl, -⟩⟩ := consume_grows hplain h
    refine ⟨hgrows, consume_quiet _ _ _ _ h, ?_, fun hc => (nomatch hc),
      fun names hp => by rw [List.append_nil]; exact hcovered names hp, rfl, fun names hp v hv _ => ?_,
      fun v hv => .inr ?_, hmoved.1, fun _ hn => (nomatch hn), hmoved.2⟩
    · rw [hstored, Scalar.hasAggregate, Bool.or_true]
    · rw [List.mem_singleton.mp hv]
      simp only [SetFunctionProcessor.accepts, Bool.false_eq_true, if_false, decide_eq_true_eq]
      exact .inr ((hcovered names hp _).mpr (.inl (List.mem_map_of_mem hc)))
    · rw [List.mem_singleton.mp hv]
      exact List.mem_map_of_mem hc
  | .subquery graph parameters outputColumn, _, p, q, s, t, h => by
    simp only [processSetFunctions, Check.bind_yields, Check.pure_yields, Prod.mk.injEq] at h
    obtain ⟨_, u, hc, ⟨rfl, rfl⟩, rfl⟩ := h
    obtain ⟨rfl, hv⟩ := checkParameters_yields hc
    exact .check _ _ fun v hmem _ => hv v hmem
  | .exists_ graph parameters, _, p, q, s, t, h => by
    simp only [processSetFunctions, Check.bind_yields, Check.pure_yields, Prod.mk.injEq] at h
    obtain ⟨_, u, hc, ⟨rfl, rfl⟩, rfl⟩ := h
    obtain ⟨rfl, hv⟩ := checkParameters_yields hc
    exact .check _ _ fun v hmem _ => hv v hmem
  | .quantifiedCompare op quantifier left graph parameters rightColumn, _, p, q, s, t, h => by
    simp only [processSetFunctions, Check.bind_yields, Check.pure_yields, Prod.mk.injEq] at h
    obtain ⟨_, u, hc, ⟨l, p₁⟩, v, hl, ⟨rfl, rfl⟩, rfl⟩ := h
    obtain ⟨rfl, hv⟩ := checkParameters_yields hc
    have hparameters := Processed.check (f := parameters.map Prod.fst) u [⟨graph, parameters⟩]
      fun v hmem _ => hv v hmem
    refine (hparameters.trans (processSetFunctions_processed left hl)).reorder ?_ ?_ ?_ ?_
    all_goals exact fun x hx => List.mem_append.mpr (List.mem_append.mp hx).symm
termination_by structural e => e

theorem processOperands_processed : ∀ (es : List Scalar) {es' : List Scalar}
    {p q : SetFunctionProcessor} {s t : AnalyzerState ρ},
    processOperands env false es p s = (some (es', q), t) →
    Processed (hasAggregateList es) (hasAggregateList es') (variablesList es) (variablesList es')
      (subqueriesList es) (subqueriesList es') [] p q s t
  | [], _, p, q, s, t, h => by
    simp only [processOperands, Check.pure_yields, Prod.mk.injEq] at h
    obtain ⟨⟨rfl, rfl⟩, rfl⟩ := h
    exact .nil p s
  | e :: es, _, p, q, s, t, h => by
    simp only [processOperands, Check.bind_yields, Check.pure_yields, Prod.mk.injEq] at h
    obtain ⟨⟨e', p₁⟩, u, he, ⟨es', p₂⟩, v, hes, ⟨rfl, rfl⟩, rfl⟩ := h
    exact (processSetFunctions_processed e he).trans (processOperands_processed es hes)
termination_by structural es => es

theorem processAlternatives_processed : ∀ (as : List (Scalar × Scalar))
    {as' : List (Scalar × Scalar)} {p q : SetFunctionProcessor} {s t : AnalyzerState ρ},
    processAlternatives env false as p s = (some (as', q), t) →
    Processed (hasAggregatePairs as) (hasAggregatePairs as') (variablesPairs as) (variablesPairs as')
      (subqueriesPairs as) (subqueriesPairs as') [] p q s t
  | [], _, p, q, s, t, h => by
    simp only [processAlternatives, Check.pure_yields, Prod.mk.injEq] at h
    obtain ⟨⟨rfl, rfl⟩, rfl⟩ := h
    exact .nil p s
  | (condition, body) :: rest, _, p, q, s, t, h => by
    simp only [processAlternatives, Check.bind_yields, Check.pure_yields, Prod.mk.injEq] at h
    obtain ⟨⟨c, p₁⟩, u, hc, ⟨b, p₂⟩, v, hb, ⟨rest', p₃⟩, w, hrest, ⟨rfl, rfl⟩, rfl⟩ := h
    exact ((processSetFunctions_processed condition hc).trans
      (processSetFunctions_processed body hb)).trans (processAlternatives_processed rest hrest)
termination_by structural as => as

theorem processDefault_processed : ∀ (e : Option Scalar) {e' : Option Scalar}
    {p q : SetFunctionProcessor} {s t : AnalyzerState ρ},
    processDefault env false e p s = (some (e', q), t) →
    Processed (hasAggregateOption e) (hasAggregateOption e') (variablesOption e) (variablesOption e')
      (subqueriesOption e) (subqueriesOption e') [] p q s t
  | none, _, p, q, s, t, h => by
    simp only [processDefault, Check.pure_yields, Prod.mk.injEq] at h
    obtain ⟨⟨rfl, rfl⟩, rfl⟩ := h
    exact .nil p s
  | some e, _, p, q, s, t, h => by
    simp only [processDefault, Check.bind_yields, Check.pure_yields, Prod.mk.injEq] at h
    obtain ⟨⟨e', p₁⟩, u, he, ⟨rfl, rfl⟩, rfl⟩ := h
    exact processSetFunctions_processed e he
termination_by structural e => e

theorem processLetVariables_processed : ∀ (vs : List (Variable × Scalar))
    {vs' : List (Variable × Scalar)} {p q : SetFunctionProcessor} {s t : AnalyzerState ρ},
    processLetVariables env false vs p s = (some (vs', q), t) →
    Processed (hasAggregateBindings vs) (hasAggregateBindings vs') (variablesBindings vs)
      (variablesBindings vs') (subqueriesBindings vs) (subqueriesBindings vs') [] p q s t
  | [], _, p, q, s, t, h => by
    simp only [processLetVariables, Check.pure_yields, Prod.mk.injEq] at h
    obtain ⟨⟨rfl, rfl⟩, rfl⟩ := h
    exact .nil p s
  | (v, value) :: rest, _, p, q, s, t, h => by
    simp only [processLetVariables, Check.bind_yields, Check.pure_yields, Prod.mk.injEq] at h
    obtain ⟨⟨e, p₁⟩, u, he, ⟨rest', p₂⟩, w, hrest, ⟨rfl, rfl⟩, rfl⟩ := h
    exact (processSetFunctions_processed value he).trans (processLetVariables_processed rest hrest)
termination_by structural vs => vs

end

/-! ### Columns -/

theorem Processed.addAggregated {c c' : Bool} {f f' a : List Variable} {ns ns' : List SubqueryNode}
    {p q : SetFunctionProcessor} {s t : AnalyzerState ρ}
    (h : Processed c c' f f' ns ns' a p q s t) (v : Variable) :
    Processed c c' f f' ns ns' (a ++ [v]) p (q.addAggregated v) s t :=
  { h with
    grows := h.grows.trans
      { SetFunctionProcessor.Grows.refl q le_rfl with aggregated := ⟨[v], rfl⟩ }
    covered := fun names hp => by
      have hcovered := (h.covered names hp).addAggregated v
      rwa [List.append_assoc] at hcovered
    checked := fun names hp w hw hs => by
      have haccepts := h.checked names hp w hw hs
      simp only [SetFunctionProcessor.accepts, Bool.false_eq_true, if_false, decide_eq_true_eq,
        SetFunctionProcessor.addAggregated, List.mem_append] at haccepts ⊢
      exact haccepts.imp_right .inl }

theorem processColumns_processed {columns columns' : List (Variable × Scalar)}
    {p q : SetFunctionProcessor} {s t : AnalyzerState ρ}
    (h : processColumns env columns p s = (some (columns', q), t)) :
    columns'.map Prod.fst = columns.map Prod.fst ∧
      Processed (hasAggregateBindings columns) (hasAggregateBindings columns')
        (variablesBindings columns) (variablesBindings columns') (subqueriesBindings columns)
        (subqueriesBindings columns') (columns.map Prod.fst) p q s t := by
  induction columns generalizing p columns' s with
  | nil =>
    simp only [processColumns, Check.pure_yields, Prod.mk.injEq] at h
    obtain ⟨⟨rfl, rfl⟩, rfl⟩ := h
    exact ⟨rfl, .nil p s⟩
  | cons column columns ih =>
    obtain ⟨v, e⟩ := column
    simp only [processColumns, Check.bind_yields, Check.pure_yields, Prod.mk.injEq] at h
    obtain ⟨⟨e', p₁⟩, u, he, ⟨rest, p₂⟩, w, hrest, ⟨rfl, rfl⟩, rfl⟩ := h
    obtain ⟨hnames, hprocessed⟩ := ih hrest
    refine ⟨by rw [List.map_cons, List.map_cons, hnames], ?_⟩
    exact ((processSetFunctions_processed e he).addAggregated v).trans hprocessed

end Mizugaki.Analyzer
