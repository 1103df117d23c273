import Mizugaki.Aggregation.EngineMark
import Mizugaki.Aggregation.Rewrite

/-! The set functions of a query block, taken out of its clauses into one processor. On a row of the
aggregate operator each expression that is left has the value that the original one has over the
group, and reads nothing new but aggregated values. -/

namespace Mizugaki.Plan

theorem append_subset_append {as bs cs ds : List Variable} (h : as ⊆ cs) (k : bs ⊆ ds) :
    as ++ bs ⊆ cs ++ ds :=
  List.append_subset.mpr ⟨List.subset_append_of_subset_left _ h,
    List.subset_append_of_subset_right _ k⟩

mutual

/-- What an expression does not bind is among its variables. -/
theorem Scalar.free_subset : ∀ e : Scalar, e.free ⊆ e.variables
  | .immediate _ _ => List.Subset.refl _
  | .variableReference _ => List.Subset.refl _
  | .cast _ _ operand => Scalar.free_subset operand
  | .unary _ operand => Scalar.free_subset operand
  | .binary _ left right => append_subset_append (Scalar.free_subset left) (Scalar.free_subset right)
  | .compare _ left right => append_subset_append (Scalar.free_subset left) (Scalar.free_subset right)
  | .match_ _ input pattern escape => append_subset_append
      (append_subset_append (Scalar.free_subset input) (Scalar.free_subset pattern))
      (Scalar.free_subset escape)
  | .conditional alternatives default_ =>
    append_subset_append (freePairs_subset alternatives) (freeOption_subset default_)
  | .coalesce alternatives => freeList_subset alternatives
  | .let_ variables_ body => freeBindings_subset variables_ (Scalar.free_subset body)
  | .functionCall _ arguments => freeList_subset arguments
  | .aggregateFunctionCall _ arguments => freeList_subset arguments
  | .subquery _ _ _ => List.Subset.refl _
  | .exists_ _ _ => List.Subset.refl _
  | .quantifiedCompare _ _ left _ _ _ =>
    append_subset_append (Scalar.free_subset left) (List.Subset.refl _)
termination_by structural e => e

theorem freeList_subset : ∀ es : List Scalar, freeList es ⊆ variablesList es
  | [] => List.Subset.refl _
  | e :: es => append_subset_append (Scalar.free_subset e) (freeList_subset es)
termination_by structural es => es

theorem freeOption_subset : ∀ e : Option Scalar, freeOption e ⊆ variablesOption e
  | none => List.Subset.refl _
  | some e => Scalar.free_subset e
termination_by structural e => e

theorem freePairs_subset : ∀ pairs : List (Scalar × Scalar), freePairs pairs ⊆ variablesPairs pairs
  | [] => List.Subset.refl _
  | (a, b) :: rest => append_subset_append
      (append_subset_append (Scalar.free_subset a) (Scalar.free_subset b)) (freePairs_subset rest)
termination_by structural pairs => pairs

theorem freeBindings_subset : ∀ (bindings : List (Variable × Scalar)) {read vs : List Variable},
    read ⊆ vs → freeBindings bindings read ⊆ variablesBindings bindings ++ vs
  | [], _, _, h => h
  | (_, e) :: rest, _, _, h => by
    rw [freeBindings, variablesBindings, List.append_assoc]
    exact append_subset_append (Scalar.free_subset e)
      (List.Subset.trans List.filter_sublist.subset (freeBindings_subset rest h))
termination_by structural bindings => bindings

end

end Mizugaki.Plan

namespace Mizugaki.Analyzer

open Mizugaki.Plan Mizugaki.Relation Mizugaki.Control

variable {ρ α : Type} {env : Environment ρ} {I : Interpretation α}

/-- An expression whose set functions a processor aggregates. -/
structure Rewritten (I : Interpretation α) (f : SetFunctionProcessor) (x y : Scalar) : Prop where
  value : ∀ (group : List (Row Variable α)) (row : Row Variable α),
    y.eval I [] [] (extend row (f.aggregatedValues I group)) = x.eval I group [] row
  plain : y.hasAggregate = false
  reads : ∀ v ∈ y.variables,
    v ∈ x.variables ∨ v ∈ f.aggregationsStore.2.map AggregateColumn.destination

namespace Rewritten

variable {f : SetFunctionProcessor} {x y : Scalar}

/-- An expression without set functions stays as it is when nothing is aggregated. -/
theorem plainly (hx : x.hasAggregate = false) (hf : f.aggregationsStore.2 = []) :
    Rewritten I f x x where
  value group row := by
    have hvalues : f.aggregatedValues I group = [] := by
      rw [SetFunctionProcessor.aggregatedValues, hf]
      rfl
    rw [hvalues]
    exact Scalar.eval_congr x hx fun _ _ => rfl
  plain := hx
  reads _ hv := .inl hv

theorem of_run {n m : ℕ} (hf : f.Settled n m) {p q : SetFunctionProcessor}
    {s t : AnalyzerState ρ} (h : processSetFunctions env false x p s = (some (y, q), t))
    (hq : q.Within f) (hx : x.AllVariables f.Apart) (havoids : x.ArgumentsAvoid []) :
    Rewritten I f x y := by
  have hprocessed := processSetFunctions_processed x h
  refine ⟨fun group row => processSetFunctions_value hf group x h hq hx [] row havoids,
    hprocessed.plain, fun v hv => (hprocessed.reads v hv).imp_right fun hv => ?_⟩
  exact List.map_subset _ hq.aggregates hv

/-- Where a row differs in what neither the expression reads nor is aggregated, the value is the
same. -/
theorem congr (h : Rewritten I f x y) {P : Variable → Prop} (hx : x.AllVariables P)
    {row row' : Row Variable α} (hP : ∀ v, P v → row v = row' v)
    (hdestinations : ∀ v ∈ f.aggregationsStore.2.map AggregateColumn.destination, row v = row' v) :
    y.eval I [] [] row = y.eval I [] [] row' := by
  refine Scalar.eval_congr y h.plain fun v hv => ?_
  obtain hv | hv := h.reads v (y.free_subset hv)
  · exact hP v (hx.of_mem v hv)
  · exact hdestinations v hv

end Rewritten

/-- Columns of a projection whose set functions a processor aggregates. -/
def RewrittenColumns (I : Interpretation α) (f : SetFunctionProcessor) :
    List (Variable × Scalar) → List (Variable × Scalar) → Prop :=
  List.Forall₂ fun c d => d.1 = c.1 ∧ Rewritten I f c.2 d.2

namespace RewrittenColumns

variable {f : SetFunctionProcessor} {columns columns' : List (Variable × Scalar)}

theorem names (h : RewrittenColumns I f columns columns') :
    columns'.map Prod.fst = columns.map Prod.fst := by
  induction h with
  | nil => rfl
  | cons hc _ ih => rw [List.map_cons, List.map_cons, hc.1, ih]

theorem exists_of_mem (h : RewrittenColumns I f columns columns') {v : Variable} {x : Scalar}
    (hx : (v, x) ∈ columns) : ∃ y, (v, y) ∈ columns' ∧ Rewritten I f x y := by
  induction h with
  | nil => cases hx
  | @cons c d _ _ hc _ ih =>
    obtain rfl | hx := List.mem_cons.mp hx
    · obtain ⟨w, y⟩ := d
      obtain rfl : w = v := hc.1
      exact ⟨y, List.mem_cons_self, hc.2⟩
    · obtain ⟨y, hy, hrewritten⟩ := ih hx
      exact ⟨y, List.mem_cons_of_mem _ hy, hrewritten⟩

/-- Columns without set functions stay as they are when nothing is aggregated. -/
theorem plainly (hcolumns : hasAggregateBindings columns = false)
    (hf : f.aggregationsStore.2 = []) : RewrittenColumns I f columns columns :=
  List.forall₂_same.mpr fun c hc =>
    ⟨rfl, .plainly (hasAggregateBindings_eq_false.mp hcolumns c hc) hf⟩

theorem of_run {n m : ℕ} (hf : f.Settled n m) {p q : SetFunctionProcessor} {s t : AnalyzerState ρ}
    (h : processColumns env columns p s = (some (columns', q), t)) (hq : q.Within f)
    (hcolumns : ∀ c ∈ columns, c.2.AllVariables f.Apart ∧ c.2.ArgumentsAvoid []) :
    RewrittenColumns I f columns columns' := by
  induction columns generalizing columns' p s with
  | nil =>
    simp only [processColumns, Check.pure_yields, Prod.mk.injEq] at h
    obtain ⟨⟨rfl, -⟩, -⟩ := h
    exact .nil
  | cons c columns ih =>
    obtain ⟨v, x⟩ := c
    obtain ⟨⟨hx, havoids⟩, hrest⟩ := List.forall_mem_cons.mp hcolumns
    simp only [processColumns, Check.bind_yields, Check.pure_yields, Prod.mk.injEq] at h
    obtain ⟨⟨y, p₁⟩, u, hy, ⟨rest, p₂⟩, w, hcolumnsRun, ⟨rfl, rfl⟩, rfl⟩ := h
    have hadded : (p₁.addAggregated v).Within f :=
      (processColumns_processed hcolumnsRun).2.grows.within.trans hq
    have hp₁ : p₁.Within f := ⟨hadded.arguments, hadded.aggregates⟩
    exact .cons ⟨rfl, .of_run hf hy hp₁ hx havoids⟩ (ih hcolumnsRun hrest)

end RewrittenColumns

/-! ### The block -/

/-- A query block whose set functions were taken out of its projections. -/
structure QueryBlock.Rewritten (I : Interpretation α) (b : QueryBlock) (p : SetFunctionProcessor)
    (n : ℕ) (b' : QueryBlock) (q : SetFunctionProcessor) (m : ℕ) : Prop where
  grows : p.Grows n q m
  stored : q.aggregations.isSome = (p.aggregations.isSome ||
    (hasAggregateBindings b.columns || hasAggregateBindings (sortColumns b.sort)))
  kept : (hasAggregateBindings b.columns || hasAggregateBindings (sortColumns b.sort)) = false →
    q.arguments = p.arguments ∧ q.aggregations = p.aggregations
  having : b'.having = b.having
  distinct : b'.distinct = b.distinct
  limit : b'.limit = b.limit
  sorted : b'.sort.isSome = b.sort.isSome
  keys : sortKeys b'.sort = sortKeys b.sort
  columns : ∀ ⦃i j⦄, q.Settled i j →
    (∀ c ∈ b.columns ++ sortColumns b.sort, c.2.AllVariables q.Apart ∧ c.2.ArgumentsAvoid []) →
    RewrittenColumns I q b.columns b'.columns ∧
      RewrittenColumns I q (sortColumns b.sort) (sortColumns b'.sort)

theorem installSetFunctions_active (I : Interpretation α) {p : SetFunctionProcessor}
    {entry output : Graph} {b : QueryBlock} {s t : AnalyzerState ρ} (hactive : p.active = true)
    (h : installSetFunctions env p entry b s = (some output, t)) :
    ∃ b' q m, b.Rewritten I p s.fresh b' q m ∧
      output = (b'.operators ++ q.installed).foldr Graph.unary entry := by
  simp only [installSetFunctions, hactive, if_true, Check.bind_yields, Check.pure_yields] at h
  obtain ⟨⟨columns, p₁⟩, u₁, hcolumns, ⟨sort, p₂⟩, u₂, hsort, port, u₃, hport, _, _, -, _, _, -,
    rfl, -⟩ := h
  obtain ⟨-, hprocessed⟩ := processColumns_processed hcolumns
  refine ⟨{ b with columns := columns, sort := sort }, p₂, u₂.fresh, ?_, ?_⟩
  · cases hb : b.sort with
    | none =>
      simp only [hb, processSortColumns, Check.pure_yields, Prod.mk.injEq] at hsort
      obtain ⟨⟨rfl, rfl⟩, rfl⟩ := hsort
      have hnone : hasAggregateBindings (sortColumns b.sort) = false := by rw [hb]; rfl
      refine ⟨hprocessed.grows, ?_, fun hcalls => hprocessed.kept ?_, rfl, rfl, rfl, ?_, ?_,
        fun i j hsettled hall => ⟨.of_run hsettled hcolumns ⟨List.Subset.refl _, List.Subset.refl _⟩
          fun c hc => hall c (List.mem_append_left _ hc), ?_⟩⟩
      · rw [hprocessed.stored, hnone, Bool.or_false]
      · rwa [hnone, Bool.or_false] at hcalls
      · rw [hb]
      · rw [hb]
      · rw [hb]
        exact .nil
    | some l =>
      simp only [hb, processSortColumns, Check.bind_yields, Check.pure_yields, Prod.mk.injEq] at hsort
      obtain ⟨⟨sorted, q⟩, v, hsorted, ⟨rfl, rfl⟩, rfl⟩ := hsort
      obtain ⟨-, hsortProcessed⟩ := processColumns_processed hsorted
      have hcolumnsOf : sortColumns b.sort = l.columns := by rw [hb]; rfl
      rw [← hcolumnsOf] at hsortProcessed
      have hall := hprocessed.trans hsortProcessed
      refine ⟨hall.grows, hall.stored, hall.kept, rfl, rfl, rfl, ?_, ?_,
        fun i j hsettled hcs => ⟨.of_run hsettled hcolumns hsortProcessed.grows.within
          fun c hc => hcs c (List.mem_append_left _ hc),
          ?_⟩⟩
      · rw [hb]
        rfl
      · rw [hb]
        rfl
      · rw [hcolumnsOf]
        exact .of_run hsettled hsorted ⟨List.Subset.refl _, List.Subset.refl _⟩ fun c hc =>
          hcs c (List.mem_append_right _ (by rwa [hcolumnsOf]))
  · rw [QueryBlock.graph_eq, install_yields hport, ← List.foldr_append]

/-- Without anything to install nothing changes. -/
theorem QueryBlock.Rewritten.plainly {b : QueryBlock} {p : SetFunctionProcessor} (n : ℕ)
    (hp : p.aggregationsStore.2 = []) (hcolumns : hasAggregateBindings b.columns = false)
    (hsort : hasAggregateBindings (sortColumns b.sort) = false) : b.Rewritten I p n b p n where
  grows := .refl p le_rfl
  stored := by rw [hcolumns, hsort, Bool.or_false, Bool.or_false]
  kept _ := ⟨rfl, rfl⟩
  having := rfl
  distinct := rfl
  limit := rfl
  sorted := rfl
  keys := rfl
  columns _ _ _ _ := ⟨.plainly hcolumns hp, .plainly hsort hp⟩

/-- An active processor installs its operators below those of the rewritten block, and one that is
not has nothing to install. -/
theorem installSetFunctions_rewritten (I : Interpretation α) {p : SetFunctionProcessor}
    {entry output : Graph} {b : QueryBlock} {s t : AnalyzerState ρ}
    (hinactive : p.active = false → p.installed = [] ∧ p.aggregationsStore.2 = [] ∧
      hasAggregateBindings b.columns = false ∧ hasAggregateBindings (sortColumns b.sort) = false)
    (h : installSetFunctions env p entry b s = (some output, t)) :
    ∃ b' q m, b.Rewritten I p s.fresh b' q m ∧
      output = (b'.operators ++ q.installed).foldr Graph.unary entry := by
  cases hactive : p.active with
  | false =>
    obtain ⟨hinstalled, hp, hcolumns, hsort⟩ := hinactive hactive
    simp only [installSetFunctions, hactive, Bool.false_eq_true, if_false, Check.pure_yields] at h
    refine ⟨b, p, s.fresh, .plainly s.fresh hp hcolumns hsort, ?_⟩
    rw [hinstalled, List.append_nil, ← QueryBlock.graph_eq]
    exact h.1.symm
  | true => exact installSetFunctions_active I hactive h

end Mizugaki.Analyzer
