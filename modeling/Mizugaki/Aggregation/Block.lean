import Mizugaki.Aggregation.Processor

/-! The operators of a query above its FROM and WHERE part, as a stack: those of its clauses,
and below them the ones that the set function processor installs. -/

namespace Mizugaki.Analyzer

open Mizugaki.Plan Mizugaki.Control

variable {ρ : Type} {env : Environment ρ}

/-- The columns of the sort projection. -/
def sortColumns (sort : Option SortList) : List (Variable × Scalar) :=
  (sort.map SortList.columns).getD []

/-- The sort keys. -/
def sortKeys (sort : Option SortList) : List (Variable × SortDirection) :=
  (sort.map SortList.keys).getD []

namespace QueryBlock

/-- The operators of LIMIT and ORDER BY. -/
def limits (b : QueryBlock) : List Operator :=
  match b.sort with
  | some s => [.limit b.limit [] s.keys, .project s.columns]
  | none => (b.limit.map fun n => .limit (some n) [] []).toList

/-- The operators of the clauses of a query, from the output down. -/
def operators (b : QueryBlock) : List Operator :=
  b.limits ++ ((b.distinct.map .distinct).toList ++
    (.project b.columns :: (b.having.map .filter).toList))

theorem stack_eq (op : Option Operator) (port : Graph) :
    stack op port = op.toList.foldr Graph.unary port := by
  cases op <;> rfl

theorem graph_eq (b : QueryBlock) (port : Graph) :
    b.graph port = b.operators.foldr Graph.unary port := by
  rw [operators, List.foldr_append, List.foldr_append, List.foldr_cons, ← stack_eq, ← stack_eq]
  unfold graph limits
  cases b.sort with
  | some s => rfl
  | none => exact stack_eq _ _

end QueryBlock

namespace SetFunctionProcessor

/-- The processor of a query that is grouped by columns. -/
def groupBy (keys : List Variable) : SetFunctionProcessor :=
  keys.foldl addGroupKey ({} : SetFunctionProcessor).activate

/-- What a processor holds once group keys were added, and nothing else: its aggregate operator
exists when there are some, with the distinct ones as keys. -/
structure Grouped (p : SetFunctionProcessor) (keys : List Variable) : Prop where
  storeKeys : p.aggregationsStore.1 = p.groupingColumns
  nodup : p.groupingColumns.Nodup
  mem : ∀ v, v ∈ p.groupingColumns ↔ v ∈ keys
  stored : p.aggregations.isSome = true ↔ keys ≠ []
  arguments : p.arguments = none
  columns : p.aggregationsStore.2 = []
  aggregated : p.aggregatedColumns = []

theorem Grouped.empty {p : SetFunctionProcessor} (hg : p.groupingColumns = [])
    (ha : p.arguments = none) (hs : p.aggregations = none) (hc : p.aggregatedColumns = []) :
    p.Grouped [] := by
  refine ⟨?_, ?_, fun v => ?_, ?_, ha, ?_, hc⟩
  · rw [hg, aggregationsStore, hs]
    rfl
  · rw [hg]
    exact .nil
  · rw [hg]
  · rw [hs]
    simp
  · rw [aggregationsStore, hs]
    rfl

theorem Grouped.addGroupKey {p : SetFunctionProcessor} {keys : List Variable} (h : p.Grouped keys)
    (k : Variable) : (p.addGroupKey k).Grouped (keys ++ [k]) := by
  unfold SetFunctionProcessor.addGroupKey
  split
  · rename_i hk
    have hstored : p.aggregations.isSome = true :=
      h.stored.mpr (List.ne_nil_of_mem ((h.mem k).mp hk))
    refine ⟨h.storeKeys, h.nodup, fun v => ?_, by simp [hstored], h.arguments, h.columns, h.aggregated⟩
    rw [h.mem v, List.mem_append, List.mem_singleton]
    exact ⟨.inl, fun hv => hv.elim id fun hv => hv ▸ (h.mem k).mp hk⟩
  · rename_i hk
    refine ⟨?_, ?_, fun v => ?_, by simp, h.arguments, h.columns, h.aggregated⟩
    · change p.aggregationsStore.1 ++ [k] = p.groupingColumns ++ [k]
      rw [h.storeKeys]
    · exact List.nodup_append.mpr ⟨h.nodup, List.pairwise_singleton _ _, fun v hv w hw heq =>
        hk (by rwa [← List.mem_singleton.mp hw, ← heq])⟩
    · change v ∈ p.groupingColumns ++ [k] ↔ _
      rw [List.mem_append, List.mem_append, h.mem v]

theorem Grouped.addGroupKeys {p : SetFunctionProcessor} {keys : List Variable} (h : p.Grouped keys)
    (ks : List Variable) : (ks.foldl SetFunctionProcessor.addGroupKey p).Grouped (keys ++ ks) := by
  induction ks generalizing p keys with
  | nil => rwa [List.append_nil]
  | cons k ks ih =>
    have hrest := ih (h.addGroupKey k)
    rwa [List.append_assoc] at hrest

theorem groupBy_grouped (keys : List Variable) : (groupBy keys).Grouped keys :=
  (Grouped.empty rfl rfl rfl rfl).addGroupKeys keys

theorem groupBy_active (keys : List Variable) : (groupBy keys).active = true := by
  have hfold : ∀ (ks : List Variable) (p : SetFunctionProcessor), p.active = true →
      (ks.foldl addGroupKey p).active = true := by
    intro ks
    induction ks with
    | nil => exact fun _ hp => hp
    | cons k ks ih =>
      intro p hp
      refine ih _ ?_
      unfold addGroupKey
      split
      · exact hp
      · rfl
  exact hfold keys _ rfl

/-- The operators that a processor installs, from the output down. -/
def installed (p : SetFunctionProcessor) : List Operator :=
  (p.aggregations.map fun a => Operator.aggregate a.1 a.2).toList ++
    (p.arguments.map Operator.project).toList

end SetFunctionProcessor

/-- Installing puts the operators on the port. -/
theorem install_yields {p : SetFunctionProcessor} {port port' : Graph} {s t : AnalyzerState ρ}
    (h : install env p port s = (some port', t)) : port' = p.installed.foldr Graph.unary port := by
  have hinstall : ∀ {operator_ : Option Operator} {port port' : Graph} {s t : AnalyzerState ρ},
      installOperator env operator_ port s = (some port', t) →
      port' = operator_.toList.foldr Graph.unary port := by
    intro operator_ port port' s t h
    cases operator_ with
    | none => exact ((Check.pure_yields ..).mp h).1.symm
    | some op =>
      simp only [installOperator, Check.bind_yields, Check.pure_yields] at h
      obtain ⟨-, -, -, rfl, -⟩ := h
      rfl
  simp only [install, Check.bind_yields] at h
  obtain ⟨middle, u, hm, h⟩ := h
  rw [hinstall h, hinstall hm, SetFunctionProcessor.installed, List.foldr_append]

/-- What installing the set functions makes of a query: the columns of its projections without set
functions, and the processor with what was in them. -/
structure Installation (b : QueryBlock) (p : SetFunctionProcessor) (s t : AnalyzerState ρ) where
  columns : List (Variable × Scalar)
  sort : Option SortList
  processor : SetFunctionProcessor
  columnNames : columns.map Prod.fst = b.columns.map Prod.fst
  sorted : sort.isSome = b.sort.isSome
  sortNames : (sortColumns sort).map Prod.fst = (sortColumns b.sort).map Prod.fst
  keys : sortKeys sort = sortKeys b.sort
  processed : Processed
    (hasAggregateBindings b.columns || hasAggregateBindings (sortColumns b.sort))
    (hasAggregateBindings columns || hasAggregateBindings (sortColumns sort))
    (variablesBindings b.columns ++ variablesBindings (sortColumns b.sort))
    (variablesBindings columns ++ variablesBindings (sortColumns sort))
    (subqueriesBindings b.columns ++ subqueriesBindings (sortColumns b.sort))
    (subqueriesBindings columns ++ subqueriesBindings (sortColumns sort))
    (b.columns.map Prod.fst ++ (sortColumns b.sort).map Prod.fst) p processor s t

namespace Installation

variable {b : QueryBlock} {p : SetFunctionProcessor} {s t : AnalyzerState ρ}

/-- The clauses of the query after its set functions were taken out. -/
def block (i : Installation b p s t) : QueryBlock := { b with columns := i.columns, sort := i.sort }

/-- The operators of the query. -/
def operators (i : Installation b p s t) : List Operator :=
  i.block.operators ++ i.processor.installed

end Installation

/-- A processor that is active installs its operators below those of the clauses, and nothing
happens otherwise. -/
theorem installSetFunctions_yields {p : SetFunctionProcessor} {entry output : Graph} {b : QueryBlock}
    {s t : AnalyzerState ρ} (h : installSetFunctions env p entry b s = (some output, t)) :
    (p.active = false ∧ s = t ∧ output = b.operators.foldr Graph.unary entry) ∨
    (p.active = true ∧ ∃ u, ∃ i : Installation b p s u, Quiet u t ∧
      output = i.operators.foldr Graph.unary entry) := by
  cases hactive : p.active with
  | false =>
    simp only [installSetFunctions, hactive, Bool.false_eq_true, if_false, Check.pure_yields] at h
    exact .inl ⟨rfl, h.2, by rw [← h.1, QueryBlock.graph_eq]⟩
  | true =>
    simp only [installSetFunctions, hactive, if_true, Check.bind_yields, Check.pure_yields] at h
    obtain ⟨⟨columns, p₁⟩, u₁, hcolumns, ⟨sort, p₂⟩, u₂, hsort, port, u₃, hport, _, u₄, hproject, _, u₅,
      hresort, rfl, rfl⟩ := h
    obtain ⟨hnames, hprocessed⟩ := processColumns_processed hcolumns
    have hquiet : Quiet u₂ u₅ := Check.Frame.trans (install_quiet env _ _ hport)
      (Check.Frame.trans (resolveOperator_quiet env _ rfl hproject) (resolveSort_quiet env _ hresort))
    have hsorted : sort.isSome = b.sort.isSome ∧
        (sortColumns sort).map Prod.fst = (sortColumns b.sort).map Prod.fst ∧
        sortKeys sort = sortKeys b.sort ∧
        Processed (hasAggregateBindings (sortColumns b.sort)) (hasAggregateBindings (sortColumns sort))
          (variablesBindings (sortColumns b.sort)) (variablesBindings (sortColumns sort))
          (subqueriesBindings (sortColumns b.sort)) (subqueriesBindings (sortColumns sort))
          ((sortColumns b.sort).map Prod.fst) p₁ p₂ u₁ u₂ := by
      cases hb : b.sort with
      | none =>
        simp only [hb, processSortColumns, Check.pure_yields, Prod.mk.injEq] at hsort
        obtain ⟨⟨rfl, rfl⟩, rfl⟩ := hsort
        exact ⟨rfl, rfl, rfl, .nil _ _⟩
      | some l =>
        simp only [hb, processSortColumns, Check.bind_yields, Check.pure_yields, Prod.mk.injEq] at hsort
        obtain ⟨⟨sorted, q⟩, v, hsorted, ⟨rfl, rfl⟩, rfl⟩ := hsort
        obtain ⟨hsortNames, hsortProcessed⟩ := processColumns_processed hsorted
        exact ⟨rfl, hsortNames, rfl, hsortProcessed⟩
    obtain ⟨hsome, hsortNames, hkeys, hsortProcessed⟩ := hsorted
    refine .inr ⟨rfl, u₂, ⟨columns, sort, p₂, hnames, hsome, hsortNames, hkeys,
      hprocessed.trans hsortProcessed⟩, hquiet, ?_⟩
    rw [QueryBlock.graph_eq, install_yields hport, ← List.foldr_append]
    rfl

end Mizugaki.Analyzer
