import Mizugaki.Ordering.ChoiceFree
import Mizugaki.Scoping.Engine

/-! Queries with DISTINCT and ORDER BY. The analyzer puts the projection of the sort keys above the
distinct operator whatever the keys read, so a query that it accepts orders its output by keys that
may depend on the rows which the distinct operator leaves. -/

namespace Mizugaki.Analyzer

open Mizugaki.Ast Mizugaki.Plan Mizugaki.Relation Mizugaki.Control

variable {ρ : Type} {env : Environment ρ}

/-- What can be mentioned in a sound chain is numbered before the counter. -/
theorem SoundChain.below {n : Nat} {scopes : List QueryScope} (h : SoundChain n scopes)
    {v : Variable} (hv : Legible scopes n v) : v.Below n := by
  obtain (hv | hv) | ⟨x, rfl⟩ | ⟨k, hk, rfl⟩ := hv
  · cases scopes with
    | nil => cases hv
    | cons scope parents => exact (h.1.columns v hv).2
  · induction scopes with
    | nil => cases hv
    | cons scope parents ih =>
      rw [own] at hv
      split_ifs at hv with hi hc
      · cases hv
      · obtain ⟨p, hp, rfl⟩ := List.mem_map.mp hv
        exact (h.1.frames p hp).2
      · exact ih h.2 hv
  · trivial
  · exact hk

namespace SetFunctionProcessor

variable {p q : SetFunctionProcessor} {n m : Nat}

/-! ### Group keys -/

/-- Arguments that are numbered after the group keys are different from them. -/
theorem Grows.keysFresh (h : p.Grows n q m) (harguments : p.argumentColumns = [])
    (hkeys : ∀ k ∈ p.aggregationsStore.1, k.Below n) : q.KeysFresh := by
  intro a ha k hk
  obtain ⟨columns, hcolumns, hnumbered, -⟩ := h.arguments
  have hstore : q.aggregationsStore = a := by rw [aggregationsStore, ha]; rfl
  have hbelow : k.Below n := by
    refine hkeys k ?_
    rw [← h.keys, hstore]
    exact hk
  rw [hcolumns, harguments, List.nil_append]
  exact hnumbered.notMem_of_below hbelow

theorem Grows.of_activate (h : p.activate.Grows n q m) : p.Grows n q m where
  counter := h.counter
  active _ := h.active rfl
  grouping := h.grouping
  keys := h.keys
  arguments := h.arguments
  aggregates := h.aggregates
  aggregated := h.aggregated
  stored := h.stored

theorem Grows.of_activateFor {select : SelectList} {sort : Option SortList}
    (h : (activateFor select sort p).Grows n q m) : p.Grows n q m := by
  unfold activateFor at h
  split_ifs at h
  · exact h.of_activate
  · exact h

end SetFunctionProcessor

theorem processHaving_grows {having : Option (ScalarAction ρ)} (h : ∀ a ∈ having, ScalarScoped a)
    {p q : SetFunctionProcessor} {condition : Option Scalar} {s t : AnalyzerState ρ}
    (hrun : processHaving env having p s = (some (condition, q), t)) (hs : s.Sound) :
    p.Grows s.fresh q t.fresh := by
  cases having with
  | none =>
    simp only [processHaving, Check.pure_yields, Prod.mk.injEq] at hrun
    obtain ⟨⟨rfl, rfl⟩, rfl⟩ := hrun
    exact .refl p le_rfl
  | some a =>
    simp only [processHaving, Check.bind_yields, Check.pure_yields, Prod.mk.injEq] at hrun
    obtain ⟨⟨predicate, saw⟩, u, hpredicate, ⟨e, q'⟩, v, he, _, w, hresolve, ⟨rfl, rfl⟩, rfl⟩ := hrun
    have hreads := analyzeScalarExpression_reads (h a rfl) hpredicate
    have hgrows := (processSetFunctions_processed predicate he).grows
    have hlast := Quiet.fresh (resolveOperator_quiet env _ rfl hresolve)
    exact ((SetFunctionProcessor.Grows.refl p (hreads.frame hs).fresh).trans
      hgrows.of_activate).trans (.refl q' hlast)

/-! ### The query -/

namespace DistinctOrder

/-- The graph of a query with DISTINCT and ORDER BY on its FROM and WHERE part. -/
def graph (d : DistinctOrder) (limit : Option ℕ) (entry : Graph) : Graph :=
  .unary (.limit limit [] d.sort.keys) (.unary (.project d.sort.columns)
    (.unary (.distinct d.keys) (d.below.foldr Graph.unary entry)))

/-- The clauses of a query with DISTINCT and ORDER BY, on installed set functions. -/
theorem graph_eq (d : DistinctOrder) (limit : Option ℕ) (entry : Graph) :
    d.graph limit entry =
      (QueryBlock.operators ⟨d.having, d.columns, some d.keys, some d.sort, limit⟩ ++
        d.processor.installed).foldr Graph.unary entry := by
  rw [List.foldr_append, ← QueryBlock.graph_eq]
  unfold graph below
  rw [List.foldr_cons, List.foldr_append, ← QueryBlock.stack_eq]
  rfl

end DistinctOrder

theorem processOrderBy_some {specs : List (SortSpecification ρ)} (hspecs : specs ≠ [])
    {sort : Option SortList} {s t : AnalyzerState ρ}
    (h : processOrderBy env specs s = (some sort, t)) : ∃ list, sort = some list := by
  cases specs with
  | nil => exact (hspecs rfl).elim
  | cons spec specs =>
    simp only [processOrderBy, Check.bind_yields, Check.pure_yields] at h
    obtain ⟨list, -, -, -, -, -, -, -, -, rfl, -⟩ := h
    exact ⟨list, rfl⟩

theorem processDistinct_some {info : RelationInfo} {distinct : Option (List Variable)}
    {s t : AnalyzerState ρ}
    (h : processDistinct env (some .distinct) info s = (some distinct, t)) :
    distinct = some info.variables := by
  simp only [processDistinct, Check.bind_yields, Check.pure_yields] at h
  obtain ⟨-, -, -, rfl, -⟩ := h
  rfl

/-- An accepted query with DISTINCT and ORDER BY is one on its FROM and WHERE part. -/
theorem QueryRun.distinctOrder {c : QueryClauses ρ} {s t : AnalyzerState ρ} {r : QueryResult}
    (run : QueryRun env c s t r) (hs : s.Sound)
    (hall : c.All ScalarScoped TableScoped SelectScoped GroupingScoped)
    (hdistinct : c.quantifier = some .distinct) (horder : c.orderBy ≠ []) :
    ∃ d : DistinctOrder, d.processor.KeysFresh ∧ d.keys = r.relation.variables ∧
      r.output = d.graph run.limit run.entry := by
  obtain ⟨hentry, -⟩ := processWhere_scoped hall.where_
    (processFromClause_scoped hall.from_ run.fromRun hs) run.whereRun
  obtain ⟨hgroupSound, -, keys, hgrouped, hkeys⟩ :=
    processGroupBy_scoped hall.groupBy run.groupByRun hentry.adds.sound
  obtain ⟨sort, hsort⟩ := processOrderBy_some horder run.orderByRun
  have hdistinctRun := run.distinctRun
  rw [hdistinct] at hdistinctRun
  have hkeysDistinct := processDistinct_some hdistinctRun
  have hinstall := run.installRun
  obtain ⟨-, -, houtput⟩ | ⟨-, u, i, -, houtput⟩ := installSetFunctions_yields hinstall
  · refine ⟨⟨run.having, run.select.columns, run.select.info.variables, sort, {}⟩, nofun, ?_, ?_⟩
    · rw [run.relation]
    · rw [houtput, DistinctOrder.graph_eq, hkeysDistinct, hsort]
      exact congrArg (List.foldr Graph.unary run.entry) (List.append_nil _).symm
  · have hsome : i.sort.isSome = true := by
      rw [i.sorted, hsort]
      rfl
    obtain ⟨sort', hsort'⟩ := Option.isSome_iff_exists.mp hsome
    have hlast : run.afterHaving.fresh ≤ run.afterLimit.fresh := by
      obtain ⟨hhavingSound, -⟩ := processHaving_scoped hall.having run.havingRun hgroupSound
      obtain ⟨hselect, -⟩ := processSelect_scoped hall.elements run.selectRun hhavingSound
      have hquiet : Quiet _ _ := processDistinct_quiet env _ _ run.distinctRun
      obtain ⟨horderBy, -⟩ := processOrderBy_scoped hall.orderBy run.orderByRun
        (hselect.sound.of_quiet hquiet)
      have hlimit := processLimit_scoped hall.limit run.limitRun
      exact hselect.frame.fresh.trans (hquiet.fresh.trans (horderBy.frame.fresh.trans
        (hlimit.frame horderBy.sound).fresh))
    have hgrows : run.grouped.Grows run.afterGroupBy.fresh i.processor u.fresh :=
      ((processHaving_grows hall.having run.havingRun hgroupSound).trans
        (.refl run.filtered hlast)).trans i.processed.grows.of_activateFor
    have hfresh : i.processor.KeysFresh := by
      refine hgrows.keysFresh ?_ fun k hk => ?_
      · rw [SetFunctionProcessor.argumentColumns, hgrouped.arguments]
        rfl
      · rw [hgrouped.storeKeys, hgrouped.mem] at hk
        exact hgroupSound.chain.below (hkeys k hk)
    refine ⟨⟨run.having, i.columns, run.select.info.variables, sort', i.processor⟩, hfresh, ?_, ?_⟩
    · rw [run.relation]
    · have hblock : i.block =
          ⟨run.having, i.columns, some run.select.info.variables, some sort', run.limit⟩ := by
        rw [Installation.block, QueryBlock.mk.injEq]
        exact ⟨rfl, rfl, hkeysDistinct, hsort', rfl⟩
      rw [houtput, DistinctOrder.graph_eq, Installation.operators, hblock]

/-! ### The analyzer -/

variable {elements : List SelectElement} {from_ : List TableExpression}
  {where_ having limit : Option ScalarExpression} {groupBy : Option (List GroupingElement)}
  {orderBy : List SortElement}

theorem queryClauses_scoped (env : Environment ρ) (quantifier : Option Ast.SetQuantifier) :
    (queryClauses env quantifier elements from_ where_ groupBy having orderBy limit).All
      ScalarScoped TableScoped SelectScoped GroupingScoped :=
  Compositional.of_clauses quantifier (fun e _ => (scoping env).induction.selectElement e)
    (fun t _ => (scoping env).table t) (fun e _ => (scoping env).scalar e)
    (fun _ _ g _ => (scoping env).induction.groupingElement g) (fun e _ => (scoping env).scalar e)
    (fun e _ => (scoping env).scalar e.key) fun e _ => (scoping env).scalar e

/-- An accepted query with DISTINCT and ORDER BY puts its sort above the distinct operator. What
reaches the sort does not depend on the rows that the distinct operator leaves exactly when the
sort keys are determined by the output columns. -/
theorem query_distinct_orderBy_iff {context : List ScalarValueContext} {continueScope : Bool}
    {s t : AnalyzerState ρ} {r : QueryResult}
    (h : query env (.query (some .distinct) elements from_ where_ groupBy having orderBy limit)
      context continueScope s = (some r, t)) (hs : s.Sound) (horder : orderBy ≠ []) :
    ∃ u v, (u = s ∨ u = s.enter .empty) ∧
      ∃ (run : QueryRun env (queryClauses env (some .distinct) elements from_ where_ groupBy having
        orderBy limit) u v r) (d : DistinctOrder),
      d.keys = r.relation.variables ∧ r.output = d.graph run.limit run.entry ∧
        (d.ChoiceFree ↔ d.Determines) := by
  have hsorted : sortElements env orderBy ≠ [] := by
    rw [sortElements_eq]
    exact fun hnil => horder (List.map_eq_nil_iff.mp hnil)
  obtain ⟨u, v, ⟨run⟩, hu⟩ := query_run h
  have hsound : u.Sound := by
    rcases hu with rfl | rfl
    · exact hs
    · exact hs.enterEmpty rfl
  obtain ⟨d, hfresh, hkeys, hgraph⟩ :=
    run.distinctOrder hsound (queryClauses_scoped env (some .distinct)) rfl hsorted
  exact ⟨u, v, hu, run, d, hkeys, hgraph, d.choiceFree_iff_determines hfresh⟩

/-! ### Duplicates of one column -/

/-- A table of the columns `a` and `b`. -/
def pairTable : Table where
  address := 0
  simpleName := "t"
  columns := [{ address := 1, simpleName := "a", type := .int4 },
    { address := 2, simpleName := "b", type := .int4 }]
  primaryIndex :=
    some { address := 3, tableAddress := 0, tableName := "t", simpleName := "", keys := [],
           primary := true }

/-- `SELECT DISTINCT a FROM t ORDER BY key`. -/
def distinctOrderBy (key : String) : QueryExpression :=
  let column (name : String) : ScalarExpression := .variableReference (.simple ⟨name, .delimited⟩)
  .query (some .distinct) [.selectColumn (column "a") none]
    [.tableReference false (.simple ⟨"t", .delimited⟩) none] none none none
    [.mk (column key) none none none] none

/-- The column `a` is the first one of the input and the key is one of both. -/
def pairOrder (key : Variable) : DistinctOrder where
  having := none
  columns := [(.stream 2, .variableReference (.stream 0))]
  keys := [.stream 2]
  sort := ⟨[(.stream 3, .variableReference key)], [(.stream 3, .ascendant)], false⟩
  processor := {}

/-- The relation `t`, with the columns as the first two streams. -/
def pairEntry : Graph :=
  .source (.scan ⟨3, 0, "t", "", [], true, []⟩ (pairTable.columns.zip [.stream 0, .stream 1]))

/-- `SELECT DISTINCT a FROM t ORDER BY b` is accepted. Of two rows with one value of `a`, the choice
tells which value of `b` reaches the sort. -/
theorem distinct_orderBy_other :
    let env := Environment.ofSchema (.ofTables [pairTable] [])
    ∃ r t, query env (distinctOrderBy "b") [] false (.initial []) = (some r, t) ∧
      r.output = (pairOrder (.stream 1)).graph none pairEntry ∧
      ¬ (pairOrder (.stream 1)).ChoiceFree := by
  refine ⟨_, _, rfl, rfl, fun hfree => ?_⟩
  let I : Interpretation ℕ := .ofSymbols (fun _ _ => 0) fun _ _ => 0
  let row (b : ℕ) : Row Variable ℕ := fun v => if v = .stream 1 then b else 0
  let output (b : ℕ) : Row Variable ℕ := projectRow I (pairOrder (.stream 1)).columns (row b)
  have hsurroundings : ∀ r ∈ [row 0, row 1], ∀ v, v.isStream = false → r v = row 0 v := by
    intro r hr v hv
    have hne : v ≠ .stream 1 := by
      rintro rfl
      cases hv
    have hrow : ∀ b, row b v = 0 := fun b => if_neg hne
    simp only [List.mem_cons, List.not_mem_nil, or_false] at hr
    obtain rfl | rfl := hr
    · rfl
    · rw [hrow, hrow]
  have hchooses : ∀ r ∈ [output 0, output 1],
      Chooses (keyValues (pairOrder (.stream 1)).keys) [output 0, output 1] [r] := by
    have hkeys : ∀ r ∈ [output 0, output 1],
        keyValues (pairOrder (.stream 1)).keys r = [0] :=
      List.forall_mem_cons.mpr ⟨rfl, List.forall_mem_singleton.mpr rfl⟩
    intro r hr
    refine ⟨List.forall_mem_singleton.mpr hr, List.nodup_singleton _, fun r' hr' => ?_⟩
    rw [hkeys r' hr', List.map_singleton, hkeys r hr]
    exact List.mem_singleton_self _
  have hperm := hfree ℕ I (row 0) [row 0, row 1] [output 0, output 1] hsurroundings rfl
    [output 0] [output 1] (hchooses _ List.mem_cons_self)
    (hchooses _ (List.mem_cons_of_mem _ List.mem_cons_self))
  have hsort : ([0] : List ℕ) = [1] :=
    congrArg Prod.snd (List.singleton_perm_singleton.mp hperm)
  cases hsort

/-- `SELECT DISTINCT a FROM t ORDER BY a`: the output column is the sort key, and the choice does not
matter. -/
theorem distinct_orderBy_same :
    let env := Environment.ofSchema (.ofTables [pairTable] [])
    ∃ r t, query env (distinctOrderBy "a") [] false (.initial []) = (some r, t) ∧
      ∃ (d : DistinctOrder) (limit : Option ℕ) (entry : Graph),
        r.output = d.graph limit entry ∧ d.ChoiceFree := by
  intro env
  have hrun : ∃ r t, query env (distinctOrderBy "a") [] false (.initial []) = (some r, t) ∧
      r.output = (pairOrder (.stream 0)).graph none pairEntry := ⟨_, _, rfl, rfl⟩
  obtain ⟨r, t, hquery, houtput⟩ := hrun
  obtain ⟨u, v, -, run, d, -, hgraph, hiff⟩ :=
    query_distinct_orderBy_iff hquery ⟨trivial, rfl⟩ (List.cons_ne_nil _ _)
  refine ⟨r, t, hquery, d, run.limit, run.entry, hgraph, hiff.mpr fun k hk => ?_⟩
  -- the operators of the graph tell the clauses
  rw [houtput] at hgraph
  obtain ⟨having, columns, keys, ⟨sortColumns, sortKeys, saw⟩, processor⟩ := d
  obtain ⟨hlimit, hgraph⟩ := Graph.unary.inj hgraph
  obtain ⟨hsort, hgraph⟩ := Graph.unary.inj hgraph
  obtain ⟨hdistinct, hgraph⟩ := Graph.unary.inj hgraph
  obtain ⟨hproject, hrest⟩ := Graph.unary.inj hgraph
  obtain ⟨-, -, rfl⟩ := Operator.limit.inj hlimit
  obtain rfl := Operator.project.inj hsort
  obtain rfl := Operator.distinct.inj hdistinct
  obtain rfl := Operator.project.inj hproject
  have hnothing : processor.aggregations = none ∧ processor.arguments = none := by
    have hnil : (having.map .filter).toList ++ processor.installed = [] := by
      cases hops : (having.map .filter).toList ++ processor.installed with
      | nil => rfl
      | cons op ops =>
        rw [hops] at hrest
        cases hrest
    have hinstalled := (List.append_eq_nil_iff.mp hnil).2
    rw [SetFunctionProcessor.installed, List.append_eq_nil_iff, Option.toList_eq_nil_iff,
      Option.toList_eq_nil_iff, Option.map_eq_none_iff, Option.map_eq_none_iff] at hinstalled
    exact hinstalled
  obtain ⟨active, grouping, aggregated, arguments, aggregations⟩ := processor
  obtain ⟨rfl, rfl⟩ := hnothing
  obtain rfl := List.mem_singleton.mp hk
  exact .output List.mem_cons_self

end Mizugaki.Analyzer
