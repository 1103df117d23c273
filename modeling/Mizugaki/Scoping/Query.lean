import Mizugaki.Analyzer.Traversal
import Mizugaki.Scoping.Clause

/-! Queries in sound chains. The operators of a query read what its FROM clause and the operators
themselves define, and the parameters of the nearest correlation scope. -/

namespace Mizugaki.Plan

/-- Operators that are stacked on a graph and read what they or the graph define. -/
theorem Graph.Scoped.stack {inputs : List Variable} {n : Nat} {ops : List Operator} {g : Graph}
    (hops : ∀ op ∈ ops, op.Scoped (ops.flatMap Operator.defines ++ (g.defines ++ inputs)) n)
    (hg : g.Scoped inputs n) : (ops.foldr Graph.unary g).Scoped inputs n := by
  have hdefines : (ops.foldr Graph.unary g).defines = ops.flatMap Operator.defines ++ g.defines := by
    rw [Graph.defines, Graph.operators_stack, List.flatMap_append]
    rfl
  refine ⟨fun op hop v hv hc => ?_, fun op hop node hnode => ?_, fun op hop => ?_, fun v hv => ?_⟩
  · rw [Graph.operators_stack] at hop
    rw [hdefines]
    obtain hop | hop := List.mem_append.mp hop
    · have hmem := (hops op hop).reads v hv hc
      rw [← List.append_assoc] at hmem
      exact List.mem_append.mp hmem
    · exact (hg.reads op hop v hv hc).imp_left (List.mem_append_right _)
  · rw [Graph.operators_stack] at hop
    obtain hop | hop := List.mem_append.mp hop
    · exact (hops op hop).nested node hnode
    · exact hg.nested op hop node hnode
  · rw [Graph.operators_stack] at hop
    exact (List.mem_append.mp hop).elim (fun hop => (hops op hop).separate) (hg.separate op)
  · rw [hdefines] at hv
    obtain hv | hv := List.mem_append.mp hv
    · obtain ⟨op, hop, hv⟩ := List.mem_flatMap.mp hv
      exact (hops op hop).defines v hv
    · exact hg.defines v hv

theorem variables_bindings (columns : List (Variable × Scalar)) :
    (columns.map Prod.snd).flatMap Scalar.variables = variablesBindings columns := by
  induction columns with
  | nil => rfl
  | cons c columns ih =>
    obtain ⟨v, e⟩ := c
    rw [List.map_cons, List.flatMap_cons, ih, variablesBindings]

theorem subqueries_bindings (columns : List (Variable × Scalar)) :
    (columns.map Prod.snd).flatMap Scalar.subqueries = subqueriesBindings columns := by
  induction columns with
  | nil => rfl
  | cons c columns ih =>
    obtain ⟨v, e⟩ := c
    rw [List.map_cons, List.flatMap_cons, ih, subqueriesBindings]

end Mizugaki.Plan

namespace Mizugaki.Analyzer

open Mizugaki.Ast Mizugaki.Plan Mizugaki.Control

variable {ρ : Type} {env : Environment ρ}

/-! ### Operators -/

/-- An operator that only names columns, and defines none. -/
theorem references_scoped {reach : List Variable} {n : Nat} {op : Operator}
    (hexpressions : op.expressions = []) (hnested : op.nested = []) (hdefines : op.defines = [])
    (hreferences : ∀ v ∈ op.references, v.isColumn = true → v ∈ reach) : op.Scoped reach n where
  reads v hv hc := by
    rw [Operator.reads, hexpressions, List.flatMap_nil, List.append_nil] at hv
    exact hreferences v hv hc
  nested node hnode := by
    rw [hnested] at hnode
    cases hnode
  separate := Operator.separate_of_nested (by rw [hnested, hexpressions, List.flatMap_nil])
  defines v hv := by
    rw [hdefines] at hv
    cases hv

theorem project_scoped {reach : List Variable} {n : Nat} {columns : List (Variable × Scalar)}
    (h : Reading reach (variablesBindings columns) (subqueriesBindings columns))
    (hnames : Streams n (columns.map Prod.fst)) : (Operator.project columns).Scoped reach n where
  reads v hv hc := by
    change v ∈ [] ++ (columns.map Prod.snd).flatMap Scalar.variables at hv
    rw [List.nil_append, variables_bindings] at hv
    exact h.columns v hv hc
  nested node hnode := by
    change node ∈ [] ++ (columns.map Prod.snd).flatMap Scalar.subqueries at hnode
    rw [List.nil_append, subqueries_bindings] at hnode
    exact h.closed node hnode
  separate := trivial
  defines := hnames

theorem filter_scoped {reach : List Variable} {n : Nat} {e : Scalar}
    (h : Reading reach e.variables e.subqueries) : (Operator.filter e).Scoped reach n where
  reads v hv hc := by
    change v ∈ [] ++ [e].flatMap Scalar.variables at hv
    rw [List.nil_append, List.flatMap_singleton] at hv
    exact h.columns v hv hc
  nested node hnode := by
    change node ∈ [] ++ [e].flatMap Scalar.subqueries at hnode
    rw [List.nil_append, List.flatMap_singleton] at hnode
    exact h.closed node hnode
  separate := trivial
  defines _ hv := nomatch hv

namespace QueryBlock

variable {b : QueryBlock} {reach : List Variable} {n : Nat}

/-- The clauses of a query read what is in reach. -/
structure Scoped (reach : List Variable) (n : Nat) (b : QueryBlock) : Prop where
  having : Reading reach (variablesOption b.having) (subqueriesOption b.having)
  columns : Reading reach (variablesBindings b.columns) (subqueriesBindings b.columns)
  names : Streams n (b.columns.map Prod.fst)
  distinct : ∀ keys ∈ b.distinct, keys ⊆ reach
  sort : Reading reach (variablesBindings (sortColumns b.sort)) (subqueriesBindings (sortColumns b.sort))
  sortNames : Streams n ((sortColumns b.sort).map Prod.fst)
  keys : (sortKeys b.sort).map Prod.fst ⊆ reach

theorem Scoped.operators (h : b.Scoped reach n) : ∀ op ∈ b.operators, op.Scoped reach n := by
  intro op hop
  simp only [QueryBlock.operators, List.mem_append, List.mem_cons, Option.mem_toList] at hop
  obtain hop | hop | rfl | hop := hop
  · have hsort := h.sort
    have hnames := h.sortNames
    have hkeys := h.keys
    unfold QueryBlock.limits at hop
    cases hb : b.sort with
    | none =>
      rw [hb] at hop
      obtain ⟨count, -, rfl⟩ := Option.map_eq_some_iff.mp (Option.mem_toList.mp hop)
      exact references_scoped rfl rfl rfl fun _ hv => by cases hv
    | some l =>
      rw [hb] at hop hsort hnames hkeys
      obtain rfl | hop := List.mem_cons.mp hop
      · exact references_scoped rfl rfl rfl fun v hv _ => hkeys hv
      · rw [List.mem_singleton.mp hop]
        exact project_scoped hsort hnames
  · obtain ⟨keys, hkeys, rfl⟩ := Option.map_eq_some_iff.mp hop
    exact references_scoped rfl rfl rfl fun v hv _ => h.distinct keys hkeys hv
  · exact project_scoped h.columns h.names
  · obtain ⟨e, he, rfl⟩ := Option.map_eq_some_iff.mp hop
    have hhaving := h.having
    rw [he] at hhaving
    exact filter_scoped hhaving

/-- The columns of the projections of a query are defined by its operators. -/
theorem columns_defined (b : QueryBlock) :
    b.columns.map Prod.fst ⊆ b.operators.flatMap Operator.defines := by
  intro v hv
  refine List.mem_flatMap.mpr ⟨.project b.columns, ?_, hv⟩
  simp [QueryBlock.operators]

theorem sortColumns_defined (b : QueryBlock) :
    (sortColumns b.sort).map Prod.fst ⊆ b.operators.flatMap Operator.defines := by
  intro v hv
  cases hb : b.sort with
  | none =>
    rw [hb] at hv
    cases hv
  | some l =>
    rw [hb] at hv
    refine List.mem_flatMap.mpr ⟨.project l.columns, ?_, hv⟩
    simp [QueryBlock.operators, QueryBlock.limits, hb]

end QueryBlock

namespace SetFunctionProcessor

variable {p : SetFunctionProcessor}

theorem installed_defines (p : SetFunctionProcessor) : p.installed.flatMap Operator.defines =
    p.aggregationsStore.2.map AggregateColumn.destination ++ p.argumentColumns.map Prod.fst := by
  rw [installed, List.flatMap_append, aggregationsStore, argumentColumns]
  cases p.aggregations <;> cases p.arguments <;> simp [Operator.defines]

theorem Scoped.installed {allowed reach : List Variable} {n : Nat} (h : p.Scoped allowed n)
    (hallowed : allowed ⊆ reach) (hnames : p.argumentColumns.map Prod.fst ⊆ reach) :
    ∀ op ∈ p.installed, op.Scoped reach n := by
  intro op hop
  obtain hop | hop := List.mem_append.mp hop
  · obtain ⟨a, ha, rfl⟩ := Option.map_eq_some_iff.mp (Option.mem_toList.mp hop)
    have hstore : p.aggregationsStore = a := by rw [aggregationsStore, ha]; rfl
    refine ⟨fun v hv hc => ?_, fun _ hn => (by cases hn), trivial, ?_⟩
    · change v ∈ (a.1 ++ a.2.flatMap AggregateColumn.arguments) ++ [] at hv
      rw [List.append_nil, ← hstore] at hv
      obtain hv | hv := List.mem_append.mp hv
      · exact hallowed (h.keys v hv hc)
      · obtain ⟨c, hcolumn, hv⟩ := List.mem_flatMap.mp hv
        exact hnames (h.columns c hcolumn hv)
    · rw [← hstore]
      exact h.destinations
  · obtain ⟨columns, hcolumns, rfl⟩ := Option.map_eq_some_iff.mp (Option.mem_toList.mp hop)
    have hargs : p.argumentColumns = columns := by rw [argumentColumns, hcolumns]; rfl
    rw [← hargs]
    exact project_scoped (h.arguments.mono hallowed (List.Subset.refl _) (List.Subset.refl _))
      h.argumentNames

end SetFunctionProcessor

/-! ### Installing -/

/-- The graph of a query reads what its FROM clause defines, and the inputs of the query. -/
theorem installSetFunctions_scoped {p : SetFunctionProcessor} {entry output : Graph}
    {b : QueryBlock} {s t : AnalyzerState ρ}
    (h : installSetFunctions env p entry b s = (some output, t)) {inputs : List Variable}
    (hentry : entry.Scoped inputs s.fresh) (hp : p.Scoped (entry.defines ++ inputs) s.fresh)
    (hinactive : b.having ≠ none → p.active = true)
    (hhaving : Reading (entry.defines ++ inputs ++ p.aggregationsStore.2.map
      AggregateColumn.destination) (variablesOption b.having) (subqueriesOption b.having))
    (hcolumns : Reading (entry.defines ++ inputs) (variablesBindings b.columns)
      (subqueriesBindings b.columns))
    (hnames : Streams s.fresh (b.columns.map Prod.fst))
    (hdistinct : ∀ keys ∈ b.distinct, keys ⊆ b.columns.map Prod.fst ++ (entry.defines ++ inputs))
    (hsort : Reading (entry.defines ++ inputs) (variablesBindings (sortColumns b.sort))
      (subqueriesBindings (sortColumns b.sort)))
    (hsortNames : Streams s.fresh ((sortColumns b.sort).map Prod.fst))
    (hkeys : (sortKeys b.sort).map Prod.fst ⊆ (sortColumns b.sort).map Prod.fst) :
    output.Scoped inputs t.fresh ∧ b.columns.map Prod.fst ⊆ output.defines ∧
      entry.defines ⊆ output.defines := by
  have hstack : ∀ ops : List Operator, (ops.foldr Graph.unary entry).defines =
      ops.flatMap Operator.defines ++ entry.defines := by
    intro ops
    rw [Graph.defines, Graph.operators_stack, List.flatMap_append]
    rfl
  obtain ⟨hactive, rfl, rfl⟩ | ⟨hactive, u, i, hquiet, rfl⟩ := installSetFunctions_yields h
  · have hdefined := b.columns_defined
    have hsorted := b.sortColumns_defined
    refine ⟨.stack ?_ hentry, ?_, ?_⟩
    · have hreach : entry.defines ++ inputs ⊆
          b.operators.flatMap Operator.defines ++ (entry.defines ++ inputs) :=
        List.subset_append_right _ _
      refine QueryBlock.Scoped.operators ⟨?_, ?_, hnames, fun keys hmem => ?_, ?_, hsortNames, ?_⟩
      · cases hb : b.having with
        | none => exact .nil _
        | some e =>
          rw [hinactive (by rw [hb]; exact Option.some_ne_none e)] at hactive
          cases hactive
      · exact hcolumns.mono hreach (List.Subset.refl _) (List.Subset.refl _)
      · exact List.Subset.trans (hdistinct keys hmem) (List.append_subset.mpr
          ⟨List.Subset.trans hdefined (List.subset_append_left _ _), List.subset_append_right _ _⟩)
      · exact hsort.mono hreach (List.Subset.refl _) (List.Subset.refl _)
      · exact List.Subset.trans (List.Subset.trans hkeys hsorted) (List.subset_append_left _ _)
    · rw [hstack]
      exact List.Subset.trans hdefined (List.subset_append_left _ _)
    · rw [hstack]
      exact List.subset_append_right _ _
  · have hfresh : s.fresh ≤ t.fresh := i.processed.quiet.fresh.trans hquiet.fresh
    obtain ⟨hq, hread⟩ := i.processed.scoped hp (hcolumns.append hsort)
    -- what the operators define, and what is in their reach
    have hops : i.operators.flatMap Operator.defines = i.block.operators.flatMap Operator.defines ++
        i.processor.installed.flatMap Operator.defines := List.flatMap_append ..
    have hdefined : b.columns.map Prod.fst ⊆ i.operators.flatMap Operator.defines := by
      rw [hops, ← i.columnNames]
      exact List.Subset.trans i.block.columns_defined (List.subset_append_left _ _)
    have hsorted : (sortColumns b.sort).map Prod.fst ⊆ i.operators.flatMap Operator.defines := by
      rw [hops, ← i.sortNames]
      exact List.Subset.trans i.block.sortColumns_defined (List.subset_append_left _ _)
    have hinstalled : i.processor.aggregationsStore.2.map AggregateColumn.destination ++
        i.processor.argumentColumns.map Prod.fst ⊆ i.operators.flatMap Operator.defines := by
      rw [hops, SetFunctionProcessor.installed_defines]
      exact List.subset_append_right _ _
    obtain ⟨hdestinations, harguments⟩ := List.append_subset.mp hinstalled
    have hreach : entry.defines ++ inputs ⊆
        i.operators.flatMap Operator.defines ++ (entry.defines ++ inputs) :=
      List.subset_append_right _ _
    have hleft : i.operators.flatMap Operator.defines ⊆
        i.operators.flatMap Operator.defines ++ (entry.defines ++ inputs) :=
      List.subset_append_left _ _
    have hwide : entry.defines ++ inputs ++ i.processor.aggregationsStore.2.map
        AggregateColumn.destination ⊆
        i.operators.flatMap Operator.defines ++ (entry.defines ++ inputs) :=
      List.append_subset.mpr ⟨hreach, List.Subset.trans hdestinations hleft⟩
    refine ⟨.stack ?_ (hentry.mono (List.Subset.refl _) hfresh), ?_, ?_⟩
    · refine List.forall_mem_append.mpr ⟨QueryBlock.Scoped.operators ⟨?_, ?_, ?_, fun keys hmem => ?_,
        ?_, ?_, ?_⟩, (hq.mono (List.Subset.refl _) hquiet.fresh).installed hreach
          (List.Subset.trans harguments hleft)⟩
      · refine hhaving.mono (List.append_subset.mpr ⟨hreach, ?_⟩) (List.Subset.refl _)
          (List.Subset.refl _)
        -- columns that were aggregated before stay
        obtain ⟨cs, hcs, -⟩ := i.processed.grows.aggregates
        refine List.Subset.trans ?_ (List.Subset.trans hdestinations hleft)
        rw [hcs, List.map_append]
        exact List.subset_append_left _ _
      · exact hread.mono hwide (List.subset_append_left _ _) (List.subset_append_left _ _)
      · change Streams t.fresh (i.columns.map Prod.fst)
        rw [i.columnNames]
        exact hnames.mono (List.Subset.refl _) hfresh
      · exact List.Subset.trans (hdistinct keys hmem) (List.append_subset.mpr
          ⟨List.Subset.trans hdefined (List.subset_append_left _ _), List.subset_append_right _ _⟩)
      · exact hread.mono hwide (List.subset_append_right _ _) (List.subset_append_right _ _)
      · change Streams t.fresh ((sortColumns i.sort).map Prod.fst)
        rw [i.sortNames]
        exact hsortNames.mono (List.Subset.refl _) hfresh
      · change (sortKeys i.sort).map Prod.fst ⊆ _
        rw [i.keys]
        exact List.Subset.trans (List.Subset.trans hkeys hsorted) hleft
    · rw [hstack]
      exact List.Subset.trans hdefined (List.subset_append_left _ _)
    · rw [hstack]
      exact List.subset_append_right _ _

/-! ### The query -/

/-- Inputs that the graph itself defines are none. -/
theorem Graph.Scoped.reduce {ins outs : List Variable} {n : Nat} {g : Graph} (h : g.Scoped ins n)
    (hins : ins ⊆ g.defines ++ outs) : g.Scoped outs n where
  reads op hop v hv hc := (h.reads op hop v hv hc).elim .inl fun hv => List.mem_append.mp (hins hv)
  nested := h.nested
  separate := h.separate
  defines := h.defines

theorem activateFor_aggregations (l : SelectList) (sort : Option SortList)
    (p : SetFunctionProcessor) : (activateFor l sort p).aggregations = p.aggregations ∧
      (activateFor l sort p).arguments = p.arguments ∧
      (p.active = true → (activateFor l sort p).active = true) := by
  unfold activateFor
  split
  · exact ⟨rfl, rfl, fun _ => rfl⟩
  · exact ⟨rfl, rfl, id⟩

theorem processDistinct_keys {quantifier : Option Ast.SetQuantifier} {info : RelationInfo}
    {distinct : Option (List Variable)} {s t : AnalyzerState ρ}
    (h : processDistinct env quantifier info s = (some distinct, t)) :
    ∀ keys ∈ distinct, keys = info.variables := by
  intro keys hkeys
  cases quantifier with
  | none =>
    obtain ⟨rfl, -⟩ := (Check.pure_yields ..).mp h
    cases hkeys
  | some q =>
    cases q with
    | all =>
      obtain ⟨rfl, -⟩ := (Check.pure_yields ..).mp h
      cases hkeys
    | distinct =>
      simp only [processDistinct, Check.bind_yields, Check.pure_yields] at h
      obtain ⟨_, v, -, rfl, -⟩ := h
      exact (Option.mem_some_iff.mp hkeys).symm

/-- A query that starts in a scope without relations. -/
def BlockScoped (m : Analysis ρ QueryResult) : Prop :=
  ∀ ⦃s t r⦄, m s = (some r, t) → s.Sound → s.scope.relations = [] → Answers s t r

theorem processQuery_scoped {c : QueryClauses ρ}
    (h : c.All ScalarScoped TableScoped SelectScoped GroupingScoped) :
    BlockScoped (processQuery env c) := by
  intro s t r hrun hs hempty
  obtain ⟨run⟩ := processQuery_run env hrun
  obtain ⟨hentry, hwhere⟩ := processWhere_scoped h.where_ (processFromClause_scoped h.from_ run.fromRun hs)
    run.whereRun
  obtain ⟨hgroupSound, hgroup, keys, hgrouped, hkeys⟩ :=
    processGroupBy_scoped h.groupBy run.groupByRun hentry.adds.sound
  obtain ⟨hhavingSound, hhaving, hactive, hcondition⟩ :=
    processHaving_scoped h.having run.havingRun hgroupSound
  obtain ⟨hselect, hinfo⟩ := processSelect_scoped h.elements run.selectRun hhavingSound
  have hdistinct : Quiet _ _ := processDistinct_quiet env _ _ run.distinctRun
  have hdistinctSound := hselect.sound.of_quiet hdistinct
  obtain ⟨hsort, hsortKeys⟩ := processOrderBy_scoped h.orderBy run.orderByRun hdistinctSound
  have hlimit := processLimit_scoped h.limit run.limitRun
  have hlimitSound := hlimit.sound hsort.sound
  have hinstall : Quiet _ _ := installSetFunctions_quiet env run.installRun
  -- what extends the state after each phase up to the end
  have hsorted : Extends run.afterOrderBy t := (hlimit.frame hsort.sound).trans hinstall.extends
  have hselected : Extends run.afterSelect t := hdistinct.extends.trans (hsort.frame.trans hsorted)
  have hfiltered : Extends run.afterHaving t := hselect.frame.trans hselected
  have hgroupEnd : Extends run.afterGroupBy t := hhaving.trans hfiltered
  have hall : Extends run.afterWhere t := hgroup.trans hgroupEnd
  -- the columns of the scope are those of the FROM clause
  have hcolumns : t.scope.variables ⊆ run.entry.defines := by
    have hsame : t.scope.variables = run.afterWhere.scope.variables := hall.scopes.headD.columns
    have hnone : s.scope.variables = [] := by rw [QueryScope.variables, hempty]; rfl
    have hadded := hentry.adds.columns
    rwa [hnone, List.nil_append, ← hsame] at hadded
  have hallowed : ∀ {u : AnalyzerState ρ}, Extends u t →
      inputs u.scopes ⊆ run.entry.defines ++ own t.scopes := by
    intro u hu
    refine List.Subset.trans hu.scopes.widened.inputs ?_
    exact List.append_subset.mpr ⟨List.Subset.trans hcolumns (List.subset_append_left _ _),
      List.subset_append_right _ _⟩
  have hgraph : run.entry.Scoped (own t.scopes) run.afterLimit.fresh := by
    have hreduced := Graph.Scoped.reduce hentry.graph (hallowed hall)
    refine hreduced.mono (List.Subset.refl _) ?_
    exact (hgroup.fresh.trans hhaving.fresh).trans (hselect.frame.fresh.trans
      (hdistinct.fresh.trans (hsort.frame.fresh.trans (hlimit.frame hsort.sound).fresh)))
  have hgroupKeys : ∀ v ∈ keys, v.isColumn = true → v ∈ run.entry.defines ++ own t.scopes := by
    intro v hv hc
    obtain hv | ⟨x, rfl⟩ | ⟨k, -, rfl⟩ := hkeys v hv
    · exact hallowed hgroupEnd (mem_inputs.mpr hv)
    · cases hc
    · cases hc
  obtain ⟨hprocessor, hreading⟩ := hcondition _ (hallowed hfiltered) (hgrouped.scoped hgroupKeys)
  obtain ⟨hstore, hargs, hactivated⟩ := activateFor_aggregations run.select run.sort run.filtered
  have hlast : run.afterHaving.fresh ≤ run.afterLimit.fresh :=
    hselect.frame.fresh.trans (hdistinct.fresh.trans (hsort.frame.fresh.trans
      (hlimit.frame hsort.sound).fresh))
  have hactivatedScoped : (activateFor run.select run.sort run.filtered).Scoped
      (run.entry.defines ++ own t.scopes) run.afterLimit.fresh := by
    have hmono := hprocessor.mono (List.Subset.refl _) hlast
    unfold activateFor
    split
    · exact ⟨hmono.keys, hmono.arguments, hmono.argumentNames, hmono.destinations, hmono.columns⟩
    · exact hmono
  have hselectReading := reading_bindings fun c hc =>
    (hselect.expressions c hc).reading (hallowed hselected)
  have hsortReading := reading_bindings fun c hc =>
    (hsort.expressions c hc).reading (hallowed hsorted)
  have hinfoColumns : run.select.info.variables ⊆ run.select.columns.map Prod.fst ++
      (run.entry.defines ++ own t.scopes) := by
    have hsame : t.scope.variables = run.afterSelect.scope.variables :=
      hselected.scopes.headD.columns
    rw [← hsame] at hinfo
    refine List.Subset.trans hinfo (List.append_subset.mpr ⟨List.subset_append_left _ _, ?_⟩)
    exact List.Subset.trans hcolumns (List.Subset.trans (List.subset_append_left _ _)
      (List.subset_append_right _ _))
  obtain ⟨hscoped, hnames, hdefines⟩ := installSetFunctions_scoped run.installRun hgraph
    hactivatedScoped (fun hne => hactivated (hactive hne))
    (by rw [SetFunctionProcessor.aggregationsStore, hstore]; exact hreading) hselectReading
    (hselect.names.mono (List.Subset.refl _) (hdistinct.fresh.trans (hsort.frame.fresh.trans
      (hlimit.frame hsort.sound).fresh)))
    (fun _ hmem => processDistinct_keys run.distinctRun _ hmem ▸ hinfoColumns)
    hsortReading (hsort.names.mono (List.Subset.refl _) (hlimit.frame hsort.sound).fresh)
    (by rw [hsortKeys]; exact List.Subset.refl _)
  refine ⟨hlimitSound.of_quiet hinstall, hentry.adds.widens.trans hall.widens, hscoped, ?_⟩
  rw [run.relation]
  have hsame : t.scope.variables = run.afterSelect.scope.variables := hselected.scopes.headD.columns
  rw [← hsame] at hinfo
  exact List.Subset.trans hinfo (List.append_subset.mpr ⟨hnames, List.Subset.trans hcolumns hdefines⟩)

end Mizugaki.Analyzer
