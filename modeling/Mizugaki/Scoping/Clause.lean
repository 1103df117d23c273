import Mizugaki.Aggregation.Block
import Mizugaki.Scoping.Table

/-! The clauses of a query in sound chains. What the expressions of the clauses read is a column of
the FROM clause or a parameter; after the set functions were taken out of them they may also
read the destinations of the aggregate operator. -/

namespace Mizugaki.Analyzer

open Mizugaki.Ast Mizugaki.Plan Mizugaki.Control

variable {ρ : Type} {env : Environment ρ}

/-! ### What is read -/

/-- Variables of which the columns are allowed, and closed subqueries. -/
structure Reading (allowed vs : List Variable) (ns : List SubqueryNode) : Prop where
  columns : ∀ v ∈ vs, v.isColumn = true → v ∈ allowed
  closed : ∀ node ∈ ns, node.Closed

namespace Reading

variable {allowed allowed' vs ws : List Variable} {ns ms : List SubqueryNode}

theorem nil (allowed : List Variable) : Reading allowed [] [] :=
  ⟨fun _ hv => (nomatch hv), fun _ hn => (nomatch hn)⟩

theorem mono (h : Reading allowed vs ns) (hallowed : allowed ⊆ allowed') (hv : ws ⊆ vs)
    (hn : ms ⊆ ns) : Reading allowed' ws ms :=
  ⟨fun v hmem hc => hallowed (h.columns v (hv hmem) hc), fun node hmem => h.closed node (hn hmem)⟩

theorem append (h : Reading allowed vs ns) (k : Reading allowed ws ms) :
    Reading allowed (vs ++ ws) (ns ++ ms) :=
  ⟨List.forall_mem_append.mpr ⟨h.columns, k.columns⟩, List.forall_mem_append.mpr ⟨h.closed, k.closed⟩⟩

end Reading

theorem Scoped.reading {scopes : List QueryScope} {n : Nat} {e : Scalar} {allowed : List Variable}
    (h : Scoped scopes n e) (hallowed : inputs scopes ⊆ allowed) :
    Reading allowed e.variables e.subqueries :=
  ⟨fun _ hv hc => hallowed (mem_inputs.mpr (h.visible hv hc)), fun node hnode => (h.2 node hnode).1⟩

/-- The columns of a projection. -/
theorem reading_bindings {columns : List (Variable × Scalar)} {allowed : List Variable}
    (h : ∀ c ∈ columns, Reading allowed c.2.variables c.2.subqueries) :
    Reading allowed (variablesBindings columns) (subqueriesBindings columns) := by
  induction columns with
  | nil => exact .nil allowed
  | cons c columns ih =>
    obtain ⟨v, e⟩ := c
    obtain ⟨hc, hcolumns⟩ := List.forall_mem_cons.mp h
    exact hc.append (ih hcolumns)

/-! ### The processor of set functions -/

/-- What a processor holds reads allowed variables only, and the columns of its aggregate operator
read those of its projection. -/
structure SetFunctionProcessor.Scoped (allowed : List Variable) (n : Nat)
    (p : SetFunctionProcessor) : Prop where
  keys : ∀ v ∈ p.aggregationsStore.1, v.isColumn = true → v ∈ allowed
  arguments :
    Reading allowed (variablesBindings p.argumentColumns) (subqueriesBindings p.argumentColumns)
  argumentNames : Streams n (p.argumentColumns.map Prod.fst)
  destinations : Streams n (p.aggregationsStore.2.map AggregateColumn.destination)
  columns : ∀ c ∈ p.aggregationsStore.2, c.arguments ⊆ p.argumentColumns.map Prod.fst

namespace SetFunctionProcessor

variable {p q : SetFunctionProcessor} {allowed : List Variable} {n m : Nat}

theorem Scoped.mono {allowed' : List Variable} (h : p.Scoped allowed n) (hallowed : allowed ⊆ allowed')
    (hnm : n ≤ m) : p.Scoped allowed' m where
  keys v hv hc := hallowed (h.keys v hv hc)
  arguments := h.arguments.mono hallowed (List.Subset.refl _) (List.Subset.refl _)
  argumentNames := h.argumentNames.mono (List.Subset.refl _) hnm
  destinations := h.destinations.mono (List.Subset.refl _) hnm
  columns := h.columns

/-- The columns of GROUP BY, and nothing else. -/
theorem Grouped.scoped {keys : List Variable} (h : p.Grouped keys)
    (hkeys : ∀ v ∈ keys, v.isColumn = true → v ∈ allowed) : p.Scoped allowed n := by
  have harguments : p.argumentColumns = [] := by
    rw [argumentColumns, h.arguments]
    rfl
  refine ⟨fun v hv => ?_, ?_, ?_, ?_, ?_⟩
  · rw [h.storeKeys] at hv
    exact hkeys v ((h.mem v).mp hv)
  · rw [harguments]
    exact .nil allowed
  · rw [harguments]
    exact fun _ hv => nomatch hv
  · rw [h.columns]
    exact fun _ hv => nomatch hv
  · rw [h.columns]
    exact fun _ hc => nomatch hc

end SetFunctionProcessor

theorem Numbered.streams {n m : Nat} {vs : List Variable} (h : Numbered n m vs) : Streams m vs := by
  intro v hv
  obtain ⟨k, rfl, -, hk⟩ := h.between v hv
  exact ⟨rfl, hk⟩

/-- Processing expressions that read allowed variables. -/
theorem Processed.scoped {contains contains' : Bool} {vs vs' added : List Variable}
    {ns ns' : List SubqueryNode} {p q : SetFunctionProcessor} {s t : AnalyzerState ρ}
    (h : Processed contains contains' vs vs' ns ns' added p q s t) {allowed : List Variable}
    (hp : p.Scoped allowed s.fresh) (hreading : Reading allowed vs ns) :
    q.Scoped allowed t.fresh ∧
      Reading (allowed ++ q.aggregationsStore.2.map AggregateColumn.destination) vs' ns' := by
  obtain ⟨as, harguments, hnumbered, -⟩ := h.grows.arguments
  obtain ⟨cs, haggregates, hdestinations, hcolumns⟩ := h.grows.aggregates
  refine ⟨⟨?_, ?_, ?_, ?_, ?_⟩, ⟨fun v hv hc => ?_, fun node hnode => ?_⟩⟩
  · rw [h.grows.keys]
    exact hp.keys
  · exact (hp.arguments.append hreading).mono (List.Subset.refl _) h.moved h.movedNodes
  · rw [harguments, List.map_append]
    exact List.forall_mem_append.mpr ⟨hp.argumentNames.mono (List.Subset.refl _) h.grows.counter,
      hnumbered.streams⟩
  · rw [haggregates, List.map_append]
    exact List.forall_mem_append.mpr ⟨hp.destinations.mono (List.Subset.refl _) h.grows.counter,
      hdestinations.streams⟩
  · rw [haggregates]
    refine List.forall_mem_append.mpr ⟨fun c hc => ?_, fun c hc v hv => hcolumns c hc v hv⟩
    rw [harguments, List.map_append]
    exact List.Subset.trans (hp.columns c hc) (List.subset_append_left _ _)
  · obtain hv | hv := h.reads v hv
    · exact List.mem_append_left _ (hreading.columns v hv hc)
    · exact List.mem_append_right _ hv
  · exact hreading.closed node (h.nested hnode)

/-! ### GROUP BY and HAVING -/

def GroupingScoped (g : GroupingAction ρ) : Prop :=
  ∀ ⦃p s r t⦄, g p s = (some r, t) → s.Sound →
    t.Sound ∧ Extends s t ∧ ∃ key, r = p.addGroupKey key ∧ Legible t.scopes t.fresh key

theorem processGroupingColumn_scoped {column : ScalarAction ρ} (h : ScalarScoped column) :
    GroupingScoped (processGroupingColumn env column) := by
  intro p s r t hrun hs
  simp only [processGroupingColumn, Check.bind_yields] at hrun
  obtain ⟨⟨e, sawAggregate⟩, u, he, hrun⟩ := hrun
  have hreads := analyzeScalarExpression_reads h he
  dsimp only at hrun
  split_ifs at hrun
  · cases hrun
  · simp only [Check.bind_yields] at hrun
    obtain ⟨_, v, hclear, hrun⟩ := hrun
    have hreads := hreads.trans_quiet (clearExpressionResolution_quiet env _ hclear)
    cases e with
    | variableReference key =>
      obtain ⟨rfl, rfl⟩ := (Check.pure_yields ..).mp hrun
      exact ⟨hreads.sound hs, hreads.frame hs, key, rfl,
        scoped_variableReference.mp (hreads.scoped hs)⟩
    | _ => cases hrun

theorem processGroupingElements_scoped {elements : List (GroupingAction ρ)}
    (h : ∀ g ∈ elements, GroupingScoped g) {p r : SetFunctionProcessor} {s t : AnalyzerState ρ}
    (hrun : processGroupingElements p elements s = (some r, t)) (hs : s.Sound) :
    t.Sound ∧ Extends s t ∧ ∃ keys : List Variable,
      r = keys.foldl SetFunctionProcessor.addGroupKey p ∧ ∀ v ∈ keys, Legible t.scopes t.fresh v := by
  induction elements generalizing p s with
  | nil =>
    obtain ⟨rfl, rfl⟩ := (Check.pure_yields ..).mp hrun
    exact ⟨hs, .refl _, [], rfl, fun _ hv => nomatch hv⟩
  | cons element elements ih =>
    obtain ⟨helement, helements⟩ := List.forall_mem_cons.mp h
    simp only [processGroupingElements, Check.bind_yields] at hrun
    obtain ⟨q, u, hq, hrun⟩ := hrun
    obtain ⟨hu, hextends, key, rfl, hkey⟩ := helement hq hs
    obtain ⟨ht, hrest, keys, rfl, hkeys⟩ := ih helements hrun hu
    exact ⟨ht, hextends.trans hrest, key :: keys, rfl,
      List.forall_mem_cons.mpr ⟨hrest.legible hkey, hkeys⟩⟩

theorem processGroupBy_scoped {groupBy : Option (List (GroupingAction ρ))}
    (h : ∀ es ∈ groupBy, ∀ g ∈ es, GroupingScoped g) {r : SetFunctionProcessor}
    {s t : AnalyzerState ρ} (hrun : processGroupBy groupBy s = (some r, t)) (hs : s.Sound) :
    t.Sound ∧ Extends s t ∧ ∃ keys, r.Grouped keys ∧ ∀ v ∈ keys, Legible t.scopes t.fresh v := by
  cases groupBy with
  | none =>
    obtain ⟨rfl, rfl⟩ := (Check.pure_yields ..).mp hrun
    exact ⟨hs, .refl _, [], .empty rfl rfl rfl rfl, fun _ hv => nomatch hv⟩
  | some elements =>
    obtain ⟨ht, hextends, keys, rfl, hkeys⟩ := processGroupingElements_scoped (h elements rfl) hrun hs
    exact ⟨ht, hextends, keys, SetFunctionProcessor.groupBy_grouped keys, hkeys⟩

/-- HAVING leaves a condition that reads allowed variables and aggregated columns. -/
theorem processHaving_scoped {having : Option (ScalarAction ρ)} (h : ∀ a ∈ having, ScalarScoped a)
    {p q : SetFunctionProcessor} {condition : Option Scalar} {s t : AnalyzerState ρ}
    (hrun : processHaving env having p s = (some (condition, q), t)) (hs : s.Sound) :
    t.Sound ∧ Extends s t ∧ (condition ≠ none → q.active = true) ∧
      ∀ allowed, inputs t.scopes ⊆ allowed → p.Scoped allowed s.fresh →
        q.Scoped allowed t.fresh ∧
        Reading (allowed ++ q.aggregationsStore.2.map AggregateColumn.destination)
          (variablesOption condition) (subqueriesOption condition) := by
  cases having with
  | none =>
    simp only [processHaving, Check.pure_yields, Prod.mk.injEq] at hrun
    obtain ⟨⟨rfl, rfl⟩, rfl⟩ := hrun
    exact ⟨hs, .refl _, fun hne => absurd rfl hne, fun _ _ hp => ⟨hp, .nil _⟩⟩
  | some a =>
    simp only [processHaving, Check.bind_yields, Check.pure_yields, Prod.mk.injEq] at hrun
    obtain ⟨⟨predicate, saw⟩, u, hpredicate, ⟨e, q'⟩, v, he, _, w, hresolve, ⟨rfl, rfl⟩, rfl⟩ := hrun
    have hreads := analyzeScalarExpression_reads (h a rfl) hpredicate
    have hprocessed := processSetFunctions_processed predicate he
    have hquiet := Check.Frame.trans hprocessed.quiet (resolveOperator_quiet env _ rfl hresolve)
    have hall := hreads.trans_quiet hquiet
    refine ⟨hall.sound hs, hall.frame hs, fun _ => hprocessed.grows.active rfl, ?_⟩
    intro allowed hallowed hp
    have hactivated : p.activate.Scoped allowed u.fresh :=
      SetFunctionProcessor.Scoped.mono (p := p.activate) (m := u.fresh)
        ⟨hp.keys, hp.arguments, hp.argumentNames, hp.destinations, hp.columns⟩
        (List.Subset.refl _) (hreads.frame hs).fresh
    have hvisible : inputs u.scopes ⊆ allowed := by
      have hwidened := hquiet.extends.scopes.widened.inputs
      exact List.Subset.trans hwidened hallowed
    obtain ⟨hq, hreading⟩ := hprocessed.scoped hactivated ((hreads.scoped hs).reading hvisible)
    have hfresh := Quiet.fresh (resolveOperator_quiet env _ rfl hresolve)
    exact ⟨hq.mono (List.Subset.refl _) hfresh, hreading⟩

/-! ### The select list and ORDER BY -/

/-- Columns that were added to a list, with scoped expressions. -/
structure AddedColumns (s t : AnalyzerState ρ) (before after added : List (Variable × Scalar)) :
    Prop where
  sound : t.Sound
  frame : Extends s t
  columns : after = before ++ added
  names : Streams t.fresh (added.map Prod.fst)
  expressions : ∀ c ∈ added, Scoped t.scopes t.fresh c.2

namespace AddedColumns

variable {s t u : AnalyzerState ρ} {xs ys zs cs ds : List (Variable × Scalar)}

theorem nil (h : Extends s t) (ht : t.Sound) : AddedColumns s t xs xs [] :=
  ⟨ht, h, (List.append_nil _).symm, fun _ hv => (nomatch hv), fun _ hc => (nomatch hc)⟩

theorem trans (h : AddedColumns s t xs ys cs) (k : AddedColumns t u ys zs ds) :
    AddedColumns s u xs zs (cs ++ ds) where
  sound := k.sound
  frame := h.frame.trans k.frame
  columns := by rw [k.columns, h.columns, List.append_assoc]
  names := by
    rw [List.map_append]
    exact List.forall_mem_append.mpr ⟨h.names.mono (List.Subset.refl _) k.frame.fresh, k.names⟩
  expressions := List.forall_mem_append.mpr
    ⟨fun c hc => (h.expressions c hc).mono k.frame.scopes k.frame.fresh, k.expressions⟩

theorem trans_quiet (h : AddedColumns s t xs ys cs) (k : Quiet t u) : AddedColumns s u xs ys cs where
  sound := h.sound.of_quiet k
  frame := h.frame.trans k.extends
  columns := h.columns
  names := h.names.mono (List.Subset.refl _) k.fresh
  expressions c hc := (h.expressions c hc).mono k.extends.scopes k.fresh

/-- One column, with a fresh variable for an expression. -/
theorem single {e : Scalar} {v : Variable} (hs : s.Sound) (h : Reads s t [e])
    (hv : streamVariable t = (some v, u)) : AddedColumns s u xs (xs ++ [(v, e)]) [(v, e)] := by
  have hall := h.trans_quiet (streamVariable_quiet hv)
  obtain ⟨rfl, rfl⟩ := (streamVariable_yields ..).mp hv
  refine ⟨hall.sound hs, hall.frame hs, rfl, fun w hw => ?_, fun c hc => ?_⟩
  · rw [List.mem_singleton.mp hw]
    exact ⟨rfl, Nat.lt_succ_self _⟩
  · rw [List.mem_singleton.mp hc]
    exact hall.scoped hs

end AddedColumns

/-- A select element adds columns to the projection, and to the relation these or visible ones. -/
def SelectScoped (a : SelectAction ρ) : Prop :=
  ∀ ⦃l s l' t⦄, a l s = (some l', t) → s.Sound → ∃ added,
    AddedColumns s t l.columns l'.columns added ∧
    l'.info.variables ⊆ l.info.variables ++ (added.map Prod.fst ++ t.scope.variables)

theorem processSelectColumn_scoped {action : ScalarAction ρ} (h : ScalarScoped action)
    (value : ScalarExpression) (name : Option SimpleName) :
    SelectScoped (processSelectColumn env value action name) := by
  intro l s l' t hrun hs
  simp only [processSelectColumn, Check.bind_yields, Check.pure_yields] at hrun
  obtain ⟨⟨e, sawAggregate⟩, u, he, v, w, hv, rfl, rfl⟩ := hrun
  refine ⟨[(v, e)], .single hs (analyzeScalarExpression_reads h he) hv, ?_⟩
  have hvariables := addAll_variables l.info
    [{ variable_ := v, identifier := some (selectColumnName env value name) }]
  change (l.info.add _).variables = l.info.variables ++ [v] at hvariables
  rw [hvariables]
  intro x hx
  obtain hx | hx := List.mem_append.mp hx
  · exact List.mem_append_left _ hx
  · exact List.mem_append_right _ (List.mem_append_left _ hx)

theorem exportedColumns_variables (r : RelationInfo) :
    r.exportedColumns.map ColumnInfo.variable_ ⊆ r.variables :=
  List.map_subset _ List.filter_sublist.subset

theorem processSelectAsterisk_scoped (qualifier : Option ScalarExpression) :
    SelectScoped (processSelectAsterisk env qualifier : SelectAction ρ) := by
  intro l s l' t hrun hs
  cases qualifier with
  | none =>
    simp only [processSelectAsterisk, Check.bind_yields, currentScope_yields] at hrun
    obtain ⟨_, _, ⟨rfl, rfl⟩, hrun⟩ := hrun
    generalize hcolumns : s.scope.relations.flatMap RelationInfo.exportedColumns = columns at hrun
    have hvariables : columns.map ColumnInfo.variable_ ⊆ s.scope.variables := by
      rw [← hcolumns, List.map_flatMap]
      intro v hv
      obtain ⟨r, hr, hv⟩ := List.mem_flatMap.mp hv
      exact QueryScope.mem_variables hr (exportedColumns_variables r hv)
    cases columns with
    | nil => cases hrun
    | cons column columns =>
      obtain ⟨rfl, rfl⟩ := (Check.pure_yields ..).mp hrun
      refine ⟨[], .nil (.refl _) hs, ?_⟩
      rw [addAll_variables, List.map_nil, List.nil_append]
      exact List.append_subset.mpr ⟨List.subset_append_left _ _,
        List.Subset.trans hvariables (List.subset_append_right _ _)⟩
  | some q =>
    cases q with
    | variableReference name =>
      simp only [processSelectAsterisk, Check.bind_yields, Check.pure_yields] at hrun
      obtain ⟨found, u, hfound, rfl, rfl⟩ := hrun
      have hquiet : Quiet _ _ := analyzeRelationInfoName_quiet env _ hfound
      have hmem := analyzeRelationInfoName_mem hfound
      refine ⟨[], .nil hquiet.extends (hs.of_quiet hquiet), ?_⟩
      rw [addAll_variables, List.map_nil, List.nil_append]
      have hscope : u.scope = s.scope := by rw [AnalyzerState.scope, hquiet.scopes]; rfl
      rw [hscope]
      refine List.append_subset.mpr ⟨List.subset_append_left _ _, fun v hv => ?_⟩
      exact List.mem_append_right _ (QueryScope.mem_variables hmem (exportedColumns_variables found hv))
    | _ => cases hrun

theorem processSelectElements_scoped {elements : List (SelectAction ρ)}
    (h : ∀ a ∈ elements, SelectScoped a) : SelectScoped fun l => processSelectElements l elements := by
  intro l s l' t hrun hs
  induction elements generalizing l s with
  | nil =>
    obtain ⟨rfl, rfl⟩ := (Check.pure_yields ..).mp hrun
    exact ⟨[], .nil (.refl _) hs, List.subset_append_left _ _⟩
  | cons element elements ih =>
    obtain ⟨helement, helements⟩ := List.forall_mem_cons.mp h
    simp only [processSelectElements, Check.bind_yields] at hrun
    obtain ⟨middle, u, hmiddle, hrun⟩ := hrun
    obtain ⟨cs, hfirst, hinfo⟩ := helement hmiddle hs
    obtain ⟨ds, hrest, hinfos⟩ := ih helements hrun hfirst.sound
    refine ⟨cs ++ ds, hfirst.trans hrest, List.Subset.trans hinfos ?_⟩
    have hcolumns : u.scope.variables = t.scope.variables := hrest.frame.scopes.headD.columns.symm
    rw [hcolumns] at hinfo
    intro v hv
    simp only [List.mem_append, List.map_append] at hv ⊢
    obtain hv | hv := hv
    · have hmem := hinfo hv
      simp only [List.mem_append] at hmem
      tauto
    · tauto

theorem processSelect_scoped {elements : List (SelectAction ρ)}
    (h : ∀ a ∈ elements, SelectScoped a) {l : SelectList} {s t : AnalyzerState ρ}
    (hrun : processSelect env elements s = (some l, t)) (hs : s.Sound) :
    AddedColumns s t [] l.columns l.columns ∧
      l.info.variables ⊆ l.columns.map Prod.fst ++ t.scope.variables := by
  simp only [processSelect, Check.bind_yields, Check.pure_yields] at hrun
  obtain ⟨l', u, helements, _, v, hresolve, rfl, rfl⟩ := hrun
  obtain ⟨added, hadded, hinfo⟩ := processSelectElements_scoped h helements hs
  have hcolumns := hadded.columns
  rw [List.nil_append] at hcolumns
  have hquiet : Quiet _ _ := resolveOperator_quiet env _ rfl hresolve
  rw [hcolumns] at hadded ⊢
  refine ⟨hadded.trans_quiet hquiet, ?_⟩
  rw [AnalyzerState.scope, hquiet.scopes]
  exact hinfo

theorem processSortElement_scoped {spec : SortSpecification ρ} (h : ScalarScoped spec.key)
    {l l' : SortList} {s t : AnalyzerState ρ} (hrun : processSortElement spec l s = (some l', t))
    (hs : s.Sound) : ∃ v e d, AddedColumns s t l.columns l'.columns [(v, e)] ∧
      l'.keys = l.keys ++ [(v, d)] := by
  unfold processSortElement at hrun
  split_ifs at hrun
  · cases hrun
  · simp only [Check.bind_yields] at hrun
    obtain ⟨_, v₁, hreport, ⟨e, saw⟩, v₂, he, hrun⟩ := hrun
    have hreads := Reads.quiet_trans (reportNullLocation_quiet _ hreport)
      (analyzeScalarExpression_reads h he)
    have hadd : ∀ {m}, (do
        let v ← streamVariable
        return { columns := l.columns ++ [(v, e)],
                 keys := l.keys ++ [(v, convertOrdering spec.direction)],
                 sawAggregate := l.sawAggregate || saw } : Analysis ρ SortList) v₂
          = (some m, t) →
        ∃ v e d, AddedColumns s t l.columns m.columns [(v, e)] ∧ m.keys = l.keys ++ [(v, d)] := by
      intro m hm
      simp only [Check.bind_yields, Check.pure_yields] at hm
      obtain ⟨v, v₃, hv, rfl, rfl⟩ := hm
      exact ⟨v, e, _, .single hs hreads hv, rfl⟩
    cases e with
    | immediate => cases hrun
    | _ => exact hadd hrun

theorem processSortElements_scoped {specs : List (SortSpecification ρ)}
    (h : ∀ spec ∈ specs, ScalarScoped spec.key) {l l' : SortList} {s t : AnalyzerState ρ}
    (hrun : processSortElements l specs s = (some l', t)) (hs : s.Sound)
    (hkeys : l.keys.map Prod.fst = l.columns.map Prod.fst) :
    (∃ added, AddedColumns s t l.columns l'.columns added) ∧
      l'.keys.map Prod.fst = l'.columns.map Prod.fst := by
  induction specs generalizing l s with
  | nil =>
    obtain ⟨rfl, rfl⟩ := (Check.pure_yields ..).mp hrun
    exact ⟨⟨[], .nil (.refl _) hs⟩, hkeys⟩
  | cons spec specs ih =>
    obtain ⟨hspec, hspecs⟩ := List.forall_mem_cons.mp h
    simp only [processSortElements, Check.bind_yields] at hrun
    obtain ⟨middle, u, hmiddle, hrun⟩ := hrun
    obtain ⟨v, e, d, hadded, hkey⟩ := processSortElement_scoped hspec hmiddle hs
    have hnext : middle.keys.map Prod.fst = middle.columns.map Prod.fst := by
      rw [hkey, hadded.columns, List.map_append, List.map_append, hkeys]
      rfl
    obtain ⟨⟨added, hrest⟩, hend⟩ := ih hspecs hrun hadded.sound hnext
    exact ⟨⟨_, hadded.trans hrest⟩, hend⟩

theorem processOrderBy_scoped {specs : List (SortSpecification ρ)}
    (h : ∀ spec ∈ specs, ScalarScoped spec.key) {sort : Option SortList} {s t : AnalyzerState ρ}
    (hrun : processOrderBy env specs s = (some sort, t)) (hs : s.Sound) :
    AddedColumns s t [] (sortColumns sort) (sortColumns sort) ∧
      (sortKeys sort).map Prod.fst = (sortColumns sort).map Prod.fst := by
  cases specs with
  | nil =>
    obtain ⟨rfl, rfl⟩ := (Check.pure_yields ..).mp hrun
    exact ⟨.nil (.refl _) hs, rfl⟩
  | cons spec specs =>
    simp only [processOrderBy, Check.bind_yields, Check.pure_yields] at hrun
    obtain ⟨l, u, hl, _, v, hproject, _, w, hlimit, rfl, rfl⟩ := hrun
    obtain ⟨⟨added, hadded⟩, hkeys⟩ := processSortElements_scoped h hl hs rfl
    have hcolumns := hadded.columns
    rw [List.nil_append] at hcolumns
    change AddedColumns s w [] l.columns l.columns ∧ l.keys.map Prod.fst = l.columns.map Prod.fst
    rw [hcolumns] at hadded ⊢
    exact ⟨(hadded.trans_quiet (resolveOperator_quiet env _ rfl hproject)).trans_quiet
      (resolveOperator_quiet env _ rfl hlimit), hcolumns ▸ hkeys⟩

theorem processLimit_scoped {limit : Option (ScalarAction ρ)} (h : ∀ a ∈ limit, ScalarScoped a)
    {sorted : Bool} {count : Option Nat} {s t : AnalyzerState ρ}
    (hrun : processLimit env limit sorted s = (some count, t)) : Reads s t [] := by
  cases limit with
  | none =>
    obtain ⟨rfl, rfl⟩ := (Check.pure_yields ..).mp hrun
    exact .refl _
  | some a =>
    simp only [processLimit, Check.bind_yields] at hrun
    obtain ⟨⟨e, saw⟩, u, he, n, v, hn, hrun⟩ := hrun
    have hreads : Reads s v [] := ((analyzeScalarExpression_reads (h a rfl) he).trans_quiet
      (extractSize_quiet env e hn)).build fun _ _ he => by cases he
    cases sorted with
    | true =>
      obtain ⟨rfl, rfl⟩ := (Check.pure_yields ..).mp hrun
      exact hreads
    | false =>
      simp only [Bool.false_eq_true, if_false, Check.bind_yields, Check.pure_yields] at hrun
      obtain ⟨_, w, hresolve, rfl, rfl⟩ := hrun
      exact hreads.trans_quiet (resolveOperator_quiet env _ rfl hresolve)

end Mizugaki.Analyzer
