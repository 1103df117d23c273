import Mizugaki.Analyzer.Correlation
import Mizugaki.Scoping.Subquery

/-! Table expressions in sound chains. A table expression adds the columns of its graph to the
scope of the FROM clause, and what the graph reads is visible there. -/

namespace Mizugaki.Plan

/-- An operator that reads `inputs` only, with closed subqueries, and defines streams that are
numbered before the counter reaches `n`. -/
structure Operator.Scoped (inputs : List Variable) (n : Nat) (op : Operator) : Prop where
  reads : ∀ v ∈ op.reads, v.isColumn = true → v ∈ inputs
  nested : ∀ node ∈ op.nested, node.Closed
  separate : op.Separate
  defines : ∀ v ∈ op.defines, v.isStream = true ∧ v.Below n

namespace Graph.Scoped

variable {inputs : List Variable} {n : Nat} {op : Operator} {g l r : Graph}

theorem source (h : op.Scoped inputs n) : (Graph.source op).Scoped inputs n where
  reads _ ho v hv hc := .inr (h.reads v (List.mem_singleton.mp ho ▸ hv) hc)
  nested _ ho node hnode := h.nested node (List.mem_singleton.mp ho ▸ hnode)
  separate _ ho := List.mem_singleton.mp ho ▸ h.separate
  defines v hv := h.defines v (Graph.defines_source op ▸ hv)

theorem unary (h : op.Scoped (g.defines ++ inputs) n) (hg : g.Scoped inputs n) :
    (Graph.unary op g).Scoped inputs n where
  reads o ho v hv hc := by
    rw [Graph.defines_unary]
    obtain rfl | ho := List.mem_cons.mp ho
    · obtain hv | hv := List.mem_append.mp (h.reads v hv hc)
      · exact .inl (List.mem_append_right _ hv)
      · exact .inr hv
    · exact (hg.reads o ho v hv hc).imp_left (List.mem_append_right _)
  nested o ho node hnode := by
    obtain rfl | ho := List.mem_cons.mp ho
    · exact h.nested node hnode
    · exact hg.nested o ho node hnode
  separate := List.forall_mem_cons.mpr ⟨h.separate, hg.separate⟩
  defines v hv := by
    rw [Graph.defines_unary] at hv
    obtain hv | hv := List.mem_append.mp hv
    · exact h.defines v hv
    · exact hg.defines v hv

theorem binary (h : op.Scoped (l.defines ++ r.defines ++ inputs) n) (hl : l.Scoped inputs n)
    (hr : r.Scoped inputs n) : (Graph.binary op l r).Scoped inputs n where
  reads o ho v hv hc := by
    rw [Graph.defines_binary]
    obtain rfl | ho := List.mem_cons.mp ho
    · obtain hv | hv := List.mem_append.mp (h.reads v hv hc)
      · exact .inl (List.mem_append_right _ hv)
      · exact .inr hv
    · obtain ho | ho := List.mem_append.mp ho
      · exact (hl.reads o ho v hv hc).imp_left fun hv =>
          List.mem_append_right _ (List.mem_append_left _ hv)
      · exact (hr.reads o ho v hv hc).imp_left fun hv =>
          List.mem_append_right _ (List.mem_append_right _ hv)
  nested o ho node hnode := by
    obtain rfl | ho := List.mem_cons.mp ho
    · exact h.nested node hnode
    · obtain ho | ho := List.mem_append.mp ho
      · exact hl.nested o ho node hnode
      · exact hr.nested o ho node hnode
  separate := List.forall_mem_cons.mpr
    ⟨h.separate, List.forall_mem_append.mpr ⟨hl.separate, hr.separate⟩⟩
  defines v hv := by
    rw [Graph.defines_binary] at hv
    obtain hv | hv := List.mem_append.mp hv
    · exact h.defines v hv
    · exact (List.mem_append.mp hv).elim (hl.defines v) (hr.defines v)

end Graph.Scoped

theorem Operator.Scoped.mono {inputs inputs' : List Variable} {n m : Nat} {op : Operator}
    (h : op.Scoped inputs n) (hinputs : inputs ⊆ inputs') (hnm : n ≤ m) : op.Scoped inputs' m where
  reads v hv hc := hinputs (h.reads v hv hc)
  nested := h.nested
  separate := h.separate
  defines v hv := ⟨(h.defines v hv).1, (h.defines v hv).2.mono hnm⟩

end Mizugaki.Plan

namespace Mizugaki.Analyzer

open Mizugaki.Ast Mizugaki.Plan Mizugaki.Control

variable {ρ : Type} {env : Environment ρ}

/-! ### What is visible, as a list -/

/-- The columns of the innermost scope and the parameters that can be read there. -/
def inputs (scopes : List QueryScope) : List Variable :=
  (scopes.headD .empty).variables ++ own scopes

theorem mem_inputs {scopes : List QueryScope} {v : Variable} :
    v ∈ inputs scopes ↔ Visible scopes v := List.mem_append

theorem Widened.inputs {scopes later : List QueryScope} (h : Widened scopes later) :
    inputs scopes ⊆ inputs later :=
  fun _ hv => mem_inputs.mpr (h.visible (mem_inputs.mp hv))

/-- An operator whose expressions are scoped, that names no other variables and stands for no
graph. -/
theorem operator_scoped {scopes : List QueryScope} {n : Nat} {op : Operator}
    (hexpressions : ∀ e ∈ op.expressions, Scoped scopes n e) (hreferences : op.references = [])
    (hnested : op.nested = op.expressions.flatMap Scalar.subqueries)
    (hdefines : ∀ v ∈ op.defines, v.isStream = true ∧ v.Below n) :
    op.Scoped (inputs scopes) n where
  reads v hv hc := by
    rw [Operator.reads, hreferences, List.nil_append] at hv
    obtain ⟨e, he, hv⟩ := List.mem_flatMap.mp hv
    exact mem_inputs.mpr ((hexpressions e he).visible hv hc)
  nested node hnode := by
    rw [hnested] at hnode
    obtain ⟨e, he, hnode⟩ := List.mem_flatMap.mp hnode
    exact ((hexpressions e he).2 node hnode).1
  separate := Operator.separate_of_nested hnested
  defines := hdefines

/-! ### Adding columns -/

/-- Streams that are numbered before the counter reaches `n`. -/
def Streams (n : Nat) (vs : List Variable) : Prop := ∀ v ∈ vs, v.isStream = true ∧ v.Below n

theorem Streams.mono {n m : Nat} {vs ws : List Variable} (h : Streams n vs) (hw : ws ⊆ vs)
    (hnm : n ≤ m) : Streams m ws :=
  fun v hv => ⟨(h v (hw hv)).1, (h v (hw hv)).2.mono hnm⟩

theorem freshStreams_streams (first count : Nat) :
    Streams (first + count) (freshStreams first count) := by
  intro v hv
  obtain ⟨k, hk, rfl⟩ := List.mem_map.mp hv
  have hlt := (List.mem_range'_1.mp hk).2
  exact ⟨rfl, hlt⟩

theorem addAll_variables (r : RelationInfo) (infos : List ColumnInfo) :
    (r.addAll infos).variables = r.variables ++ infos.map ColumnInfo.variable_ :=
  RelationInfo.addAll_map (fun _ _ => rfl) r infos

theorem add_variables (scope : QueryScope) (info : RelationInfo) :
    (scope.add info).variables = scope.variables ++ info.variables := by
  simp [QueryScope.variables, QueryScope.add]

/-- A change of the innermost scope that adds columns, and keeps the rest. -/
structure Enlarges (n : Nat) (vs : List Variable) (f : QueryScope → QueryScope) : Prop where
  features : ∀ scope, (f scope).features = scope.features
  parameters : ∀ scope, (f scope).parameters = scope.parameters
  columns : ∀ scope, scope.variables ⊆ (f scope).variables
  added : ∀ scope, (f scope).variables ⊆ scope.variables ++ vs
  queries : ∀ scope name q, (f scope).queryMap name = some q →
    scope.queryMap name = some q ∨ q.Sound n
  streams : Streams n vs

/-- What an analysis does to the innermost scope: it adds columns. -/
structure Adds (s t : AnalyzerState ρ) (vs : List Variable) : Prop where
  sound : t.Sound
  widens : Widens s t
  columns : t.scope.variables ⊆ s.scope.variables ++ vs

namespace Adds

variable {s t u : AnalyzerState ρ} {vs ws : List Variable}

theorem trans (h : Adds s t vs) (k : Adds t u ws) : Adds s u (vs ++ ws) where
  sound := k.sound
  widens := h.widens.trans k.widens
  columns := by
    intro v hv
    rw [← List.append_assoc]
    obtain hv | hv := List.mem_append.mp (k.columns hv)
    · exact List.mem_append_left _ (h.columns hv)
    · exact List.mem_append_right _ hv

theorem of_extends (ht : t.Sound) (h : Extends s t) : Adds s t [] where
  sound := ht
  widens := h.widens
  columns := by
    rw [AnalyzerState.scope, AnalyzerState.scope, h.scopes.headD.columns, List.append_nil]
    exact List.Subset.refl _

theorem of_quiet (hs : s.Sound) (h : Quiet s t) : Adds s t [] :=
  .of_extends (hs.of_quiet h) h.extends

theorem of_reads {es : List Scalar} (hs : s.Sound) (h : Reads s t es) : Adds s t [] :=
  .of_extends (h.sound hs) (h.frame hs)

theorem trans_quiet (h : Adds s t vs) (k : Quiet t u) : Adds s u vs := by
  have hall := h.trans (.of_quiet h.sound k)
  rwa [List.append_nil] at hall

theorem quiet_trans (hs : s.Sound) (h : Quiet s t) (k : Adds t u vs) : Adds s u vs :=
  (Adds.of_quiet hs h).trans k

end Adds

theorem modifyScope_adds {f : QueryScope → QueryScope} {vs : List Variable} {s t : AnalyzerState ρ}
    {x : Unit} (h : modifyScope f s = (some x, t)) (hs : s.Sound) (hf : Enlarges s.fresh vs f) :
    Adds s t vs := by
  rw [modifyScope, Check.modify_yields] at h
  subst h
  obtain ⟨hchain, hhidden⟩ := hs
  cases hscopes : s.scopes with
  | nil =>
    refine ⟨⟨?_, ?_⟩, ⟨?_, le_rfl⟩, ?_⟩
    · simp only [List.modify_nil, SoundChain]
    · simp [AnalyzerState.scope, QueryScope.empty]
    · simp only [hscopes, List.modify_nil]
      exact .nil
    · simp [AnalyzerState.scope, hscopes]
  | cons scope parents =>
    rw [hscopes] at hchain
    simp only [AnalyzerState.scope, hscopes, List.headD_cons] at hhidden
    have hwidens : scope.Widens (f scope) :=
      ⟨hf.features scope, hf.parameters scope ▸ List.prefix_rfl, hf.columns scope⟩
    have hsound : (f scope).Sound s.fresh parents :=
      { columns := fun v hv => (List.mem_append.mp (hf.added scope hv)).elim
          (hchain.1.columns v) (hf.streams v)
        visible := hf.parameters scope ▸ hchain.1.visible
        frames := hf.parameters scope ▸ hchain.1.frames
        destinations := hf.parameters scope ▸ hchain.1.destinations
        sources := hf.parameters scope ▸ hchain.1.sources
        queries := fun name q hq => (hf.queries scope name q hq).elim (hchain.1.queries name q) id
        exposed := fun he => (hf.features scope).symm ▸ hchain.1.exposed he }
    refine ⟨⟨?_, ?_⟩, ⟨?_, le_rfl⟩, ?_⟩
    · simp only [List.modify_zero_cons]
      exact ⟨hsound, hchain.2⟩
    · simp only [AnalyzerState.scope, List.modify_zero_cons, List.headD_cons]
      rw [hf.features scope]
      exact hhidden
    · simp only [hscopes, List.modify_zero_cons]
      exact .cons hwidens (.refl parents)
    · simp only [AnalyzerState.scope, hscopes, List.modify_zero_cons, List.headD_cons]
      exact hf.added scope

theorem addRelation_adds {info : RelationInfo} {s t : AnalyzerState ρ} {x : Unit}
    (h : addRelation info s = (some x, t)) (hs : s.Sound) (hinfo : Streams s.fresh info.variables) :
    Adds s t info.variables :=
  modifyScope_adds h hs
    { features := fun _ => rfl
      parameters := fun _ => rfl
      columns := fun scope => by
        rw [add_variables]
        exact List.subset_append_left _ _
      added := fun scope => by rw [add_variables]; exact List.Subset.refl _
      queries := fun _ _ _ hq => .inl hq
      streams := hinfo }

/-- A hidden column stays in its relation. -/
theorem flatMap_hide_variables (relations : List RelationInfo) (relation column : Nat) :
    (relations.modify relation (·.hide column)).flatMap RelationInfo.variables =
      relations.flatMap RelationInfo.variables := by
  have hcolumns : ∀ r : RelationInfo, (r.hide column).variables = r.variables := by
    intro r
    have hvariable : ∀ c : ColumnInfo, c.hide.variable_ = c.variable_ := fun _ => rfl
    exact Data.UniqueMap.modify_map_eq hvariable column
  rw [List.flatMap_def, Data.UniqueMap.modify_map_eq hcolumns relation, ← List.flatMap_def]

theorem hide_variables (scope : QueryScope) (relation column : Nat) :
    (scope.hide relation column).variables = scope.variables :=
  flatMap_hide_variables scope.relations relation column

theorem hideColumn_adds {relation column : Nat} {s t : AnalyzerState ρ} {x : Unit}
    (h : hideColumn relation column s = (some x, t)) (hs : s.Sound) : Adds s t [] :=
  modifyScope_adds h hs
    { features := fun _ => rfl
      parameters := fun _ => rfl
      columns := fun scope => by rw [hide_variables]; exact List.Subset.refl _
      added := fun scope => by rw [hide_variables, List.append_nil]; exact List.Subset.refl _
      queries := fun _ _ _ hq => .inl hq
      streams := fun _ hv => nomatch hv }

/-! ### References -/

/-- A graph over the scope that it added its columns to. -/
structure Builds (s t : AnalyzerState ρ) (g : Graph) : Prop where
  adds : Adds s t g.defines
  graph : g.Scoped (inputs t.scopes) t.fresh

def TableScoped (m : Analysis ρ Graph) : Prop :=
  ∀ ⦃s t g⦄, m s = (some g, t) → s.Sound → Builds s t g

/-- The graph stays scoped while the scope grows. -/
theorem Builds.later {s t u : AnalyzerState ρ} {g : Graph} (h : Builds s t g) (k : Widens t u) :
    g.Scoped (inputs u.scopes) u.fresh :=
  h.graph.mono k.scopes.inputs k.fresh

theorem processTableReference_answers {table : Table} {s t : AnalyzerState ρ} {r : QueryResult}
    (h : processTableReference env table s = (some r, t)) (hs : s.Sound) : Answers s t r := by
  have hquiet : Quiet _ _ := processTableReference_quiet env table h
  simp only [processTableReference, Check.bind_yields] at h
  obtain ⟨info, u, hinfo, h⟩ := h
  cases hindex : info.primaryIndex with
  | none =>
    rw [hindex] at h
    cases h
  | some index =>
    simp only [hindex, Check.bind_yields, Check.pure_yields] at h
    obtain ⟨_, v, hresolve, rfl, rfl⟩ := h
    have hfresh := Quiet.fresh (resolveOperator_quiet env _ rfl hresolve)
    obtain ⟨hcolumns, hu⟩ := buildColumns_escaped env hinfo
    generalize hkept : includedColumns false table.columns = kept at hcolumns hu
    have hstreams : Streams v.fresh (freshStreams s.fresh kept.length) := by
      refine (freshStreams_streams s.fresh kept.length).mono (List.Subset.refl _) ?_
      have hcount : u.fresh = s.fresh + kept.length := by rw [hu]
      omega
    have hmap := RelationInfo.addAll_map (f := fun c => (c.declaration, c.variable_))
      (fun _ _ => rfl) (.empty (some (.table table)) "")
      (List.zipWith tableColumnInfo kept (freshStreams s.fresh kept.length))
    have hlength : (freshStreams s.fresh kept.length).length = kept.length := by simp [freshStreams]
    have hpairs : info.columns.map (fun c => (c.declaration, c.variable_)) =
        (kept.zip (freshStreams s.fresh kept.length)).map fun p => (some p.1, p.2) := by
      rw [hcolumns, hmap, List.map_zipWith, List.zip, List.map_zipWith]
      rfl
    have hscan : scanColumns info = kept.zip (freshStreams s.fresh kept.length) := by
      have hfilter : scanColumns info = (info.columns.map fun c =>
          (c.declaration, c.variable_)).filterMap fun p => p.1.map (·, p.2) := by
        rw [List.filterMap_map]
        rfl
      rw [hfilter, hpairs, List.filterMap_map]
      exact List.filterMap_some
    have hdefines : (Graph.source (.scan index (scanColumns info))).defines =
        freshStreams s.fresh kept.length := by
      rw [Graph.defines_source, Operator.defines, hscan]
      exact List.map_snd_zip hlength.le
    have hvariables : info.variables = freshStreams s.fresh kept.length := by
      have hsnd := congrArg (List.map Prod.snd) hpairs
      rw [List.map_map, List.map_map] at hsnd
      refine hsnd.trans ?_
      exact List.map_snd_zip hlength.le
    refine ⟨hs.of_quiet hquiet, hquiet.extends.widens, .source ⟨fun _ hv => (by cases hv),
      fun _ hn => (by cases hn), trivial, ?_⟩, ?_⟩
    · rw [← Graph.defines_source, hdefines]
      exact hstreams
    · rw [hdefines, hvariables]
      exact List.Subset.refl _

theorem processQueryReference_answers {q : QueryInfo} {relation : Name} {s t : AnalyzerState ρ}
    {r : QueryResult} (h : processQueryReference env q relation s = (some r, t)) (hs : s.Sound)
    (hq : q.Sound s.fresh) : Answers s t r := by
  have hquiet : Quiet _ _ := processQueryReference_quiet env q relation h
  simp only [processQueryReference, Check.bind_yields, Check.pure_yields,
    streamVariables_yields] at h
  obtain ⟨_, _, ⟨rfl, rfl⟩, _, v, hresolve, rfl, rfl⟩ := h
  have hfresh : s.fresh + q.outputColumns.length ≤ v.fresh :=
    Quiet.fresh (resolveOperator_quiet env _ rfl hresolve)
  have hlength : (freshStreams s.fresh q.outputColumns.length).length = q.outputColumns.length := by
    simp [freshStreams]
  have hdefines : (Operator.subquery q.queryGraph
      (q.outputColumns.zip (freshStreams s.fresh q.outputColumns.length)) true).defines =
      freshStreams s.fresh q.outputColumns.length := List.map_snd_zip hlength.le
  refine ⟨hs.of_quiet hquiet, hquiet.extends.widens, .source ⟨fun _ hv => (by cases hv), ?_, ?_, ?_⟩,
    ?_⟩
  · intro node hnode
    rw [List.mem_singleton.mp hnode]
    exact hq.closed
  · -- the columns of the query were numbered before
    intro m hm hdefined
    have hlater := (List.of_mem_zip hm).2
    obtain ⟨k, hk, hm⟩ := List.mem_map.mp hlater
    have hbelow := hq.below m.2 hdefined
    rw [← hm] at hbelow
    exact absurd (List.mem_range'_1.mp hk).1 (Nat.not_le.mpr hbelow)
  · rw [hdefines]
    exact Streams.mono (freshStreams_streams _ _) (List.Subset.refl _) hfresh
  · rw [addAll_variables, Graph.defines_source, hdefines]
    change [] ++ (queryReferenceColumns q _).map ColumnInfo.variable_ ⊆ _
    rw [List.nil_append]
    intro w hw
    obtain ⟨c, hc, rfl⟩ := List.mem_map.mp hw
    obtain ⟨i, hi, rfl⟩ := List.mem_mapIdx.mp hc
    exact List.getElem_mem hi

/-- A table or a common table expression that is referred to by name. -/
theorem processRelationReference_answers {relation : Name} {s t : AnalyzerState ρ} {r : QueryResult}
    (h : processRelationReference env relation s = (some r, t)) (hs : s.Sound) : Answers s t r := by
  simp only [processRelationReference, Check.bind_yields] at h
  obtain ⟨found, u, hfound, h⟩ := h
  have hquiet : Quiet _ _ := analyzeRelationName_quiet env relation hfound
  have hu := hs.of_quiet hquiet
  have hanswers : Answers u t r := by
    cases found with
    | table declaration => exact processTableReference_answers h hu
    | query q =>
      obtain ⟨scope, hscope, name, hq⟩ := analyzeRelationName_query hfound
      obtain ⟨parents, hsound⟩ := hs.chain.mem hscope
      exact processQueryReference_answers h hu ((hsound.queries name q hq).mono hquiet.fresh)
  exact { hanswers with widens := hquiet.extends.widens.trans hanswers.widens }

theorem renameColumns_variables {names : List SimpleName} {seen : List String}
    {columns columns' : List ColumnInfo} {s t : AnalyzerState ρ}
    (h : renameColumns env names seen columns s = (some columns', t)) :
    columns'.map ColumnInfo.variable_ = columns.map ColumnInfo.variable_ := by
  induction names generalizing seen columns columns' s with
  | nil =>
    simp only [renameColumns, Check.pure_yields] at h
    rw [h.1]
  | cons name names ih =>
    cases columns with
    | nil =>
      simp only [renameColumns, Check.pure_yields] at h
      rw [h.1]
    | cons column columns =>
      simp only [renameColumns] at h
      split_ifs at h
      · cases h
      · simp only [Check.bind_yields, Check.pure_yields] at h
        obtain ⟨rest, u, hrest, rfl, rfl⟩ := h
        rw [List.map_cons, List.map_cons, ih hrest]

/-- A correlation keeps columns of the relation, under other names. -/
theorem rebuildRelationInfo_variables {info r : RelationInfo} {correlation : CorrelationClause}
    {s t : AnalyzerState ρ} (h : rebuildRelationInfo env info correlation s = (some r, t)) :
    r.variables ⊆ info.variables := by
  unfold rebuildRelationInfo at h
  split at h
  · cases h
  · cases hnames : correlation.columnNames with
    | nil =>
      simp only [hnames, Check.pure_yields] at h
      obtain ⟨rfl, -⟩ := h
      exact List.Subset.refl _
    | cons name names =>
      simp only [hnames, Check.bind_yields, Check.pure_yields] at h
      obtain ⟨columns, u, hrename, rfl, -⟩ := h
      have hvariables := renameColumns_variables hrename
      change List.map ColumnInfo.variable_ (Data.Chain.rebuild ColumnInfo.threading _).cells ⊆ _
      rw [Data.Chain.rebuild_map (fun _ _ => rfl), RelationInfo.erase, List.drop_length,
        List.append_nil, List.map_take, hvariables]
      exact List.take_subset _ _

theorem correlate_variables {info r : RelationInfo} {correlation : Option CorrelationClause}
    {s t : AnalyzerState ρ} (h : correlate env info correlation s = (some r, t)) :
    r.variables ⊆ info.variables := by
  cases correlation with
  | none =>
    obtain ⟨rfl, -⟩ := (Check.pure_yields ..).mp h
    exact List.Subset.refl _
  | some correlation => exact rebuildRelationInfo_variables h

/-- A relation of a query that is added to the scope. -/
theorem Answers.builds {s t u v : AnalyzerState ρ} {r : QueryResult} {info : RelationInfo} {x : Unit}
    (h : Extends s t) (ht : t.Sound) (hgraph : r.output.Scoped (own t.scopes) t.fresh)
    (hcolumns : info.variables ⊆ r.output.defines) (hquiet : Quiet t u)
    (hadd : addRelation info u = (some x, v)) : Builds s v r.output := by
  have hu := ht.of_quiet hquiet
  have hstreams : Streams u.fresh info.variables :=
    Streams.mono hgraph.defines hcolumns hquiet.fresh
  have hadds := addRelation_adds hadd hu hstreams
  have hall := ((Adds.of_extends ht h).trans_quiet hquiet).trans hadds
  have hwidens := hquiet.extends.widens.trans hadds.widens
  refine ⟨⟨hall.sound, hall.widens, fun w hw => ?_⟩, hgraph.mono (fun w hw => ?_) hwidens.fresh⟩
  · exact (List.mem_append.mp (hall.columns hw)).elim (List.mem_append_left _)
      fun hw => List.mem_append_right _ (hcolumns (by simpa using hw))
  · exact mem_inputs.mpr (.inr (hwidens.scopes.own hw))

theorem processTableExpressionReference_scoped (name : Name)
    (correlation : Option CorrelationClause) :
    TableScoped (processTableExpressionReference env name correlation) := by
  intro s t g h hs
  simp only [processTableExpressionReference, Check.bind_yields, Check.pure_yields] at h
  obtain ⟨result, u, hresult, info, v, hinfo, _, w, hadd, rfl, rfl⟩ := h
  have hanswers := processRelationReference_answers hresult hs
  have hextends := Quiet.extends (processRelationReference_quiet env name hresult)
  exact Answers.builds hextends hanswers.sound hanswers.graph
    (List.Subset.trans (correlate_variables hinfo) hanswers.columns) (correlate_quiet env _ _ hinfo)
    hadd

theorem processTableSubquery_scoped {query : QueryAction ρ} (h : QueryScoped query)
    (isLateral : Bool) (correlation : CorrelationClause) :
    TableScoped (processTableSubquery env isLateral query correlation) := by
  intro s t g hrun hs
  cases isLateral with
  | true => cases hrun
  | false =>
    simp only [processTableSubquery, Bool.false_eq_true, if_false, Check.bind_yields,
      Check.pure_yields] at hrun
    obtain ⟨⟨result, left⟩, u, hquery, info, v, hinfo, _, w, hadd, rfl, rfl⟩ := hrun
    obtain ⟨u', hnested, -, rfl⟩ := (withScope_yields ..).mp hquery
    obtain ⟨hsound, hextends, hanswers⟩ := h.nested hnested hs rfl
    exact Answers.builds hextends hsound (hanswers.leave rfl rfl)
      (List.Subset.trans (rebuildRelationInfo_variables hinfo) hanswers.columns)
      (rebuildRelationInfo_quiet env _ _ hinfo) hadd

/-! ### Joins -/

/-- A join specification may hide columns, and its condition is scoped. -/
def JoinScoped (j : JoinAction ρ) : Prop :=
  ∀ ⦃pivot s t e⦄, j pivot s = (some e, t) → s.Sound → Adds s t [] ∧ Scoped t.scopes t.fresh e

theorem Reads.scoped {s t : AnalyzerState ρ} {e : Scalar} (h : Reads s t [e]) (hs : s.Sound) :
    Scoped t.scopes t.fresh e :=
  h.expressions hs e List.mem_cons_self

theorem processJoinCondition_scoped {condition : ScalarAction ρ} (h : ScalarScoped condition) :
    JoinScoped (processJoinCondition condition) := by
  intro pivot s t e hrun hs
  simp only [processJoinCondition, Check.bind_yields] at hrun
  obtain ⟨⟨e', sawAggregate⟩, u, he, hrun⟩ := hrun
  have hreads := analyzeScalarExpression_reads h he
  dsimp only at hrun
  split_ifs at hrun
  · cases hrun
  · obtain ⟨rfl, rfl⟩ := (Check.pure_yields ..).mp hrun
    exact ⟨.of_reads hs hreads, hreads.scoped hs⟩

/-- The columns of a name belong to the relations. -/
theorem mem_usingColumns {identifier : String} {relations : List RelationInfo} {position : Nat}
    {c : Nat × Nat × Variable} (h : c ∈ usingColumns identifier position relations) :
    c.2.2 ∈ relations.flatMap RelationInfo.variables := by
  induction relations generalizing position with
  | nil => cases h
  | cons r rs ih =>
    rw [List.flatMap_cons]
    obtain h | h := List.mem_append.mp h
    · refine List.mem_append_left _ ?_
      obtain ⟨p, hp, rfl⟩ := List.mem_map.mp h
      obtain ⟨place, -, hplace⟩ := List.mem_filterMap.mp hp
      cases place with
      | ambiguous => cases hplace
      | at_ i =>
        obtain ⟨column, hcolumn, hexported⟩ := Option.bind_eq_some_iff.mp hplace
        split_ifs at hexported
        cases hexported
        exact List.mem_map_of_mem (List.mem_of_getElem? hcolumn)
    · exact List.mem_append_right _ (ih h)

theorem usingColumn_mem {side identifier : String} {columns : List (Nat × Nat × Variable)}
    {c : Nat × Nat × Variable} {s t : AnalyzerState ρ}
    (h : usingColumn side identifier columns s = (some c, t)) : c ∈ columns := by
  match columns with
  | [] => cases h
  | [column] =>
    obtain ⟨rfl, -⟩ := (Check.pure_yields ..).mp h
    exact List.mem_cons_self
  | _ :: _ :: _ => cases h

theorem processUsingColumn_scoped {pivot : Nat} {name : SimpleName} {s t : AnalyzerState ρ}
    {e : Scalar} (h : processUsingColumn env pivot name s = (some e, t)) (hs : s.Sound) :
    Adds s t [] ∧ Scoped t.scopes t.fresh e := by
  simp only [processUsingColumn, Check.bind_yields, currentScope_yields, Check.pure_yields] at h
  obtain ⟨_, _, ⟨rfl, rfl⟩, ⟨i, k, left⟩, u, hl, ⟨i', k', right⟩, v, hr, _, w, hhide, rfl, rfl⟩ := h
  have hleft : left ∈ s.scope.variables := by
    obtain ⟨r, hr, hv⟩ := List.mem_flatMap.mp (mem_usingColumns (usingColumn_mem hl))
    exact QueryScope.mem_variables (List.mem_of_mem_take hr) hv
  have hright : right ∈ s.scope.variables := by
    obtain ⟨r, hr, hv⟩ := List.mem_flatMap.mp (mem_usingColumns (usingColumn_mem hr))
    exact QueryScope.mem_variables (List.mem_of_mem_drop hr) hv
  have hquiet : Quiet _ _ := Check.Frame.trans (usingColumn_quiet _ _ _ hl) (usingColumn_quiet _ _ _ hr)
  have hadds := Adds.quiet_trans hs hquiet (hideColumn_adds hhide (hs.of_quiet hquiet))
  refine ⟨hadds, scoped_compare.mpr ⟨?_, ?_⟩⟩
  · exact scoped_variableReference.mpr (.inl (.inl (hadds.widens.columns hleft)))
  · exact scoped_variableReference.mpr (.inl (.inl (hadds.widens.columns hright)))

theorem processUsingColumns_scoped {pivot : Nat} {names : List SimpleName} {result e : Scalar}
    {s t : AnalyzerState ρ} (h : processUsingColumns env pivot result names s = (some e, t))
    (hs : s.Sound) (hresult : Scoped s.scopes s.fresh result) :
    Adds s t [] ∧ Scoped t.scopes t.fresh e := by
  induction names generalizing result s with
  | nil =>
    obtain ⟨rfl, rfl⟩ := (Check.pure_yields ..).mp h
    exact ⟨.of_quiet hs (Check.Frame.refl s), hresult⟩
  | cons name names ih =>
    simp only [processUsingColumns, Check.bind_yields] at h
    obtain ⟨term, u, hterm, h⟩ := h
    obtain ⟨hfirst, hscoped⟩ := processUsingColumn_scoped hterm hs
    have hresult := hresult.widen hfirst.widens.scopes hfirst.widens.fresh
    obtain ⟨hrest, he⟩ := ih h hfirst.sound (scoped_binary.mpr ⟨hresult, hscoped⟩)
    exact ⟨hfirst.trans hrest, he⟩

theorem processJoinColumns_scoped (columns : List SimpleName) :
    JoinScoped (processJoinColumns env columns) := by
  intro pivot s t e h hs
  cases columns with
  | nil => cases h
  | cons name names =>
    simp only [processJoinColumns, Check.bind_yields, Check.pure_yields] at h
    obtain ⟨first, u, hfirst, result, v, hresult, _, w, hresolve, rfl, rfl⟩ := h
    obtain ⟨hadds, hscoped⟩ := processUsingColumn_scoped hfirst hs
    obtain ⟨hrest, he⟩ := processUsingColumns_scoped hresult hadds.sound hscoped
    have hquiet : Quiet _ _ := resolve_quiet env _ _ hresolve
    exact ⟨(hadds.trans hrest).trans_quiet hquiet,
      he.mono hquiet.extends.scopes hquiet.fresh⟩

theorem processSpecification_scoped {pivot : Nat} {specification : Option (JoinAction ρ)}
    (h : ∀ j ∈ specification, JoinScoped j) {condition : Option Scalar} {s t : AnalyzerState ρ}
    (hrun : processSpecification pivot specification s = (some condition, t)) (hs : s.Sound) :
    Adds s t [] ∧ ∀ e ∈ condition, Scoped t.scopes t.fresh e := by
  cases specification with
  | none =>
    obtain ⟨rfl, rfl⟩ := (Check.pure_yields ..).mp hrun
    exact ⟨.of_quiet hs (Check.Frame.refl s), fun _ he => nomatch he⟩
  | some j =>
    simp only [processSpecification, Check.bind_yields, Check.pure_yields] at hrun
    obtain ⟨e, v, he, rfl, rfl⟩ := hrun
    obtain ⟨hadds, hscoped⟩ := h j rfl he hs
    exact ⟨hadds, fun e' he' => Option.mem_some_iff.mp he' ▸ hscoped⟩

theorem join_scoped {scopes : List QueryScope} {n : Nat} {kind : JoinKind}
    {condition : Option Scalar} (h : ∀ e ∈ condition, Scoped scopes n e) :
    (Operator.join kind condition).Scoped (inputs scopes) n :=
  operator_scoped (fun e he => h e (Option.mem_toList.mp he)) rfl rfl fun _ hv => nomatch hv

theorem processJoin_scoped {left right : Analysis ρ Graph} (hl : TableScoped left)
    (hr : TableScoped right) {specification : Option (JoinAction ρ)}
    (hj : ∀ j ∈ specification, JoinScoped j) (kind : JoinKind) (natural transpose : Bool) :
    TableScoped (processJoin env kind natural transpose left right specification) := by
  intro s t g h hs
  simp only [processJoin, Check.bind_yields, currentScope_yields] at h
  obtain ⟨l, u₁, hleft, _, _, ⟨rfl, rfl⟩, r, u₂, hright, h⟩ := h
  have hlbuilds := hl hleft hs
  have hrbuilds := hr hright hlbuilds.adds.sound
  cases natural with
  | true => cases specification <;> cases h
  | false =>
    simp only [Bool.false_eq_true, if_false, Check.bind_yields, Check.pure_yields] at h
    obtain ⟨condition, u₃, hcondition, _, u₄, hresolve, rfl, rfl⟩ := h
    obtain ⟨hadds, hscoped⟩ := processSpecification_scoped hj hcondition hrbuilds.adds.sound
    have hquiet : Quiet _ _ := resolveOperator_quiet env _ rfl hresolve
    have hend := hadds.trans_quiet hquiet
    have hop : (Operator.join kind condition).Scoped (inputs u₄.scopes) u₄.fresh :=
      join_scoped fun e he => (hscoped e he).mono hquiet.extends.scopes hquiet.fresh
    have hlgraph := hlbuilds.later (hrbuilds.adds.widens.trans hend.widens)
    have hrgraph := hrbuilds.later hend.widens
    have hall := (hlbuilds.adds.trans hrbuilds.adds).trans hend
    rw [List.append_nil] at hall
    cases transpose with
    | true =>
      refine ⟨⟨hall.sound, hall.widens, List.Subset.trans hall.columns ?_⟩, .binary (hop.mono
        (List.subset_append_right _ _) le_rfl) hrgraph hlgraph⟩
      simp only [if_true, Graph.defines_binary, Operator.defines, List.nil_append]
      intro v hv
      simp only [List.mem_append] at hv ⊢
      tauto
    | false =>
      refine ⟨⟨hall.sound, hall.widens, List.Subset.trans hall.columns ?_⟩, .binary (hop.mono
        (List.subset_append_right _ _) le_rfl) hlgraph hrgraph⟩
      simp only [Bool.false_eq_true, if_false, Graph.defines_binary, Operator.defines,
        List.nil_append]
      exact List.Subset.refl _

theorem processJoinExpression_scoped {left right : Analysis ρ Graph} (hl : TableScoped left)
    (hr : TableScoped right) {specification : Option (JoinAction ρ)}
    (hj : ∀ j ∈ specification, JoinScoped j) (type : JoinType) :
    TableScoped (processJoinExpression env type left right specification) := by
  unfold processJoinExpression
  cases convertJoinType type with
  | none =>
    intro s t g h
    cases h
  | some converted => exact processJoin_scoped hl hr hj ..

/-! ### Apply -/

theorem analyzeApplyArguments_scoped {arguments : List (ScalarAction ρ)}
    (h : ∀ a ∈ arguments, ScalarScoped a) {s t : AnalyzerState ρ} {args : List (Scalar × TypeData)}
    (hrun : analyzeApplyArguments env arguments s = (some args, t)) :
    Reads s t (args.map Prod.fst) := by
  induction arguments generalizing s args with
  | nil =>
    obtain ⟨rfl, rfl⟩ := (Check.pure_yields ..).mp hrun
    exact .refl s
  | cons a as ih =>
    obtain ⟨ha, has⟩ := List.forall_mem_cons.mp h
    simp only [analyzeApplyArguments, Check.bind_yields, Check.pure_yields] at hrun
    obtain ⟨⟨value, saw⟩, u, hvalue, type, v, htype, rest, w, hrest, rfl, rfl⟩ := hrun
    exact (analyzeScalarExpression_reads ha hvalue).trans
      (.quiet_trans (resolve_quiet env _ _ htype) (ih has hrest))

/-- The relation of an apply has columns of its operator. -/
theorem applied_variables (identifier : String) (vs : List Variable) (names : List String) :
    ((RelationInfo.empty none identifier).addAll ((vs.zip names).map fun (v, n) =>
      { variable_ := v, identifier := some n })).variables ⊆ vs := by
  rw [addAll_variables, List.map_map]
  change [] ++ _ ⊆ _
  rw [List.nil_append]
  intro v hv
  obtain ⟨p, hp, rfl⟩ := List.mem_map.mp hv
  exact (List.of_mem_zip hp).1

theorem processApply_scoped {operand : Analysis ρ Graph} (ho : TableScoped operand)
    {arguments : List (ScalarAction ρ)} (ha : ∀ a ∈ arguments, ScalarScoped a)
    (type : Option ApplyType) (name : Name) (correlation : CorrelationClause) :
    TableScoped (processApply env operand type name arguments correlation) := by
  intro s t g h hs
  simp only [processApply, Check.bind_yields] at h
  obtain ⟨input, u₁, hinput, args, u₂, hargs, functions, u₃, hfunctions, h⟩ := h
  have hbuilds := ho hinput hs
  have hreads := (analyzeApplyArguments_scoped ha hargs).trans_quiet
    (analyzeFunctionName_quiet env _ _ hfunctions)
  generalize applicableTableFunctions env (args.map Prod.snd) functions = candidates at h
  cases candidates with
  | nil => cases h
  | cons candidate rest =>
    simp only [Check.bind_yields, Check.pure_yields, streamVariables_yields] at h
    obtain ⟨target, u₄, htarget, returned, u₅, hreturned, _, _, ⟨rfl, rfl⟩, names, u₇, hnames, _, u₈,
      hadd, _, u₉, hresolve, rfl, rfl⟩ := h
    have hcount := Quiet.fresh (applyColumnNames_quiet env _ _ _ hnames)
    have hquiet : Quiet u₃ u₇ := Check.Frame.trans (resolveOverload_quiet env _ _ _ htarget)
      (Check.Frame.trans (returnedColumns_quiet _ hreturned)
        (Check.Frame.trans (streamVariables_quiet _ (streamVariables_run _ _))
          (applyColumnNames_quiet env _ _ _ hnames)))
    have hreads := hreads.trans_quiet hquiet
    have hu₇ := hreads.sound hbuilds.adds.sound
    generalize hfresh : freshStreams u₅.fresh returned.length = fresh at hadd hresolve
    have hstreams : Streams u₇.fresh fresh := by
      rw [← hfresh]
      exact Streams.mono (freshStreams_streams _ _) (List.Subset.refl _) hcount
    have hlength : fresh.length = returned.length := by rw [← hfresh]; simp [freshStreams]
    obtain ⟨info, hadd, hvariables⟩ : ∃ info, addRelation info u₇ = (some _, u₈) ∧
        info.variables ⊆ fresh := ⟨_, hadd, applied_variables _ fresh names⟩
    have hadds := addRelation_adds hadd hu₇ (hstreams.mono hvariables le_rfl)
    have hend := hadds.trans_quiet (resolveOperator_quiet env _ rfl hresolve)
    have hall := (hbuilds.adds.trans (.of_reads hbuilds.adds.sound hreads)).trans hend
    rw [List.append_nil] at hall
    have hdefines : (Operator.apply (convertApplyType type) target (args.map Prod.fst)
        ((List.range returned.length).zip fresh)).defines = fresh :=
      List.map_snd_zip (by simp [hlength])
    have hop : (Operator.apply (convertApplyType type) target (args.map Prod.fst)
        ((List.range returned.length).zip fresh)).Scoped (inputs u₉.scopes) u₉.fresh := by
      refine operator_scoped (fun e he => ?_) rfl rfl ?_
      · exact (hreads.expressions hbuilds.adds.sound e he).widen hend.widens.scopes hend.widens.fresh
      · rw [hdefines]
        exact hstreams.mono (List.Subset.refl _) hend.widens.fresh
    refine ⟨⟨hall.sound, hall.widens, List.Subset.trans hall.columns ?_⟩,
      .unary (hop.mono (List.subset_append_right _ _) le_rfl)
        (hbuilds.later ((hreads.frame hbuilds.adds.sound).widens.trans hend.widens))⟩
    rw [Graph.defines_unary, hdefines]
    intro v hv
    simp only [List.mem_append] at hv ⊢
    obtain hv | hv | hv := hv
    · exact .inl hv
    · exact .inr (.inr hv)
    · exact .inr (.inl (hvariables hv))

/-! ### The FROM clause and WHERE -/

theorem processFromElements_scoped {elements : List (Analysis ρ Graph)}
    (h : ∀ m ∈ elements, TableScoped m) {output g : Graph} {s t u : AnalyzerState ρ}
    (houtput : Builds s t output)
    (hrun : processFromElements env output elements t = (some g, u)) : Builds s u g := by
  induction elements generalizing output t with
  | nil =>
    obtain ⟨rfl, rfl⟩ := (Check.pure_yields ..).mp hrun
    exact houtput
  | cons element elements ih =>
    obtain ⟨helement, helements⟩ := List.forall_mem_cons.mp h
    simp only [processFromElements, Check.bind_yields] at hrun
    obtain ⟨next, v, hnext, _, w, hresolve, hrun⟩ := hrun
    have hbuilds := helement hnext houtput.adds.sound
    have hquiet : Quiet _ _ := resolveOperator_quiet env _ rfl hresolve
    have hend := hbuilds.adds.trans_quiet hquiet
    refine ih helements ⟨?_, ?_⟩ hrun
    · simp only [Graph.defines_binary, Operator.defines, List.nil_append]
      exact houtput.adds.trans hend
    · have hop : (Operator.join .inner none).Scoped (inputs w.scopes) w.fresh :=
        join_scoped fun e he => by cases he
      exact .binary (hop.mono (List.subset_append_right _ _) le_rfl) (houtput.later hend.widens)
        (hbuilds.later hquiet.extends.widens)

theorem processFromClause_scoped {elements : List (Analysis ρ Graph)}
    (h : ∀ m ∈ elements, TableScoped m) : TableScoped (processFromClause env elements) := by
  intro s t g hrun hs
  cases elements with
  | nil =>
    simp only [processFromClause, Check.bind_yields, Check.pure_yields] at hrun
    obtain ⟨_, u, hresolve, _, v, hadd, rfl, rfl⟩ := hrun
    have hquiet : Quiet _ _ := resolveOperator_quiet env _ rfl hresolve
    have hadds := addRelation_adds hadd (hs.of_quiet hquiet) fun v hv => by cases hv
    refine ⟨.quiet_trans hs hquiet hadds,
      .source ⟨fun _ hv => ?_, fun _ hn => ?_, trivial, fun _ hv => ?_⟩⟩
    · cases hv
    · cases hn
    · cases hv
  | cons element elements =>
    obtain ⟨helement, helements⟩ := List.forall_mem_cons.mp h
    simp only [processFromClause, Check.bind_yields] at hrun
    obtain ⟨output, u, houtput, hrun⟩ := hrun
    exact processFromElements_scoped helements (helement houtput hs) hrun

theorem processWhere_scoped {where_ : Option (ScalarAction ρ)} (h : ∀ a ∈ where_, ScalarScoped a)
    {from_ g : Graph} {s t u : AnalyzerState ρ} (hfrom : Builds s t from_)
    (hrun : processWhere env where_ from_ t = (some g, u)) : Builds s u g ∧ Extends t u := by
  cases where_ with
  | none =>
    obtain ⟨rfl, rfl⟩ := (Check.pure_yields ..).mp hrun
    exact ⟨hfrom, .refl _⟩
  | some a =>
    simp only [processWhere, Check.bind_yields] at hrun
    obtain ⟨⟨predicate, sawAggregate⟩, v, hpredicate, hrun⟩ := hrun
    have hreads := analyzeScalarExpression_reads (h a rfl) hpredicate
    dsimp only at hrun
    split_ifs at hrun
    · cases hrun
    · simp only [Check.bind_yields, Check.pure_yields] at hrun
      obtain ⟨_, w, hresolve, rfl, rfl⟩ := hrun
      have hreads := hreads.trans_quiet (resolveOperator_quiet env _ rfl hresolve)
      have ht := hfrom.adds.sound
      have hall := hfrom.adds.trans (.of_reads ht hreads)
      rw [List.append_nil] at hall
      refine ⟨⟨?_, .unary ?_ (hfrom.later (hreads.frame ht).widens)⟩, hreads.frame ht⟩
      · rwa [Graph.defines_unary, Operator.defines, List.nil_append]
      · refine Operator.Scoped.mono ?_ (List.subset_append_right _ _) le_rfl
        refine operator_scoped (fun e he => ?_) rfl rfl fun _ hv => by cases hv
        rw [List.mem_singleton.mp he]
        exact hreads.scoped ht

end Mizugaki.Analyzer
