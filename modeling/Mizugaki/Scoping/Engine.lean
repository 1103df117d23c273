import Mizugaki.Scoping.Query

/-! Every query in a sound chain. What is left are the queries that are no blocks of clauses, and
the common table expressions, whose queries run in an independent scope and take nothing from
around it. -/

namespace Mizugaki.Analyzer

open Mizugaki.Ast Mizugaki.Plan Mizugaki.Control

variable {ρ : Type} {env : Environment ρ}

/-! ### Scopes of queries -/

/-- A sound state that enters a scope without features. -/
theorem AnalyzerState.Sound.enterEmpty {s : AnalyzerState ρ} (hs : s.Sound) {f : ScopeFeatures}
    (hf : f.expose = false) : (s.enter (.empty f)).Sound := by
  refine .enter hs.chain hf fun he => ?_
  rw [hs.hidden] at he
  cases he

/-- A query in the current scope, or in a new one below it. -/
theorem inScope_scoped {m : List ScalarValueContext → Analysis ρ QueryResult}
    (h : ∀ context, BlockScoped (m context)) :
    QueryScoped fun context continueScope => inScope continueScope (m context) := by
  intro context continueScope s t r hrun hs hempty
  obtain ⟨rfl, -, hm⟩ | ⟨rfl, u, hm, rfl⟩ := inScope_yields hrun
  · exact h context hm hs (hempty rfl)
  · have hanswers := h context hm (hs.enterEmpty rfl) rfl
    exact ⟨hs.leave hanswers.sound hanswers.widens, hanswers.widens.leave.widens,
      hanswers.leave rfl rfl, hanswers.columns⟩

/-! ### Values and set operations -/

theorem analyzeRow_scoped {row : List (ScalarAction ρ)} (h : ∀ a ∈ row, ScalarScoped a)
    {context : List ScalarValueContext} {index : Nat} {s t : AnalyzerState ρ} {es : List Scalar}
    (hrun : analyzeRow context index row s = (some es, t)) : Reads s t es := by
  induction row generalizing s index es with
  | nil =>
    obtain ⟨rfl, rfl⟩ := (Check.pure_yields ..).mp hrun
    exact .refl s
  | cons a as ih =>
    obtain ⟨ha, has⟩ := List.forall_mem_cons.mp h
    simp only [analyzeRow, Check.bind_yields, Check.pure_yields] at hrun
    obtain ⟨⟨value, saw⟩, u, hvalue, rest, v, hrest, rfl, rfl⟩ := hrun
    exact (analyzeScalarExpression_reads ha hvalue).trans (ih has hrest)

theorem analyzeRows_scoped {rows : List (Option (List (ScalarAction ρ)))}
    (h : ∀ row ∈ rows, ∀ es ∈ row, ∀ a ∈ es, ScalarScoped a) {context : List ScalarValueContext}
    {s t : AnalyzerState ρ} {es : List (List Scalar)}
    (hrun : analyzeRows context rows s = (some es, t)) : Reads s t es.flatten := by
  induction rows generalizing s es with
  | nil =>
    obtain ⟨rfl, rfl⟩ := (Check.pure_yields ..).mp hrun
    exact .refl s
  | cons row rows ih =>
    obtain ⟨hrow, hrows⟩ := List.forall_mem_cons.mp h
    cases row with
    | none => cases hrun
    | some elements =>
      simp only [analyzeRows, Check.bind_yields, Check.pure_yields] at hrun
      obtain ⟨first, u, hfirst, rest, v, hrest, rfl, rfl⟩ := hrun
      rw [List.flatten_cons]
      exact (analyzeRow_scoped (hrow elements rfl) hfirst).trans (ih hrows hrest)

theorem processTableValueConstructor_scoped {elements : List (Option (List (ScalarAction ρ)))}
    (h : ∀ row ∈ elements, ∀ es ∈ row, ∀ a ∈ es, ScalarScoped a)
    (context : List ScalarValueContext) :
    BlockScoped (processTableValueConstructor env elements context) := by
  intro s t r hrun hs hempty
  simp only [processTableValueConstructor, Check.bind_yields, Check.pure_yields,
    streamVariables_yields] at hrun
  obtain ⟨rows, u, hrows, _, _, ⟨rfl, rfl⟩, _, v, hresolve, rfl, rfl⟩ := hrun
  generalize (rows.map List.length).foldl max 0 = count at hresolve ⊢
  have hquiet : Quiet u v := Check.Frame.trans (streamVariables_quiet _ (streamVariables_run _ _))
    (resolveOperator_quiet env _ rfl hresolve)
  have hreads := (analyzeRows_scoped h hrows).trans_quiet hquiet
  have hcount : u.fresh + count ≤ v.fresh := Quiet.fresh (resolveOperator_quiet env _ rfl hresolve)
  refine ⟨hreads.sound hs, (hreads.frame hs).widens, ?_, ?_⟩
  · have hnone : v.scope.variables = [] := by
      have hsame : v.scope.variables = s.scope.variables := (hreads.frame hs).scopes.headD.columns
      rw [hsame, QueryScope.variables, hempty]
      rfl
    have hinputs : inputs v.scopes = own v.scopes := by
      rw [inputs]
      change v.scope.variables ++ _ = _
      rw [hnone, List.nil_append]
    have hop : (Operator.values (freshStreams u.fresh count) rows).Scoped (inputs v.scopes) v.fresh :=
      operator_scoped (hreads.expressions hs) rfl rfl
        (Streams.mono (freshStreams_streams _ _) (List.Subset.refl _) hcount)
    exact .source (hinputs ▸ hop)
  · rw [addAll_variables, Graph.defines_source, List.map_map]
    change [] ++ List.map (fun v => v) _ ⊆ _
    rw [List.map_id', List.nil_append]
    exact List.Subset.refl _

theorem processSetOperation_answers {operation : SetOperation} {quantifier : Plan.SetQuantifier}
    {left right : QueryResult} {s t : AnalyzerState ρ} {r : QueryResult} {ins : List Variable}
    (h : processSetOperation env operation quantifier left.output right.output
      left.relation.exportedColumns right.relation.exportedColumns s = (some r, t))
    (hl : left.output.Scoped ins s.fresh) (hr : right.output.Scoped ins s.fresh)
    (hlcolumns : left.relation.variables ⊆ left.output.defines)
    (hrcolumns : right.relation.variables ⊆ right.output.defines) :
    r.output.Scoped ins t.fresh ∧ r.relation.variables ⊆ r.output.defines := by
  have hlefts := List.Subset.trans (exportedColumns_variables left.relation) hlcolumns
  have hrights := List.Subset.trans (exportedColumns_variables right.relation) hrcolumns
  have hpairs : ∀ v ∈ (((left.relation.exportedColumns.map ColumnInfo.variable_).zip
      (right.relation.exportedColumns.map ColumnInfo.variable_)).map Prod.fst ++
      ((left.relation.exportedColumns.map ColumnInfo.variable_).zip
      (right.relation.exportedColumns.map ColumnInfo.variable_)).map Prod.snd),
      v ∈ left.output.defines ++ right.output.defines ++ ins := by
    intro v hv
    obtain hv | hv := List.mem_append.mp hv
    · obtain ⟨p, hp, rfl⟩ := List.mem_map.mp hv
      exact List.mem_append_left _ (List.mem_append_left _ (hlefts (List.of_mem_zip hp).1))
    · obtain ⟨p, hp, rfl⟩ := List.mem_map.mp hv
      exact List.mem_append_left _ (List.mem_append_right _ (hrights (List.of_mem_zip hp).2))
  have hkept : ∀ op : Operator, op.defines = [] →
      (RelationInfo.empty.addAll (left.relation.exportedColumns.map fun c =>
        { variable_ := c.variable_, identifier := c.identifier })).variables ⊆
        (Graph.binary op left.output right.output).defines := by
    intro op hop
    rw [addAll_variables, List.map_map, Graph.defines_binary, hop]
    exact List.Subset.trans hlefts (List.subset_append_left _ _)
  unfold processSetOperation at h
  split_ifs at h with hlength
  · cases h
  · cases operation with
    | except =>
      obtain ⟨rfl, rfl⟩ := (Check.pure_yields ..).mp h
      exact ⟨.binary (references_scoped rfl rfl rfl fun v hv _ => hpairs v hv) hl hr, hkept _ rfl⟩
    | intersect =>
      obtain ⟨rfl, rfl⟩ := (Check.pure_yields ..).mp h
      exact ⟨.binary (references_scoped rfl rfl rfl fun v hv _ => hpairs v hv) hl hr, hkept _ rfl⟩
    | union_ =>
      simp only [processUnion, Check.bind_yields, Check.pure_yields, streamVariables_yields] at h
      obtain ⟨_, _, ⟨rfl, rfl⟩, _, v, hresolve, rfl, rfl⟩ := h
      have hcount : s.fresh + left.relation.exportedColumns.length ≤ v.fresh :=
        (Quiet.fresh (resolveOperator_quiet env _ rfl hresolve))
      generalize hfresh : freshStreams s.fresh left.relation.exportedColumns.length = fresh
      have hstreams : Streams v.fresh fresh := by
        rw [← hfresh]
        exact Streams.mono (freshStreams_streams _ _) (List.Subset.refl _) hcount
      have hlefteq : fresh.length = left.relation.exportedColumns.length := by
        rw [← hfresh]
        simp [freshStreams]
      have hrighteq : right.relation.exportedColumns.length = fresh.length := by
        rw [hlefteq]
        exact (not_not.mp hlength).symm
      generalize hops : Operator.union_ quantifier
        ((left.relation.exportedColumns.map ColumnInfo.variable_).zip
          ((right.relation.exportedColumns.map ColumnInfo.variable_).zip fresh)) = op
      have hdefines : op.defines = fresh := by
        rw [← hops]
        refine List.ext_getElem ?_ fun i hi hj => ?_
        · simp [Operator.defines, hlefteq, hrighteq]
        · simp [Operator.defines]
      have hop : op.Scoped (left.output.defines ++ right.output.defines ++ ins) v.fresh := by
        refine ⟨fun w hw _ => ?_, fun node hnode => ?_, hops ▸ trivial, hdefines ▸ hstreams⟩
        · rw [← hops] at hw
          simp only [Operator.reads, Operator.references, Operator.expressions, List.flatMap_nil,
            List.append_nil] at hw
          obtain hw | hw := List.mem_append.mp hw
          · obtain ⟨p, hp, rfl⟩ := List.mem_map.mp hw
            exact List.mem_append_left _ (List.mem_append_left _ (hlefts (List.of_mem_zip hp).1))
          · obtain ⟨p, hp, rfl⟩ := List.mem_map.mp hw
            exact List.mem_append_left _ (List.mem_append_right _
              (hrights (List.of_mem_zip (List.of_mem_zip hp).2).1))
        · rw [← hops] at hnode
          cases hnode
      have hle : s.fresh ≤ v.fresh := by omega
      refine ⟨.binary hop (hl.mono (List.Subset.refl _) hle) (hr.mono (List.Subset.refl _) hle), ?_⟩
      rw [addAll_variables, Graph.defines_binary, hdefines, List.map_map]
      change [] ++ (fresh.zip _).map Prod.fst ⊆ _
      rw [List.nil_append, List.map_fst_zip hlefteq.le]
      exact List.subset_append_left _ _

theorem processBinaryQuery_scoped {left right : QueryAction ρ} (hl : QueryScoped left)
    (hr : QueryScoped right) (op : QueryOperator) (quantifier : Option Ast.SetQuantifier)
    (corresponding : Bool) :
    QueryScoped fun context _ =>
      processBinaryQuery env left op quantifier corresponding right context := by
  intro context continueScope s t result hrun hs _
  obtain ⟨operation, l, u, r, v, -, -, hleft, hright, hset⟩ := processBinaryQuery_yields env hrun
  have hlanswers := hl context false hleft hs fun hc => by cases hc
  have hranswers := hr context false hright hlanswers.sound fun hc => by cases hc
  have hquiet : Quiet _ _ := processSetOperation_quiet env _ _ _ _ _ _ hset
  have hlgraph := hlanswers.graph.mono hranswers.widens.scopes.own hranswers.widens.fresh
  obtain ⟨hgraph, hcolumns⟩ := processSetOperation_answers hset hlgraph hranswers.graph
    hlanswers.columns hranswers.columns
  refine ⟨hranswers.sound.of_quiet hquiet, (hlanswers.widens.trans hranswers.widens).trans
    hquiet.extends.widens, ?_, hcolumns⟩
  rw [hquiet.scopes]
  exact hgraph

/-! ### Common table expressions -/

/-- Entering a query that takes nothing from around it. -/
theorem addQuery_adds {name : SimpleName} {query : QueryInfo} {s t : AnalyzerState ρ} {x : Unit}
    (h : addQuery env name query s = (some x, t)) (hs : s.Sound) (hq : query.Sound s.fresh) :
    Adds s t [] ∧ t.scope.relations = s.scope.relations := by
  simp only [addQuery, Check.bind_yields, currentScope_yields] at h
  obtain ⟨_, _, ⟨rfl, rfl⟩, h⟩ := h
  generalize identifierOf env name .relation = identifier at h
  cases hfound : s.scope.queryMap identifier with
  | some q =>
    rw [QueryScope.addQuery, hfound] at h
    cases h
  | none =>
    simp only [QueryScope.addQuery, hfound] at h
    -- the scope that is put in place is the current one, with the query
    let f : QueryScope → QueryScope := fun scope =>
      { scope with queryMap := Function.update scope.queryMap identifier (some query) }
    have hmodify : modifyScope f s = (some x, t) := by
      simp only [modifyScope, Check.modify_yields] at h ⊢
      rw [← h]
      cases hscopes : s.scopes with
      | nil => rfl
      | cons scope parents => simp [AnalyzerState.scope, hscopes, f]
    refine ⟨modifyScope_adds hmodify hs ⟨fun _ => rfl, fun _ => rfl, fun _ => List.Subset.refl _,
      fun _ => List.subset_append_left _ _, fun scope n q hfound => ?_, fun _ hv => (by cases hv)⟩, ?_⟩
    · change Function.update scope.queryMap identifier (some query) n = some q at hfound
      by_cases hn : n = identifier
      · subst hn
        rw [Function.update_self] at hfound
        cases hfound
        exact .inr hq
      · rw [Function.update_of_ne hn] at hfound
        exact .inl hfound
    · simp only [modifyScope, Check.modify_yields] at hmodify
      rw [← hmodify, AnalyzerState.scope, AnalyzerState.scope]
      cases s.scopes <;> rfl

theorem processCommonTable_scoped {element : CommonTable ρ} (h : QueryScoped element.query)
    {s t : AnalyzerState ρ} {x : Unit} (hrun : processCommonTable env element s = (some x, t))
    (hs : s.Sound) : Adds s t [] ∧ t.scope.relations = s.scope.relations := by
  simp only [processCommonTable, declareCommonTable, Check.bind_yields] at hrun
  obtain ⟨⟨result, left⟩, u, hquery, names, v, hnames, hadd⟩ := hrun
  obtain ⟨w, hbody, -, rfl⟩ := (withScope_yields ..).mp hquery
  obtain ⟨hsound, hextends, hanswers⟩ := h.nested hbody hs rfl
  have hquiet : Quiet _ _ := commonTableColumnNames_quiet env _ _ hnames
  have hgraph : result.output.Scoped [] w.fresh := by
    have hscopes := hanswers.widens.scopes
    have hgraph := hanswers.graph
    cases hw : w.scopes with
    | nil =>
      rw [hw] at hscopes
      cases hscopes
    | cons last parents =>
      rw [hw] at hscopes hgraph
      cases hscopes with
      | cons hwidens _ =>
        have hfeatures := hwidens.features
        rwa [own_of_independent (by rw [hfeatures]; rfl)] at hgraph
  have hclosed : (SubqueryNode.mk result.output []).Closed :=
    Graph.Scoped.closed hgraph (fun _ hp => by cases hp) .nil .nil
  have hinfo : QueryInfo.Sound v.fresh ⟨result.output, result.relation.exportedColumns.map
      ColumnInfo.variable_, names⟩ :=
    ⟨hclosed, List.Subset.trans (exportedColumns_variables _) hanswers.columns,
      fun column hcolumn => ((hgraph.defines column hcolumn).2).mono hquiet.fresh⟩
  obtain ⟨hadds, hrelations⟩ := addQuery_adds hadd (hsound.of_quiet hquiet) hinfo
  have hall := ((Adds.of_extends hsound hextends).trans_quiet hquiet).trans hadds
  refine ⟨hall, hrelations.trans ?_⟩
  rw [AnalyzerState.scope, hquiet.scopes]
  exact hextends.scopes.headD.relations

theorem processCommonTables_scoped {elements : List (CommonTable ρ)}
    (h : ∀ e ∈ elements, QueryScoped e.query) {s t : AnalyzerState ρ} {x : Unit}
    (hrun : processCommonTables env elements s = (some x, t)) (hs : s.Sound) :
    Adds s t [] ∧ t.scope.relations = s.scope.relations := by
  induction elements generalizing s with
  | nil =>
    obtain ⟨-, rfl⟩ := (Check.pure_yields ..).mp hrun
    exact ⟨.of_quiet hs (Check.Frame.refl s), rfl⟩
  | cons element elements ih =>
    obtain ⟨helement, helements⟩ := List.forall_mem_cons.mp h
    simp only [processCommonTables, Check.bind_yields] at hrun
    obtain ⟨_, u, hfirst, hrun⟩ := hrun
    obtain ⟨hadds, hrelations⟩ := processCommonTable_scoped helement hfirst hs
    obtain ⟨hrest, hsame⟩ := ih helements hrun hadds.sound
    exact ⟨hadds.trans hrest, hsame.trans hrelations⟩

theorem processWith_scoped {elements : List (CommonTable ρ)} {query : QueryAction ρ}
    (h : ∀ e ∈ elements, QueryScoped e.query) (hq : QueryScoped query) (isRecursive : Bool)
    (context : List ScalarValueContext) :
    BlockScoped (processWith env isRecursive elements query context) := by
  intro s t r hrun hs hempty
  cases isRecursive with
  | true => cases hrun
  | false =>
    simp only [processWith, Bool.false_eq_true, if_false, Check.bind_yields] at hrun
    obtain ⟨_, u, helements, hrun⟩ := hrun
    obtain ⟨hadds, hrelations⟩ := processCommonTables_scoped h helements hs
    have hanswers := hq context true hrun hadds.sound fun _ => hrelations.trans hempty
    exact { hanswers with widens := hadds.widens.trans hanswers.widens }

/-! ### The traversal -/

/-- Every function of the analyzer keeps chains sound. -/
theorem scoping (env : Environment ρ) : Compositional env ScalarScoped QueryScoped TableScoped
    SelectScoped GroupingScoped JoinScoped where
  processed := process_scoped
  literal := analyzeLiteral_scoped
  variableReference := variableName_scoped
  hostParameter _ := findPlaceholder_scoped _ _
  placeholder _ := findPlaceholder_scoped _ _
  rejected := reject_scoped _
  case_ := processCase_scoped
  cast op type h := processCast_scoped h op type
  unary op h := processUnary_scoped h op
  binary op node hl hr := processBinary_scoped hl hr op node
  extract field digits h := processExtract_scoped h field digits
  subquery kind h := processSubquery_scoped h kind
  comparison op hl hr := processComparison_scoped hl hr op
  quantified _ _ hl hr := quantifiedCompare_scoped hl hr _ _
  between isNot op ht hl hr := processBetween_scoped ht hl hr isNot op
  in_ isNot hl hv hr := processIn_scoped hl hv hr isNot
  patternMatch isNot op hi hp he := processPatternMatch_scoped hi hp he isNot op
  tablePredicate op h := processTablePredicate_scoped h op
  function name h := processFunctionInvocation_scoped h name
  builtinFunction kind h := processBuiltinFunction_scoped h kind
  builtinSetFunction kind quantifier h := processBuiltinSetFunction_scoped h kind quantifier
  clauses h := inScope_scoped fun _ => processQuery_scoped h
  relationReference _ := inScope_scoped fun _ _ _ _ h hs _ => processRelationReference_answers h hs
  values h := inScope_scoped fun context => processTableValueConstructor_scoped h context
  binaryQuery op quantifier corresponding hl hr :=
    processBinaryQuery_scoped hl hr op quantifier corresponding
  with_ isRecursive h hq := inScope_scoped fun context => processWith_scoped h hq isRecursive context
  selectColumn value name h := processSelectColumn_scoped h value name
  selectAsterisk := processSelectAsterisk_scoped
  groupingColumn := processGroupingColumn_scoped
  tableReference := processTableExpressionReference_scoped
  tableRejected _ _ _ _ h := by cases h
  join type hl hr hj := processJoinExpression_scoped hl hr hj type
  tableSubquery isLateral correlation h := processTableSubquery_scoped h isLateral correlation
  apply type name correlation ho ha := processApply_scoped ho ha type name correlation
  joinCondition := processJoinCondition_scoped
  joinColumns := processJoinColumns_scoped

end Mizugaki.Analyzer
