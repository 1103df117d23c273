import Mizugaki.Aggregation.QueryMark
import Mizugaki.Analyzer.Traversal

/-! The mark of set functions, over whole queries and over the syntax tree: the analysis of every
expression marks the state exactly when a set function is left in it, and in the graph of a query
set functions are called at most in the rows of table values and in the arguments of an APPLY. -/

namespace Mizugaki.Analyzer

open Mizugaki.Ast Mizugaki.Plan Mizugaki.Control

variable {ρ : Type} {env : Environment ρ}

/-! ### The operators of a query -/

/-- The arguments that a processor collected have no set functions. -/
def SetFunctionProcessor.ArgumentsFree (q : SetFunctionProcessor) : Prop :=
  hasAggregateBindings q.argumentColumns = false ∧
    ∀ n ∈ subqueriesBindings q.argumentColumns, n.Confined

theorem SetFunctionProcessor.ArgumentsFree.installed {q : SetFunctionProcessor} (h : q.ArgumentsFree) :
    ∀ op ∈ q.installed, op.Confined := by
  unfold ArgumentsFree argumentColumns at h
  intro op hop
  rw [SetFunctionProcessor.installed, List.mem_append] at hop
  obtain hop | hop := hop
  · obtain ⟨a, -, rfl⟩ := Option.map_eq_some_iff.mp (Option.mem_toList.mp hop)
    exact .of_nil rfl rfl
  · obtain ⟨columns, hcolumns, rfl⟩ := Option.map_eq_some_iff.mp (Option.mem_toList.mp hop)
    rw [hcolumns, Option.getD_some] at h
    exact Operator.project_confined h.1 h.2

/-- A processor that grows takes arguments without set functions. -/
theorem SetFunctionProcessor.Grows.argumentsPlain {q r : SetFunctionProcessor} {n m : Nat}
    (h : q.Grows n r m) (hq : hasAggregateBindings q.argumentColumns = false) :
    hasAggregateBindings r.argumentColumns = false := by
  obtain ⟨as, has, -, hplain⟩ := h.arguments
  rw [has, hasAggregateBindings_append, hq, Bool.false_or]
  exact hasAggregateBindings_eq_false.mpr hplain

/-- The operators of the clauses of a query have no set functions when its expressions have none. -/
theorem QueryBlock.operators_confined {b : QueryBlock}
    (hhaving : ∀ e ∈ b.having, e.Confined)
    (hplain : hasAggregateBindings b.columns = false)
    (hnodes : ∀ n ∈ subqueriesBindings b.columns, n.Confined)
    (hsort : hasAggregateBindings (sortColumns b.sort) = false)
    (hsortNodes : ∀ n ∈ subqueriesBindings (sortColumns b.sort), n.Confined) :
    ∀ op ∈ b.operators, op.Confined := by
  intro op hop
  simp only [QueryBlock.operators, List.mem_append, List.mem_cons, Option.mem_toList] at hop
  obtain hop | hop | rfl | hop := hop
  · unfold QueryBlock.limits at hop
    cases hb : b.sort with
    | none =>
      rw [hb] at hop
      obtain ⟨n, -, rfl⟩ := Option.map_eq_some_iff.mp (Option.mem_toList.mp hop)
      exact .of_nil rfl rfl
    | some l =>
      rw [hb] at hop hsort hsortNodes
      obtain rfl | hop := List.mem_cons.mp hop
      · exact .of_nil rfl rfl
      · rw [List.mem_singleton.mp hop]
        exact Operator.project_confined hsort hsortNodes
  · obtain ⟨keys, -, rfl⟩ := Option.map_eq_some_iff.mp hop
    exact .of_nil rfl rfl
  · exact Operator.project_confined hplain hnodes
  · obtain ⟨e, he, rfl⟩ := Option.map_eq_some_iff.mp hop
    exact Operator.filter_confined (hhaving e he)

theorem installSetFunctions_confined {q : SetFunctionProcessor} {entry output : Graph}
    {b : QueryBlock} {s t : AnalyzerState ρ}
    (h : installSetFunctions env q entry b s = (some output, t)) (hentry : entry.Confined)
    (hq : q.ArgumentsFree) (hhaving : ∀ e ∈ b.having, e.Confined)
    (hinactive : q.active = false → hasAggregateBindings b.columns = false ∧
      hasAggregateBindings (sortColumns b.sort) = false)
    (hnodes : ∀ n ∈ subqueriesBindings b.columns, n.Confined)
    (hsortNodes : ∀ n ∈ subqueriesBindings (sortColumns b.sort), n.Confined) :
    output.Confined := by
  obtain ⟨hactive, -, rfl⟩ | ⟨-, u, i, -, rfl⟩ := installSetFunctions_yields h
  · obtain ⟨hplain, hsort⟩ := hinactive hactive
    exact .stack (QueryBlock.operators_confined hhaving hplain hnodes hsort hsortNodes) hentry
  · have hall : ∀ n ∈ subqueriesBindings b.columns ++ subqueriesBindings (sortColumns b.sort),
        n.Confined := List.forall_mem_append.mpr ⟨hnodes, hsortNodes⟩
    have hplain := i.processed.plain
    rw [Bool.or_eq_false_iff] at hplain
    have hnested := List.forall_mem_append.mp fun n hn => hall n (i.processed.nested hn)
    have hinstalled : i.processor.ArgumentsFree := by
      refine ⟨i.processed.grows.argumentsPlain hq.1, fun n hn => ?_⟩
      obtain hn | hn := List.mem_append.mp (i.processed.movedNodes hn)
      · exact hq.2 n hn
      · exact hall n hn
    refine .stack (List.forall_mem_append.mpr ⟨?_, hinstalled.installed⟩) hentry
    exact QueryBlock.operators_confined (b := i.block) hhaving hplain.1 hnested.1 hplain.2 hnested.2

/-- What HAVING moves to the arguments has no set functions. -/
theorem processHaving_arguments {having : Option (ScalarAction ρ)} {q r : SetFunctionProcessor}
    {condition : Option Scalar}
    {s t : AnalyzerState ρ} (hrun : processHaving env having q s = (some (condition, r), t))
    (hq : q.argumentColumns = []) : hasAggregateBindings r.argumentColumns = false := by
  cases having with
  | none =>
    simp only [processHaving, Check.pure_yields, Prod.mk.injEq] at hrun
    obtain ⟨⟨-, rfl⟩, -⟩ := hrun
    rw [hq]
    rfl
  | some a =>
    simp only [processHaving, Check.bind_yields, Check.pure_yields, Prod.mk.injEq] at hrun
    obtain ⟨⟨predicate, saw⟩, u, -, ⟨e, r'⟩, v, he, _, w, -, ⟨-, rfl⟩, -⟩ := hrun
    refine (processSetFunctions_processed predicate he).grows.argumentsPlain ?_
    have hactivate : q.activate.argumentColumns = q.argumentColumns := rfl
    rw [hactivate, hq]
    rfl

/-! ### The query -/

theorem activateFor_active {l : SelectList} {sort : Option SortList} {q : SetFunctionProcessor} :
    (activateFor l sort q).active = (q.active || (l.sawAggregate || sort.any SortList.sawAggregate)) := by
  unfold activateFor
  split_ifs with h
  · rw [h, Bool.or_true]
    rfl
  · rw [Bool.not_eq_true] at h
    rw [h, Bool.or_false]

theorem activateFor_arguments {l : SelectList} {sort : Option SortList} {q : SetFunctionProcessor} :
    (activateFor l sort q).argumentColumns = q.argumentColumns := by
  unfold activateFor
  split_ifs <;> rfl

/-- The phases of a query mark nothing, and the graph of the query is confined. -/
theorem processQuery_marks {q : QueryClauses ρ}
    (h : q.All ActionMarks TableMarks SelectMarks GroupingMarks) :
    GraphMarks QueryResult.output (processQuery env q) := by
  intro s t result hrun
  obtain ⟨run⟩ := processQuery_run env hrun
  have hfrom := processFromClause_marks h.from_ run.fromRun
  obtain ⟨hwhere, hentry⟩ := processWhere_marks h.where_ run.whereRun
  obtain ⟨-, ⟨keys, -, hgrouped⟩, hgroupBy⟩ := processGroupBy_marked h.groupBy run.groupByRun
  obtain ⟨hcondition, nodes, hhaving, hconditionNodes, hmoved⟩ :=
    processHaving_marked h.having run.havingRun
  obtain ⟨hsaw, hselect⟩ := processSelect_marked h.elements run.selectRun
  obtain ⟨hsortSaw, hsort⟩ := processOrderBy_marked h.orderBy run.orderByRun
  have hlimit := processLimit_marked h.limit run.limitRun
  have hdistinct : Quiet _ _ := processDistinct_quiet env _ _ run.distinctRun
  have hinstall : Quiet _ _ := installSetFunctions_quiet env run.installRun
  -- one phase after another
  have hbefore := hfrom.trans (hwhere.trans hgroupBy)
  have hafter := hbefore.trans hhaving
  have hselected := (hafter.trans hselect).trans_quiet hdistinct
  have hsorted := hselected.trans hsort
  have hall := (hsorted.trans hlimit).trans_quiet hinstall
  have hmark : t.sawAggregate = (s.sawAggregate || false) := hall.mark
  refine ⟨hmark, hall.queries, fun hs n hn => ?_⟩
  have hgraphs := hall.graphs hs
  simp only [List.forall_mem_append] at hgraphs
  obtain ⟨⟨⟨⟨⟨hfromGraph, -⟩, hnodes⟩, hcolumns⟩, hsortNodes⟩, -⟩ := hgraphs
  rw [List.mem_singleton.mp hn]
  refine installSetFunctions_confined run.installRun ?_ ?_ ?_ ?_ hcolumns hsortNodes
  · exact hentry (hfrom.queries hs) (hfromGraph _ List.mem_cons_self)
  · -- the arguments come of the condition of HAVING
    have hnone : run.grouped.argumentColumns = [] := by
      rw [SetFunctionProcessor.argumentColumns, hgrouped.arguments]
      rfl
    rw [hnone] at hmoved
    refine ⟨?_, fun m hm => ?_⟩
    · rw [activateFor_arguments]
      exact processHaving_arguments run.havingRun hnone
    · rw [activateFor_arguments] at hm
      exact hnodes m ((List.mem_append.mp (hmoved hm)).resolve_left (by simp [subqueriesBindings]))
  · intro e he
    have hcond := hcondition
    rw [show run.having = some e from he] at hcond hconditionNodes
    exact ⟨hcond, fun m hm => hnodes m (hconditionNodes hm)⟩
  · intro hinactive
    rw [activateFor_active, Bool.or_eq_false_iff, Bool.or_eq_false_iff, hsaw, hsortSaw] at hinactive
    exact hinactive.2

/-! ### Other queries -/

theorem inScope_marks {m : Analysis ρ QueryResult} (h : GraphMarks QueryResult.output m)
    (continueScope : Bool) : GraphMarks QueryResult.output (inScope continueScope m) := by
  intro s t result hrun
  obtain ⟨-, -, hm⟩ | ⟨rfl, -⟩ := inScope_yields hrun
  · exact h hm
  · simp only [inScope, Bool.false_eq_true, if_false, Check.bind_yields, Check.pure_yields] at hrun
    obtain ⟨⟨result', left⟩, u, hscope, rfl, rfl⟩ := hrun
    exact withScope_marked h rfl hscope

theorem analyzeRow_marked {row : List (ScalarAction ρ)} (h : ListMarks row)
    {context : List ScalarValueContext} {index : Nat} {s t : AnalyzerState ρ} {es : List Scalar}
    (hrun : analyzeRow context index row s = (some es, t)) :
    Marked false (subqueriesList es) s t := by
  induction row generalizing s index es with
  | nil =>
    obtain ⟨rfl, rfl⟩ := (Check.pure_yields ..).mp hrun
    exact .of_quiet (Check.Frame.refl s)
  | cons a row ih =>
    obtain ⟨ha, hrow⟩ := List.forall_mem_cons.mp h
    simp only [analyzeRow, Check.bind_yields, Check.pure_yields] at hrun
    obtain ⟨⟨value, saw⟩, u, hvalue, rest, v, hrest, rfl, rfl⟩ := hrun
    obtain ⟨-, hmarked⟩ := analyzeScalarExpression_marked ha hvalue
    exact hmarked.trans (ih hrow hrest)

theorem subqueriesList_append (es es' : List Scalar) :
    subqueriesList (es ++ es') = subqueriesList es ++ subqueriesList es' := by
  induction es with
  | nil => rfl
  | cons e es ih => rw [List.cons_append, subqueriesList, subqueriesList, ih, List.append_assoc]

theorem analyzeRows_marked {rows : List (Option (List (ScalarAction ρ)))}
    (h : ∀ row ∈ rows, ∀ es ∈ row, ListMarks es) {context : List ScalarValueContext}
    {s t : AnalyzerState ρ} {es : List (List Scalar)}
    (hrun : analyzeRows context rows s = (some es, t)) :
    Marked false (subqueriesList es.flatten) s t := by
  induction rows generalizing s es with
  | nil =>
    obtain ⟨rfl, rfl⟩ := (Check.pure_yields ..).mp hrun
    exact .of_quiet (Check.Frame.refl s)
  | cons row rows ih =>
    obtain ⟨hrow, hrows⟩ := List.forall_mem_cons.mp h
    cases row with
    | none => cases hrun
    | some row =>
      simp only [analyzeRows, Check.bind_yields, Check.pure_yields] at hrun
      obtain ⟨values, u, hvalues, rest, v, hrest, rfl, rfl⟩ := hrun
      rw [List.flatten_cons, subqueriesList_append]
      exact (analyzeRow_marked (hrow row rfl) hvalues).trans (ih hrows hrest)

theorem processTableValueConstructor_marks {rows : List (Option (List (ScalarAction ρ)))}
    (h : ∀ row ∈ rows, ∀ es ∈ row, ListMarks es) (context : List ScalarValueContext) :
    GraphMarks QueryResult.output (processTableValueConstructor env rows context) := by
  intro s t result hrun
  simp only [processTableValueConstructor, Check.bind_yields, Check.pure_yields] at hrun
  obtain ⟨es, u, hes, columns, v, hcolumns, _, w, hresolve, rfl, rfl⟩ := hrun
  have hall := ((analyzeRows_marked h hes).trans_quiet (streamVariables_quiet _ hcolumns)).trans_quiet
    (resolveOperator_quiet env _ rfl hresolve)
  refine hall.graph fun hnodes => .source (.of_unchecked rfl fun n hn => ?_)
  obtain ⟨e, he, hn⟩ := List.mem_flatMap.mp hn
  exact hnodes n (mem_subqueriesList.mpr ⟨e, he, hn⟩)

/-- A set operation combines the graphs of its operands. -/
theorem processSetOperation_output {operation : SetOperation} {quantifier : Plan.SetQuantifier}
    {left right : Graph} {lefts rights : List ColumnInfo} {s t : AnalyzerState ρ}
    {result : QueryResult}
    (h : processSetOperation env operation quantifier left right lefts rights s = (some result, t)) :
    ∃ op, result.output = .binary op left right ∧ op.expressions = [] ∧ op.nested = [] := by
  unfold processSetOperation at h
  split_ifs at h
  · cases h
  · cases operation with
    | union_ =>
      simp only [processUnion, Check.bind_yields, Check.pure_yields] at h
      obtain ⟨outputs, u, -, _, v, -, rfl, -⟩ := h
      exact ⟨_, rfl, rfl, rfl⟩
    | except =>
      obtain ⟨rfl, -⟩ := (Check.pure_yields ..).mp h
      exact ⟨_, rfl, rfl, rfl⟩
    | intersect =>
      obtain ⟨rfl, -⟩ := (Check.pure_yields ..).mp h
      exact ⟨_, rfl, rfl, rfl⟩

theorem processBinaryQuery_marks {left right : QueryAction ρ} (hl : QueryMarks left)
    (hr : QueryMarks right) (op : QueryOperator) (quantifier : Option Ast.SetQuantifier)
    (corresponding : Bool) (context : List ScalarValueContext) :
    GraphMarks QueryResult.output
      (processBinaryQuery env left op quantifier corresponding right context) := by
  intro s t result hrun
  obtain ⟨operation, l, u, r, v, -, -, hleft, hright, hset⟩ := processBinaryQuery_yields env hrun
  obtain ⟨o, houtput, hexpressions, hnested⟩ := processSetOperation_output hset
  have hoperands := (hl context false hleft).trans (hr context false hright)
  have hall := hoperands.trans_quiet (processSetOperation_quiet env _ _ _ _ _ _ hset)
  refine hall.graph fun hgraphs => ?_
  obtain ⟨hleftGraph, hrightGraph⟩ := List.forall_mem_append.mp hgraphs
  rw [houtput]
  exact .binary (.of_nil hexpressions hnested) (hleftGraph _ List.mem_cons_self)
    (hrightGraph _ List.mem_cons_self)

/-- Entering a confined query. -/
theorem addQuery_marked {name : SimpleName} {query : QueryInfo} {s t : AnalyzerState ρ} {u : Unit}
    (h : addQuery env name query s = (some u, t)) :
    t.sawAggregate = s.sawAggregate ∧
      (query.queryGraph.Confined → ConfinedQueries s → ConfinedQueries t) := by
  obtain ⟨hstate, hqueries⟩ := addQuery_queries env h
  refine ⟨by rw [hstate], fun hquery hs scope hscope n q hq => ?_⟩
  obtain rfl | ⟨x, hx, hq⟩ := hqueries scope hscope n q hq
  · exact hquery
  · exact hs x hx n q hq

theorem processCommonTable_marked {element : CommonTable ρ} (h : QueryMarks element.query)
    {s t : AnalyzerState ρ} {u : Unit} (hrun : processCommonTable env element s = (some u, t)) :
    Marked false [] s t := by
  simp only [processCommonTable, declareCommonTable, Check.bind_yields] at hrun
  obtain ⟨⟨result, left⟩, v, hquery, names, w, hnames, hadd⟩ := hrun
  have hgraph := (withScope_marked (h [] false) rfl hquery).trans_quiet
    (commonTableColumnNames_quiet env _ _ hnames)
  obtain ⟨hmark, hqueries⟩ := addQuery_marked hadd
  refine ⟨by rw [hmark, hgraph.mark], fun hs => ?_, fun _ _ hn => by cases hn⟩
  exact hqueries (hgraph.graphs hs _ List.mem_cons_self) (hgraph.queries hs)

theorem processCommonTables_marked {elements : List (CommonTable ρ)}
    (h : ∀ e ∈ elements, QueryMarks e.query) {s t : AnalyzerState ρ} {u : Unit}
    (hrun : processCommonTables env elements s = (some u, t)) : Marked false [] s t := by
  induction elements generalizing s with
  | nil =>
    obtain ⟨-, rfl⟩ := (Check.pure_yields ..).mp hrun
    exact .of_quiet (Check.Frame.refl s)
  | cons element elements ih =>
    obtain ⟨helement, helements⟩ := List.forall_mem_cons.mp h
    simp only [processCommonTables, Check.bind_yields] at hrun
    obtain ⟨_, v, hfirst, hrest⟩ := hrun
    exact (processCommonTable_marked helement hfirst).trans (ih helements hrest)

theorem processWith_marks {elements : List (CommonTable ρ)}
    (h : ∀ e ∈ elements, QueryMarks e.query) {query : QueryAction ρ} (hq : QueryMarks query)
    (isRecursive : Bool) (context : List ScalarValueContext) :
    GraphMarks QueryResult.output
      (processWith env isRecursive elements query context) := by
  intro s t result hrun
  cases isRecursive with
  | true => cases hrun
  | false =>
    simp only [processWith, Bool.false_eq_true, if_false, Check.bind_yields] at hrun
    obtain ⟨_, u, helements, hquery⟩ := hrun
    exact (processCommonTables_marked h helements).trans (hq context true hquery)

/-! ### The traversal -/

variable (env)

/-- Every function of the analyzer keeps the mark. -/
theorem marking : Compositional env ActionMarks QueryMarks TableMarks SelectMarks GroupingMarks
    JoinMarks where
  processed h context := process_marks (h context)
  literal value context := analyzeLiteral_marks value (context.find 0)
  variableReference name _ := analyzeVariableName_marks name
  hostParameter _ _ := findPlaceholder_marks _ _
  placeholder _ _ := findPlaceholder_marks _ _
  rejected message _ := reject_marks _ message
  case_ ho hw hd context := processCase_marks ho hw hd context
  cast op type h _ := processCast_marks h op type
  unary op h _ := processUnary_marks h op
  binary op node hl hr _ := processBinary_marks hl hr op node
  extract field digits h _ := processExtract_marks h field digits
  subquery kind h _ := processSubquery_marks h kind
  comparison op hl hr _ := processComparison_marks hl hr op
  quantified _ _ hl hr _ := quantifiedCompare_marks hl hr _ _
  between isNot op ht hl hr _ := processBetween_marks ht hl hr isNot op
  in_ isNot hl hv hr _ := processIn_marks hl hv hr isNot
  patternMatch isNot op hi hp he _ := processPatternMatch_marks hi hp he isNot op
  tablePredicate op h _ := processTablePredicate_marks h op
  function name h _ := processFunctionInvocation_marks h name
  builtinFunction kind h _ := processBuiltinFunction_marks h kind
  builtinSetFunction kind quantifier h _ := processBuiltinSetFunction_marks h kind quantifier
  clauses h _ continueScope := inScope_marks (processQuery_marks h) continueScope
  relationReference name _ continueScope :=
    inScope_marks (processRelationReference_marks name) continueScope
  values h context continueScope :=
    inScope_marks (processTableValueConstructor_marks h context) continueScope
  binaryQuery op quantifier corresponding hl hr context _ :=
    processBinaryQuery_marks hl hr op quantifier corresponding context
  with_ isRecursive h hq context continueScope :=
    inScope_marks (processWith_marks h hq isRecursive context) continueScope
  selectColumn value name h := processSelectColumn_marks h value name
  selectAsterisk := processSelectAsterisk_marks
  groupingColumn := processGroupingColumn_marks
  tableReference := processTableExpressionReference_marks
  tableRejected _ _ _ _ h := by cases h
  join type hl hr hj := processJoinExpression_marks hl hr hj type
  tableSubquery isLateral correlation h := processTableSubquery_marks h isLateral correlation
  apply type name correlation ho ha := processApply_marks ho ha type name correlation
  joinCondition := processJoinCondition_marks
  joinColumns := processJoinColumns_marks

theorem scalar_marks (e : ScalarExpression) : ActionMarks (scalar env e) := (marking env).scalar e

theorem query_marks (q : QueryExpression) : QueryMarks (query env q) :=
  (marking env).queryExpression q

theorem selectElements_marks (es : List SelectElement) :
    ∀ a ∈ selectElements env es, SelectMarks a := by
  rw [selectElements_eq]
  exact List.forall_mem_map.mpr fun e _ => (marking env).induction.selectElement e

theorem sortElements_marks (es : List SortElement) :
    ∀ spec ∈ sortElements env es, ActionMarks spec.key := by
  rw [sortElements_eq]
  refine List.forall_mem_map.mpr fun e _ => ?_
  rw [sortElement_key]
  exact scalar_marks env e.key

end Mizugaki.Analyzer
