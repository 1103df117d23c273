import Mizugaki.Aggregation.Numbering
import Mizugaki.Meaning.Query

/-! Single assignment. Each column of a plan is defined by one of its operators and numbered when
the operator is built, so that what is analyzed at different times never defines the same column. -/

namespace Mizugaki.Analyzer

open Mizugaki.Ast Mizugaki.Plan Mizugaki.Control

variable {ρ : Type} {env : Environment ρ}

/-- A graph is built whose operators define different columns, that are numbered meanwhile. -/
def TableAssigns (m : Analysis ρ Graph) : Prop :=
  ∀ ⦃s t g⦄, m s = (some g, t) → s.Sound → Numbered s.fresh t.fresh g.defines

def QueryAssigns (q : QueryAction ρ) : Prop :=
  ∀ context continueScope ⦃s t r⦄, q context continueScope s = (some r, t) → s.Sound →
    Numbered s.fresh t.fresh r.output.defines

/-! ### References -/

/-- With fresh variables the relation of a table has a column for each included one, in order, and
a scan reads them all. -/
theorem buildRelationInfo_scans {table : Table} {includeSystemColumns : Bool} {info : RelationInfo}
    {s t : AnalyzerState ρ}
    (h : buildRelationInfo env table true includeSystemColumns s = (some info, t)) :
    ∃ kept : List Column, scanColumns info = kept.zip (freshStreams s.fresh kept.length) ∧
      info.variables = freshStreams s.fresh kept.length ∧ t.fresh = s.fresh + kept.length := by
  obtain ⟨hcolumns, ht⟩ := buildColumns_escaped env h
  generalize includedColumns includeSystemColumns table.columns = kept at hcolumns ht
  have hlength : (freshStreams s.fresh kept.length).length = kept.length := by simp [freshStreams]
  have hpairs : info.columns.map (fun c => (c.declaration, c.variable_)) =
      (kept.zip (freshStreams s.fresh kept.length)).map fun p => (some p.1, p.2) := by
    rw [hcolumns, RelationInfo.addAll_map (f := fun c => (c.declaration, c.variable_))
      (fun _ _ => rfl), List.map_zipWith, List.zip, List.map_zipWith]
    rfl
  refine ⟨kept, ?_, ?_, by rw [ht]⟩
  · have hfilter : scanColumns info = (info.columns.map fun c =>
        (c.declaration, c.variable_)).filterMap fun p => p.1.map (·, p.2) := by
      rw [List.filterMap_map]
      rfl
    rw [hfilter, hpairs, List.filterMap_map]
    exact List.filterMap_some
  · have hsnd := congrArg (List.map Prod.snd) hpairs
    rw [List.map_map, List.map_map] at hsnd
    exact hsnd.trans (List.map_snd_zip hlength.le)

theorem scan_numbered {table : Table} {includeSystemColumns : Bool} {info : RelationInfo}
    {s t : AnalyzerState ρ}
    (h : buildRelationInfo env table true includeSystemColumns s = (some info, t)) (index : Index) :
    (Graph.source (.scan index (scanColumns info))).defines = info.variables ∧
      Numbered s.fresh t.fresh info.variables := by
  obtain ⟨kept, hscan, hvariables, hfresh⟩ := buildRelationInfo_scans h
  rw [Graph.defines_source, Operator.defines, hscan, hvariables, hfresh]
  exact ⟨List.map_snd_zip (by simp [freshStreams]), .freshStreams s.fresh kept.length⟩

theorem processRelationReference_assigns {relation : Name} {s t : AnalyzerState ρ} {r : QueryResult}
    (h : processRelationReference env relation s = (some r, t)) :
    Numbered s.fresh t.fresh r.output.defines := by
  simp only [processRelationReference, Check.bind_yields] at h
  obtain ⟨found, u, hfound, h⟩ := h
  have hquiet : Quiet _ _ := analyzeRelationName_quiet env relation hfound
  refine Numbered.widen ?_ hquiet.fresh le_rfl
  cases found with
  | table declaration =>
    simp only [processTableReference, Check.bind_yields] at h
    obtain ⟨info, v, hinfo, h⟩ := h
    cases hindex : info.primaryIndex with
    | none =>
      rw [hindex] at h
      cases h
    | some index =>
      simp only [hindex, Check.bind_yields, Check.pure_yields] at h
      obtain ⟨_, w, hresolve, rfl, rfl⟩ := h
      obtain ⟨hdefines, hnumbered⟩ := scan_numbered hinfo index
      rw [hdefines]
      exact hnumbered.widen le_rfl (Quiet.fresh (resolveOperator_quiet env _ rfl hresolve))
  | query q =>
    simp only [processQueryReference, Check.bind_yields, Check.pure_yields,
      streamVariables_yields] at h
    obtain ⟨_, _, ⟨rfl, rfl⟩, _, v, hresolve, rfl, rfl⟩ := h
    have hdefines : (Operator.subquery q.queryGraph
        (q.outputColumns.zip (freshStreams u.fresh q.outputColumns.length)) true).defines =
        freshStreams u.fresh q.outputColumns.length := List.map_snd_zip (by simp [freshStreams])
    rw [Graph.defines_source, hdefines]
    exact (Numbered.freshStreams u.fresh _).widen le_rfl
      (Quiet.fresh (resolveOperator_quiet env _ rfl hresolve))

/-! ### Table expressions -/

theorem addRelation_fresh {info : RelationInfo} {s t : AnalyzerState ρ} {x : Unit}
    (h : addRelation info s = (some x, t)) : t.fresh = s.fresh := by
  simp only [addRelation, modifyScope, Check.modify_yields] at h
  rw [← h]

theorem processTableExpressionReference_assigns (name : Name)
    (correlation : Option CorrelationClause) :
    TableAssigns (processTableExpressionReference env name correlation) := by
  intro s t g h hs
  simp only [processTableExpressionReference, Check.bind_yields, Check.pure_yields] at h
  obtain ⟨result, u, hresult, info, v, hinfo, _, w, hadd, rfl, rfl⟩ := h
  refine (processRelationReference_assigns hresult).widen le_rfl ?_
  rw [addRelation_fresh hadd]
  exact Quiet.fresh (correlate_quiet env _ _ hinfo)

theorem processTableSubquery_assigns {query : QueryAction ρ} (h : QueryAssigns query)
    (isLateral : Bool) (correlation : CorrelationClause) :
    TableAssigns (processTableSubquery env isLateral query correlation) := by
  intro s t g hrun hs
  cases isLateral with
  | true => cases hrun
  | false =>
    simp only [processTableSubquery, Bool.false_eq_true, if_false, Check.bind_yields,
      Check.pure_yields] at hrun
    obtain ⟨⟨result, left⟩, u, hquery, info, v, hinfo, _, w, hadd, rfl, rfl⟩ := hrun
    obtain ⟨u', hnested, -, rfl⟩ := (withScope_yields ..).mp hquery
    refine Numbered.widen (h _ _ hnested (hs.enterEmpty rfl)) le_rfl ?_
    rw [addRelation_fresh hadd]
    exact Quiet.fresh (s := u'.leave) (rebuildRelationInfo_quiet env _ _ hinfo)

theorem processJoin_assigns {left right : Analysis ρ Graph} (hl : TableScoped left)
    (hr : TableScoped right) (hleft : TableAssigns left) (hright : TableAssigns right)
    {specification : Option (JoinAction ρ)} (hj : ∀ j ∈ specification, JoinScoped j)
    (kind : JoinKind) (natural transpose : Bool) :
    TableAssigns (processJoin env kind natural transpose left right specification) := by
  intro s t g h hs
  simp only [processJoin, Check.bind_yields, currentScope_yields] at h
  obtain ⟨l, u, hlrun, _, _, ⟨rfl, rfl⟩, r, v, hrrun, h⟩ := h
  have hlbuilds := hl hlrun hs
  have hrbuilds := hr hrrun hlbuilds.adds.sound
  cases natural with
  | true => cases specification <;> cases h
  | false =>
    simp only [Bool.false_eq_true, if_false, Check.bind_yields, Check.pure_yields] at h
    obtain ⟨condition, u', hcondition, _, v', hresolve, rfl, rfl⟩ := h
    obtain ⟨hadds, -⟩ := processSpecification_scoped hj hcondition hrbuilds.adds.sound
    have hend : v.fresh ≤ v'.fresh :=
      hadds.widens.fresh.trans (Quiet.fresh (resolveOperator_quiet env _ rfl hresolve))
    have hboth := (hleft hlrun hs).append (hright hrrun hlbuilds.adds.sound)
      hlbuilds.adds.widens.fresh hrbuilds.adds.widens.fresh
    refine Numbered.widen ?_ le_rfl hend
    cases transpose with
    | true =>
      rw [if_pos rfl, Graph.defines_binary, Operator.defines, List.nil_append]
      exact hboth.perm List.perm_append_comm
    | false =>
      rw [if_neg Bool.false_ne_true, Graph.defines_binary, Operator.defines, List.nil_append]
      exact hboth

theorem processApply_assigns {operand : Analysis ρ Graph} (ho : TableScoped operand)
    (hoperand : TableAssigns operand) {arguments : List (ScalarAction ρ)}
    (ha : ∀ a ∈ arguments, ScalarScoped a) (type : Option ApplyType) (name : Name)
    (correlation : CorrelationClause) :
    TableAssigns (processApply env operand type name arguments correlation) := by
  intro s t g h hs
  simp only [processApply, Check.bind_yields] at h
  obtain ⟨input, u₁, hinput, args, u₂, hargs, functions, u₃, hfunctions, h⟩ := h
  have hbuilds := ho hinput hs
  have hreads := (analyzeApplyArguments_scoped ha hargs).trans_quiet
    (analyzeFunctionName_quiet env _ _ hfunctions)
  generalize applicableTableFunctions env (args.map Prod.snd) functions = candidates at h
  cases candidates with
  | nil => cases h
  | cons candidate rest =>
    simp only [Check.bind_yields, Check.pure_yields, streamVariables_yields] at h
    obtain ⟨target, u₄, htarget, returned, u₅, hreturned, _, _, ⟨rfl, rfl⟩, names, u₇, hnames, _, u₈,
      hadd, _, u₉, hresolve, rfl, rfl⟩ := h
    have hbefore : u₁.fresh ≤ u₅.fresh := (hreads.frame hbuilds.adds.sound).fresh.trans
      ((Quiet.fresh (resolveOverload_quiet env _ _ _ htarget)).trans
        (Quiet.fresh (returnedColumns_quiet _ hreturned)))
    have hafter : u₅.fresh + returned.length ≤ u₉.fresh := by
      refine (Quiet.fresh (applyColumnNames_quiet env _ _ _ hnames)).trans ?_
      rw [← addRelation_fresh hadd]
      exact Quiet.fresh (resolveOperator_quiet env _ rfl hresolve)
    have hdefines : (Operator.apply (convertApplyType type) target (args.map Prod.fst)
        ((List.range returned.length).zip (freshStreams u₅.fresh returned.length))).defines =
        freshStreams u₅.fresh returned.length := List.map_snd_zip (by simp [freshStreams])
    have hcolumns : Numbered u₁.fresh u₉.fresh (freshStreams u₅.fresh returned.length) :=
      (Numbered.freshStreams u₅.fresh _).widen hbefore hafter
    rw [Graph.defines_unary, hdefines]
    have hinner := hoperand hinput hs
    exact (hinner.append hcolumns hbuilds.adds.widens.fresh
      (hbefore.trans ((Nat.le_add_right _ _).trans hafter))).perm List.perm_append_comm

/-! ### The FROM clause -/

theorem processFromElements_assigns {elements : List (Analysis ρ Graph)}
    (hscoped : ∀ m ∈ elements, TableScoped m) (h : ∀ m ∈ elements, TableAssigns m)
    {output g : Graph} {n : ℕ} {s t : AnalyzerState ρ} (hs : s.Sound)
    (houtput : Numbered n s.fresh output.defines) (hn : n ≤ s.fresh)
    (hrun : processFromElements env output elements s = (some g, t)) :
    Numbered n t.fresh g.defines := by
  induction elements generalizing output s with
  | nil =>
    obtain ⟨rfl, rfl⟩ := (Check.pure_yields ..).mp hrun
    exact houtput
  | cons element elements ih =>
    obtain ⟨hfirstScoped, hrestScoped⟩ := List.forall_mem_cons.mp hscoped
    obtain ⟨hfirst, hrest⟩ := List.forall_mem_cons.mp h
    simp only [processFromElements, Check.bind_yields] at hrun
    obtain ⟨next, u, hnext, _, v, hresolve, hrun⟩ := hrun
    have hbuilds := hfirstScoped hnext hs
    have hquiet : Quiet u v := resolveOperator_quiet env _ rfl hresolve
    have hle : s.fresh ≤ v.fresh := hbuilds.adds.widens.fresh.trans hquiet.fresh
    refine ih hrestScoped hrest (hbuilds.adds.sound.of_quiet hquiet) ?_ (hn.trans hle) hrun
    rw [Graph.defines_binary, Operator.defines, List.nil_append]
    exact houtput.append ((hfirst hnext hs).widen le_rfl hquiet.fresh) hn hle

theorem processFromClause_assigns {elements : List (Analysis ρ Graph)}
    (hscoped : ∀ m ∈ elements, TableScoped m) (h : ∀ m ∈ elements, TableAssigns m) :
    TableAssigns (processFromClause env elements) := by
  intro s t g hrun hs
  cases elements with
  | nil =>
    simp only [processFromClause, Check.bind_yields, Check.pure_yields] at hrun
    obtain ⟨_, u, -, _, v, -, rfl, rfl⟩ := hrun
    exact .nil _ _
  | cons element elements =>
    obtain ⟨hfirstScoped, hrestScoped⟩ := List.forall_mem_cons.mp hscoped
    obtain ⟨hfirst, hrest⟩ := List.forall_mem_cons.mp h
    simp only [processFromClause, Check.bind_yields] at hrun
    obtain ⟨output, u, houtput, hrun⟩ := hrun
    have hbuilds := hfirstScoped houtput hs
    exact processFromElements_assigns hrestScoped hrest hbuilds.adds.sound (hfirst houtput hs)
      hbuilds.adds.widens.fresh hrun

/-! ### Query blocks -/

theorem processHaving_fills {having : Option (ScalarAction ρ)} (h : ∀ a ∈ having, ScalarScoped a)
    {p q : SetFunctionProcessor} {condition : Option Scalar} {s t : AnalyzerState ρ} (hs : s.Sound)
    (hrun : processHaving env having p s = (some (condition, q), t)) :
    p.Fills s.fresh q t.fresh := by
  cases having with
  | none =>
    simp only [processHaving, Check.pure_yields, Prod.mk.injEq] at hrun
    obtain ⟨⟨-, rfl⟩, rfl⟩ := hrun
    exact .of_eq rfl le_rfl
  | some a =>
    simp only [processHaving, Check.bind_yields, Check.pure_yields, Prod.mk.injEq] at hrun
    obtain ⟨⟨predicate, saw⟩, u, hpredicate, ⟨e, p'⟩, v, he, _, w, hresolve, ⟨-, rfl⟩, rfl⟩ := hrun
    have hreads := analyzeScalarExpression_reads (h a rfl) hpredicate
    have hactivated : p.Fills s.fresh p.activate u.fresh := .of_eq rfl (hreads.frame hs).fresh
    exact (hactivated.trans (processSetFunctions_fills predicate he)).trans
      (.of_eq rfl (Quiet.fresh (resolveOperator_quiet env _ rfl hresolve)))

theorem processWhere_defines {where_ : Option (ScalarAction ρ)} {from_ entry : Graph}
    {s t : AnalyzerState ρ} (h : processWhere env where_ from_ s = (some entry, t)) :
    entry.defines = from_.defines := by
  cases where_ with
  | none =>
    obtain ⟨rfl, -⟩ := (Check.pure_yields ..).mp h
    rfl
  | some a =>
    simp only [processWhere, Check.bind_yields] at h
    obtain ⟨⟨predicate, saw⟩, u, -, h⟩ := h
    dsimp only at h
    split_ifs at h
    · cases h
    · simp only [Check.bind_yields, Check.pure_yields] at h
      obtain ⟨_, v, -, rfl, -⟩ := h
      rw [Graph.defines_unary, Operator.defines, List.nil_append]

theorem SetFunctionProcessor.Grouped.columns_eq {p : SetFunctionProcessor} {keys : List Variable}
    (h : p.Grouped keys) : SetFunctionProcessor.columns p = [] := by
  rw [SetFunctionProcessor.columns, SetFunctionProcessor.argumentColumns, h.arguments, h.columns]
  rfl

variable {quantifier : Option Ast.SetQuantifier} {elements : List SelectElement}
  {from_ : List TableExpression} {where_ having limit : Option ScalarExpression}
  {groupBy : Option (List GroupingElement)} {orderBy : List SortElement}

theorem QueryRun.assigns {u v : AnalyzerState ρ} {r : QueryResult}
    (run : QueryRun env (queryClauses env quantifier elements from_ where_ groupBy having orderBy
      limit) u v r) (hu : u.Sound) (hfrom : TableAssigns (processFromClause env
        (queryClauses env quantifier elements from_ where_ groupBy having orderBy limit).from_)) :
    Numbered u.fresh v.fresh r.output.defines := by
  have hall : (queryClauses env quantifier elements from_ where_ groupBy having orderBy limit).All
      ScalarScoped TableScoped SelectScoped GroupingScoped := queryClauses_scoped env quantifier
  have hbuilds := processFromClause_scoped hall.from_ run.fromRun hu
  obtain ⟨hentry, hwhere⟩ := processWhere_scoped hall.where_ hbuilds run.whereRun
  obtain ⟨hbase, hgroupBy, -⟩ := processGroupBy_scoped hall.groupBy run.groupByRun hentry.adds.sound
  obtain ⟨-, keys, -, hgrouped⟩ := processGroupBy_columns run.groupByRun
  obtain ⟨-, hhaving, -⟩ := processHaving_scoped hall.having run.havingRun hbase
  -- the columns are numbered alike whatever the expressions mean
  obtain ⟨condition, columns, order, hmeant⟩ :=
    run.meant (integerOperators.documented_documented integerLogic) hbase
  obtain ⟨ws, hws, hfiltered⟩ := (processHaving_fills hall.having hbase run.havingRun).added
  obtain ⟨q, ⟨hcounter, vs, hvs, hq⟩, hdefines⟩ :=
    installSetFunctions_fills (fun h => (run.nothing_installed h).1) run.installRun
  have hactivated : (activateFor run.select run.sort run.filtered).columns = run.filtered.columns := by
    obtain ⟨haggregations, harguments, -⟩ := activateFor_aggregations run.select run.sort run.filtered
    simp only [SetFunctionProcessor.columns, SetFunctionProcessor.aggregationsStore,
      SetFunctionProcessor.argumentColumns, haggregations, harguments]
  have hbefore : run.afterFrom.fresh ≤ run.afterGroupBy.fresh := hwhere.fresh.trans hgroupBy.fresh
  have hall := (((hfrom run.fromRun hu).append (hws.widen hbefore le_rfl)
    hbuilds.adds.widens.fresh (hbefore.trans hhaving.fresh)).append hmeant.select.names
      (hbuilds.adds.widens.fresh.trans (hbefore.trans hhaving.fresh))
      hmeant.select.frame.fresh).append (hmeant.sort.names.widen hmeant.between hmeant.limit)
      (hbuilds.adds.widens.fresh.trans (hbefore.trans (hhaving.fresh.trans
        hmeant.select.frame.fresh))) (hmeant.between.trans (hmeant.sort.frame.fresh.trans hmeant.limit))
  refine (hall.append hvs ?_ hcounter).perm (List.perm_iff_count.mpr fun x => ?_)
  · exact hbuilds.adds.widens.fresh.trans (hbefore.trans (hhaving.fresh.trans
      (hmeant.select.frame.fresh.trans (hmeant.between.trans
        (hmeant.sort.frame.fresh.trans hmeant.limit)))))
  · have hfilteredCount := hfiltered.count x
    have hqCount := hq.count x
    rw [hgrouped.columns_eq, List.nil_append] at hfilteredCount
    rw [hactivated, List.count_append, hfilteredCount] at hqCount
    rw [hdefines, processWhere_defines run.whereRun]
    simp only [List.count_append, hqCount]
    omega

/-! ### Other queries -/

theorem inScope_assigns {m : Analysis ρ QueryResult} {continueScope : Bool} {s t : AnalyzerState ρ}
    {r : QueryResult} (h : inScope continueScope m s = (some r, t)) (hs : s.Sound)
    (hm : ∀ ⦃u v⦄, m u = (some r, v) → u.Sound → Numbered u.fresh v.fresh r.output.defines) :
    Numbered s.fresh t.fresh r.output.defines := by
  obtain ⟨-, -, hrun⟩ | ⟨-, u, hrun, rfl⟩ := inScope_yields h
  · exact hm hrun hs
  · have hu : (s.enter .empty).Sound := hs.enterEmpty rfl
    have hnumbered := @hm (s.enter .empty) u hrun hu
    exact hnumbered

theorem processTableValueConstructor_assigns {elements : List (Option (List (ScalarAction ρ)))}
    (h : ∀ row ∈ elements, ∀ es ∈ row, ∀ a ∈ es, ScalarScoped a)
    {context : List ScalarValueContext} {s t : AnalyzerState ρ} {r : QueryResult}
    (hrun : processTableValueConstructor env elements context s = (some r, t)) (hs : s.Sound) :
    Numbered s.fresh t.fresh r.output.defines := by
  simp only [processTableValueConstructor, Check.bind_yields, Check.pure_yields,
    streamVariables_yields] at hrun
  obtain ⟨rows, u, hrows, _, _, ⟨rfl, rfl⟩, _, v, hresolve, rfl, rfl⟩ := hrun
  rw [Graph.defines_source, Operator.defines]
  exact (Numbered.freshStreams u.fresh _).widen ((analyzeRows_scoped h hrows).frame hs).fresh
    (Quiet.fresh (resolveOperator_quiet env _ rfl hresolve))

theorem processSetOperation_assigns {operation : SetOperation} {quantifier : Plan.SetQuantifier}
    {left right : Graph} {lefts rights : List ColumnInfo} {n : ℕ} {s t : AnalyzerState ρ}
    {r : QueryResult} (h : processSetOperation env operation quantifier left right lefts rights s
      = (some r, t)) (hboth : Numbered n s.fresh (left.defines ++ right.defines)) (hn : n ≤ s.fresh) :
    Numbered n t.fresh r.output.defines := by
  unfold processSetOperation at h
  split_ifs at h with hlength
  · cases h
  · cases operation with
    | except =>
      obtain ⟨rfl, rfl⟩ := (Check.pure_yields ..).mp h
      rwa [Graph.defines_binary, Operator.defines, List.nil_append]
    | intersect =>
      obtain ⟨rfl, rfl⟩ := (Check.pure_yields ..).mp h
      rwa [Graph.defines_binary, Operator.defines, List.nil_append]
    | union_ =>
      simp only [processUnion, Check.bind_yields, Check.pure_yields, streamVariables_yields] at h
      obtain ⟨_, _, ⟨rfl, rfl⟩, _, v, hresolve, rfl, rfl⟩ := h
      have hcount : s.fresh + lefts.length ≤ v.fresh :=
        Quiet.fresh (resolveOperator_quiet env _ rfl hresolve)
      have hrights : rights.length = lefts.length := (not_not.mp hlength).symm
      have hdefines : (Operator.union_ quantifier ((lefts.map ColumnInfo.variable_).zip
          ((rights.map ColumnInfo.variable_).zip (freshStreams s.fresh lefts.length)))).defines =
          freshStreams s.fresh lefts.length := by
        refine List.ext_getElem ?_ fun i hi hj => ?_
        · simp [Operator.defines, freshStreams, hrights]
        · simp [Operator.defines]
      rw [Graph.defines_binary, hdefines]
      exact (hboth.append ((Numbered.freshStreams s.fresh _).widen le_rfl hcount) hn
        ((Nat.le_add_right _ _).trans hcount)).perm List.perm_append_comm

theorem processBinaryQuery_assigns {left right : QueryAction ρ} (hl : QueryScoped left)
    (hr : QueryScoped right) (hleft : QueryAssigns left) (hright : QueryAssigns right)
    (op : QueryOperator) (quantifier : Option Ast.SetQuantifier) (corresponding : Bool) :
    QueryAssigns fun context _ =>
      processBinaryQuery env left op quantifier corresponding right context := by
  intro context continueScope s t result hrun hs
  obtain ⟨operation, l, u, r, v, -, -, hlrun, hrrun, hset⟩ := processBinaryQuery_yields env hrun
  have hlanswers := hl context false hlrun hs fun hc => by cases hc
  have hranswers := hr context false hrrun hlanswers.sound fun hc => by cases hc
  exact processSetOperation_assigns hset
    ((hleft context false hlrun hs).append (hright context false hrrun hlanswers.sound)
      hlanswers.widens.fresh hranswers.widens.fresh)
    (hlanswers.widens.fresh.trans hranswers.widens.fresh)

theorem processWith_assigns {elements : List (CommonTable ρ)} {query : QueryAction ρ}
    (h : ∀ e ∈ elements, QueryScoped e.query) (hq : QueryAssigns query) {isRecursive : Bool}
    {context : List ScalarValueContext} {s t : AnalyzerState ρ} {r : QueryResult}
    (hrun : processWith env isRecursive elements query context s = (some r, t)) (hs : s.Sound) :
    Numbered s.fresh t.fresh r.output.defines := by
  cases isRecursive with
  | true => cases hrun
  | false =>
    simp only [processWith, Bool.false_eq_true, if_false, Check.bind_yields] at hrun
    obtain ⟨_, u, helements, hrun⟩ := hrun
    obtain ⟨hadds, -⟩ := processCommonTables_scoped h helements hs
    exact (hq context true hrun hadds.sound).widen hadds.widens.fresh le_rfl

/-! ### Every query -/

/-- Graphs of all queries and table expressions define different columns. -/
theorem assignment (env : Environment ρ) : QueryInduction
    (fun q => QueryAssigns (query env q)) (fun t => TableAssigns (tableExpression env t)) where
  query quantifier hfrom := by
    intro context continueScope s t r h hs
    refine inScope_assigns h hs fun u v hrun hu => ?_
    obtain ⟨run⟩ := processQuery_run env hrun
    refine run.assigns hu (processFromClause_assigns (queryClauses_scoped env quantifier).from_ ?_)
    change ∀ m ∈ tableExpressions env _, _
    rw [tableExpressions_eq]
    exact List.forall_mem_map.mpr hfrom
  relationReference name := by
    intro context continueScope s t r h hs
    exact inScope_assigns h hs fun u v hrun _ => processRelationReference_assigns hrun
  values elements := by
    intro context continueScope s t r h hs
    refine inScope_assigns h hs fun u v hrun hu =>
      processTableValueConstructor_assigns (fun row hrow es hes a ha => ?_) hrun hu
    rw [rows_eq] at hrow
    obtain ⟨e, -, rfl⟩ := List.mem_map.mp hrow
    obtain ⟨elements, -, rfl⟩ := rowElements_some env hes
    obtain ⟨x, -, rfl⟩ := List.mem_map.mp ha
    exact (scoping env).scalar x
  binaryQuery op quantifier corresponding hl hr :=
    processBinaryQuery_assigns ((scoping env).queryExpression _) ((scoping env).queryExpression _) hl
      hr op quantifier _
  with_ isRecursive _ hq := by
    intro context continueScope s t r h hs
    refine inScope_assigns h hs fun u v hrun hu => processWith_assigns (fun e he => ?_) hq hrun hu
    rw [withElements_eq] at he
    obtain ⟨element, -, rfl⟩ := List.mem_map.mp he
    exact (scoping env).queryExpression element.expression
  tableReference _ name correlation := processTableExpressionReference_assigns name correlation
  unnest _ _ _ := by
    intro s t g h
    cases h
  join type specification hl hr := by
    intro s t g h hs
    rw [tableExpression, processJoinExpression] at h
    cases htype : convertJoinType type with
    | none =>
      rw [htype] at h
      cases h
    | some converted =>
      rw [htype] at h
      refine processJoin_assigns ((scoping env).table _) ((scoping env).table _) hl hr
        (fun j hj => ?_) converted.1 converted.2.1 converted.2.2 h hs
      rw [specificationOption_eq] at hj
      obtain ⟨specification, -, rfl⟩ := Option.map_eq_some_iff.mp hj
      exact (scoping env).induction.joinSpecification specification
  tableSubquery isLateral correlation h := processTableSubquery_assigns h isLateral correlation
  apply type name arguments correlation ho := by
    refine processApply_assigns ((scoping env).table _) ho (fun a ha => ?_) type name correlation
    rw [scalars_eq] at ha
    obtain ⟨x, -, rfl⟩ := List.mem_map.mp ha
    exact (scoping env).scalar x

end Mizugaki.Analyzer
