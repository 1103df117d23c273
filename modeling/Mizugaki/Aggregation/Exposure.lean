import Mizugaki.Aggregation.Numbering
import Mizugaki.Meaning.Query

/-! Columns above an aggregate operator. What the clauses of a grouped query mention is checked
against the group keys and what is aggregated. The columns that an asterisk stands for are never
checked, and reach the output of the query as they are. -/

namespace Mizugaki.Plan

/-- The columns that an aggregate operator lets through: its keys, and what it aggregates. -/
def Operator.grouped : Operator → List Variable
  | .aggregate keys columns => keys ++ columns.map AggregateColumn.destination
  | _ => []

end Mizugaki.Plan

namespace Mizugaki.Analyzer

open Mizugaki.Ast Mizugaki.Plan Mizugaki.Control Mizugaki.Relation

variable {ρ : Type} {env : Environment ρ}

/-! ### Query levels -/

/-- The operators of a query level, from the output down to its aggregate operator. -/
def aboveAggregate (ops : List Operator) : List Operator := ops.takeWhile fun op => ! op.isAggregate

/-- What may be mentioned above the aggregate operator of a query level: the columns that it lets
through, and those of the projections above it. -/
def groupedColumns (ops : List Operator) : List Variable :=
  ops.flatMap Operator.grouped ++ (aboveAggregate ops).flatMap Operator.defines

/-- No other columns are read above the aggregate operator of a query level, or exposed by it. -/
structure GroupedOnly (ops : List Operator) (exposed : List Variable) : Prop where
  reads : ∀ op ∈ aboveAggregate ops, ∀ v ∈ op.reads, v.isStream = true → v ∈ groupedColumns ops
  exposed : ∀ v ∈ exposed, v ∈ groupedColumns ops

namespace QueryBlock

variable (b : QueryBlock)

/-- Where nothing is aggregated nothing is installed, and otherwise the aggregate operator is right
below the clauses. -/
theorem aboveAggregate_eq {q : SetFunctionProcessor}
    (hq : q.aggregations = none → q.arguments = none) :
    aboveAggregate (b.operators ++ q.installed) = b.operators := by
  have hclauses : ∀ op ∈ b.operators, (! op.isAggregate) = true := fun op hop => by
    rw [Operator.isAggregate_of_isClause (b.operators_isClause op hop)]
    rfl
  rw [aboveAggregate, List.takeWhile_append_of_pos hclauses, SetFunctionProcessor.installed]
  cases haggregations : q.aggregations with
  | none =>
    rw [hq haggregations]
    exact List.append_nil _
  | some store => exact List.append_nil _

/-- The columns above the aggregate operator that a processor installs. -/
theorem mem_groupedColumns {q : SetFunctionProcessor}
    (hq : q.aggregations = none → q.arguments = none) (v : Variable) :
    v ∈ groupedColumns (b.operators ++ q.installed) ↔
      (v ∈ q.aggregationsStore.1 ∨ v ∈ q.aggregationsStore.2.map AggregateColumn.destination) ∨
        v ∈ b.columns.map Prod.fst ∨ v ∈ (sortColumns b.sort).map Prod.fst := by
  have hclauses : b.operators.flatMap Operator.grouped = [] := by
    refine List.flatMap_eq_nil_iff.mpr fun op hop => ?_
    have hclause := b.operators_isClause op hop
    cases op <;> first | rfl | cases hclause
  have hinstalled : q.installed.flatMap Operator.grouped =
      q.aggregationsStore.1 ++ q.aggregationsStore.2.map AggregateColumn.destination := by
    rw [SetFunctionProcessor.installed, SetFunctionProcessor.aggregationsStore]
    cases haggregations : q.aggregations with
    | none =>
      rw [hq haggregations]
      rfl
    | some store =>
      cases q.arguments with
      | none => exact List.append_nil _
      | some columns => exact List.append_nil _
  rw [groupedColumns, b.aboveAggregate_eq hq, b.operators_defines, List.flatMap_append, hclauses,
    hinstalled, List.nil_append, List.mem_append, List.mem_append, List.mem_append,
    or_comm (a := v ∈ b.columns.map Prod.fst)]

/-- What the operators of the clauses read: sort keys, what DISTINCT compares, and what their
expressions mention. -/
theorem mem_reads {op : Operator} (hop : op ∈ b.operators) {v : Variable} (hv : v ∈ op.reads) :
    v ∈ (sortKeys b.sort).map Prod.fst ∨ (∃ keys ∈ b.distinct, v ∈ keys) ∨
      (∃ e ∈ b.having, v ∈ e.variables) ∨
        v ∈ variablesBindings b.columns ++ variablesBindings (sortColumns b.sort) := by
  have hproject (columns) (hv : v ∈ (Operator.project columns).reads) :
      v ∈ variablesBindings columns := by
    rw [Operator.reads, Operator.references, List.nil_append, Operator.expressions,
      variables_bindings] at hv
    exact hv
  simp only [operators, List.mem_append, List.mem_cons, Option.mem_toList] at hop
  obtain hop | hop | rfl | hop := hop
  · unfold limits at hop
    cases hsort : b.sort with
    | none =>
      rw [hsort] at hop
      obtain ⟨n, -, rfl⟩ := Option.map_eq_some_iff.mp (Option.mem_toList.mp hop)
      cases hv
    | some l =>
      rw [hsort] at hop
      obtain rfl | hop := List.mem_cons.mp hop
      · have hkeys : (Operator.limit b.limit [] l.keys).reads = l.keys.map Prod.fst :=
          List.append_nil _
        rw [hkeys] at hv
        exact .inl hv
      · rw [List.mem_singleton.mp hop] at hv
        exact .inr (.inr (.inr (List.mem_append_right _ (hproject l.columns hv))))
  · obtain ⟨keys, hkeys, rfl⟩ := Option.map_eq_some_iff.mp hop
    rw [Operator.reads, Operator.expressions, List.flatMap_nil, List.append_nil] at hv
    exact .inr (.inl ⟨keys, hkeys, hv⟩)
  · exact .inr (.inr (.inr (List.mem_append_left _ (hproject b.columns hv))))
  · obtain ⟨condition, hcondition, rfl⟩ := Option.map_eq_some_iff.mp hop
    rw [Operator.reads, Operator.references, List.nil_append, Operator.expressions,
      List.flatMap_singleton] at hv
    exact .inr (.inr (.inl ⟨condition, hcondition, hv⟩))

end QueryBlock

/-! ### The select list -/

variable (env) in
/-- The columns that an asterisk of a select list stands for. -/
def elementAsterisk : SelectElement → AnalyzerState ρ → List Variable
  | .selectAsterisk none, s =>
    (s.scope.relations.flatMap RelationInfo.exportedColumns).map ColumnInfo.variable_
  | .selectAsterisk (some (.variableReference name)), s =>
    ((analyzeRelationInfoName env name s).1.map fun found =>
      found.exportedColumns.map ColumnInfo.variable_).getD []
  | _, _ => []

variable (env) in
/-- The columns that the asterisks of a select list stand for. -/
def asteriskColumns : List SelectElement → AnalyzerState ρ → List Variable
  | [], _ => []
  | e :: es, s => elementAsterisk env e s ++ asteriskColumns es (afterElement env e s)

/-- An element of a select list exposes the columns that it projects, or those of its asterisk,
which were there before. -/
theorem selectElement_exposes {base s t : AnalyzerState ρ} {e : SelectElement} {l l' : SelectList}
    (hbase : base.Sound) (hs : s.Sound) (hframe : Extends base s)
    (h : selectElement env e l s = (some l', t)) :
    (∃ added, l'.columns.map Prod.fst = l.columns.map Prod.fst ++ added ∧
      ∀ v, v ∈ l'.info.variables ↔
        v ∈ l.info.variables ∨ v ∈ added ∨ v ∈ elementAsterisk env e s) ∧
    ∀ v ∈ elementAsterisk env e s, v.Older base.fresh := by
  have hadded (columns : List ColumnInfo) (v : Variable) :
      v ∈ (l.info.addAll columns).variables ↔
        v ∈ l.info.variables ∨ v ∈ columns.map ColumnInfo.variable_ := by
    rw [addAll_variables, List.mem_append]
  have holder : ∀ r ∈ s.scope.relations, ∀ c ∈ r.exportedColumns,
      c.variable_.Older base.fresh := by
    intro r hr c hc
    refine older_of_legible (n := s.fresh) hbase hs hframe (.inl (.inl ?_))
    exact QueryScope.mem_variables hr (exportedColumns_variables r (List.mem_map_of_mem hc))
  cases e with
  | selectColumn value name =>
    simp only [selectElement, processSelectColumn, Check.bind_yields, Check.pure_yields] at h
    obtain ⟨⟨x, saw⟩, u, -, v, w, -, rfl, -⟩ := h
    refine ⟨⟨[v], by rw [List.map_append, List.map_singleton], fun w => ?_⟩,
      fun w hw => by cases hw⟩
    let column : ColumnInfo :=
      { variable_ := v, identifier := some (selectColumnName env value name) }
    refine (hadded [column] w).trans ?_
    exact or_congr_right (or_iff_left List.not_mem_nil).symm
  | selectAsterisk qualifier =>
    rw [selectElement] at h
    cases qualifier with
    | none =>
      simp only [processSelectAsterisk, Check.bind_yields, currentScope_yields] at h
      obtain ⟨_, _, ⟨rfl, rfl⟩, h⟩ := h
      generalize hcolumns : s.scope.relations.flatMap RelationInfo.exportedColumns = columns at h
      have hasterisk : elementAsterisk env (.selectAsterisk none) s =
          columns.map ColumnInfo.variable_ := by rw [elementAsterisk, hcolumns]
      rw [hasterisk]
      refine ⟨?_, fun v hv => ?_⟩
      · cases columns with
        | nil => cases h
        | cons column columns =>
          obtain ⟨rfl, -⟩ := (Check.pure_yields ..).mp h
          refine ⟨[], (List.append_nil _).symm, fun v => (hadded _ v).trans ?_⟩
          exact or_congr_right (or_iff_right List.not_mem_nil).symm
      · obtain ⟨c, hc, rfl⟩ := List.mem_map.mp hv
        rw [← hcolumns] at hc
        obtain ⟨r, hr, hc⟩ := List.mem_flatMap.mp hc
        exact holder r hr c hc
    | some q =>
      cases q with
      | variableReference name =>
        simp only [processSelectAsterisk, Check.bind_yields, Check.pure_yields] at h
        obtain ⟨found, u, hfound, rfl, -⟩ := h
        have hasterisk : elementAsterisk env (.selectAsterisk (some (.variableReference name))) s =
            found.exportedColumns.map ColumnInfo.variable_ := by
          rw [elementAsterisk, hfound]
          rfl
        rw [hasterisk]
        refine ⟨⟨[], (List.append_nil _).symm, fun v => (hadded _ v).trans ?_⟩, fun v hv => ?_⟩
        · exact or_congr_right (or_iff_right List.not_mem_nil).symm
        · obtain ⟨c, hc, rfl⟩ := List.mem_map.mp hv
          exact holder found (analyzeRelationInfoName_mem hfound) c hc
      | _ => cases h

/-- The columns of a select list are those of its projection and those of its asterisks. -/
theorem processSelect_exposes {base s t : AnalyzerState ρ} {es : List SelectElement}
    {l : SelectList} (hbase : base.Sound) (hs : s.Sound) (hframe : Extends base s)
    (h : processSelect env (selectElements env es) s = (some l, t)) :
    (∀ v, v ∈ l.info.variables ↔
      v ∈ l.columns.map Prod.fst ∨ v ∈ asteriskColumns env es s) ∧
    ∀ v ∈ asteriskColumns env es s, v.Older base.fresh := by
  have helements : ∀ {es : List SelectElement} {l l' : SelectList} {s t : AnalyzerState ρ},
      s.Sound → Extends base s →
      processSelectElements l (selectElements env es) s = (some l', t) →
      (∃ added, l'.columns.map Prod.fst = l.columns.map Prod.fst ++ added ∧
        ∀ v, v ∈ l'.info.variables ↔
          v ∈ l.info.variables ∨ v ∈ added ∨ v ∈ asteriskColumns env es s) ∧
      ∀ v ∈ asteriskColumns env es s, v.Older base.fresh := by
    intro es
    induction es with
    | nil =>
      intro l l' s t _ _ h
      obtain ⟨rfl, -⟩ := (Check.pure_yields ..).mp h
      exact ⟨⟨[], (List.append_nil _).symm, fun v => by simp [asteriskColumns]⟩,
        fun v hv => by cases hv⟩
    | cons e es ih =>
      intro l l' s t hs hframe h
      simp only [selectElements, processSelectElements, Check.bind_yields] at h
      obtain ⟨middle, u, hmiddle, h⟩ := h
      obtain ⟨fs, columns, vs, -, hu, hfirst⟩ := selectElement_selected
        (integerOperators.documented_documented integerLogic) hbase hs hframe hmiddle
      obtain ⟨⟨added, hadded, hcolumns⟩, holder⟩ :=
        selectElement_exposes hbase hs hframe hmiddle
      obtain ⟨⟨rest, hrest, hrestColumns⟩, hrestOlder⟩ := ih hfirst.projected.sound
        (hframe.trans hfirst.projected.frame) h
      rw [asteriskColumns, hu]
      refine ⟨⟨added ++ rest, by rw [hrest, hadded, List.append_assoc], fun v => ?_⟩,
        List.forall_mem_append.mpr ⟨holder, hrestOlder⟩⟩
      rw [hrestColumns, hcolumns, List.mem_append, List.mem_append]
      tauto
  simp only [processSelect, Check.bind_yields, Check.pure_yields] at h
  obtain ⟨l', u, hrun, _, v, -, rfl, -⟩ := h
  obtain ⟨⟨added, hadded, hcolumns⟩, holder⟩ := helements hs hframe hrun
  refine ⟨fun v => ?_, holder⟩
  have hempty : (RelationInfo.empty : RelationInfo).variables = [] := rfl
  rw [hcolumns v, hadded, hempty]
  simp

/-! ### HAVING -/

/-- What the condition of HAVING mentions was accepted, and only aggregated columns count as
such. -/
theorem processHaving_checked {having : Option (ScalarAction ρ)} {p q : SetFunctionProcessor}
    {condition : Option Scalar} {s t : AnalyzerState ρ} (hp : p.Covered [])
    (h : processHaving env having p s = (some (condition, q), t)) :
    q.Covered [] ∧
      ∀ e ∈ condition, ∀ v ∈ e.variables, v.isStream = true → q.accepts false v = true := by
  cases having with
  | none =>
    simp only [processHaving, Check.pure_yields, Prod.mk.injEq] at h
    obtain ⟨⟨rfl, rfl⟩, -⟩ := h
    exact ⟨hp, fun e he => by cases he⟩
  | some a =>
    simp only [processHaving, Check.bind_yields, Check.pure_yields, Prod.mk.injEq] at h
    obtain ⟨⟨predicate, saw⟩, u, -, ⟨e, q'⟩, v, he, _, w, -, ⟨rfl, rfl⟩, -⟩ := h
    have hprocessed := processSetFunctions_processed predicate he
    have hactivated : p.activate.Covered [] := hp
    refine ⟨hprocessed.covered [] hactivated, fun e' he' => ?_⟩
    obtain rfl := Option.mem_some_iff.mp he'
    exact hprocessed.checked [] hactivated

theorem SetFunctionProcessor.Grouped.covered {p : SetFunctionProcessor} {keys : List Variable}
    (h : p.Grouped keys) : p.Covered [] := by
  intro v
  rw [h.aggregated, h.columns]
  simp

theorem activateFor_eq (l : SelectList) (sort : Option SortList) (p : SetFunctionProcessor) :
    activateFor l sort p = p ∨ activateFor l sort p = p.activate := by
  unfold activateFor
  split_ifs
  · exact .inr rfl
  · exact .inl rfl

theorem activateFor_accepts (l : SelectList) (sort : Option SortList) (p : SetFunctionProcessor)
    (v : Variable) : (activateFor l sort p).accepts false v = p.accepts false v := by
  obtain h | h := activateFor_eq l sort p
  · rw [h]
  · rw [h]
    rfl

theorem activateFor_covered (l : SelectList) (sort : Option SortList) {p : SetFunctionProcessor}
    {names : List Variable} (hp : p.Covered names) : (activateFor l sort p).Covered names := by
  obtain h | h := activateFor_eq l sort p
  · rwa [h]
  · rw [h]
    exact hp

/-! ### The query -/

variable {quantifier : Option Ast.SetQuantifier} {elements : List SelectElement}
  {from_ : List TableExpression} {where_ having limit : Option ScalarExpression}
  {groupBy : Option (List GroupingElement)} {orderBy : List SortElement}

/-- What a processor accepts outside of set functions is there above the operators it installs. -/
theorem mem_groupedColumns_of_accepts {b : QueryBlock} {q : SetFunctionProcessor}
    (hq : q.aggregations = none → q.arguments = none)
    (hstore : ∀ v ∈ q.groupingColumns, v ∈ q.aggregationsStore.1)
    (hcovered : q.Covered (b.columns.map Prod.fst ++ (sortColumns b.sort).map Prod.fst))
    {v : Variable} (hv : q.accepts false v = true) :
    v ∈ groupedColumns (b.operators ++ q.installed) := by
  rw [b.mem_groupedColumns hq]
  simp only [SetFunctionProcessor.accepts, Bool.false_eq_true, if_false, decide_eq_true_eq] at hv
  obtain hv | hv := hv
  · exact .inl (.inl (hstore v hv))
  · exact ((hcovered v).mp hv).imp .inr List.mem_append.mp

namespace QueryRun

variable {u v w : AnalyzerState ρ} {r : QueryResult}
  {run : QueryRun env (queryClauses env quantifier elements from_ where_ groupBy having orderBy
    limit) u v r} {keys : List Variable}

/-- What a processor holds that was installed in a run. -/
structure Installs (run : QueryRun env (queryClauses env quantifier elements from_ where_ groupBy
    having orderBy limit) u v r) (keys : List Variable) (q : SetFunctionProcessor) : Prop where
  arguments : q.aggregations = none → q.arguments = none
  keys : ∀ v, v ∈ q.aggregationsStore.1 ↔ v ∈ keys
  grouping : ∀ v ∈ q.groupingColumns, v ∈ q.aggregationsStore.1
  covered : q.Covered (run.select.columns.map Prod.fst ++ (sortColumns run.sort).map Prod.fst)
  having : ∀ e ∈ run.having, ∀ v ∈ e.variables, v.isStream = true → q.accepts false v = true

theorem installs (hgrouped : run.grouped.Grouped keys)
    (i : Installation run.block (activateFor run.select run.sort run.filtered) run.afterLimit w) :
    run.Installs keys i.processor := by
  obtain ⟨haggregations, harguments, -⟩ := activateFor_aggregations run.select run.sort run.filtered
  have hhaving := processHaving_stored run.havingRun
  obtain ⟨hcovered, hchecked⟩ := processHaving_checked hgrouped.covered run.havingRun
  have hgrouping : i.processor.groupingColumns = run.grouped.groupingColumns := by
    rw [i.processed.grows.grouping, activateFor_grouping, hhaving.grouping]
  have hstore : i.processor.aggregationsStore.1 = i.processor.groupingColumns := by
    rw [i.processed.grows.keys, SetFunctionProcessor.aggregationsStore, haggregations, hgrouping,
      ← hgrouped.storeKeys]
    exact hhaving.keys
  refine ⟨fun hnone => ?_, fun v => ?_, fun v hv => hstore ▸ hv, ?_, fun e he v hv hs => ?_⟩
  · have hstored := i.processed.stored
    rw [hnone, haggregations] at hstored
    obtain ⟨hfiltered, hplain⟩ := Bool.or_eq_false_iff.mp hstored.symm
    rw [(i.processed.kept hplain).1, harguments, processHaving_kept run.havingRun
      (Option.isSome_eq_false_iff.mp hfiltered |> Option.isNone_iff_eq_none.mp), hgrouped.arguments]
  · rw [hstore, hgrouping, hgrouped.mem]
  · exact i.processed.covered [] (activateFor_covered run.select run.sort hcovered)
  · refine i.processed.grows.accepts ?_
    rw [activateFor_accepts]
    exact hchecked e he v hv hs

/-- Above the aggregate operator of a run only grouped columns are mentioned just when the columns
of the asterisks are group keys. -/
theorem groupedOnly_iff (hu : u.Sound) (hgrouped : run.grouped.Grouped keys)
    (i : Installation run.block (activateFor run.select run.sort run.filtered) run.afterLimit w) :
    GroupedOnly i.operators r.relation.variables ↔
      ∀ x ∈ asteriskColumns env elements run.afterHaving, x ∈ keys := by
  have hall : (queryClauses env quantifier elements from_ where_ groupBy having orderBy limit).All
      ScalarScoped TableScoped SelectScoped GroupingScoped := queryClauses_scoped env quantifier
  have hbuilds := processFromClause_scoped hall.from_ run.fromRun hu
  obtain ⟨hentry, -⟩ := processWhere_scoped hall.where_ hbuilds run.whereRun
  obtain ⟨hbase, -⟩ := processGroupBy_scoped hall.groupBy run.groupByRun hentry.adds.sound
  obtain ⟨hsound, hframe, -⟩ := processHaving_scoped hall.having run.havingRun hbase
  obtain ⟨hexposed, holder⟩ := processSelect_exposes hbase hsound hframe run.selectRun
  obtain ⟨hselect, -⟩ := processSelect_scoped hall.elements run.selectRun hsound
  have hdistinct : Quiet _ _ := processDistinct_quiet env _ _ run.distinctRun
  obtain ⟨-, hsortColumns⟩ := processOrderBy_scoped hall.orderBy run.orderByRun
    (hselect.sound.of_quiet hdistinct)
  obtain ⟨condition, columns, order, hmeant⟩ :=
    run.meant (integerOperators.documented_documented integerLogic) hbase
  have hinstalls := installs hgrouped i
  have hmem := i.block.mem_groupedColumns hinstalls.arguments
  have hnames : i.block.columns.map Prod.fst = run.select.columns.map Prod.fst := i.columnNames
  have hsortNames : (sortColumns i.block.sort).map Prod.fst = (sortColumns run.sort).map Prod.fst :=
    i.sortNames
  rw [hnames, hsortNames] at hmem
  constructor
  · intro hlaw x hx
    have hrelation : x ∈ r.relation.variables := by
      rw [run.relation]
      exact (hexposed x).mpr (.inr hx)
    obtain (hstore | hdestination) | hprojected := (hmem x).mp (hlaw.exposed x hrelation)
    · exact (hinstalls.keys x).mp hstore
    · -- it was numbered before anything was aggregated
      have hsettled := hmeant.settled hgrouped i.processed.grows.of_activateFor
      exact absurd hdestination (hsettled.apart_of_older (holder x hx))
    · have hnot := (hmeant.names.widen hmeant.early.counter le_rfl).notMem_of_older (holder x hx)
      exact absurd (List.mem_append.mpr hprojected) hnot
  · intro hkeys
    have hall : ∀ x ∈ run.select.info.variables, x ∈ groupedColumns i.operators := by
      intro x hx
      obtain hx | hx := (hexposed x).mp hx
      · exact (hmem x).mpr (.inr (.inl hx))
      · exact (hmem x).mpr (.inl (.inl ((hinstalls.keys x).mpr (hkeys x hx))))
    refine ⟨fun op hop x hx hstream => ?_, fun x hx => hall x (run.relation ▸ hx)⟩
    have haccepts : i.processor.accepts false x = true → x ∈ groupedColumns i.operators := by
      refine mem_groupedColumns_of_accepts hinstalls.arguments hinstalls.grouping ?_
      rw [hnames, hsortNames]
      exact hinstalls.covered
    rw [Installation.operators, i.block.aboveAggregate_eq hinstalls.arguments] at hop
    obtain hx | ⟨ks, hdistinct, hx⟩ | ⟨e, he, hx⟩ | hx := i.block.mem_reads hop hx
    · have hsortKeys : sortKeys i.block.sort = sortKeys run.sort := i.keys
      rw [hsortKeys, hsortColumns] at hx
      exact (hmem _).mpr (.inr (.inr hx))
    · rw [processDistinct_keys run.distinctRun ks hdistinct] at hx
      exact hall x hx
    · exact haccepts (hinstalls.having e he x hx hstream)
    · refine haccepts (i.processed.checked [] ?_ x hx hstream)
      exact activateFor_covered run.select run.sort
        (processHaving_checked hgrouped.covered run.havingRun).1

end QueryRun

/-- Above the aggregate operator of an accepted query with `GROUP BY`, `HAVING` or a set function,
only group keys, aggregated columns and projected ones are read and exposed just when every column
that an asterisk of its select list stands for is a column of `GROUP BY`. -/
theorem query_groupedOnly_iff {context : List ScalarValueContext} {continueScope : Bool}
    {s t : AnalyzerState ρ} {r : QueryResult}
    (h : query env (.query quantifier elements from_ where_ groupBy having orderBy limit) context
      continueScope s = (some r, t)) (hs : s.Sound) :
    ∃ u v, (u = s ∨ u = s.enter .empty) ∧
      ∃ run : QueryRun env (queryClauses env quantifier elements from_ where_ groupBy having orderBy
        limit) u v r, ∃ keys ops,
      GroupColumns env (groupBy.getD []) keys run.afterWhere run.afterGroupBy ∧
      r.output = ops.foldr Graph.unary run.entry ∧
      (groupBy.isSome = true ∨ having.isSome = true ∨
          hasAggregateBindings run.select.columns = true ∨
          hasAggregateBindings (sortColumns run.sort) = true →
        (GroupedOnly ops r.relation.variables ↔
          ∀ x ∈ asteriskColumns env elements run.afterHaving, x ∈ keys)) := by
  obtain ⟨u, v, ⟨run⟩, hu⟩ := query_run h
  have hsound : u.Sound := by
    rcases hu with rfl | rfl
    · exact hs
    · exact hs.enterEmpty rfl
  obtain ⟨hactive, keys, hcolumns, hgrouped⟩ := processGroupBy_columns run.groupByRun
  have hhaving := processHaving_stored run.havingRun
  obtain ⟨hsaw, -⟩ := processSelect_marked (selectElements_marks env elements) run.selectRun
  obtain ⟨hsortSaw, -⟩ := processOrderBy_marked
    (fun spec hspec => (sortElements_marks env orderBy spec hspec)) run.orderByRun
  obtain ⟨hinactive, -, houtput⟩ | ⟨-, w, i, -, houtput⟩ :=
    installSetFunctions_yields run.installRun
  · refine ⟨u, v, hu, run, keys, _, hcolumns, houtput, fun haggregated => ?_⟩
    rw [activateFor_active, hhaving.active, hactive, hsaw, hsortSaw] at hinactive
    simp only [Bool.or_eq_false_iff] at hinactive
    obtain ⟨⟨hnoGroupBy, hnoHaving⟩, hselect, hsort⟩ := hinactive
    simp [hnoGroupBy, hnoHaving, hselect, hsort] at haggregated
  · exact ⟨u, v, hu, run, keys, _, hcolumns, houtput,
      fun _ => run.groupedOnly_iff hsound hgrouped i⟩

/-- `SELECT elements FROM t GROUP BY names`. -/
def selectGroups (elements : List SelectElement) (names : List String) : QueryExpression :=
  let column (name : String) : ScalarExpression := .variableReference (.simple ⟨name, .delimited⟩)
  .query none elements [.tableReference false (.simple ⟨"t", .delimited⟩) none] none
    (some (names.map fun name => .groupingColumn (column name) none)) none [] none

/-- `SELECT * FROM t GROUP BY b, a`, where the asterisk stands for two group keys. -/
theorem asterisk_grouped :
    let env := Environment.ofSchema (.ofTables [pairTable] [])
    ∃ r t, query env (selectGroups [.selectAsterisk none] ["b", "a"]) [] false (.initial [])
        = (some r, t) ∧ r.relation.variables = [.stream 0, .stream 1] ∧
      ∃ ops entry, r.output = ops.foldr Graph.unary entry ∧
        GroupedOnly ops r.relation.variables := by
  intro env
  have hrun : ∃ r t, query env (selectGroups [.selectAsterisk none] ["b", "a"]) [] false
      (.initial []) = (some r, t) ∧ r.relation.variables = [.stream 0, .stream 1] :=
    ⟨_, _, rfl, rfl⟩
  obtain ⟨r, t, hrun, hvariables⟩ := hrun
  obtain ⟨u, v, hu, run, keys, ops, hkeys, houtput, hiff⟩ :=
    query_groupedOnly_iff hrun (initial_sound [])
  refine ⟨r, t, hrun, hvariables, ops, run.entry, houtput, (hiff (.inl rfl)).mpr ?_⟩
  have hhaving : run.afterHaving = run.afterGroupBy := (congrArg Prod.snd run.havingRun).symm
  have hwhere : run.afterWhere = run.afterFrom := (congrArg Prod.snd run.whereRun).symm
  have hfrom : run.afterFrom = (processFromClause env _ u).2 := (congrArg Prod.snd run.fromRun).symm
  rw [hhaving]
  rw [hwhere, hfrom] at hkeys
  generalize run.afterGroupBy = final at hkeys
  rcases hu with rfl | rfl
  · -- without a scope there is no column `b`
    cases hkeys with
    | cons head clear tail => cases congrArg Prod.fst head
  · cases hkeys with
    | cons head clear tail =>
      cases head
      cases clear
      cases tail with
      | cons head clear tail =>
        cases head
        cases clear
        cases tail
        decide

/-- `SELECT * FROM t GROUP BY a` is accepted, and exposes the column `b` of the table, which its
aggregate operator does not let through. `SELECT b FROM t GROUP BY a` is rejected. -/
theorem asterisk_ungrouped :
    let env := Environment.ofSchema (.ofTables [pairTable] [])
    (∃ r t, query env (selectGroups [.selectAsterisk none] ["a"]) [] false (.initial [])
        = (some r, t) ∧
      r.output = [.project [], .aggregate [.stream 0] []].foldr Graph.unary pairEntry ∧
      r.relation.variables = [.stream 0, .stream 1] ∧
      ¬ GroupedOnly [.project [], .aggregate [.stream 0] []] r.relation.variables) ∧
    ∃ t, query env (selectGroups
      [.selectColumn (.variableReference (.simple ⟨"b", .delimited⟩)) none] ["a"]) [] false
      (.initial []) = (none, t) := by
  refine ⟨⟨_, _, rfl, rfl, rfl, fun hlaw => ?_⟩, _, rfl⟩
  have hlost := hlaw.exposed (.stream 1) (List.mem_cons_of_mem _ List.mem_cons_self)
  revert hlost
  decide

end Mizugaki.Analyzer
