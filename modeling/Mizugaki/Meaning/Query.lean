import Mizugaki.Meaning.Clause
import Mizugaki.Meaning.Rows

/-! Query blocks. The operators that the analyzer puts above a FROM clause compute what the block
says, for all rows that the FROM clause may have: the set functions of all clauses are aggregated
once below HAVING, and the sort keys are computed above DISTINCT. -/

namespace Mizugaki.Analyzer

open Mizugaki.Ast Mizugaki.Plan Mizugaki.Control Mizugaki.Relation

variable {ρ α : Type} {env : Environment ρ} {I : Interpretation α} {L : Logic α}

/-! ### WHERE and HAVING -/

theorem Prepared.value {n : ℕ} {x : Scalar} {f : Meaning α} (hx : Prepared n I x f) (p : Place α) :
    x.eval I p.1 [] p.2 = f p.1 p.2 :=
  hx.evaluates p.1 (fun _ hp => by cases hp) (.refl p.2)

/-- WHERE filters the rows of the FROM clause, when it is there. -/
theorem processWhere_means [DecidableEq α] (hI : I.Documented L) {where_ : Option ScalarExpression}
    {from_ entry : Graph} {s t : AnalyzerState ρ} (hs : s.Sound)
    (h : processWhere env (scalarOption env where_) from_ s = (some entry, t)) :
    ∃ g operators, denoteOption I L env where_ .unspecified s.unmarked = some g ∧
      entry = operators.foldr Graph.unary from_ ∧
        ∀ (surroundings : Row Variable α) (input : List (Row Variable α)),
          rowsAbove I surroundings operators input =
            some (input.filter fun row => holdsAt L g ([], row)) := by
  cases where_ with
  | none =>
    obtain ⟨rfl, -⟩ := (Check.pure_yields ..).mp h
    refine ⟨none, [], rfl, rfl, fun surroundings input => ?_⟩
    have hall : (input.filter fun row => holdsAt L none ([], row)) = input :=
      List.filter_eq_self.mpr fun _ _ => rfl
    rw [hall]
    rfl
  | some e =>
    rw [scalarOption] at h
    simp only [processWhere, Check.bind_yields] at h
    obtain ⟨⟨x, saw⟩, u, hx, h⟩ := h
    dsimp only at h
    split_ifs at h
    · cases h
    · simp only [Check.bind_yields, Check.pure_yields] at h
      obtain ⟨_, v, -, rfl, -⟩ := h
      obtain ⟨f, hexpressed⟩ := expressed hI hs hs (.refl s) hx
      refine ⟨some f, [.filter x], by rw [denoteOption, hexpressed.denotes]; rfl, rfl,
        fun surroundings input => congrArg some (List.filter_congr fun row _ => ?_)⟩
      have hvalue : x.eval I [] [] row = f [] row := hexpressed.prepared.value ([], row)
      rw [hvalue, hI.truth]
      rfl

/-- Variables from before are not aggregated values. -/
theorem SetFunctionProcessor.Settled.apart_of_older {f : SetFunctionProcessor} {n m : ℕ}
    (hf : f.Settled n m) {v : Variable} (hv : v.Older n) : f.Apart v :=
  hf.destinations.notMem_of_older hv

/-- The condition of HAVING, and the meaning of it. -/
inductive HavingMeans (n : ℕ) (I : Interpretation α) (q : SetFunctionProcessor) :
    Option Scalar → Option (Meaning α) → Prop
  | none : HavingMeans n I q none none
  | some {x y : Scalar} {f : Meaning α} (prepared : Prepared n I x f)
      (rewritten : ∀ ⦃p m⦄, p.Settled n m → q.Within p → Rewritten I p x y) :
      HavingMeans n I q (some y) (some f)

theorem processHaving_means (hI : I.Documented L) {having : Option ScalarExpression}
    {p q : SetFunctionProcessor} {condition : Option Scalar} {s t : AnalyzerState ρ} (hs : s.Sound)
    (h : processHaving env (scalarOption env having) p s = (some (condition, q), t)) :
    ∃ g, denoteOption I L env having .unspecified s.unmarked = some g ∧
      HavingMeans s.fresh I q condition g := by
  cases having with
  | none =>
    rw [scalarOption] at h
    simp only [processHaving, Check.pure_yields, Prod.mk.injEq] at h
    obtain ⟨⟨rfl, rfl⟩, -⟩ := h
    exact ⟨none, rfl, .none⟩
  | some e =>
    rw [scalarOption] at h
    simp only [processHaving, Check.bind_yields, Check.pure_yields, Prod.mk.injEq] at h
    obtain ⟨⟨x, saw⟩, u, hx, ⟨y, q'⟩, v, hy, _, w, -, ⟨rfl, rfl⟩, -⟩ := h
    obtain ⟨f, hexpressed⟩ := expressed hI hs hs (.refl s) hx
    refine ⟨some f, by rw [denoteOption, hexpressed.denotes]; rfl, .some hexpressed.prepared ?_⟩
    intro r m hr hwithin
    exact .of_run hr hy hwithin (hexpressed.prepared.older.mono fun _ => hr.apart_of_older)
      hexpressed.prepared.avoids

/-- HAVING leaves the arguments as they are where it leaves nothing to aggregate. -/
theorem processHaving_kept {having : Option (ScalarAction ρ)} {p q : SetFunctionProcessor}
    {condition : Option Scalar} {s t : AnalyzerState ρ}
    (h : processHaving env having p s = (some (condition, q), t)) (hq : q.aggregations = none) :
    q.arguments = p.arguments := by
  cases having with
  | none =>
    simp only [processHaving, Check.pure_yields, Prod.mk.injEq] at h
    obtain ⟨⟨-, rfl⟩, -⟩ := h
    rfl
  | some a =>
    simp only [processHaving, Check.bind_yields, Check.pure_yields, Prod.mk.injEq] at h
    obtain ⟨⟨x, saw⟩, u, -, ⟨y, q'⟩, v, hy, _, w, -, ⟨-, rfl⟩, -⟩ := h
    have hprocessed := processSetFunctions_processed x hy
    have hstored := hprocessed.stored
    rw [hq] at hstored
    exact (hprocessed.kept (Bool.or_eq_false_iff.mp hstored.symm).2).1

/-! ### The block -/

/-- In a projected row the column of an expression has its value. -/
theorem column_value {columns : List (Variable × Scalar)} (hnodup : (columns.map Prod.fst).Nodup)
    {v : Variable} {y : Scalar} (hy : (v, y) ∈ columns) (row : Row Variable α) :
    projectRow I columns row v = y.eval I [] [] row := by
  refine extend_of_mem ?_ (List.mem_map.mpr ⟨(v, y), hy, rfl⟩)
  rw [List.map_map]
  exact hnodup

theorem other_value {columns : List (Variable × Scalar)} {v : Variable}
    (hv : v ∉ columns.map Prod.fst) (row : Row Variable α) : projectRow I columns row v = row v := by
  refine extend_of_notMem ?_
  rw [List.map_map]
  exact hv

/-- The rewritten condition of HAVING holds on the rows of the places where it holds as written. -/
theorem HavingMeans.holds {n m : ℕ} {q r : SetFunctionProcessor} {condition : Option Scalar}
    {g : Option (Meaning α)} (h : HavingMeans n I r condition g) (hI : I.Documented L)
    (hq : q.Settled n m) (hr : r.Within q) (p : Place α) :
    (condition.all fun e => I.truth (e.eval I [] [] (placeRow I q p))) = holdsAt L g p := by
  cases h with
  | none => rfl
  | some hprepared hrewritten =>
    rw [Option.all_some, placeRow, (hrewritten hq hr).value, hprepared.value, hI.truth]
    rfl

/-- How a block and its rewritten form use variables: the columns of its projections differ from one
another, from what is aggregated and from what was there before. -/
structure QueryBlock.Layout (n : ℕ) (I : Interpretation α) (b b' : QueryBlock)
    (q : SetFunctionProcessor) : Prop where
  nodup : (b.columns.map Prod.fst ++ (sortColumns b.sort).map Prod.fst).Nodup
  apart : ∀ v ∈ b.columns.map Prod.fst, q.Apart v
  older : ∀ v : Variable, v.Older n →
    q.Apart v ∧ v ∉ b.columns.map Prod.fst ∧ v ∉ (sortColumns b.sort).map Prod.fst
  columns : RewrittenColumns I q b.columns b'.columns
  sort : RewrittenColumns I q (sortColumns b.sort) (sortColumns b'.sort)

namespace QueryBlock.Layout

variable {n : ℕ} {b b' : QueryBlock} {q : SetFunctionProcessor} (h : b.Layout n I b' q)

include h

theorem older_value {v : Variable} (hv : v.Older n) (p : Place α) :
    projectRow I b'.columns (placeRow I q p) v = p.2 v := by
  obtain ⟨hapart, hcolumns, -⟩ := h.older v hv
  rw [other_value (by rwa [h.columns.names]), placeRow, hapart.extend_eq]

/-- An output column of a projected row has the value that the select list says. -/
theorem output_value {v : Variable} {f : Meaning α} (hv : Output n I b.columns v f) (p : Place α) :
    projectRow I b'.columns (placeRow I q p) v = f p.1 p.2 := by
  obtain ⟨x, hx, hprepared⟩ | ⟨hold, rfl⟩ := hv
  · obtain ⟨y, hy, hrewritten⟩ := h.columns.exists_of_mem hx
    have hnodup : (b'.columns.map Prod.fst).Nodup := by
      rw [h.columns.names]
      exact (List.nodup_append.mp h.nodup).1
    rw [column_value hnodup hy, placeRow, hrewritten.value, hprepared.value]
  · exact h.older_value hold p

/-- The sort projection leaves the output columns as they are. -/
theorem sorted_output_value {v : Variable} {f : Meaning α} (hv : Output n I b.columns v f)
    (p : Place α) : b'.sortedRow I (placeRow I q p) v = f p.1 p.2 := by
  have hnot : v ∉ (sortColumns b.sort).map Prod.fst := by
    obtain ⟨x, hx, -⟩ | ⟨hold, -⟩ := hv
    · exact fun hmem => (List.nodup_append.mp h.nodup).2.2 v
        (List.mem_map_of_mem (f := Prod.fst) hx) v hmem rfl
    · exact (h.older v hold).2.2
  rw [QueryBlock.sortedRow, other_value (by rwa [h.sort.names]), h.output_value hv]

/-- A sort key of a row has the value that the sort element says: the columns of the select list are
not read. -/
theorem key_value {key : Variable × SortDirection} {o : SortDirection × Meaning α}
    (hkey : SortedBy n I (sortColumns b.sort) key o) (p : Place α) :
    b'.sortedRow I (placeRow I q p) key.1 = o.2 p.1 p.2 := by
  obtain ⟨-, x, hx, hprepared⟩ := hkey
  obtain ⟨y, hy, hrewritten⟩ := h.sort.exists_of_mem hx
  have hnodup : ((sortColumns b'.sort).map Prod.fst).Nodup := by
    rw [h.sort.names]
    exact (List.nodup_append.mp h.nodup).2.1
  have hbelow : y.eval I [] [] (projectRow I b'.columns (placeRow I q p)) =
      y.eval I [] [] (placeRow I q p) := by
    refine hrewritten.congr hprepared.older (fun v hv => ?_) fun v hv => ?_
    · exact other_value (by rw [h.columns.names]; exact (h.older v hv).2.1) _
    · refine other_value (fun hmem => ?_) _
      rw [h.columns.names] at hmem
      exact h.apart v hmem hv
  rw [QueryBlock.sortedRow, column_value hnodup hy, hbelow, placeRow, hrewritten.value,
    hprepared.value]

theorem order_value {keys : List (Variable × SortDirection)}
    {order : List (SortDirection × Meaning α)}
    (hkeys : List.Forall₂ (SortedBy n I (sortColumns b.sort)) keys order) (p p' : Place α) :
    sortedBefore I keys (b'.sortedRow I (placeRow I q p)) (b'.sortedRow I (placeRow I q p')) =
      precedes I order p p' := by
  induction hkeys with
  | nil => rfl
  | @cons key o _ _ hkey _ ih =>
    obtain ⟨v, direction⟩ := key
    obtain ⟨direction', f⟩ := o
    obtain rfl : direction = direction' := hkey.1
    have hvalue : ∀ p, b'.sortedRow I (placeRow I q p) v = f p.1 p.2 := h.key_value hkey
    cases ho : I.order direction (f p.1 p.2) (f p'.1 p'.2) <;>
      simp [sortedBefore, precedes, hvalue, ih, ho]

/-- The rows of a block stand for places. -/
theorem stands [DecidableEq α] (hI : I.Documented L) {m : BlockMeaning α} {vs : List Variable}
    {i j : ℕ} (hq : q.Settled i j) {r : SetFunctionProcessor} (hr : r.Within q)
    (hhaving : HavingMeans i I r b'.having m.having)
    (houtputs : List.Forall₂ (Output n I b.columns) vs m.columns)
    (hkeys : List.Forall₂ (SortedBy n I (sortColumns b.sort)) (sortKeys b'.sort) m.order)
    (hdistinct : b'.distinct = if m.distinct then some vs else none) (hlimit : b'.limit = m.limit) :
    b'.Stands I L m vs (placeRow I q) where
  having p := hhaving.holds hI hq hr p
  tuple p := by
    refine List.forall₂_eq_eq_eq ▸ List.forall₂_map_left_iff.mpr (List.forall₂_map_right_iff.mpr ?_)
    exact houtputs.imp fun v f hv => h.output_value hv p
  sortedTuple p := by
    refine List.forall₂_eq_eq_eq ▸ List.forall₂_map_left_iff.mpr (List.forall₂_map_right_iff.mpr ?_)
    exact houtputs.imp fun v f hv => h.sorted_output_value hv p
  order p p' := h.order_value hkeys p p'
  distinct := hdistinct
  limit := hlimit

end QueryBlock.Layout

/-- What a processor aggregated before some variables were numbered, or after them, is apart from
them. -/
theorem SetFunctionProcessor.Grows.apart_between {p q q' r : SetFunctionProcessor} {n m l e : ℕ}
    (h : p.Grows n q m) (hp : p.aggregationsStore.2 = [])
    (hq : q'.aggregationsStore = q.aggregationsStore) (k : q'.Grows l r e) {vs : List Variable}
    (hvs : Numbered m l vs) : ∀ v ∈ vs, r.Apart v := by
  intro v hv hmem
  obtain ⟨cs, hcs, hbefore, -⟩ := h.aggregates
  obtain ⟨ds, hds, hafter, -⟩ := k.aggregates
  rw [hds, hq, hcs, hp, List.nil_append, List.map_append] at hmem
  obtain ⟨i, rfl, hi, hil⟩ := hvs.between v hv
  obtain hmem | hmem := List.mem_append.mp hmem
  · obtain ⟨j, hj, -, hjm⟩ := hbefore.between _ hmem
    cases hj
    omega
  · obtain ⟨j, hj, hlj, -⟩ := hafter.between _ hmem
    cases hj
    omega

/-! ### The run -/

variable {quantifier : Option Ast.SetQuantifier} {elements : List SelectElement}
  {from_ : List TableExpression} {where_ having limit : Option ScalarExpression}
  {groupBy : Option (List GroupingElement)} {orderBy : List SortElement}

theorem processDistinct_eq {quantifier : Option Ast.SetQuantifier} {info : RelationInfo}
    {distinct : Option (List Variable)} {s t : AnalyzerState ρ}
    (h : processDistinct env quantifier info s = (some distinct, t)) :
    distinct = if decide (quantifier = some .distinct) then some info.variables else none := by
  cases quantifier with
  | none => exact ((Check.pure_yields ..).mp h).1.symm
  | some q =>
    cases q with
    | all => exact ((Check.pure_yields ..).mp h).1.symm
    | distinct => exact processDistinct_some h

/-- The installed operators of a block that does not activate its processor are none. -/
theorem QueryRun.nothing_installed {u v : AnalyzerState ρ} {r : QueryResult}
    (run : QueryRun env (queryClauses env quantifier elements from_ where_ groupBy having orderBy
      limit) u v r)
    (hinactive : (activateFor run.select run.sort run.filtered).active = false) :
    (activateFor run.select run.sort run.filtered).installed = [] ∧
      (activateFor run.select run.sort run.filtered).aggregationsStore.2 = [] ∧
      hasAggregateBindings run.select.columns = false ∧
      hasAggregateBindings (sortColumns run.sort) = false := by
  obtain ⟨hactive, keys, hcolumns, hgrouped⟩ := processGroupBy_columns run.groupByRun
  have hhaving := processHaving_stored run.havingRun
  obtain ⟨hsaw, -⟩ := processSelect_marked (selectElements_marks env elements) run.selectRun
  obtain ⟨hsortSaw, -⟩ := processOrderBy_marked (sortElements_marks env orderBy) run.orderByRun
  obtain ⟨haggregations, harguments, -⟩ := activateFor_aggregations run.select run.sort run.filtered
  rw [activateFor_active, hhaving.active, hactive, hsaw, hsortSaw] at hinactive
  simp only [Bool.or_eq_false_iff, Option.isSome_eq_false_iff,
    Option.isNone_iff_eq_none] at hinactive
  obtain ⟨⟨rfl, rfl⟩, hselect, hsort⟩ := hinactive
  -- without HAVING the processor is the one of GROUP BY, which has no columns
  have hfiltered : run.grouped = run.filtered := by
    have hrun := run.havingRun
    simp only [queryClauses, scalarOption, processHaving, Check.pure_yields, Prod.mk.injEq] at hrun
    exact hrun.1.2
  have hempty : run.grouped = {} := by
    have hrun := run.groupByRun
    simp only [queryClauses, groupingClause, processGroupBy, Check.pure_yields] at hrun
    exact hrun.1.symm
  rw [SetFunctionProcessor.installed, SetFunctionProcessor.aggregationsStore, haggregations,
    harguments, ← hfiltered, hempty]
  exact ⟨rfl, rfl, hselect, hsort⟩

namespace QueryRun

variable {u v : AnalyzerState ρ} {r : QueryResult}
  (run : QueryRun env (queryClauses env quantifier elements from_ where_ groupBy having orderBy
    limit) u v r)

/-- The operators of a run above its FROM and WHERE part, before the set functions are taken out. -/
def block : QueryBlock where
  having := run.having
  columns := run.select.columns
  distinct := run.distinct
  sort := run.sort
  limit := run.limit

/-- What the clauses above WHERE say, and how their columns are numbered. -/
structure Meant (I : Interpretation α) (L : Logic α) (condition : Option (Meaning α))
    (columns : List (Meaning α)) (order : List (SortDirection × Meaning α)) : Prop where
  base : run.afterGroupBy.Sound
  havingSays : denoteOption I L env having .unspecified run.afterGroupBy.unmarked = some condition
  having : HavingMeans run.afterGroupBy.fresh I run.filtered run.having condition
  early : run.grouped.Grows run.afterGroupBy.fresh run.filtered run.afterHaving.fresh
  columnsSay : denoteElements env I L elements run.afterHaving = some columns
  select : Projected run.afterGroupBy.fresh I run.afterHaving run.afterSelect run.select.columns
  outputs : List.Forall₂ (Output run.afterGroupBy.fresh I run.select.columns)
    run.select.info.variables columns
  between : run.afterSelect.fresh ≤ run.afterDistinct.fresh
  orderSays : denoteOrder env I L orderBy run.afterDistinct = some order
  sort : Projected run.afterGroupBy.fresh I run.afterDistinct run.afterOrderBy (sortColumns run.sort)
  order : List.Forall₂ (SortedBy run.afterGroupBy.fresh I (sortColumns run.sort))
    (sortKeys run.sort) order
  limit : run.afterOrderBy.fresh ≤ run.afterLimit.fresh

theorem meant (hI : I.Documented L) (hbase : run.afterGroupBy.Sound) :
    ∃ condition columns order, run.Meant I L condition columns order := by
  have hall : (queryClauses env quantifier elements from_ where_ groupBy having orderBy limit).All
      ScalarScoped TableScoped SelectScoped GroupingScoped := queryClauses_scoped env quantifier
  obtain ⟨hsound, hframe, -⟩ := processHaving_scoped hall.having run.havingRun hbase
  obtain ⟨condition, hcondition, hhaving⟩ := processHaving_means hI hbase run.havingRun
  obtain ⟨columns, hcolumns, hselect, houtputs⟩ :=
    processSelect_selected hI hbase hsound hframe run.selectRun
  have hdistinct : Quiet _ _ := processDistinct_quiet env _ _ run.distinctRun
  obtain ⟨order, horder, hsort, hkeys⟩ := processOrderBy_sorted hI hbase
    (hselect.sound.of_quiet hdistinct) (hframe.trans (hselect.frame.trans hdistinct.extends))
    run.orderByRun
  have hlimit := (processLimit_scoped hall.limit run.limitRun).frame hsort.sound
  exact ⟨condition, columns, order, hbase, hcondition, hhaving,
    processHaving_grows hall.having run.havingRun hbase, hcolumns, hselect, houtputs,
    hdistinct.fresh, horder, hsort, hkeys, hlimit.fresh⟩

variable {run} {condition : Option (Meaning α)} {columns : List (Meaning α)}
  {order : List (SortDirection × Meaning α)} {b : QueryBlock} {q : SetFunctionProcessor} {j : ℕ}

/-- The columns of the projections were numbered after HAVING. -/
theorem Meant.names (h : run.Meant I L condition columns order) :
    Numbered run.afterHaving.fresh run.afterLimit.fresh
      (run.select.columns.map Prod.fst ++ (sortColumns run.sort).map Prod.fst) :=
  h.select.names.append (h.sort.names.widen h.between h.limit) h.select.frame.fresh
    (h.between.trans (h.sort.frame.fresh.trans h.limit))

/-- What is aggregated was numbered after GROUP BY. -/
theorem Meant.settled (h : run.Meant I L condition columns order) {keys : List Variable}
    (hgrouped : run.grouped.Grouped keys) (hlate : run.filtered.Grows run.afterLimit.fresh q j) :
    q.Settled run.afterGroupBy.fresh j := by
  have harguments : run.grouped.argumentColumns = [] := by
    rw [SetFunctionProcessor.argumentColumns, hgrouped.arguments]
    rfl
  have hlast : run.afterHaving.fresh ≤ run.afterLimit.fresh :=
    h.select.frame.fresh.trans (h.between.trans (h.sort.frame.fresh.trans h.limit))
  exact ((h.early.trans (.refl run.filtered hlast)).trans hlate).settled harguments hgrouped.columns

/-- What is aggregated was numbered before or after the columns of the block. -/
theorem Meant.layout (h : run.Meant I L condition columns order) {keys : List Variable}
    (hgrouped : run.grouped.Grouped keys)
    (hrewritten : run.block.Rewritten I (activateFor run.select run.sort run.filtered)
      run.afterLimit.fresh b q j) :
    q.Settled run.afterGroupBy.fresh j ∧ run.filtered.Within q ∧
      run.block.Layout run.afterGroupBy.fresh I b q := by
  have hlate := hrewritten.grows.of_activateFor
  have hq : q.Settled run.afterGroupBy.fresh j := h.settled hgrouped hlate
  have hapart := h.early.apart_between hgrouped.columns rfl hlate h.names
  obtain ⟨hcolumns, hsort⟩ := hrewritten.columns hq fun c hc => by
    obtain ⟨f, hprepared⟩ :=
      (List.forall_mem_append.mpr ⟨h.select.prepared, h.sort.prepared⟩) c hc
    exact ⟨hprepared.older.mono fun _ => hq.apart_of_older, hprepared.avoids⟩
  refine ⟨hq, hlate.within, h.names.nodup, fun v hv => hapart v (List.mem_append_left _ hv),
    fun v hv => ⟨hq.apart_of_older hv, ?_⟩, hcolumns, hsort⟩
  have hnot := (h.names.widen h.early.counter le_rfl).notMem_of_older hv
  exact ⟨fun hmem => hnot (List.mem_append_left _ hmem),
    fun hmem => hnot (List.mem_append_right _ hmem)⟩

/-- The block is grouped just when something is aggregated. -/
theorem grouped_iff {keys : List Variable} (run : QueryRun env (queryClauses env quantifier elements
      from_ where_ groupBy having orderBy limit) u v r)
    (hkeys : GroupColumns env (groupBy.getD []) keys run.afterWhere run.afterGroupBy)
    (hgrouped : run.grouped.Grouped keys)
    (hrewritten : run.block.Rewritten I (activateFor run.select run.sort run.filtered)
      run.afterLimit.fresh b q j) :
    q.aggregations.isSome = true ↔
      groupBy.getD [] ≠ [] ∨ HavingCalls env having run.afterGroupBy ∨
        hasAggregateBindings run.select.columns = true ∨
          hasAggregateBindings (sortColumns run.sort) = true := by
  have hne : keys ≠ [] ↔ groupBy.getD [] ≠ [] := by
    rw [← List.length_pos_iff, hkeys.length_eq, List.length_pos_iff]
  obtain ⟨haggregations, -, -⟩ := activateFor_aggregations run.select run.sort run.filtered
  rw [hrewritten.stored, haggregations, Bool.or_eq_true, Bool.or_eq_true,
    (processHaving_stored run.havingRun).stored, hgrouped.stored, hne, or_assoc]
  rfl

/-- Where nothing is aggregated nothing is projected for it. -/
theorem arguments_eq_none {keys : List Variable} (hgrouped : run.grouped.Grouped keys)
    (hrewritten : run.block.Rewritten I (activateFor run.select run.sort run.filtered)
      run.afterLimit.fresh b q j) (hq : q.aggregations = none) : q.arguments = none := by
  obtain ⟨haggregations, harguments, -⟩ := activateFor_aggregations run.select run.sort run.filtered
  have hstored := hrewritten.stored
  rw [hq, haggregations] at hstored
  obtain ⟨hfiltered, hplain⟩ := Bool.or_eq_false_iff.mp hstored.symm
  rw [(hrewritten.kept hplain).1, harguments, processHaving_kept run.havingRun
    (Option.isSome_eq_false_iff.mp hfiltered |> Option.isNone_iff_eq_none.mp), hgrouped.arguments]

/-- The operators of a block that was analyzed compute what it says. -/
theorem computes [DecidableEq α] (hI : I.Documented L)
    (run : QueryRun env (queryClauses env quantifier elements from_ where_ groupBy having orderBy
      limit) u v r) (hu : u.Sound) :
    ∃ (m : BlockMeaning α) (operators : List Operator), m.Of env I L run ∧
      r.output = operators.foldr Graph.unary run.from_ ∧
      ∀ (surroundings : Row Variable α) (input : List (Row Variable α)),
        (rowsAbove I surroundings operators input).map (List.map (keyValues r.relation.variables)) =
          some (m.outcome I L surroundings input) := by
  have hall : (queryClauses env quantifier elements from_ where_ groupBy having orderBy limit).All
      ScalarScoped TableScoped SelectScoped GroupingScoped := queryClauses_scoped env quantifier
  have hfrom := processFromClause_scoped hall.from_ run.fromRun hu
  obtain ⟨hentry, -⟩ := processWhere_scoped hall.where_ hfrom run.whereRun
  obtain ⟨hbase, -, legible, hlegible, hbelow⟩ :=
    processGroupBy_scoped hall.groupBy run.groupByRun hentry.adds.sound
  obtain ⟨-, keys, hkeys, hgrouped⟩ := processGroupBy_columns run.groupByRun
  obtain ⟨condition, whereOperators, hwhereSays, hwhereOutput, hwhere⟩ :=
    processWhere_means hI hfrom.adds.sound run.whereRun
  obtain ⟨havingMeaning, columns, order, hmeant⟩ := run.meant hI hbase
  obtain ⟨b, q, j, hrewritten, houtput⟩ :=
    installSetFunctions_rewritten I run.nothing_installed run.installRun
  obtain ⟨hq, hwithin, hlayout⟩ := hmeant.layout hgrouped hrewritten
  have hstore : q.aggregationsStore.1 = run.grouped.groupingColumns := by
    rw [hrewritten.grows.of_activateFor.keys, hmeant.early.keys, hgrouped.storeKeys]
  let m : BlockMeaning α :=
    { where_ := condition, keys := q.aggregationsStore.1, grouped := q.aggregations.isSome,
      having := havingMeaning, columns := columns,
      distinct := decide (quantifier = some .distinct), order := order, limit := run.limit }
  have hstands : b.Stands I L m r.relation.variables (placeRow I q) := by
    have hdistinct := processDistinct_eq run.distinctRun
    rw [run.relation]
    refine hlayout.stands hI hq hwithin ?_ hmeant.outputs ?_ (hrewritten.distinct.trans hdistinct)
      hrewritten.limit
    · rw [hrewritten.having]
      exact hmeant.having
    · rw [hrewritten.keys]
      exact hmeant.order
  refine ⟨m, (b.operators ++ q.installed) ++ whereOperators, ?_, ?_, fun surroundings input => ?_⟩
  · refine ⟨hwhereSays, ⟨?_, keys, hkeys, fun v => ?_⟩, run.grouped_iff hkeys hgrouped hrewritten,
      hmeant.havingSays, hmeant.columnsSay, decide_eq_true_iff, hmeant.orderSays, ?_, ?_, rfl⟩
    · change q.aggregationsStore.1.Nodup
      rw [hstore]
      exact hgrouped.nodup
    · change v ∈ q.aggregationsStore.1 ↔ v ∈ keys
      rw [hstore]
      exact hgrouped.mem v
    · rintro rfl
      exact ((Check.pure_yields ..).mp run.limitRun).1.symm
    · rintro sign n rfl
      exact processLimit_literal run.limitRun
  · rw [houtput, hwhereOutput, ← List.foldr_append]
  · have hplaces : rowsAbove I surroundings q.installed
        (input.filter fun row => holdsAt L condition ([], row)) =
          some ((m.places surroundings (input.filter fun row =>
            holdsAt L condition ([], row))).map (placeRow I q)) := by
      refine installed_places hq rfl (fun k hk => ?_) rfl (arguments_eq_none hgrouped hrewritten) _ _
      rw [hstore, hlegible.mem] at hk
      exact hbase.chain.below (hbelow k hk)
    rw [rowsAbove_append, hwhere, Option.bind_some, rowsAbove_append, hplaces, Option.bind_some,
      hstands.operators_rows]
    rfl

end QueryRun

/-- The operators above the FROM clause of a query block that is accepted compute what the block
says, whatever the rows of the FROM clause are: the tuples of the select list for the rows, or the
groups of rows, that the conditions let pass, once each with DISTINCT, in the order of the sort keys
and up to the limit. -/
theorem query_computes [DecidableEq α] (hI : I.Documented L) {context : List ScalarValueContext}
    {continueScope : Bool} {s t : AnalyzerState ρ} {r : QueryResult}
    (h : query env (.query quantifier elements from_ where_ groupBy having orderBy limit) context
      continueScope s = (some r, t)) (hs : s.Sound) :
    ∃ u v, (u = s ∨ u = s.enter .empty) ∧
      ∃ (run : QueryRun env (queryClauses env quantifier elements from_ where_ groupBy having orderBy
        limit) u v r) (m : BlockMeaning α) (operators : List Operator),
      m.Of env I L run ∧ r.output = operators.foldr Graph.unary run.from_ ∧
        ∀ (surroundings : Row Variable α) (input : List (Row Variable α)),
          (rowsAbove I surroundings operators input).map
              (List.map (keyValues r.relation.variables)) =
            some (m.outcome I L surroundings input) := by
  obtain ⟨u, v, ⟨run⟩, hu⟩ := query_run h
  have hsound : u.Sound := by
    rcases hu with rfl | rfl
    · exact hs
    · exact hs.enterEmpty rfl
  obtain ⟨m, operators, hof, houtput, hrows⟩ := run.computes hI hsound
  exact ⟨u, v, hu, run, m, operators, hof, houtput, hrows⟩

/-- `SELECT DISTINCT c FROM t GROUP BY c ORDER BY c DESC LIMIT 1`. -/
def lastGroup : QueryExpression :=
  let column := ScalarExpression.variableReference (.simple ⟨"c", .delimited⟩)
  .query (some .distinct) [.selectColumn column none]
    [.tableReference false (.simple ⟨"t", .delimited⟩) none] none
    (some [.groupingColumn column none]) none [.mk column none (some .desc) none]
    (some (.literalExpression (.exactNumeric none (.ofDigits [1]))))

/-- One group at most is left of a table, the last one in the order of its column. -/
theorem query_computes_lastGroup :
    let env := Environment.ofSchema (.ofTables [singleTable] [])
    let I := integerOperators.documented integerLogic
    ∃ r t, query env lastGroup [] false (.initial []) = (some r, t) ∧
      ∃ (m : BlockMeaning (Option Int)) (operators : List Operator) (entry : Graph),
        m.grouped = true ∧ m.distinct = true ∧ m.limit = some 1 ∧
          r.output = operators.foldr Graph.unary entry ∧
          ∀ surroundings input, (rowsAbove I surroundings operators input).map
            (List.map (keyValues r.relation.variables)) =
              some (m.outcome I integerLogic surroundings input) := by
  intro env I
  have haccepted : (query env lastGroup [] false (.initial [])).1.isSome = true := by decide +kernel
  rcases hrun : query env lastGroup [] false (.initial []) with ⟨_ | r, t⟩
  · rw [hrun] at haccepted
    cases haccepted
  · obtain ⟨u, v, -, run, m, operators, hof, houtput, hrows⟩ := query_computes
      (integerOperators.documented_documented integerLogic) hrun (initial_sound [])
    obtain ⟨k, hlimit, hk⟩ := Option.map_eq_some_iff.mp (hof.limitLiteral _ _ rfl)
    have hone : ExactNumeric.signedValue none (.ofDigits [1]) = 1 := by
      simp [ExactNumeric.signedValue, ExactNumeric.value, ExactNumeric.digitsValue,
        ExactNumeric.fractionDigits, ExactNumeric.ofDigits]
    rw [hone, Nat.cast_eq_one] at hk
    exact ⟨r, t, rfl, m, operators, run.from_, hof.grouped.mpr (.inl (List.cons_ne_nil _ _)),
      hof.distinct.mpr rfl, hk ▸ hlimit, houtput, hrows⟩

end Mizugaki.Analyzer
