import Mizugaki.Aggregation.EngineMark
import Mizugaki.Plan.Semantics
import Mizugaki.Scoping.Reference

/-! Whether a query level aggregates. The clauses GROUP BY and HAVING activate the processor of set
functions, but the aggregate operator exists only when something was stored for it: a group key, or
a set function of HAVING, the select list or ORDER BY. An aggregation without keys makes one row,
and nothing above it makes more. -/

namespace Mizugaki.Plan

open Mizugaki.Relation

def Operator.isAggregate : Operator → Bool
  | .aggregate _ _ => true
  | _ => false

/-- The operators of clauses. -/
def Operator.isClause : Operator → Bool
  | .filter _ => true
  | .project _ => true
  | .distinct _ => true
  | .limit _ keys _ => keys.isEmpty
  | _ => false

theorem Operator.isAggregate_of_isClause {op : Operator} (h : op.isClause = true) :
    op.isAggregate = false := by
  cases op with
  | aggregate => cases h
  | _ => rfl

variable {α : Type} [DecidableEq α] {I : Interpretation α} {surroundings : Row Variable α}

/-- The operator of a clause makes no rows. -/
theorem Operator.rows_length_le {op : Operator} (hop : op.isClause = true)
    {input rows : List (Row Variable α)} (h : op.rows I surroundings input = some rows) :
    rows.length ≤ input.length := by
  cases op with
  | filter condition =>
    obtain rfl := Option.some.inj h
    exact List.length_filter_le _ _
  | project columns =>
    obtain rfl := Option.some.inj h
    exact (List.length_map _).le
  | distinct keys =>
    obtain rfl := Option.some.inj h
    exact distinctRows_length_le _ _
  | limit count keys sortKeys =>
    obtain rfl := Option.some.inj h
    obtain rfl := List.isEmpty_iff.mp hop
    exact limitRows_length_le _ _ _
  | _ => cases hop

/-- Neither do some of them. -/
theorem rowsAbove_length_le {ops : List Operator} (hops : ∀ op ∈ ops, op.isClause = true)
    {input rows : List (Row Variable α)} (h : rowsAbove I surroundings ops input = some rows) :
    rows.length ≤ input.length := by
  induction ops generalizing rows with
  | nil =>
    obtain rfl := Option.some.inj h
    exact le_rfl
  | cons op ops ih =>
    obtain ⟨hop, hrest⟩ := List.forall_mem_cons.mp hops
    obtain ⟨middle, hmiddle, hrows⟩ := Option.bind_eq_some_iff.mp h
    exact (Operator.rows_length_le hop hrows).trans (ih hrest hmiddle)

end Mizugaki.Plan

namespace Mizugaki.Analyzer

open Mizugaki.Ast Mizugaki.Plan Mizugaki.Relation Mizugaki.Control

variable {ρ : Type} {env : Environment ρ}

theorem QueryBlock.operators_isClause (b : QueryBlock) :
    ∀ op ∈ b.operators, op.isClause = true := by
  intro op hop
  simp only [operators, List.mem_append, List.mem_cons, Option.mem_toList] at hop
  obtain hop | hop | rfl | hop := hop
  · unfold limits at hop
    cases hsort : b.sort with
    | none =>
      rw [hsort] at hop
      obtain ⟨n, -, rfl⟩ := Option.map_eq_some_iff.mp (Option.mem_toList.mp hop)
      rfl
    | some s =>
      rw [hsort] at hop
      obtain rfl | hop := List.mem_cons.mp hop
      · rfl
      · rw [List.mem_singleton.mp hop]
        rfl
  · obtain ⟨keys, -, rfl⟩ := Option.map_eq_some_iff.mp hop
    rfl
  · rfl
  · obtain ⟨condition, -, rfl⟩ := Option.map_eq_some_iff.mp hop
    rfl

/-! ### The law -/

/-- The operators of a query level above its FROM and WHERE part, with exactly one aggregate
operator, below those of the clauses. Its keys are the distinct ones of GROUP BY, and without keys
there is at most one row. -/
structure AggregatesOnce (keys : List Variable) (ops : List Operator) : Prop where
  once : (ops.filter Operator.isAggregate).length = 1
  placed : ∃ (b : QueryBlock) (groupKeys : List Variable) (columns : List AggregateColumn)
    (arguments : Option (List (Variable × Scalar))),
    ops = b.operators ++ .aggregate groupKeys columns :: (arguments.map .project).toList ∧
      groupKeys.Nodup ∧ ∀ v, v ∈ groupKeys ↔ v ∈ keys
  oneRow : keys = [] → ∀ (α : Type) [DecidableEq α] (I : Interpretation α)
    (surroundings : Row Variable α) (input rows : List (Row Variable α)),
    rowsAbove I surroundings ops input = some rows → rows.length ≤ 1

/-- The operators of clauses over an aggregate operator. -/
theorem aggregatesOnce_of_operators {keys groupKeys : List Variable} (hnodup : groupKeys.Nodup)
    (hmem : ∀ v, v ∈ groupKeys ↔ v ∈ keys) (b : QueryBlock) (columns : List AggregateColumn)
    (arguments : Option (List (Variable × Scalar))) :
    AggregatesOnce keys
      (b.operators ++ .aggregate groupKeys columns :: (arguments.map .project).toList) where
  once := by
    have hclauses : b.operators.filter Operator.isAggregate = [] := by
      refine List.filter_eq_nil_iff.mpr fun op hop => ?_
      rw [Operator.isAggregate_of_isClause (b.operators_isClause op hop)]
      exact Bool.false_ne_true
    rw [List.filter_append, hclauses]
    cases arguments <;> rfl
  placed := ⟨b, groupKeys, columns, arguments, rfl, hnodup, hmem⟩
  oneRow hkeys α _ I surroundings input rows hrows := by
    have hnil : groupKeys = [] := List.eq_nil_iff_forall_not_mem.mpr fun v hv => by
      have hv := (hmem v).mp hv
      rw [hkeys] at hv
      cases hv
    subst hnil
    rw [rowsAbove_append] at hrows
    obtain ⟨one, hone, hrows⟩ := Option.bind_eq_some_iff.mp hrows
    obtain ⟨below, -, hone⟩ := Option.bind_eq_some_iff.mp hone
    obtain rfl := Option.some.inj hone
    exact (rowsAbove_length_le b.operators_isClause hrows).trans
      (aggregate_nil surroundings _ _).le

/-- An aggregate operator is needed for that. -/
theorem not_aggregatesOnce {keys : List Variable} {ops : List Operator}
    (h : ∀ op ∈ ops, op.isAggregate = false) : ¬ AggregatesOnce keys ops := by
  intro honce
  have hnone : ops.filter Operator.isAggregate = [] := List.filter_eq_nil_iff.mpr fun op hop => by
    rw [h op hop]
    exact Bool.false_ne_true
  have hlength := honce.once
  rw [hnone, List.length_nil] at hlength
  omega

/-! ### The clauses -/

variable (env) in
/-- The columns that the elements of GROUP BY designate. -/
inductive GroupColumns :
    List GroupingElement → List Variable → AnalyzerState ρ → AnalyzerState ρ → Prop
  | nil (s : AnalyzerState ρ) : GroupColumns [] [] s s
  | cons {column : ScalarExpression} {collation : Option Name} {elements : List GroupingElement}
      {v : Variable} {vs : List Variable} {s t u w : AnalyzerState ρ}
      (head : analyzeScalarExpression (scalar env column) .unspecified s
        = (some (.variableReference v, false), t))
      (clear : clearExpressionResolution env (.variableReference v) t = (some (), u))
      (tail : GroupColumns elements vs u w) :
      GroupColumns (.groupingColumn column collation :: elements) (v :: vs) s w

theorem GroupColumns.length_eq {elements : List GroupingElement} {vs : List Variable}
    {s t : AnalyzerState ρ} (h : GroupColumns env elements vs s t) :
    vs.length = elements.length := by
  induction h with
  | nil => rfl
  | cons _ _ _ ih => rw [List.length_cons, List.length_cons, ih]

theorem processGroupingElements_columns {elements : List GroupingElement}
    {p q : SetFunctionProcessor} {s t : AnalyzerState ρ}
    (h : processGroupingElements p (elements.map (groupingElement env)) s = (some q, t)) :
    ∃ keys, GroupColumns env elements keys s t ∧
      q = keys.foldl SetFunctionProcessor.addGroupKey p := by
  induction elements generalizing p s with
  | nil =>
    obtain ⟨rfl, rfl⟩ := (Check.pure_yields ..).mp h
    exact ⟨[], .nil s, rfl⟩
  | cons element elements ih =>
    obtain ⟨column, collation⟩ := element
    simp only [List.map_cons, processGroupingElements, groupingElement, processGroupingColumn,
      Check.bind_yields] at h
    obtain ⟨p', u, ⟨⟨e, saw⟩, v, he, hcolumn⟩, helements⟩ := h
    dsimp only at hcolumn
    split_ifs at hcolumn with hsaw
    · cases hcolumn
    · rw [Bool.not_eq_true] at hsaw
      subst hsaw
      simp only [Check.bind_yields] at hcolumn
      obtain ⟨_, w, hclear, hcolumn⟩ := hcolumn
      cases e with
      | variableReference key =>
        obtain ⟨rfl, rfl⟩ := (Check.pure_yields ..).mp hcolumn
        obtain ⟨keys, hkeys, rfl⟩ := ih helements
        exact ⟨key :: keys, .cons he hclear hkeys, rfl⟩
      | _ => cases hcolumn

theorem processGroupBy_columns {groupBy : Option (List GroupingElement)} {p : SetFunctionProcessor}
    {s t : AnalyzerState ρ} (h : processGroupBy (groupingClause env groupBy) s = (some p, t)) :
    p.active = groupBy.isSome ∧
      ∃ keys, GroupColumns env (groupBy.getD []) keys s t ∧ p.Grouped keys := by
  rw [groupingClause_eq] at h
  cases groupBy with
  | none =>
    obtain ⟨rfl, rfl⟩ := (Check.pure_yields ..).mp h
    exact ⟨rfl, [], .nil s, .empty rfl rfl rfl rfl⟩
  | some elements =>
    obtain ⟨keys, hkeys, rfl⟩ := processGroupingElements_columns h
    exact ⟨SetFunctionProcessor.groupBy_active keys, keys, hkeys,
      SetFunctionProcessor.groupBy_grouped keys⟩

variable (env) in
/-- The condition of HAVING calls a set function. -/
def HavingCalls (having : Option ScalarExpression) (s : AnalyzerState ρ) : Prop :=
  ∃ condition ∈ having, ∃ e saw t,
    analyzeScalarExpression (scalar env condition) .unspecified s = (some (e, saw), t) ∧
      e.hasAggregate = true

/-- What HAVING leaves of a processor. -/
structure HavingStored (env : Environment ρ) (having : Option ScalarExpression)
    (p q : SetFunctionProcessor) (s : AnalyzerState ρ) : Prop where
  active : q.active = (p.active || having.isSome)
  stored : q.aggregations.isSome = true ↔ p.aggregations.isSome = true ∨ HavingCalls env having s
  grouping : q.groupingColumns = p.groupingColumns
  keys : q.aggregationsStore.1 = p.aggregationsStore.1

theorem processHaving_stored {having : Option ScalarExpression} {p q : SetFunctionProcessor}
    {condition : Option Scalar} {s t : AnalyzerState ρ}
    (h : processHaving env (scalarOption env having) p s = (some (condition, q), t)) :
    HavingStored env having p q s := by
  cases having with
  | none =>
    rw [scalarOption] at h
    simp only [processHaving, Check.pure_yields, Prod.mk.injEq] at h
    obtain ⟨⟨-, rfl⟩, -⟩ := h
    have hcalls : ¬ HavingCalls env none s := by
      rintro ⟨a, ha, -⟩
      cases ha
    exact ⟨(Bool.or_false _).symm, (or_iff_left hcalls).symm, rfl, rfl⟩
  | some a =>
    rw [scalarOption] at h
    simp only [processHaving, Check.bind_yields, Check.pure_yields, Prod.mk.injEq] at h
    obtain ⟨⟨predicate, saw⟩, u, hpredicate, ⟨e, q'⟩, v, he, _, w, -, ⟨-, rfl⟩, -⟩ := h
    have hprocessed := processSetFunctions_processed predicate he
    have hcalls : HavingCalls env (some a) s ↔ predicate.hasAggregate = true := by
      constructor
      · rintro ⟨b, hb, e', saw', u', hrun, hhas⟩
        obtain rfl := Option.mem_some_iff.mp hb
        rw [hpredicate] at hrun
        obtain ⟨rfl, -⟩ := Prod.mk.inj (Option.some.inj (Prod.mk.inj hrun).1)
        exact hhas
      · exact fun hhas => ⟨a, rfl, predicate, saw, u, hpredicate, hhas⟩
    refine ⟨?_, ?_, hprocessed.grows.grouping, hprocessed.grows.keys⟩
    · rw [hprocessed.grows.active rfl, Option.isSome_some, Bool.or_true]
    · rw [hprocessed.stored, hcalls, Bool.or_eq_true]
      rfl

/-- What a processor installs of a grouped query. -/
theorem SetFunctionProcessor.installed_law {p : SetFunctionProcessor} {keys : List Variable}
    (hstore : p.aggregationsStore.1 = p.groupingColumns) (hnodup : p.groupingColumns.Nodup)
    (hmem : ∀ v, v ∈ p.groupingColumns ↔ v ∈ keys) (b : QueryBlock) :
    AggregatesOnce keys (b.operators ++ p.installed) ↔ p.aggregations.isSome = true := by
  unfold installed
  cases haggregations : p.aggregations with
  | none =>
    refine iff_of_false (not_aggregatesOnce fun op hop => ?_) Bool.false_ne_true
    obtain hop | hop := List.mem_append.mp hop
    · exact Operator.isAggregate_of_isClause (b.operators_isClause op hop)
    · obtain ⟨columns, -, rfl⟩ := Option.map_eq_some_iff.mp (Option.mem_toList.mp hop)
      rfl
  | some store =>
    rw [aggregationsStore, haggregations] at hstore
    have hkeys : store.1 = p.groupingColumns := hstore
    refine iff_of_true ?_ rfl
    have hlaw := aggregatesOnce_of_operators hnodup hmem b store.2 p.arguments
    rwa [← hkeys] at hlaw

theorem activateFor_grouping {l : SelectList} {sort : Option SortList} {q : SetFunctionProcessor} :
    (activateFor l sort q).groupingColumns = q.groupingColumns := by
  unfold activateFor
  split_ifs <;> rfl

/-! ### Queries -/

/-- A query level has its one aggregate operator exactly when GROUP BY has a column, or a set
function is called in HAVING, the select list or ORDER BY. -/
theorem query_aggregatesOnce_iff {quantifier : Option Ast.SetQuantifier}
    {elements : List SelectElement} {from_ : List TableExpression}
    {where_ having limit : Option ScalarExpression} {groupBy : Option (List GroupingElement)}
    {orderBy : List SortElement} {context : List ScalarValueContext} {continueScope : Bool}
    {s t : AnalyzerState ρ} {r : QueryResult}
    (h : query env (.query quantifier elements from_ where_ groupBy having orderBy limit)
      context continueScope s = (some r, t)) :
    ∃ u v, (u = s ∨ u = s.enter .empty) ∧
      ∃ run : QueryRun env (queryClauses env quantifier elements from_ where_ groupBy having
        orderBy limit) u v r, ∃ keys ops,
      GroupColumns env (groupBy.getD []) keys run.afterWhere run.afterGroupBy ∧
      r.output = ops.foldr Graph.unary run.entry ∧
      (AggregatesOnce keys ops ↔
        groupBy.getD [] ≠ [] ∨ HavingCalls env having run.afterGroupBy ∨
          hasAggregateBindings run.select.columns = true ∨
          hasAggregateBindings (sortColumns run.sort) = true) := by
  obtain ⟨u, v, ⟨run⟩, hu⟩ := query_run h
  obtain ⟨hactive, keys, hcolumns, hgrouped⟩ := processGroupBy_columns run.groupByRun
  have hhaving := processHaving_stored run.havingRun
  obtain ⟨hsaw, -⟩ := processSelect_marked (selectElements_marks env elements) run.selectRun
  obtain ⟨hsortSaw, -⟩ := processOrderBy_marked
    (fun spec hspec => (sortElements_marks env orderBy spec hspec)) run.orderByRun
  obtain ⟨hstore, -, -⟩ := activateFor_aggregations run.select run.sort run.filtered
  have hkeys : keys ≠ [] ↔ groupBy.getD [] ≠ [] := by
    rw [← List.length_pos_iff, hcolumns.length_eq, List.length_pos_iff]
  obtain ⟨hinactive, -, houtput⟩ | ⟨-, w, i, -, houtput⟩ :=
    installSetFunctions_yields run.installRun
  · refine ⟨u, v, hu, run, keys, _, hcolumns, houtput, iff_of_false ?_ ?_⟩
    · exact not_aggregatesOnce fun op hop =>
        Operator.isAggregate_of_isClause (QueryBlock.operators_isClause _ op hop)
    · rw [activateFor_active, hhaving.active, hactive, hsaw, hsortSaw] at hinactive
      simp only [Bool.or_eq_false_iff, Option.isSome_eq_false_iff,
        Option.isNone_iff_eq_none] at hinactive
      obtain ⟨⟨rfl, rfl⟩, hselect, hsort⟩ := hinactive
      rintro (hne | ⟨a, ha, -⟩ | hcalls | hcalls)
      · exact hne rfl
      · cases ha
      · exact Bool.false_ne_true (hselect.symm.trans hcalls)
      · exact Bool.false_ne_true (hsort.symm.trans hcalls)
  · refine ⟨u, v, hu, run, keys, _, hcolumns, houtput, ?_⟩
    have hgrouping : i.processor.groupingColumns = run.grouped.groupingColumns := by
      rw [i.processed.grows.grouping, activateFor_grouping, hhaving.grouping]
    have hfirst : i.processor.aggregationsStore.1 = run.grouped.aggregationsStore.1 := by
      rw [i.processed.grows.keys, SetFunctionProcessor.aggregationsStore, hstore]
      exact hhaving.keys
    have hlaw := i.processor.installed_law (by rw [hfirst, hgrouped.storeKeys, hgrouping])
      (hgrouping ▸ hgrouped.nodup) (fun v => hgrouping ▸ hgrouped.mem v) i.block
    refine hlaw.trans ?_
    rw [i.processed.stored, hstore, Bool.or_eq_true, Bool.or_eq_true, hhaving.stored,
      hgrouped.stored, hkeys, or_assoc]

/-- `SELECT element FROM t GROUP BY groupBy`. -/
def selectGrouped (element : ScalarExpression) (groupBy : List GroupingElement) : QueryExpression :=
  .query none [.selectColumn element none] [.tableReference false (.simple ⟨"t", .delimited⟩) none]
    none (some groupBy) none [] none

/-- `SELECT c FROM t GROUP BY c` has its aggregate operator. -/
theorem aggregatesOnce_column :
    let env := Environment.ofSchema (.ofTables [singleTable] [])
    let column := ScalarExpression.variableReference (.simple ⟨"c", .delimited⟩)
    ∃ r t, query env (selectGrouped column [.groupingColumn column none]) [] false (.initial [])
        = (some r, t) ∧
      ∃ keys ops entry, r.output = ops.foldr Graph.unary entry ∧ keys.length = 1 ∧
        AggregatesOnce keys ops := by
  intro env column
  have hrun : ∃ r t, query env (selectGrouped column [.groupingColumn column none]) [] false
      (.initial []) = (some r, t) := ⟨_, _, rfl⟩
  obtain ⟨r, t, hrun⟩ := hrun
  obtain ⟨u, v, -, run, keys, ops, hkeys, houtput, hiff⟩ := query_aggregatesOnce_iff hrun
  exact ⟨r, t, hrun, keys, ops, run.entry, houtput, hkeys.length_eq,
    hiff.mpr (.inl (List.cons_ne_nil _ _))⟩

/-- `SELECT 1 FROM t GROUP BY ()` has none: each row of the table makes a row. -/
theorem aggregatesOnce_grandTotal :
    let env := Environment.ofSchema (.ofTables [singleTable] [])
    let one := ScalarExpression.literalExpression (.exactNumeric none (.ofDigits [1]))
    ∃ r t columns entry, query env (selectGrouped one []) [] false (.initial []) = (some r, t) ∧
      r.output = [Operator.project columns].foldr Graph.unary entry ∧
      (∀ op ∈ r.output.operators, op.isAggregate = false) ∧
      (∀ keys, ¬ AggregatesOnce keys [.project columns]) ∧
      ∀ (α : Type) [DecidableEq α] (I : Interpretation α) (surroundings row : Row Variable α),
        ∃ rows, rowsAbove I surroundings [.project columns] [row, row] = some rows ∧
          rows.length = 2 := by
  intro env one
  refine ⟨_, _, _, _, rfl, rfl, ?_, fun keys => ?_, fun α _ I surroundings row => ⟨_, rfl, rfl⟩⟩
  · exact List.forall_mem_cons.mpr ⟨rfl, List.forall_mem_singleton.mpr rfl⟩
  · exact not_aggregatesOnce (List.forall_mem_singleton.mpr rfl)

end Mizugaki.Analyzer
