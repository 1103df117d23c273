import Mizugaki.Aggregation.Block
import Mizugaki.Aggregation.ScalarMark
import Mizugaki.Analyzer.Found

/-! The mark of set functions, over the functions of the query analyzer. A query keeps the mark
of the expression it stands in. Its own expressions are checked or go through the set function
processor, but for rows of values and arguments of an APPLY. -/

namespace Mizugaki.Plan

/-- An operator without expressions that stands for no other graph. -/
theorem Operator.Confined.of_nil {op : Operator} (he : op.expressions = [])
    (hn : op.nested = []) : op.Confined :=
  ⟨fun _ e h => (by rw [he] at h; cases h), fun n h => (by rw [hn] at h; cases h)⟩

theorem Operator.filter_confined {e : Scalar} (h : e.Confined) :
    (Operator.filter e).Confined := by
  refine .of_expressions rfl fun e' he => ?_
  rw [List.mem_singleton.mp he]
  exact h

theorem hasAggregateBindings_eq_false {columns : List (Variable × Scalar)} :
    hasAggregateBindings columns = false ↔ ∀ c ∈ columns, c.2.hasAggregate = false := by
  induction columns with
  | nil => simp [hasAggregateBindings]
  | cons c columns ih => simp [hasAggregateBindings, ih]

theorem hasAggregateBindings_append (as bs : List (Variable × Scalar)) :
    hasAggregateBindings (as ++ bs) = (hasAggregateBindings as || hasAggregateBindings bs) := by
  induction as with
  | nil => rfl
  | cons a as ih => rw [List.cons_append, hasAggregateBindings, hasAggregateBindings, ih, Bool.or_assoc]

theorem Operator.project_confined {columns : List (Variable × Scalar)}
    (h : hasAggregateBindings columns = false)
    (hn : ∀ n ∈ subqueriesBindings columns, n.Confined) :
    (Operator.project columns).Confined := by
  refine .of_expressions rfl fun e he => ?_
  obtain ⟨c, hc, rfl⟩ := List.mem_map.mp he
  exact ⟨hasAggregateBindings_eq_false.mp h c hc, fun n hmem =>
    hn n (mem_subqueriesBindings.mpr ⟨c, hc, hmem⟩)⟩

/-- Operators stacked on a graph. -/
theorem Graph.Confined.stack {ops : List Operator} {g : Graph}
    (hops : ∀ op ∈ ops, op.Confined) (hg : g.Confined) :
    (ops.foldr Graph.unary g).Confined := by
  induction ops with
  | nil => exact hg
  | cons op ops ih =>
    obtain ⟨hop, hops⟩ := List.forall_mem_cons.mp hops
    exact .unary hop (ih hops)

end Mizugaki.Plan

namespace Mizugaki.Analyzer

open Mizugaki.Ast Mizugaki.Plan Mizugaki.Control

variable {ρ : Type} {env : Environment ρ}

abbrev TableMarks (m : Analysis ρ Graph) : Prop := GraphMarks (fun g => g) m

def JoinMarks (j : JoinAction ρ) : Prop :=
  ∀ ⦃pivot s t e⦄, j pivot s = (some e, t) →
    e.hasAggregate = false ∧ Marked false e.subqueries s t

/-- An analysis of a grouping element adds a group key. -/
def GroupingMarks (g : GroupingAction ρ) : Prop :=
  ∀ ⦃q s r t⦄, g q s = (some r, t) →
    (∃ key, r = q.addGroupKey key) ∧ Marked false [] s t

/-- An analysis that adds columns: their set functions are remembered. -/
structure ColumnsMarked (before after : List (Variable × Scalar)) (saw saw' : Bool)
    (s t : AnalyzerState ρ) : Prop where
  added : ∃ columns, after = before ++ columns ∧ saw' = (saw || hasAggregateBindings columns) ∧
    Marked false (subqueriesBindings columns) s t

def SelectMarks (a : SelectAction ρ) : Prop :=
  ∀ ⦃l s l' t⦄, a l s = (some l', t) →
    ColumnsMarked l.columns l'.columns l.sawAggregate l'.sawAggregate s t

namespace ColumnsMarked

theorem nil {columns : List (Variable × Scalar)} {saw : Bool} (s : AnalyzerState ρ) :
    ColumnsMarked columns columns saw saw s s :=
  ⟨[], (List.append_nil _).symm, (Bool.or_false _).symm, .of_quiet (Check.Frame.refl s)⟩

theorem trans {xs ys zs : List (Variable × Scalar)} {a b e : Bool} {s t u : AnalyzerState ρ}
    (h : ColumnsMarked xs ys a b s t) (k : ColumnsMarked ys zs b e t u) :
    ColumnsMarked xs zs a e s u := by
  obtain ⟨cs, rfl, rfl, hcs⟩ := h
  obtain ⟨ds, rfl, rfl, hds⟩ := k
  refine ⟨cs ++ ds, List.append_assoc .., ?_, ?_⟩
  · rw [hasAggregateBindings_append, Bool.or_assoc]
  · rw [subqueriesBindings_append]
    exact hcs.trans hds

end ColumnsMarked

/-! ### References -/

theorem processRelationReference_marks (relation : Name) :
    GraphMarks QueryResult.output (processRelationReference env relation) := by
  intro s t result h
  have hquiet : Quiet _ _ := processRelationReference_quiet env relation h
  simp only [processRelationReference, Check.bind_yields] at h
  obtain ⟨found, u, hfound, h⟩ := h
  have hfree : ConfinedQueries s → result.output.Confined := by
    intro hs
    cases found with
    | table declaration =>
      simp only [processTableReference, Check.bind_yields] at h
      obtain ⟨info, v, -, h⟩ := h
      cases hindex : info.primaryIndex with
      | none =>
        rw [hindex] at h
        cases h
      | some index =>
        simp only [hindex, Check.bind_yields, Check.pure_yields] at h
        obtain ⟨_, w, -, rfl, -⟩ := h
        exact .source (.of_nil rfl rfl)
    | query q =>
      simp only [processQueryReference, Check.bind_yields, Check.pure_yields] at h
      obtain ⟨vs, v, -, _, w, -, rfl, -⟩ := h
      obtain ⟨scope, hscope, name, hq⟩ := analyzeRelationName_query hfound
      refine .source ⟨fun _ e he => (by cases he), fun n hn => ?_⟩
      rw [List.mem_singleton.mp hn]
      exact hs scope hscope name q hq
  exact { Marked.of_quiet hquiet with
    graphs := fun hs n hn => by
      rw [List.mem_singleton.mp hn]
      exact hfree hs }

theorem addRelation_marked {info : RelationInfo} {s t : AnalyzerState ρ} {u : Unit}
    (h : addRelation info s = (some u, t)) : Marked false [] s t :=
  modifyScope_marked (fun scope => by rfl) h

theorem processTableExpressionReference_marks (name : Name) (correlation : Option CorrelationClause) :
    TableMarks (processTableExpressionReference env name correlation) := by
  intro s t g h
  simp only [processTableExpressionReference, Check.bind_yields, Check.pure_yields] at h
  obtain ⟨result, u, hresult, info, v, hinfo, _, w, hadd, rfl, rfl⟩ := h
  have hgraph := (processRelationReference_marks name hresult).trans_quiet
    (correlate_quiet env _ _ hinfo)
  exact hgraph.trans (addRelation_marked hadd)

theorem processTableSubquery_marks {query : QueryAction ρ} (h : QueryMarks query) (isLateral : Bool)
    (correlation : CorrelationClause) :
    TableMarks (processTableSubquery env isLateral query correlation) := by
  intro s t g hrun
  cases isLateral with
  | true => cases hrun
  | false =>
    simp only [processTableSubquery, Bool.false_eq_true, if_false, Check.bind_yields,
      Check.pure_yields] at hrun
    obtain ⟨⟨result, left⟩, u, hquery, info, v, hinfo, _, w, hadd, rfl, rfl⟩ := hrun
    have hgraph := (withScope_marked (h [] false) rfl hquery).trans_quiet
      (rebuildRelationInfo_quiet env _ _ hinfo)
    exact hgraph.trans (addRelation_marked hadd)

/-! ### Joins -/

theorem processJoinCondition_marks {condition : ScalarAction ρ} (h : ActionMarks condition) :
    JoinMarks (processJoinCondition condition) := by
  intro pivot s t e hrun
  simp only [processJoinCondition, Check.bind_yields] at hrun
  obtain ⟨⟨e', sawAggregate⟩, u, he, hrun⟩ := hrun
  obtain ⟨rfl, hmarked⟩ := analyzeScalarExpression_marked h he
  dsimp only at hrun
  split_ifs at hrun with hsaw
  · cases hrun
  · obtain ⟨rfl, rfl⟩ := (Check.pure_yields ..).mp hrun
    exact ⟨Bool.eq_false_iff.mpr hsaw, hmarked⟩

/-- A comparison of columns, without set functions and subqueries. -/
def Bare (e : Scalar) : Prop := e.hasAggregate = false ∧ e.subqueries = []

theorem processUsingColumn_marked {pivot : Nat} {name : SimpleName} {s t : AnalyzerState ρ}
    {e : Scalar} (h : processUsingColumn env pivot name s = (some e, t)) :
    Bare e ∧ Marked false [] s t := by
  simp only [processUsingColumn, Check.bind_yields, currentScope_yields, Check.pure_yields] at h
  obtain ⟨_, _, ⟨rfl, rfl⟩, l, u, hl, r, v, hr, _, w, hhide, rfl, rfl⟩ := h
  refine ⟨⟨rfl, rfl⟩, ?_⟩
  exact .quiet_trans (usingColumn_quiet _ _ _ hl) (.quiet_trans (usingColumn_quiet _ _ _ hr)
    (modifyScope_marked (fun scope => by rfl) hhide))

theorem processUsingColumns_marked {pivot : Nat} {names : List SimpleName} {result : Scalar}
    (hresult : Bare result) {s t : AnalyzerState ρ} {e : Scalar}
    (h : processUsingColumns env pivot result names s = (some e, t)) :
    Bare e ∧ Marked false [] s t := by
  induction names generalizing result s with
  | nil =>
    obtain ⟨rfl, rfl⟩ := (Check.pure_yields ..).mp h
    exact ⟨hresult, .of_quiet (Check.Frame.refl s)⟩
  | cons name names ih =>
    simp only [processUsingColumns, Check.bind_yields] at h
    obtain ⟨term, u, hterm, h⟩ := h
    obtain ⟨⟨hhas, hnodes⟩, hmarked⟩ := processUsingColumn_marked hterm
    have hand : Bare (.binary .conditionalAnd result term) :=
      ⟨by rw [Scalar.hasAggregate, hresult.1, hhas]; rfl,
        by rw [Scalar.subqueries, hresult.2, hnodes]; rfl⟩
    obtain ⟨hbare, hrest⟩ := ih hand h
    exact ⟨hbare, hmarked.trans hrest⟩

theorem processJoinColumns_marks (columns : List SimpleName) :
    JoinMarks (processJoinColumns env columns) := by
  intro pivot s t e h
  cases columns with
  | nil => cases h
  | cons name names =>
    simp only [processJoinColumns, Check.bind_yields, Check.pure_yields] at h
    obtain ⟨first, u, hfirst, result, v, hresult, _, w, hresolve, rfl, rfl⟩ := h
    obtain ⟨hbare, hmarked⟩ := processUsingColumn_marked hfirst
    obtain ⟨⟨hhas, hnodes⟩, hrest⟩ := processUsingColumns_marked hbare hresult
    rw [hnodes]
    exact ⟨hhas, (hmarked.trans hrest).trans_quiet (resolve_quiet env _ _ hresolve)⟩

theorem join_confined {kind : JoinKind} {condition : Option Scalar}
    (h : hasAggregateOption condition = false)
    (hn : ∀ n ∈ subqueriesOption condition, n.Confined) :
    (Operator.join kind condition).Confined := by
  cases condition with
  | none => exact .of_nil rfl rfl
  | some e =>
    refine .of_expressions rfl fun e' he => ?_
    rw [List.mem_singleton.mp he]
    exact ⟨h, hn⟩

theorem processJoin_marks {left right : Analysis ρ Graph} (hl : TableMarks left)
    (hr : TableMarks right) {specification : Option (JoinAction ρ)}
    (hs : ∀ j ∈ specification, JoinMarks j) (kind : JoinKind) (natural transpose : Bool) :
    TableMarks (processJoin env kind natural transpose left right specification) := by
  intro s t g h
  simp only [processJoin, Check.bind_yields, currentScope_yields] at h
  obtain ⟨l, u₁, hleft, _, _, ⟨rfl, rfl⟩, r, u₂, hright, h⟩ := h
  have hoperands := (hl hleft).trans (hr hright)
  cases natural with
  | true => cases specification <;> cases h
  | false =>
    simp only [Bool.false_eq_true, if_false, Check.bind_yields, Check.pure_yields] at h
    obtain ⟨condition, u₃, hcondition, _, u₄, hresolve, rfl, rfl⟩ := h
    have hspecification : hasAggregateOption condition = false ∧
        Marked false (subqueriesOption condition) u₂ u₃ := by
      cases specification with
      | none =>
        obtain ⟨rfl, rfl⟩ := (Check.pure_yields ..).mp hcondition
        exact ⟨rfl, .of_quiet (Check.Frame.refl _)⟩
      | some j =>
        simp only [processSpecification, Check.bind_yields, Check.pure_yields] at hcondition
        obtain ⟨e, v, he, rfl, rfl⟩ := hcondition
        exact hs j rfl he
    obtain ⟨hhas, hnodes⟩ := hspecification
    refine ((hoperands.trans hnodes).trans_quiet (resolveOperator_quiet env _ rfl hresolve)).graph
      fun hall => ?_
    obtain ⟨hoperands, hall⟩ := List.forall_mem_append.mp hall
    obtain ⟨hlfree, hrfree⟩ := List.forall_mem_append.mp hoperands
    have hop : (Operator.join kind _).Confined := join_confined hhas hall
    cases transpose with
    | true => exact .binary hop (hrfree _ List.mem_cons_self) (hlfree _ List.mem_cons_self)
    | false => exact .binary hop (hlfree _ List.mem_cons_self) (hrfree _ List.mem_cons_self)

theorem processJoinExpression_marks {left right : Analysis ρ Graph} (hl : TableMarks left)
    (hr : TableMarks right) {specification : Option (JoinAction ρ)}
    (hs : ∀ j ∈ specification, JoinMarks j) (type : JoinType) :
    TableMarks (processJoinExpression env type left right specification) := by
  unfold processJoinExpression
  cases convertJoinType type with
  | none =>
    intro s t g h
    cases h
  | some converted => exact processJoin_marks hl hr hs ..

/-! ### Apply -/

theorem analyzeApplyArguments_marked {arguments : List (ScalarAction ρ)}
    (h : ListMarks arguments) {s t : AnalyzerState ρ} {args : List (Scalar × TypeData)}
    (hrun : analyzeApplyArguments env arguments s = (some args, t)) :
    Marked false (subqueriesList (args.map Prod.fst)) s t := by
  induction arguments generalizing s args with
  | nil =>
    obtain ⟨rfl, rfl⟩ := (Check.pure_yields ..).mp hrun
    exact .of_quiet (Check.Frame.refl s)
  | cons a as ih =>
    obtain ⟨ha, has⟩ := List.forall_mem_cons.mp h
    simp only [analyzeApplyArguments, Check.bind_yields, Check.pure_yields] at hrun
    obtain ⟨⟨value, saw⟩, u, hvalue, type, v, htype, rest, w, hrest, rfl, rfl⟩ := hrun
    obtain ⟨-, hmarked⟩ := analyzeScalarExpression_marked ha hvalue
    exact hmarked.trans (.quiet_trans (resolve_quiet env _ _ htype) (ih has hrest))

theorem processApply_marks {operand : Analysis ρ Graph} (ho : TableMarks operand)
    {arguments : List (ScalarAction ρ)} (ha : ListMarks arguments) (type : Option ApplyType)
    (name : Name) (correlation : CorrelationClause) :
    TableMarks (processApply env operand type name arguments correlation) := by
  intro s t g h
  simp only [processApply, Check.bind_yields] at h
  obtain ⟨input, u₁, hinput, args, u₂, hargs, functions, u₃, hfunctions, h⟩ := h
  have hall := ((ho hinput).trans (analyzeApplyArguments_marked ha hargs)).trans_quiet
    (analyzeFunctionName_quiet env _ _ hfunctions)
  generalize applicableTableFunctions env (args.map Prod.snd) functions = candidates at h
  cases candidates with
  | nil => cases h
  | cons candidate rest =>
    simp only [Check.bind_yields, Check.pure_yields] at h
    obtain ⟨target, u₄, htarget, returned, u₅, hreturned, vs, u₆, hvs, names, u₇, hnames, _, u₈, hadd,
      _, u₉, hresolve, rfl, rfl⟩ := h
    have hquiet : Quiet _ _ := Check.Frame.trans (resolveOverload_quiet env _ _ _ htarget)
      (Check.Frame.trans (returnedColumns_quiet _ hreturned)
        (Check.Frame.trans (streamVariables_quiet _ hvs) (applyColumnNames_quiet env _ _ _ hnames)))
    have hend := ((hall.trans_quiet hquiet).trans (addRelation_marked hadd)).trans_quiet
      (resolveOperator_quiet env _ rfl hresolve)
    rw [List.append_nil] at hend
    refine hend.graph fun hnodes => ?_
    obtain ⟨hinput, hargs⟩ := List.forall_mem_append.mp hnodes
    refine .unary (.of_unchecked rfl fun n hn => ?_) (hinput _ List.mem_cons_self)
    obtain ⟨e, he, hn⟩ := List.mem_flatMap.mp hn
    exact hargs n (mem_subqueriesList.mpr ⟨e, he, hn⟩)

/-! ### FROM and WHERE -/

theorem processFromElements_marks {elements : List (Analysis ρ Graph)}
    (h : ∀ m ∈ elements, TableMarks m) {output : Graph} {s t : AnalyzerState ρ} {g : Graph}
    (hrun : processFromElements env output elements s = (some g, t)) :
    Marked false [] s t ∧
      (ConfinedQueries s → output.Confined → g.Confined) := by
  induction elements generalizing output s with
  | nil =>
    obtain ⟨rfl, rfl⟩ := (Check.pure_yields ..).mp hrun
    exact ⟨.of_quiet (Check.Frame.refl s), fun _ hg => hg⟩
  | cons element elements ih =>
    obtain ⟨helement, helements⟩ := List.forall_mem_cons.mp h
    simp only [processFromElements, Check.bind_yields] at hrun
    obtain ⟨next, u, hnext, _, v, hresolve, hrun⟩ := hrun
    have hfirst := (helement hnext).trans_quiet (resolveOperator_quiet env _ rfl hresolve)
    obtain ⟨hmarked, hfree⟩ := ih helements hrun
    refine ⟨(hfirst.trans hmarked).congr rfl (List.nil_subset _), fun hs hg => ?_⟩
    refine hfree (hfirst.queries hs) (.binary (.of_nil rfl rfl) hg ?_)
    exact hfirst.graphs hs _ List.mem_cons_self

theorem processFromClause_marks {elements : List (Analysis ρ Graph)}
    (h : ∀ m ∈ elements, TableMarks m) : TableMarks (processFromClause env elements) := by
  intro s t g hrun
  cases elements with
  | nil =>
    simp only [processFromClause, Check.bind_yields, Check.pure_yields] at hrun
    obtain ⟨_, u, hresolve, _, v, hadd, rfl, rfl⟩ := hrun
    refine (Marked.quiet_trans (resolveOperator_quiet env _ rfl hresolve) (addRelation_marked hadd)).graph
      fun _ => .source (.of_nil rfl rfl)
  | cons element elements =>
    obtain ⟨helement, helements⟩ := List.forall_mem_cons.mp h
    simp only [processFromClause, Check.bind_yields] at hrun
    obtain ⟨output, u, houtput, hrun⟩ := hrun
    have hfirst := helement houtput
    obtain ⟨hmarked, hfree⟩ := processFromElements_marks helements hrun
    have hall := hfirst.trans hmarked
    exact
      { hall with
        graphs := fun hs n hn => by
          rw [List.mem_singleton.mp hn]
          exact hfree (hfirst.queries hs) (hfirst.graphs hs _ List.mem_cons_self) }

theorem processWhere_marks {where_ : Option (ScalarAction ρ)}
    (h : ∀ a ∈ where_, ActionMarks a) {from_ : Graph} {s t : AnalyzerState ρ} {g : Graph}
    (hrun : processWhere env where_ from_ s = (some g, t)) :
    Marked false [] s t ∧
      (ConfinedQueries s → from_.Confined → g.Confined) := by
  cases where_ with
  | none =>
    obtain ⟨rfl, rfl⟩ := (Check.pure_yields ..).mp hrun
    exact ⟨.of_quiet (Check.Frame.refl s), fun _ hg => hg⟩
  | some a =>
    simp only [processWhere, Check.bind_yields] at hrun
    obtain ⟨⟨predicate, sawAggregate⟩, u, hpredicate, hrun⟩ := hrun
    obtain ⟨rfl, hmarked⟩ := analyzeScalarExpression_marked (h a rfl) hpredicate
    dsimp only at hrun
    split_ifs at hrun with hsaw
    · cases hrun
    · simp only [Check.bind_yields, Check.pure_yields] at hrun
      obtain ⟨_, v, hresolve, rfl, rfl⟩ := hrun
      have hall := hmarked.trans_quiet (resolveOperator_quiet env _ rfl hresolve)
      refine ⟨hall.congr rfl (List.nil_subset _), fun hs hg => .unary ?_ hg⟩
      exact Operator.filter_confined ⟨Bool.eq_false_iff.mpr hsaw, hall.graphs hs⟩

/-! ### GROUP BY and HAVING -/

theorem processGroupingColumn_marks {column : ScalarAction ρ} (h : ActionMarks column) :
    GroupingMarks (processGroupingColumn env column) := by
  intro q s t r hrun
  simp only [processGroupingColumn, Check.bind_yields] at hrun
  obtain ⟨⟨e, sawAggregate⟩, u, he, hrun⟩ := hrun
  obtain ⟨-, hmarked⟩ := analyzeScalarExpression_marked h he
  dsimp only at hrun
  split_ifs at hrun
  · cases hrun
  · simp only [Check.bind_yields] at hrun
    obtain ⟨_, v, hclear, hrun⟩ := hrun
    cases e with
    | variableReference column =>
      obtain ⟨rfl, rfl⟩ := (Check.pure_yields ..).mp hrun
      exact ⟨⟨column, rfl⟩, (hmarked.trans_quiet
        (clearExpressionResolution_quiet env _ hclear)).congr rfl (List.nil_subset _)⟩
    | _ => cases hrun

theorem processGroupingElements_marked {elements : List (GroupingAction ρ)}
    (h : ∀ g ∈ elements, GroupingMarks g) {q r : SetFunctionProcessor} {s t : AnalyzerState ρ}
    (hrun : processGroupingElements q elements s = (some r, t)) :
    (∃ keys : List Variable, keys.length = elements.length ∧
        r = keys.foldl SetFunctionProcessor.addGroupKey q) ∧
      Marked false [] s t := by
  induction elements generalizing q s with
  | nil =>
    obtain ⟨rfl, rfl⟩ := (Check.pure_yields ..).mp hrun
    exact ⟨⟨[], rfl, rfl⟩, .of_quiet (Check.Frame.refl s)⟩
  | cons element elements ih =>
    obtain ⟨helement, helements⟩ := List.forall_mem_cons.mp h
    simp only [processGroupingElements, Check.bind_yields] at hrun
    obtain ⟨q', u, hq, hrun⟩ := hrun
    obtain ⟨⟨key, rfl⟩, hmarked⟩ := helement hq
    obtain ⟨⟨keys, hlength, rfl⟩, hrest⟩ := ih helements hrun
    exact ⟨⟨key :: keys, congrArg Nat.succ hlength, rfl⟩, hmarked.trans hrest⟩

/-- GROUP BY makes a processor of its keys, one for each element. -/
theorem processGroupBy_marked {groupBy : Option (List (GroupingAction ρ))}
    (h : ∀ es ∈ groupBy, ∀ g ∈ es, GroupingMarks g) {r : SetFunctionProcessor}
    {s t : AnalyzerState ρ} (hrun : processGroupBy groupBy s = (some r, t)) :
    r.active = groupBy.isSome ∧
      (∃ keys : List Variable, keys.length = (groupBy.getD []).length ∧ r.Grouped keys) ∧
      Marked false [] s t := by
  cases groupBy with
  | none =>
    obtain ⟨rfl, rfl⟩ := (Check.pure_yields ..).mp hrun
    exact ⟨rfl, ⟨[], rfl, .empty rfl rfl rfl rfl⟩, .of_quiet (Check.Frame.refl s)⟩
  | some elements =>
    obtain ⟨⟨keys, hlength, rfl⟩, hmarked⟩ := processGroupingElements_marked (h elements rfl) hrun
    exact ⟨SetFunctionProcessor.groupBy_active keys, ⟨keys, hlength,
      SetFunctionProcessor.groupBy_grouped keys⟩, hmarked⟩

/-- A set function that was left in the condition of HAVING is out of it. -/
structure HavingMarked (condition : Option Scalar) (q r : SetFunctionProcessor)
    (s t : AnalyzerState ρ) : Prop where
  plain : hasAggregateOption condition = false
  marked : ∃ nodes, Marked false nodes s t ∧ subqueriesOption condition ⊆ nodes ∧
    subqueriesBindings r.argumentColumns ⊆ subqueriesBindings q.argumentColumns ++ nodes

theorem processHaving_marked {having : Option (ScalarAction ρ)}
    (h : ∀ a ∈ having, ActionMarks a) {q r : SetFunctionProcessor} {condition : Option Scalar}
    {s t : AnalyzerState ρ} (hrun : processHaving env having q s = (some (condition, r), t)) :
    HavingMarked condition q r s t := by
  cases having with
  | none =>
    simp only [processHaving, Check.pure_yields, Prod.mk.injEq] at hrun
    obtain ⟨⟨rfl, rfl⟩, rfl⟩ := hrun
    exact ⟨rfl, [], .of_quiet (Check.Frame.refl s), List.nil_subset _, List.subset_append_left _ _⟩
  | some a =>
    simp only [processHaving, Check.bind_yields, Check.pure_yields, Prod.mk.injEq] at hrun
    obtain ⟨⟨predicate, saw⟩, u, hpredicate, ⟨e, r'⟩, v, he, _, w, hresolve, ⟨rfl, rfl⟩, rfl⟩ := hrun
    obtain ⟨-, hmarked⟩ := analyzeScalarExpression_marked (h a rfl) hpredicate
    have hprocessed := processSetFunctions_processed predicate he
    refine ⟨hprocessed.plain, predicate.subqueries, ?_, hprocessed.nested, hprocessed.movedNodes⟩
    exact (hmarked.trans_quiet hprocessed.quiet).trans_quiet (resolveOperator_quiet env _ rfl hresolve)

/-! ### The select list and ORDER BY -/

theorem processSelectColumn_marks {action : ScalarAction ρ} (h : ActionMarks action)
    (value : ScalarExpression) (name : Option SimpleName) :
    SelectMarks (processSelectColumn env value action name) := by
  intro l s l' t hrun
  simp only [processSelectColumn, Check.bind_yields, Check.pure_yields] at hrun
  obtain ⟨⟨e, sawAggregate⟩, u, he, v, w, hv, rfl, rfl⟩ := hrun
  obtain ⟨rfl, hmarked⟩ := analyzeScalarExpression_marked h he
  refine ⟨[(v, e)], rfl, by simp [hasAggregateBindings], ?_⟩
  exact (hmarked.trans_quiet (streamVariable_quiet hv)).congr rfl (by simp [subqueriesBindings])

theorem processSelectAsterisk_marks (qualifier : Option ScalarExpression) :
    SelectMarks (processSelectAsterisk env qualifier : SelectAction ρ) := by
  intro l s l' t hrun
  cases qualifier with
  | none =>
    simp only [processSelectAsterisk, Check.bind_yields, currentScope_yields] at hrun
    obtain ⟨_, _, ⟨rfl, rfl⟩, hrun⟩ := hrun
    generalize s.scope.relations.flatMap RelationInfo.exportedColumns = columns at hrun
    cases columns with
    | nil => cases hrun
    | cons column columns =>
      obtain ⟨rfl, rfl⟩ := (Check.pure_yields ..).mp hrun
      exact .nil s
  | some q =>
    cases q with
    | variableReference name =>
      simp only [processSelectAsterisk, Check.bind_yields, Check.pure_yields] at hrun
      obtain ⟨found, u, hfound, rfl, rfl⟩ := hrun
      refine ⟨[], (List.append_nil _).symm, (Bool.or_false _).symm, ?_⟩
      exact .of_quiet (analyzeRelationInfoName_quiet env _ hfound)
    | _ => cases hrun

theorem processSelectElements_marked {elements : List (SelectAction ρ)}
    (h : ∀ a ∈ elements, SelectMarks a) {l l' : SelectList} {s t : AnalyzerState ρ}
    (hrun : processSelectElements l elements s = (some l', t)) :
    ColumnsMarked l.columns l'.columns l.sawAggregate l'.sawAggregate s t := by
  induction elements generalizing l s with
  | nil =>
    obtain ⟨rfl, rfl⟩ := (Check.pure_yields ..).mp hrun
    exact .nil s
  | cons element elements ih =>
    obtain ⟨helement, helements⟩ := List.forall_mem_cons.mp h
    simp only [processSelectElements, Check.bind_yields] at hrun
    obtain ⟨middle, u, hmiddle, hrun⟩ := hrun
    exact (helement hmiddle).trans (ih helements hrun)

theorem processSelect_marked {elements : List (SelectAction ρ)}
    (h : ∀ a ∈ elements, SelectMarks a) {l : SelectList} {s t : AnalyzerState ρ}
    (hrun : processSelect env elements s = (some l, t)) :
    l.sawAggregate = hasAggregateBindings l.columns ∧
      Marked false (subqueriesBindings l.columns) s t := by
  simp only [processSelect, Check.bind_yields, Check.pure_yields] at hrun
  obtain ⟨l', u, helements, _, v, hresolve, rfl, rfl⟩ := hrun
  obtain ⟨columns, hcolumns, hsaw, hmarked⟩ := processSelectElements_marked h helements
  rw [List.nil_append] at hcolumns
  rw [Bool.false_or] at hsaw
  subst hcolumns
  exact ⟨hsaw, hmarked.trans_quiet (resolveOperator_quiet env _ rfl hresolve)⟩

theorem processSortElements_marked {specs : List (SortSpecification ρ)}
    (h : ∀ spec ∈ specs, ActionMarks spec.key) {l l' : SortList} {s t : AnalyzerState ρ}
    (hrun : processSortElements l specs s = (some l', t)) :
    ColumnsMarked l.columns l'.columns l.sawAggregate l'.sawAggregate s t := by
  induction specs generalizing l s with
  | nil =>
    obtain ⟨rfl, rfl⟩ := (Check.pure_yields ..).mp hrun
    exact .nil s
  | cons spec specs ih =>
    obtain ⟨hspec, hspecs⟩ := List.forall_mem_cons.mp h
    simp only [processSortElements, Check.bind_yields] at hrun
    obtain ⟨middle, u, hmiddle, hrun⟩ := hrun
    refine .trans ?_ (ih hspecs hrun)
    unfold processSortElement at hmiddle
    split_ifs at hmiddle
    · cases hmiddle
    · simp only [Check.bind_yields] at hmiddle
      obtain ⟨_, v₁, hreport, ⟨e, saw⟩, v₂, he, hmiddle⟩ := hmiddle
      obtain ⟨rfl, hmarked⟩ := analyzeScalarExpression_marked hspec he
      have hadd : ∀ {m}, (do
          let v ← streamVariable
          return { columns := l.columns ++ [(v, e)],
                   keys := l.keys ++ [(v, convertOrdering spec.direction)],
                   sawAggregate := l.sawAggregate || e.hasAggregate } : Analysis ρ SortList) v₂
            = (some m, u) →
          ColumnsMarked l.columns m.columns l.sawAggregate m.sawAggregate s u := by
        intro m hm
        simp only [Check.bind_yields, Check.pure_yields] at hm
        obtain ⟨v, v₃, hv, rfl, rfl⟩ := hm
        refine ⟨[(v, e)], rfl, by simp [hasAggregateBindings], ?_⟩
        exact (Marked.quiet_trans (reportNullLocation_quiet _ hreport)
          (hmarked.trans_quiet (streamVariable_quiet hv))).congr rfl (by simp [subqueriesBindings])
      cases e with
      | immediate => cases hmiddle
      | _ => exact hadd hmiddle

theorem processOrderBy_marked {specs : List (SortSpecification ρ)}
    (h : ∀ spec ∈ specs, ActionMarks spec.key) {sort : Option SortList} {s t : AnalyzerState ρ}
    (hrun : processOrderBy env specs s = (some sort, t)) :
    sort.any SortList.sawAggregate = hasAggregateBindings (sortColumns sort) ∧
      Marked false (subqueriesBindings (sortColumns sort)) s t := by
  cases specs with
  | nil =>
    obtain ⟨rfl, rfl⟩ := (Check.pure_yields ..).mp hrun
    exact ⟨rfl, .of_quiet (Check.Frame.refl s)⟩
  | cons spec specs =>
    simp only [processOrderBy, Check.bind_yields, Check.pure_yields] at hrun
    obtain ⟨l, u, hl, _, v, hproject, _, w, hlimit, rfl, rfl⟩ := hrun
    obtain ⟨columns, hcolumns, hsaw, hmarked⟩ := processSortElements_marked h hl
    rw [List.nil_append] at hcolumns
    rw [Bool.false_or] at hsaw
    subst hcolumns
    exact ⟨hsaw, (hmarked.trans_quiet (resolveOperator_quiet env _ rfl hproject)).trans_quiet
      (resolveOperator_quiet env _ rfl hlimit)⟩

theorem processLimit_marked {limit : Option (ScalarAction ρ)}
    (h : ∀ a ∈ limit, ActionMarks a) {sorted : Bool} {count : Option Nat}
    {s t : AnalyzerState ρ} (hrun : processLimit env limit sorted s = (some count, t)) :
    Marked false [] s t := by
  cases limit with
  | none =>
    obtain ⟨rfl, rfl⟩ := (Check.pure_yields ..).mp hrun
    exact .of_quiet (Check.Frame.refl s)
  | some a =>
    simp only [processLimit, Check.bind_yields] at hrun
    obtain ⟨⟨e, saw⟩, u, he, n, v, hn, hrun⟩ := hrun
    obtain ⟨-, hmarked⟩ := analyzeScalarExpression_marked (h a rfl) he
    have hsize := (hmarked.trans_quiet (extractSize_quiet env e hn)).congr rfl (List.nil_subset _)
    cases sorted with
    | true =>
      obtain ⟨rfl, rfl⟩ := (Check.pure_yields ..).mp hrun
      exact hsize
    | false =>
      simp only [Bool.false_eq_true, if_false, Check.bind_yields, Check.pure_yields] at hrun
      obtain ⟨_, w, hresolve, rfl, rfl⟩ := hrun
      exact hsize.trans_quiet (resolveOperator_quiet env _ rfl hresolve)

end Mizugaki.Analyzer
