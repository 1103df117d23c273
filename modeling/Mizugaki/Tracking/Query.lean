import Mizugaki.Aggregation.Block
import Mizugaki.Analyzer.Found
import Mizugaki.Tracking.Expression

/-! The operators that an analysis places, over the functions of the query analyzer. Each operator
is resolved when it is placed, and once more when the set functions are taken out of it; those of
EXCEPT and INTERSECT are placed as they are. -/

namespace Mizugaki.Plan

theorem placed_project (columns : List (Variable × Scalar)) :
    placed (Operator.project columns).nested ⊆ placed (subqueriesBindings columns) := by
  refine placed_subset fun n hn => ?_
  obtain ⟨e, he, hn⟩ := List.mem_flatMap.mp hn
  obtain ⟨c, hc, rfl⟩ := List.mem_map.mp he
  exact mem_subqueriesBindings.mpr ⟨c, hc, hn⟩

theorem placed_filter (e : Scalar) :
    placed (Operator.filter e).nested ⊆ placed e.subqueries := by
  refine placed_subset fun n hn => ?_
  obtain ⟨e', he, hn⟩ := List.mem_flatMap.mp hn
  rwa [← List.mem_singleton.mp he]

end Mizugaki.Plan

namespace Mizugaki.Analyzer

set_option linter.unusedSectionVars false

open Mizugaki.Ast Mizugaki.Plan Mizugaki.Control

variable {ρ : Type} {env : Environment ρ} {merging : Prop}
  {J : List Operator → AnalyzerState ρ → AnalyzerState ρ → Prop} (T : Tracks env merging J)
  [Numbering (J [])] [Resolving env (J [])] [Placing env (J [])] {os : List Operator}
  {s t u : AnalyzerState ρ}

/-- The analysis of a table expression. -/
abbrev TableTracked (J : List Operator → AnalyzerState ρ → AnalyzerState ρ → Prop)
    (m : Analysis ρ Graph) : Prop :=
  ∀ ⦃s t g⦄, m s = (some g, t) → J g.operators s t

/-- The analysis of a query in one context. -/
abbrev ResultTracked (J : List Operator → AnalyzerState ρ → AnalyzerState ρ → Prop)
    (m : Analysis ρ QueryResult) : Prop :=
  ∀ ⦃s t r⦄, m s = (some r, t) → J r.output.operators s t

def JoinTracked (J : List Operator → AnalyzerState ρ → AnalyzerState ρ → Prop)
    (j : JoinAction ρ) : Prop :=
  ∀ ⦃pivot s t e⦄, j pivot s = (some e, t) → J (placed e.subqueries) s t

def GroupingTracked (J : List Operator → AnalyzerState ρ → AnalyzerState ρ → Prop)
    (g : GroupingAction ρ) : Prop :=
  ∀ ⦃p s q t⦄, g p s = (some q, t) → q.arguments = p.arguments ∧ J [] s t

/-- An analysis that adds columns to a select list. -/
def SelectTracked (J : List Operator → AnalyzerState ρ → AnalyzerState ρ → Prop)
    (a : SelectAction ρ) : Prop :=
  ∀ ⦃l s l' t⦄, a l s = (some l', t) →
    ∃ columns, l'.columns = l.columns ++ columns ∧ J (placed (subqueriesBindings columns)) s t

include T

/-- An operator that is placed on nothing nested. -/
theorem Tracks.resolvedBare {op : Operator} {a : Unit} (hnested : op.nested = [])
    (hop : op.isDifference = false) (h : resolveOperator env op s = (some a, t)) : J [op] s t := by
  refine T.resolved (stay_tracked s) ?_ hop h
  rw [hnested]
  exact List.nil_subset _

/-! ### References -/

theorem processRelationReference_tracked (relation : Name) :
    ResultTracked J (processRelationReference env relation) := by
  intro s t result h
  simp only [processRelationReference, Check.bind_yields] at h
  obtain ⟨found, u, hfound, h⟩ := h
  have hsearch : J [] s u := analyzeRelationName_quiet env relation hfound
  cases found with
  | table declaration =>
    simp only [processTableReference, Check.bind_yields] at h
    obtain ⟨info, v, hinfo, h⟩ := h
    cases hindex : info.primaryIndex with
    | none =>
      rw [hindex] at h
      cases h
    | some index =>
      simp only [hindex, Check.bind_yields, Check.pure_yields] at h
      obtain ⟨_, w, hresolve, rfl, rfl⟩ := h
      exact T.before hsearch (T.before (buildRelationInfo_quiet env _ _ _ hinfo)
        (T.resolvedBare rfl rfl hresolve))
  | query q =>
    simp only [processQueryReference, Check.bind_yields, Check.pure_yields] at h
    obtain ⟨vs, v, hvs, _, w, hresolve, rfl, rfl⟩ := h
    obtain ⟨scope, hscope, name, hq⟩ := analyzeRelationName_query hfound
    have hquery := T.after (T.after (T.referred hscope hq) hsearch)
      (streamVariables_quiet _ hvs)
    refine T.subset (T.resolved hquery ?_ rfl hresolve) (List.cons_subset_cons _ (List.nil_subset _))
    simp [placed, Operator.nested, Operator.expressions]

theorem addRelation_tracked {info : RelationInfo} {a : Unit}
    (h : addRelation info s = (some a, t)) : J [] s t :=
  modifyScope_tracked T (fun scope => by rfl) h

theorem processTableExpressionReference_tracked (name : Name)
    (correlation : Option CorrelationClause) :
    TableTracked J (processTableExpressionReference env name correlation) := by
  intro s t g h
  simp only [processTableExpressionReference, Check.bind_yields, Check.pure_yields] at h
  obtain ⟨result, u, hresult, info, v, hinfo, _, w, hadd, rfl, rfl⟩ := h
  exact T.after (T.after (processRelationReference_tracked T name hresult)
    (correlate_quiet env _ _ hinfo)) (addRelation_tracked T hadd)

theorem processTableSubquery_tracked {query : QueryAction ρ} (h : QueryTracked J query)
    (isLateral : Bool) (correlation : CorrelationClause) :
    TableTracked J (processTableSubquery env isLateral query correlation) := by
  intro s t g hrun
  cases isLateral with
  | true => cases hrun
  | false =>
    simp only [processTableSubquery, Bool.false_eq_true, if_false, Check.bind_yields,
      Check.pure_yields] at hrun
    obtain ⟨⟨result, left⟩, u, hquery, info, v, hinfo, _, w, hadd, rfl, rfl⟩ := hrun
    have hgraph := withScope_tracked T (h [] false) (by rfl) hquery
    exact T.after (T.after hgraph (rebuildRelationInfo_quiet env _ _ hinfo))
      (addRelation_tracked T hadd)

/-! ### Joins -/

theorem processJoinCondition_tracked {condition : ScalarAction ρ} (h : ScalarTracked J condition) :
    JoinTracked J (processJoinCondition condition) := by
  intro pivot s t e hrun
  simp only [processJoinCondition, Check.bind_yields] at hrun
  obtain ⟨⟨e', sawAggregate⟩, u, he, hrun⟩ := hrun
  have hcondition := analyzeScalarExpression_tracked T h he
  dsimp only at hrun
  split_ifs at hrun
  · cases hrun
  · obtain ⟨rfl, rfl⟩ := (Check.pure_yields ..).mp hrun
    exact hcondition

theorem processUsingColumn_tracked {pivot : Nat} {name : SimpleName} {e : Scalar}
    (h : processUsingColumn env pivot name s = (some e, t)) : e.subqueries = [] ∧ J [] s t := by
  simp only [processUsingColumn, Check.bind_yields, currentScope_yields, Check.pure_yields] at h
  obtain ⟨_, _, ⟨rfl, rfl⟩, l, u, hl, r, v, hr, _, w, hhide, rfl, rfl⟩ := h
  exact ⟨rfl, T.before (usingColumn_quiet _ _ _ hl) (T.before (usingColumn_quiet _ _ _ hr)
    (modifyScope_tracked T (fun scope => by rfl) hhide))⟩

theorem processUsingColumns_tracked {pivot : Nat} {names : List SimpleName} {result e : Scalar}
    (hresult : result.subqueries = [])
    (h : processUsingColumns env pivot result names s = (some e, t)) :
    e.subqueries = [] ∧ J [] s t := by
  induction names generalizing result s with
  | nil =>
    obtain ⟨rfl, rfl⟩ := (Check.pure_yields ..).mp h
    exact ⟨hresult, stay_tracked s⟩
  | cons name names ih =>
    simp only [processUsingColumns, Check.bind_yields] at h
    obtain ⟨term, u, hterm, h⟩ := h
    obtain ⟨hnodes, hfirst⟩ := processUsingColumn_tracked T hterm
    obtain ⟨he, hrest⟩ := ih (by rw [Scalar.subqueries, hresult, hnodes]; rfl) h
    exact ⟨he, T.before hfirst hrest⟩

theorem processJoinColumns_tracked (columns : List SimpleName) :
    JoinTracked J (processJoinColumns env columns) := by
  intro pivot s t e h
  cases columns with
  | nil => cases h
  | cons name names =>
    simp only [processJoinColumns, Check.bind_yields, Check.pure_yields] at h
    obtain ⟨first, u, hfirst, result, v, hresult, _, w, hresolve, rfl, rfl⟩ := h
    obtain ⟨hbare, hone⟩ := processUsingColumn_tracked T hfirst
    obtain ⟨hnodes, hrest⟩ := processUsingColumns_tracked T hbare hresult
    have hlast : J [] v w := resolve_quiet env _ _ hresolve
    rw [hnodes]
    exact T.before hone (T.before hrest hlast)

theorem processJoin_tracked {left right : Analysis ρ Graph} (hl : TableTracked J left)
    (hr : TableTracked J right) {specification : Option (JoinAction ρ)}
    (hs : ∀ j ∈ specification, JoinTracked J j) (kind : JoinKind) (natural transpose : Bool) :
    TableTracked J (processJoin env kind natural transpose left right specification) := by
  intro s t g h
  simp only [processJoin, Check.bind_yields, currentScope_yields] at h
  obtain ⟨l, u₁, hleft, _, _, ⟨rfl, rfl⟩, r, u₂, hright, h⟩ := h
  have hoperands := T.append (hl hleft) (hr hright)
  cases natural with
  | true => cases specification <;> cases h
  | false =>
    simp only [Bool.false_eq_true, if_false, Check.bind_yields, Check.pure_yields] at h
    obtain ⟨condition, u₃, hcondition, _, u₄, hresolve, rfl, rfl⟩ := h
    have hspecification : J (placed (subqueriesOption condition)) u₂ u₃ := by
      cases specification with
      | none =>
        obtain ⟨rfl, rfl⟩ := (Check.pure_yields ..).mp hcondition
        exact stay_tracked _
      | some j =>
        simp only [processSpecification, Check.bind_yields, Check.pure_yields] at hcondition
        obtain ⟨e, v, he, rfl, rfl⟩ := hcondition
        exact hs j rfl he
    have hall := T.resolved (T.append hoperands hspecification) (by
      cases condition with
      | none => exact List.nil_subset _
      | some e =>
        refine List.Subset.trans (placed_subset fun n hn => ?_) (List.subset_append_right _ _)
        obtain ⟨e', he, hn⟩ := List.mem_flatMap.mp hn
        rwa [← List.mem_singleton.mp he]) rfl hresolve
    refine T.subset hall fun op hop => ?_
    cases transpose with
    | true =>
      simp only [if_true, Graph.operators_binary, List.mem_cons, List.mem_append] at hop ⊢
      tauto
    | false =>
      simp only [Bool.false_eq_true, if_false, Graph.operators_binary, List.mem_cons,
        List.mem_append] at hop ⊢
      tauto

theorem processJoinExpression_tracked {left right : Analysis ρ Graph} (hl : TableTracked J left)
    (hr : TableTracked J right) {specification : Option (JoinAction ρ)}
    (hs : ∀ j ∈ specification, JoinTracked J j) (type : JoinType) :
    TableTracked J (processJoinExpression env type left right specification) := by
  unfold processJoinExpression
  cases convertJoinType type with
  | none =>
    intro s t g h
    cases h
  | some converted => exact processJoin_tracked T hl hr hs ..

/-! ### Apply -/

theorem analyzeApplyArguments_tracked {arguments : List (ScalarAction ρ)}
    (h : ListTracked J arguments) {args : List (Scalar × TypeData)}
    (hrun : analyzeApplyArguments env arguments s = (some args, t)) :
    J (placed (subqueriesList (args.map Prod.fst))) s t := by
  induction arguments generalizing s args with
  | nil =>
    obtain ⟨rfl, rfl⟩ := (Check.pure_yields ..).mp hrun
    exact stay_tracked s
  | cons a as ih =>
    obtain ⟨ha, has⟩ := List.forall_mem_cons.mp h
    simp only [analyzeApplyArguments, Check.bind_yields, Check.pure_yields] at hrun
    obtain ⟨⟨value, saw⟩, u, hvalue, type, v, htype, rest, w, hrest, rfl, rfl⟩ := hrun
    exact T.trans (analyzeScalarExpression_tracked T ha hvalue)
      (T.before (resolve_quiet env _ _ htype) (ih has hrest))

theorem processApply_tracked {operand : Analysis ρ Graph} (ho : TableTracked J operand)
    {arguments : List (ScalarAction ρ)} (ha : ListTracked J arguments) (type : Option ApplyType)
    (name : Name) (correlation : CorrelationClause) :
    TableTracked J (processApply env operand type name arguments correlation) := by
  intro s t g h
  simp only [processApply, Check.bind_yields] at h
  obtain ⟨input, u₁, hinput, args, u₂, hargs, functions, u₃, hfunctions, h⟩ := h
  have hall := T.after (T.append (ho hinput) (analyzeApplyArguments_tracked T ha hargs))
    (analyzeFunctionName_quiet env _ _ hfunctions)
  generalize applicableTableFunctions env (args.map Prod.snd) functions = candidates at h
  cases candidates with
  | nil => cases h
  | cons candidate rest =>
    simp only [Check.bind_yields, Check.pure_yields] at h
    obtain ⟨target, u₄, htarget, returned, u₅, hreturned, vs, u₆, hvs, names, u₇, hnames, _, u₈, hadd,
      _, u₉, hresolve, rfl, rfl⟩ := h
    have hsteps : J [] u₃ u₈ := T.before (resolveOverload_quiet env _ _ _ htarget)
      (T.before (returnedColumns_quiet _ hreturned) (T.before (streamVariables_quiet _ hvs)
        (T.before (applyColumnNames_quiet env _ _ _ hnames) (addRelation_tracked T hadd))))
    have hplaced := T.resolved (T.after hall hsteps) (fun op hop => ?_) rfl hresolve
    · refine T.subset hplaced (List.cons_subset_cons _ (List.subset_append_left _ _))
    · refine List.mem_append_right _ (placed_subset (fun n hn => ?_) hop)
      obtain ⟨e, he, hn⟩ := List.mem_flatMap.mp hn
      exact mem_subqueriesList.mpr ⟨e, he, hn⟩

/-! ### FROM and WHERE -/

theorem processFromElements_tracked {elements : List (Analysis ρ Graph)}
    (h : ∀ m ∈ elements, TableTracked J m) {output g : Graph}
    (hrun : processFromElements env output elements s = (some g, t)) :
    ∃ os, g.operators ⊆ os ++ output.operators ∧ J os s t := by
  induction elements generalizing output s with
  | nil =>
    obtain ⟨rfl, rfl⟩ := (Check.pure_yields ..).mp hrun
    exact ⟨[], List.Subset.refl _, stay_tracked s⟩
  | cons element elements ih =>
    obtain ⟨helement, helements⟩ := List.forall_mem_cons.mp h
    simp only [processFromElements, Check.bind_yields] at hrun
    obtain ⟨next, u, hnext, _, v, hresolve, hrun⟩ := hrun
    obtain ⟨os, hos, hrest⟩ := ih helements hrun
    have hjoin : J [.join .inner none] u v := T.resolvedBare rfl rfl hresolve
    refine ⟨_, fun op hop => ?_, T.append (T.append (helement hnext) hjoin) hrest⟩
    have hmem := hos hop
    simp only [Graph.operators_binary, List.mem_append, List.mem_cons] at hmem ⊢
    tauto

theorem processFromClause_tracked {elements : List (Analysis ρ Graph)}
    (h : ∀ m ∈ elements, TableTracked J m) : TableTracked J (processFromClause env elements) := by
  intro s t g hrun
  cases elements with
  | nil =>
    simp only [processFromClause, Check.bind_yields, Check.pure_yields] at hrun
    obtain ⟨_, u, hresolve, _, v, hadd, rfl, rfl⟩ := hrun
    exact T.after (T.resolvedBare rfl rfl hresolve) (addRelation_tracked T hadd)
  | cons element elements =>
    obtain ⟨helement, helements⟩ := List.forall_mem_cons.mp h
    simp only [processFromClause, Check.bind_yields] at hrun
    obtain ⟨output, u, houtput, hrun⟩ := hrun
    obtain ⟨os, hos, hrest⟩ := processFromElements_tracked T helements hrun
    refine T.subset (T.append (helement houtput) hrest) fun op hop => ?_
    have hmem := hos hop
    rw [List.mem_append] at hmem ⊢
    exact hmem.symm

theorem processWhere_tracked {where_ : Option (ScalarAction ρ)} (h : OptionTracked J where_)
    {from_ g : Graph} (hrun : processWhere env where_ from_ s = (some g, t)) :
    ∃ os, g.operators ⊆ os ++ from_.operators ∧ J os s t := by
  cases where_ with
  | none =>
    obtain ⟨rfl, rfl⟩ := (Check.pure_yields ..).mp hrun
    exact ⟨[], List.Subset.refl _, stay_tracked s⟩
  | some a =>
    simp only [processWhere, Check.bind_yields] at hrun
    obtain ⟨⟨predicate, sawAggregate⟩, u, hpredicate, hrun⟩ := hrun
    have hcondition := analyzeScalarExpression_tracked T (h a rfl) hpredicate
    dsimp only at hrun
    split_ifs at hrun
    · cases hrun
    · simp only [Check.bind_yields, Check.pure_yields] at hrun
      obtain ⟨_, v, hresolve, rfl, rfl⟩ := hrun
      refine ⟨_, ?_, T.resolved hcondition (placed_filter predicate) rfl hresolve⟩
      exact List.cons_subset_cons _ (List.subset_append_right _ _)

/-! ### GROUP BY and HAVING -/

theorem processGroupingColumn_tracked {column : ScalarAction ρ} (h : ScalarTracked J column) :
    GroupingTracked J (processGroupingColumn env column) := by
  intro p s q t hrun
  simp only [processGroupingColumn, Check.bind_yields] at hrun
  obtain ⟨⟨e, sawAggregate⟩, u, he, hrun⟩ := hrun
  have hkey := analyzeScalarExpression_tracked T h he
  dsimp only at hrun
  split_ifs at hrun
  · cases hrun
  · simp only [Check.bind_yields] at hrun
    obtain ⟨_, v, hclear, hrun⟩ := hrun
    cases e with
    | variableReference column =>
      obtain ⟨rfl, rfl⟩ := (Check.pure_yields ..).mp hrun
      refine ⟨?_, T.after hkey (clearExpressionResolution_quiet env _ hclear)⟩
      unfold SetFunctionProcessor.addGroupKey
      split_ifs <;> rfl
    | _ => cases hrun

theorem processGroupingElements_tracked {elements : List (GroupingAction ρ)}
    (h : ∀ g ∈ elements, GroupingTracked J g) {p q : SetFunctionProcessor}
    (hrun : processGroupingElements p elements s = (some q, t)) :
    q.arguments = p.arguments ∧ J [] s t := by
  induction elements generalizing p s with
  | nil =>
    obtain ⟨rfl, rfl⟩ := (Check.pure_yields ..).mp hrun
    exact ⟨rfl, stay_tracked s⟩
  | cons element elements ih =>
    obtain ⟨helement, helements⟩ := List.forall_mem_cons.mp h
    simp only [processGroupingElements, Check.bind_yields] at hrun
    obtain ⟨p', u, hp, hrun⟩ := hrun
    obtain ⟨hfirst, hone⟩ := helement hp
    obtain ⟨hrest, hall⟩ := ih helements hrun
    exact ⟨hrest.trans hfirst, T.before hone hall⟩

/-- GROUP BY leaves no arguments of set functions. -/
theorem processGroupBy_tracked {groupBy : Option (List (GroupingAction ρ))}
    (h : ∀ es ∈ groupBy, ∀ g ∈ es, GroupingTracked J g) {q : SetFunctionProcessor}
    (hrun : processGroupBy groupBy s = (some q, t)) : q.argumentColumns = [] ∧ J [] s t := by
  cases groupBy with
  | none =>
    obtain ⟨rfl, rfl⟩ := (Check.pure_yields ..).mp hrun
    exact ⟨rfl, stay_tracked s⟩
  | some elements =>
    obtain ⟨harguments, hall⟩ := processGroupingElements_tracked T (h elements rfl) hrun
    refine ⟨?_, hall⟩
    rw [SetFunctionProcessor.argumentColumns, harguments]
    rfl

/-- The filter of HAVING, and what is nested in the arguments that it leaves. -/
theorem processHaving_tracked {having : Option (ScalarAction ρ)} (h : OptionTracked J having)
    {p q : SetFunctionProcessor} {condition : Option Scalar}
    (hrun : processHaving env having p s = (some (condition, q), t))
    (hp : p.argumentColumns = []) :
    J ((condition.map Operator.filter).toList ++ placed (subqueriesBindings q.argumentColumns))
      s t := by
  cases having with
  | none =>
    simp only [processHaving, Check.pure_yields, Prod.mk.injEq] at hrun
    obtain ⟨⟨rfl, rfl⟩, rfl⟩ := hrun
    rw [hp]
    exact stay_tracked s
  | some a =>
    simp only [processHaving, Check.bind_yields, Check.pure_yields, Prod.mk.injEq] at hrun
    obtain ⟨⟨predicate, saw⟩, u, hpredicate, ⟨e, q'⟩, v, he, _, w, hresolve, ⟨rfl, rfl⟩, rfl⟩ := hrun
    have hcondition := analyzeScalarExpression_tracked T (h a rfl) hpredicate
    have hprocessed := processSetFunctions_processed predicate he
    have hstep : J [] u v := processSetFunctions_quiet env _ _ _ he
    have hfilter := T.resolved (T.after hcondition hstep)
      (List.Subset.trans (placed_filter e) (placed_subset hprocessed.nested)) rfl hresolve
    refine T.subset hfilter (List.cons_subset_cons _ (placed_subset fun n hn => ?_))
    have hmoved := hprocessed.movedNodes hn
    have hactivate : p.activate.argumentColumns = [] := hp
    rwa [hactivate, subqueriesBindings, List.nil_append] at hmoved

end Mizugaki.Analyzer
