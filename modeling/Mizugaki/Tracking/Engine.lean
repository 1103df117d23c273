import Mizugaki.Analyzer.Traversal
import Mizugaki.Ast.SetOperation
import Mizugaki.Tracking.Query

/-! The operators that an analysis places, over whole queries and over the syntax tree: every operator
of the graph of a query is one that was resolved, apart from those of EXCEPT and INTERSECT. -/

namespace Mizugaki.Analyzer

set_option linter.unusedSectionVars false

open Mizugaki.Ast Mizugaki.Plan Mizugaki.Control

variable {ρ : Type} {env : Environment ρ} {merging : Prop}
  {J : List Operator → AnalyzerState ρ → AnalyzerState ρ → Prop} (T : Tracks env merging J)
  [Numbering (J [])] [Resolving env (J [])] [Placing env (J [])] {os : List Operator}
  {s t u : AnalyzerState ρ}

include T

/-! ### The select list, ORDER BY and LIMIT -/

theorem processSelectColumn_tracked {action : ScalarAction ρ} (h : ScalarTracked J action)
    (value : ScalarExpression) (name : Option SimpleName) :
    SelectTracked J (processSelectColumn env value action name) := by
  intro l s l' t hrun
  simp only [processSelectColumn, Check.bind_yields, Check.pure_yields] at hrun
  obtain ⟨⟨e, sawAggregate⟩, u, he, v, w, hv, rfl, rfl⟩ := hrun
  refine ⟨[(v, e)], rfl, ?_⟩
  rw [subqueriesBindings, subqueriesBindings, List.append_nil]
  exact T.after (analyzeScalarExpression_tracked T h he) (streamVariable_quiet hv)

theorem processSelectAsterisk_tracked (qualifier : Option ScalarExpression) :
    SelectTracked J (processSelectAsterisk env qualifier : SelectAction ρ) := by
  intro l s l' t hrun
  cases qualifier with
  | none =>
    simp only [processSelectAsterisk, Check.bind_yields, currentScope_yields] at hrun
    obtain ⟨_, _, ⟨rfl, rfl⟩, hrun⟩ := hrun
    generalize s.scope.relations.flatMap RelationInfo.exportedColumns = columns at hrun
    cases columns with
    | nil => cases hrun
    | cons column columns =>
      obtain ⟨rfl, rfl⟩ := (Check.pure_yields ..).mp hrun
      exact ⟨[], (List.append_nil _).symm, stay_tracked s⟩
  | some q =>
    cases q with
    | variableReference name =>
      simp only [processSelectAsterisk, Check.bind_yields, Check.pure_yields] at hrun
      obtain ⟨found, u, hfound, rfl, rfl⟩ := hrun
      have hsearch : J [] s u := analyzeRelationInfoName_quiet env _ hfound
      exact ⟨[], (List.append_nil _).symm, hsearch⟩
    | _ => cases hrun

theorem processSelectElements_tracked {elements : List (SelectAction ρ)}
    (h : ∀ a ∈ elements, SelectTracked J a) {l l' : SelectList}
    (hrun : processSelectElements l elements s = (some l', t)) :
    ∃ columns, l'.columns = l.columns ++ columns ∧ J (placed (subqueriesBindings columns)) s t := by
  induction elements generalizing l s with
  | nil =>
    obtain ⟨rfl, rfl⟩ := (Check.pure_yields ..).mp hrun
    exact ⟨[], (List.append_nil _).symm, stay_tracked s⟩
  | cons element elements ih =>
    obtain ⟨helement, helements⟩ := List.forall_mem_cons.mp h
    simp only [processSelectElements, Check.bind_yields] at hrun
    obtain ⟨middle, u, hmiddle, hrun⟩ := hrun
    obtain ⟨first, hfirst, hone⟩ := helement hmiddle
    obtain ⟨rest, hrest, hall⟩ := ih helements hrun
    refine ⟨first ++ rest, by rw [hrest, hfirst, List.append_assoc], ?_⟩
    rw [subqueriesBindings_append]
    exact T.trans hone hall

/-- The projection of the select list, and what is nested in it. -/
theorem processSelect_tracked {elements : List (SelectAction ρ)}
    (h : ∀ a ∈ elements, SelectTracked J a) {l : SelectList}
    (hrun : processSelect env elements s = (some l, t)) :
    J (.project l.columns :: placed (subqueriesBindings l.columns)) s t := by
  simp only [processSelect, Check.bind_yields, Check.pure_yields] at hrun
  obtain ⟨l', u, helements, _, v, hresolve, rfl, rfl⟩ := hrun
  obtain ⟨columns, hcolumns, hall⟩ := processSelectElements_tracked T h helements
  rw [List.nil_append] at hcolumns
  rw [hcolumns] at hresolve ⊢
  exact T.resolved hall (placed_project columns) rfl hresolve

theorem processDistinct_tracked {quantifier : Option Ast.SetQuantifier} {info : RelationInfo}
    {keys : Option (List Variable)}
    (hrun : processDistinct env quantifier info s = (some keys, t)) :
    J (keys.map Operator.distinct).toList s t := by
  unfold processDistinct at hrun
  split at hrun
  · simp only [Check.bind_yields, Check.pure_yields] at hrun
    obtain ⟨_, u, hresolve, rfl, rfl⟩ := hrun
    exact T.resolvedBare rfl rfl hresolve
  · obtain ⟨rfl, rfl⟩ := (Check.pure_yields ..).mp hrun
    exact stay_tracked s

theorem processSortElements_tracked {specs : List (SortSpecification ρ)}
    (h : ∀ spec ∈ specs, ScalarTracked J spec.key) {l l' : SortList}
    (hrun : processSortElements l specs s = (some l', t)) :
    ∃ columns, l'.columns = l.columns ++ columns ∧ J (placed (subqueriesBindings columns)) s t := by
  induction specs generalizing l s with
  | nil =>
    obtain ⟨rfl, rfl⟩ := (Check.pure_yields ..).mp hrun
    exact ⟨[], (List.append_nil _).symm, stay_tracked s⟩
  | cons spec specs ih =>
    obtain ⟨hspec, hspecs⟩ := List.forall_mem_cons.mp h
    simp only [processSortElements, Check.bind_yields] at hrun
    obtain ⟨middle, u, hmiddle, hrun⟩ := hrun
    obtain ⟨rest, hrest, hall⟩ := ih hspecs hrun
    unfold processSortElement at hmiddle
    split_ifs at hmiddle
    · cases hmiddle
    · simp only [Check.bind_yields] at hmiddle
      obtain ⟨_, v₁, hreport, ⟨e, saw⟩, v₂, he, hmiddle⟩ := hmiddle
      have hkey := T.before (reportNullLocation_quiet _ hreport)
        (analyzeScalarExpression_tracked T hspec he)
      have hadd : ∀ {m}, (do
          let v ← streamVariable
          return { columns := l.columns ++ [(v, e)],
                   keys := l.keys ++ [(v, convertOrdering spec.direction)],
                   sawAggregate := l.sawAggregate || saw } : Analysis ρ SortList) v₂
            = (some m, u) →
          ∃ v, m.columns = l.columns ++ [(v, e)] ∧ J (placed e.subqueries) s u := by
        intro m hm
        simp only [Check.bind_yields, Check.pure_yields] at hm
        obtain ⟨v, v₃, hv, rfl, rfl⟩ := hm
        exact ⟨v, rfl, T.after hkey (streamVariable_quiet hv)⟩
      have hcolumn : ∃ v, middle.columns = l.columns ++ [(v, e)] ∧ J (placed e.subqueries) s u := by
        cases e with
        | immediate => cases hmiddle
        | _ => exact hadd hmiddle
      obtain ⟨v, hcolumn, hone⟩ := hcolumn
      refine ⟨(v, e) :: rest, by rw [hrest, hcolumn, List.append_assoc]; rfl, ?_⟩
      rw [subqueriesBindings]
      exact T.trans hone hall

/-- The operators of ORDER BY. -/
def sortOperators (count : Option Nat) (sort : Option SortList) : List Operator :=
  match sort with
  | none => []
  | some l => [.limit count [] l.keys, .project l.columns]

/-- The operators of ORDER BY, and what is nested in its columns. -/
theorem processOrderBy_tracked {specs : List (SortSpecification ρ)}
    (h : ∀ spec ∈ specs, ScalarTracked J spec.key) {sort : Option SortList}
    (hrun : processOrderBy env specs s = (some sort, t)) :
    J (sortOperators none sort ++ placed (subqueriesBindings (sortColumns sort))) s t := by
  cases specs with
  | nil =>
    obtain ⟨rfl, rfl⟩ := (Check.pure_yields ..).mp hrun
    exact stay_tracked s
  | cons spec specs =>
    simp only [processOrderBy, Check.bind_yields, Check.pure_yields] at hrun
    obtain ⟨l, u, hl, _, v, hproject, _, w, hlimit, rfl, rfl⟩ := hrun
    obtain ⟨columns, hcolumns, hall⟩ := processSortElements_tracked T h hl
    rw [List.nil_append] at hcolumns
    have hsorted := T.resolved (hcolumns ▸ hall) (placed_project l.columns) rfl hproject
    exact T.resolved hsorted (List.nil_subset _) rfl hlimit

/-- The operator of LIMIT, unless it is the one of ORDER BY. -/
theorem processLimit_tracked {limit : Option (ScalarAction ρ)} (h : OptionTracked J limit)
    {sorted : Bool} {count : Option Nat}
    (hrun : processLimit env limit sorted s = (some count, t)) :
    J (if sorted then [] else (count.map fun n => Operator.limit (some n) [] []).toList) s t := by
  cases limit with
  | none =>
    obtain ⟨rfl, rfl⟩ := (Check.pure_yields ..).mp hrun
    cases sorted <;> exact stay_tracked s
  | some a =>
    simp only [processLimit, Check.bind_yields] at hrun
    obtain ⟨⟨e, saw⟩, u, he, n, v, hn, hrun⟩ := hrun
    have hsize : J [] s v := T.subset (T.after (analyzeScalarExpression_tracked T (h a rfl) he)
      (extractSize_quiet env e hn)) (List.nil_subset _)
    cases sorted with
    | true =>
      obtain ⟨rfl, rfl⟩ := (Check.pure_yields ..).mp hrun
      exact hsize
    | false =>
      simp only [Bool.false_eq_true, if_false, Check.bind_yields, Check.pure_yields] at hrun
      obtain ⟨_, w, hresolve, rfl, rfl⟩ := hrun
      exact T.resolved hsize (List.nil_subset _) rfl hresolve

/-! ### Installing the set functions -/

theorem installOperator_tracked {operator_ : Option Operator} {port port' : Graph}
    (h : J os s t) (hnested : ∀ op ∈ operator_, placed op.nested ⊆ os ∧ op.isDifference = false)
    (hrun : installOperator env operator_ port t = (some port', u)) :
    J (operator_.toList ++ os) s u := by
  cases operator_ with
  | none =>
    obtain ⟨-, rfl⟩ := (Check.pure_yields ..).mp hrun
    exact h
  | some op =>
    simp only [installOperator, Check.bind_yields, Check.pure_yields] at hrun
    obtain ⟨_, v, hresolve, -, rfl⟩ := hrun
    obtain ⟨hop, hdifference⟩ := hnested op rfl
    exact T.resolved h hop hdifference hresolve

/-- What is nested in the arguments of the set functions is nested in their projection. -/
theorem install_tracked {p : SetFunctionProcessor} {port port' : Graph} (h : J os s t)
    (hnested : placed (subqueriesBindings p.argumentColumns) ⊆ os)
    (hrun : install env p port t = (some port', u)) : J (p.installed ++ os) s u := by
  simp only [install, Check.bind_yields] at hrun
  obtain ⟨middle, v, hmiddle, hrun⟩ := hrun
  have hproject := installOperator_tracked T h (fun op hop => by
    obtain ⟨columns, hcolumns, rfl⟩ := Option.map_eq_some_iff.mp hop
    refine ⟨List.Subset.trans (placed_project columns) ?_, rfl⟩
    rwa [SetFunctionProcessor.argumentColumns, hcolumns] at hnested) hmiddle
  have haggregate := installOperator_tracked T hproject (fun op hop => by
    obtain ⟨a, -, rfl⟩ := Option.map_eq_some_iff.mp hop
    exact ⟨List.nil_subset _, rfl⟩) hrun
  rwa [SetFunctionProcessor.installed, List.append_assoc]

theorem resolveSort_tracked {sort : Option SortList} (h : J os s t)
    (hnested : placed (subqueriesBindings (sortColumns sort)) ⊆ os) {a : Unit}
    (hrun : resolveSort env sort t = (some a, u)) :
    J ((sort.map fun l => Operator.project l.columns).toList ++ os) s u := by
  cases sort with
  | none =>
    obtain ⟨-, rfl⟩ := (Check.pure_yields ..).mp hrun
    exact h
  | some l => exact T.resolved h (List.Subset.trans (placed_project l.columns) hnested) rfl hrun

omit T [Numbering (J [])] [Resolving env (J [])] [Placing env (J [])] in
/-- Only the projections change when the columns do. -/
theorem replaced_operators {b : QueryBlock} {columns : List (Variable × Scalar)}
    {sort : Option SortList} (hkeys : sort.map SortList.keys = b.sort.map SortList.keys)
    {op : Operator} (h : op ∈ { b with columns := columns, sort := sort }.operators) :
    op ∈ (sort.map fun l => Operator.project l.columns).toList ∨ op = .project columns ∨
      op ∈ b.operators := by
  simp only [QueryBlock.operators, QueryBlock.limits, List.mem_append, List.mem_cons] at h ⊢
  obtain h | h | rfl | h := h
  · cases hsort : b.sort with
    | none =>
      obtain rfl := Option.map_eq_none_iff.mp (hkeys.trans (by rw [hsort]; rfl))
      exact .inr (.inr (.inl h))
    | some l =>
      rw [hsort] at hkeys
      obtain ⟨l', rfl, hl⟩ := Option.map_eq_some_iff.mp hkeys
      obtain rfl | h := List.mem_cons.mp h
      · exact .inr (.inr (.inl (by rw [hl]; exact List.mem_cons_self)))
      · exact .inl h
  · exact .inr (.inr (.inr (.inl h)))
  · exact .inr (.inl rfl)
  · exact .inr (.inr (.inr (.inr (.inr h))))

omit [Placing env (J [])] in
/-- The sort projection without its set functions; the keys are the same. -/
theorem processSortColumns_tracked {sort sort' : Option SortList} {p q : SetFunctionProcessor}
    (hrun : processSortColumns env sort p s = (some (sort', q), t)) :
    J [] s t ∧ sort'.map SortList.keys = sort.map SortList.keys ∧
      subqueriesBindings (sortColumns sort') ⊆ subqueriesBindings (sortColumns sort) ∧
      subqueriesBindings q.argumentColumns ⊆
        subqueriesBindings p.argumentColumns ++ subqueriesBindings (sortColumns sort) := by
  cases sort with
  | none =>
    simp only [processSortColumns, Check.pure_yields, Prod.mk.injEq] at hrun
    obtain ⟨⟨rfl, rfl⟩, rfl⟩ := hrun
    exact ⟨stay_tracked s, rfl, List.Subset.refl _, List.subset_append_left _ _⟩
  | some l =>
    simp only [processSortColumns, Check.bind_yields, Check.pure_yields, Prod.mk.injEq] at hrun
    obtain ⟨⟨columns, q'⟩, u, hcolumns, ⟨rfl, rfl⟩, rfl⟩ := hrun
    obtain ⟨-, hprocessed⟩ := processColumns_processed hcolumns
    exact ⟨processColumns_quiet env _ _ hcolumns, rfl, hprocessed.nested, hprocessed.movedNodes⟩

/-- The operators of a query above its WHERE part, given those that its clauses placed and what is
nested in its columns and in the arguments of its set functions. -/
theorem installSetFunctions_tracked {p : SetFunctionProcessor} {entry output : Graph}
    {b : QueryBlock} (h : J os s t) (hoperators : b.operators ⊆ os)
    (hcolumns : placed (subqueriesBindings b.columns) ⊆ os)
    (hsort : placed (subqueriesBindings (sortColumns b.sort)) ⊆ os)
    (harguments : placed (subqueriesBindings p.argumentColumns) ⊆ os)
    (hrun : installSetFunctions env p entry b t = (some output, u)) :
    ∃ ps, output.operators ⊆ ps ++ entry.operators ∧ J ps s u := by
  unfold installSetFunctions at hrun
  split_ifs at hrun with hactive
  · simp only [Check.bind_yields, Check.pure_yields] at hrun
    obtain ⟨⟨columns, p₁⟩, u₁, hcolumns', ⟨sort, p₂⟩, u₂, hsort', port, u₃, hport, _, u₄, hproject,
      _, u₅, hresort, rfl, rfl⟩ := hrun
    obtain ⟨-, hprocessed⟩ := processColumns_processed hcolumns'
    obtain ⟨hquiet, hkeys, hnested, hmoved⟩ := processSortColumns_tracked T hsort'
    have hall := T.after (T.after h (processColumns_quiet env _ _ hcolumns')) hquiet
    -- Every argument of a set function comes from one of the lists.
    have hinstalled := install_tracked T hall (by
      refine List.Subset.trans (placed_subset (List.Subset.trans hmoved
        (List.append_subset.mpr ⟨List.Subset.trans hprocessed.movedNodes
          (List.subset_append_left _ (subqueriesBindings (sortColumns b.sort))),
          List.subset_append_right _ _⟩))) ?_
      rw [placed_append, placed_append]
      exact List.append_subset.mpr ⟨List.append_subset.mpr ⟨harguments, hcolumns⟩, hsort⟩) hport
    have hprojected := T.resolved hinstalled (List.Subset.trans (placed_project columns)
      (List.Subset.trans (placed_subset hprocessed.nested)
        (List.Subset.trans hcolumns (List.subset_append_right _ _)))) rfl hproject
    have hsorted := resolveSort_tracked T hprojected (List.Subset.trans (placed_subset hnested)
      (List.Subset.trans hsort (fun op hop => List.mem_cons_of_mem _
        (List.mem_append_right _ hop)))) hresort
    refine ⟨_, ?_, hsorted⟩
    rw [QueryBlock.graph_eq, install_yields hport, Graph.operators_stack, Graph.operators_stack,
      ← List.append_assoc]
    refine List.append_subset.mpr ⟨List.Subset.trans ?_ (List.subset_append_left _ _),
      List.subset_append_right _ _⟩
    refine List.append_subset.mpr ⟨fun op hop => ?_, fun op hop => ?_⟩
    · rw [List.mem_append, List.mem_cons, List.mem_append]
      obtain hop | rfl | hop := replaced_operators hkeys hop
      · exact .inl hop
      · exact .inr (.inl rfl)
      · exact .inr (.inr (.inr (hoperators hop)))
    · exact List.mem_append_right _ (List.mem_cons_of_mem _ (List.mem_append_left _ hop))
  · obtain ⟨rfl, rfl⟩ := (Check.pure_yields ..).mp hrun
    refine ⟨b.operators, ?_, T.subset h hoperators⟩
    rw [QueryBlock.graph_eq, Graph.operators_stack]
    exact List.Subset.refl _

/-! ### Queries -/

/-- The operators of the clauses: those that each clause placed, with the count of LIMIT. -/
theorem block_tracked {having : Option Scalar} {columns : List (Variable × Scalar)}
    {distinct : Option (List Variable)} {sort : Option SortList} {limit : Option Nat}
    (h : J (sortOperators none sort ++ os) s t)
    (hhaving : (having.map Operator.filter).toList ⊆ os) (hcolumns : .project columns ∈ os)
    (hdistinct : (distinct.map Operator.distinct).toList ⊆ os)
    (hlimit : (if sort.isSome then []
      else (limit.map fun n => Operator.limit (some n) [] []).toList) ⊆ os) :
    J (QueryBlock.operators ⟨having, columns, distinct, sort, limit⟩ ++ os) s t := by
  cases sort with
  | none =>
    refine T.subset h (List.append_subset.mpr ⟨?_, List.Subset.refl _⟩)
    exact List.append_subset.mpr ⟨hlimit, List.append_subset.mpr ⟨hdistinct,
      List.cons_subset.mpr ⟨hcolumns, hhaving⟩⟩⟩
  | some l =>
    have hcounted : J (.limit limit [] l.keys :: _) s t := T.counted h
    refine T.subset hcounted (List.append_subset.mpr ⟨?_, fun op hop => ?_⟩)
    · refine List.append_subset.mpr ⟨fun op hop => ?_, List.Subset.trans
        (List.append_subset.mpr ⟨hdistinct, List.cons_subset.mpr ⟨hcolumns, hhaving⟩⟩)
        fun op hop => ?_⟩
      · exact List.mem_append_left os hop
      · exact List.mem_cons_of_mem _ (List.mem_cons_of_mem _ hop)
    · exact List.mem_cons_of_mem _ (List.mem_cons_of_mem _ hop)

theorem processQuery_tracked {c : QueryClauses ρ}
    (h : c.All (ScalarTracked J) (TableTracked J) (SelectTracked J) (GroupingTracked J)) :
    ResultTracked J (processQuery env c) := by
  intro s t result hrun
  obtain ⟨r⟩ := processQuery_run env hrun
  obtain ⟨filtered, hfiltered, hwhere⟩ := processWhere_tracked T h.where_ r.whereRun
  have hfrom := T.append (processFromClause_tracked T h.from_ r.fromRun) hwhere
  obtain ⟨hgrouped, hgroup⟩ := processGroupBy_tracked T h.groupBy r.groupByRun
  have hhaving := processHaving_tracked T h.having r.havingRun hgrouped
  have hselect := processSelect_tracked T h.elements r.selectRun
  have hdistinct := processDistinct_tracked T r.distinctRun
  have hsort := processOrderBy_tracked T h.orderBy r.orderByRun
  have hlimit := processLimit_tracked T h.limit r.limitRun
  have hclauses := T.append hhaving (T.append hselect (T.append hdistinct (T.append hsort hlimit)))
  have hsorted : J (sortOperators none r.sort ++ _) r.afterGroupBy r.afterLimit :=
    T.subset hclauses (List.append_subset.mpr
      ⟨fun op hop => by simp only [List.mem_append]; tauto, List.Subset.refl _⟩)
  have hblock := block_tracked T hsorted
    (fun op hop => by simp only [List.mem_append]; tauto)
    (by simp only [List.mem_append, List.mem_cons]; tauto)
    (fun op hop => by simp only [List.mem_append]; tauto)
    (fun op hop => by simp only [List.mem_append]; tauto)
  have harguments : (activateFor r.select r.sort r.filtered).argumentColumns
      = r.filtered.argumentColumns := by
    unfold activateFor
    split_ifs <;> rfl
  obtain ⟨ps, hps, hinstall⟩ := installSetFunctions_tracked T hblock
    (List.subset_append_left _ _)
    (fun op hop => by simp only [List.mem_append, List.mem_cons]; tauto)
    (fun op hop => by simp only [List.mem_append]; tauto)
    (fun op hop => by
      rw [harguments] at hop
      simp only [List.mem_append]
      tauto) r.installRun
  refine T.subset (T.append hfrom (T.before hgroup hinstall)) (List.Subset.trans hps ?_)
  refine List.append_subset.mpr ⟨List.subset_append_right _ _, List.Subset.trans hfiltered ?_⟩
  intro op hop
  simp only [List.mem_append] at hop ⊢
  tauto

theorem inScope_tracked {m : Analysis ρ QueryResult} (h : ResultTracked J m)
    (continueScope : Bool) : ResultTracked J (inScope continueScope m) := by
  intro s t r hrun
  obtain ⟨-, -, hm⟩ | ⟨-, u, hm, rfl⟩ := inScope_yields hrun
  · exact h hm
  · exact T.entered (by rfl) (h hm)

/-! ### Table values -/

theorem analyzeRow_tracked {context : List ScalarValueContext} {elements : List (ScalarAction ρ)}
    (h : ListTracked J elements) {index : Nat} {row : List Scalar}
    (hrun : analyzeRow context index elements s = (some row, t)) :
    J (placed (subqueriesList row)) s t := by
  induction elements generalizing index s row with
  | nil =>
    obtain ⟨rfl, rfl⟩ := (Check.pure_yields ..).mp hrun
    exact stay_tracked s
  | cons e es ih =>
    obtain ⟨he, hes⟩ := List.forall_mem_cons.mp h
    simp only [analyzeRow, Check.bind_yields, Check.pure_yields] at hrun
    obtain ⟨⟨value, saw⟩, u, hvalue, rest, v, hrest, rfl, rfl⟩ := hrun
    exact T.trans (analyzeScalarExpression_tracked T he hvalue) (ih hes hrest)

theorem analyzeRows_tracked {context : List ScalarValueContext}
    {elements : List (Option (List (ScalarAction ρ)))}
    (h : ∀ row ∈ elements, ∀ es ∈ row, ListTracked J es) {rows : List (List Scalar)}
    (hrun : analyzeRows context elements s = (some rows, t)) :
    J (placed (rows.flatMap subqueriesList)) s t := by
  induction elements generalizing s rows with
  | nil =>
    obtain ⟨rfl, rfl⟩ := (Check.pure_yields ..).mp hrun
    exact stay_tracked s
  | cons row rest ih =>
    obtain ⟨hrow, hrest⟩ := List.forall_mem_cons.mp h
    cases row with
    | none => cases hrun
    | some es =>
      simp only [analyzeRows, Check.bind_yields, Check.pure_yields] at hrun
      obtain ⟨first, u, hfirst, others, v, hothers, rfl, rfl⟩ := hrun
      exact T.trans (analyzeRow_tracked T (hrow es rfl) hfirst) (ih hrest hothers)

theorem processTableValueConstructor_tracked {elements : List (Option (List (ScalarAction ρ)))}
    (h : ∀ row ∈ elements, ∀ es ∈ row, ListTracked J es) (context : List ScalarValueContext) :
    ResultTracked J (processTableValueConstructor env elements context) := by
  intro s t r hrun
  simp only [processTableValueConstructor, Check.bind_yields, Check.pure_yields] at hrun
  obtain ⟨rows, u, hrows, columns, v, hcolumns, _, w, hresolve, rfl, rfl⟩ := hrun
  have hall := T.after (analyzeRows_tracked T h hrows) (streamVariables_quiet _ hcolumns)
  refine T.subset (T.resolved hall (placed_subset fun n hn => ?_) rfl hresolve)
    (List.cons_subset_cons _ (List.nil_subset _))
  obtain ⟨e, he, hn⟩ := List.mem_flatMap.mp hn
  obtain ⟨row, hrow, he⟩ := List.mem_flatten.mp he
  exact List.mem_flatMap.mpr ⟨row, hrow, mem_subqueriesList.mpr ⟨e, he, hn⟩⟩

/-! ### Set operations -/

/-- The operator of a set operation: that of a union is resolved. -/
theorem processSetOperation_tracked {left right : Graph} {operation : SetOperation}
    (hoperation : operation.operator.isDifference = true → merging)
    (h : J (left.operators ++ right.operators) s t) {quantifier : Plan.SetQuantifier}
    {lefts rights : List ColumnInfo} {r : QueryResult}
    (hrun : processSetOperation env operation quantifier left right lefts rights t = (some r, u)) :
    J r.output.operators s u := by
  unfold processSetOperation at hrun
  split_ifs at hrun
  · cases hrun
  · cases operation with
    | union_ =>
      simp only [processUnion, Check.bind_yields, Check.pure_yields] at hrun
      obtain ⟨outputs, v, houtputs, _, w, hresolve, rfl, rfl⟩ := hrun
      exact T.resolved (T.after h (streamVariables_quiet _ houtputs)) (List.nil_subset _) rfl
        hresolve
    | except =>
      obtain ⟨rfl, rfl⟩ := (Check.pure_yields ..).mp hrun
      exact T.append (T.merged (hoperation rfl) rfl s) h
    | intersect =>
      obtain ⟨rfl, rfl⟩ := (Check.pure_yields ..).mp hrun
      exact T.append (T.merged (hoperation rfl) rfl s) h

theorem processBinaryQuery_tracked {left right : QueryAction ρ} (hl : QueryTracked J left)
    (hr : QueryTracked J right) {operator_ : QueryOperator}
    (hoperator : operator_.isDifference = true → merging) (quantifier : Option Ast.SetQuantifier)
    (corresponding : Bool) (context : List ScalarValueContext) :
    ResultTracked J
      (processBinaryQuery env left operator_ quantifier corresponding right context) := by
  intro s t r hrun
  obtain ⟨operation, l, u, r', v, rfl, -, hleft, hright, hrun⟩ := processBinaryQuery_yields env hrun
  have hoperands := T.append (hl context false hleft) (hr context false hright)
  exact processSetOperation_tracked T hoperator hoperands hrun

/-! ### Common tables -/

theorem processCommonTable_tracked {element : CommonTable ρ} (h : QueryTracked J element.query)
    {a : Unit} (hrun : processCommonTable env element s = (some a, t)) : J [] s t := by
  simp only [processCommonTable, declareCommonTable, Check.bind_yields] at hrun
  obtain ⟨⟨result, left⟩, u, hquery, names, v, hnames, hadd⟩ := hrun
  have hbody := withScope_tracked T (h [] false) (by rfl) hquery
  exact T.declared (T.after hbody (commonTableColumnNames_quiet env _ _ hnames)) hadd

theorem processCommonTables_tracked {elements : List (CommonTable ρ)}
    (h : ∀ e ∈ elements, QueryTracked J e.query) {a : Unit}
    (hrun : processCommonTables env elements s = (some a, t)) : J [] s t := by
  induction elements generalizing s with
  | nil =>
    obtain ⟨-, rfl⟩ := (Check.pure_yields ..).mp hrun
    exact stay_tracked s
  | cons element elements ih =>
    obtain ⟨helement, helements⟩ := List.forall_mem_cons.mp h
    simp only [processCommonTables, Check.bind_yields] at hrun
    obtain ⟨_, u, hfirst, hrest⟩ := hrun
    exact T.before (processCommonTable_tracked T helement hfirst) (ih helements hrest)

theorem processWith_tracked {elements : List (CommonTable ρ)} {query : QueryAction ρ}
    (h : ∀ e ∈ elements, QueryTracked J e.query) (hq : QueryTracked J query) (isRecursive : Bool)
    (context : List ScalarValueContext) :
    ResultTracked J (processWith env isRecursive elements query context) := by
  intro s t r hrun
  unfold processWith at hrun
  split_ifs at hrun
  · cases hrun
  · simp only [Check.bind_yields] at hrun
    obtain ⟨_, u, helements, hquery⟩ := hrun
    exact T.before (processCommonTables_tracked T h helements) (hq context true hquery)

end Mizugaki.Analyzer
