import Mizugaki.Analyzer.Engine
import Mizugaki.Reporting.Expression

/-! Reports of query and table expressions: those of their parts, and one for the place of
nulls in an ORDER BY element. From these the number of reports of an accepted expression
is read off its syntax tree. -/

namespace Mizugaki.Analyzer

open Mizugaki.Ast Mizugaki.Plan Mizugaki.Control

variable {ρ : Type} {env : Environment ρ} {n k : Nat} {ns : List Nat}

/-! ### Set functions -/

theorem checkVariable_reports (p : SetFunctionProcessor) (inside : Bool) (v : Variable) :
    Reports 0 (checkVariable p inside v : Analysis ρ Unit) := by
  unfold checkVariable
  split_ifs
  · exact .pure ()
  · exact (report_reports ..).bind_stop Nat.zero_lt_one

@[grind ←] theorem checkReference_reports (p : SetFunctionProcessor) (inside : Bool)
    (v : Variable) : Reports 0 (checkReference p inside v : Analysis ρ Unit) := by
  unfold checkReference
  split_ifs
  · exact checkVariable_reports ..
  · exact .pure ()

theorem reportParameters_run (p : SetFunctionProcessor) (inside : Bool)
    (parameters : List (Variable × Variable)) (s : AnalyzerState ρ) :
    ∃ t, reportParameters p inside parameters s = (some (), t) ∧ s.reportCount ≤ t.reportCount := by
  induction parameters generalizing s with
  | nil => exact ⟨s, rfl, le_rfl⟩
  | cons parameter rest ih =>
    rw [reportParameters]
    split_ifs
    · exact ih s
    · rw [Check.bind_run]
      obtain ⟨t, ht, hle⟩ := ih { s with diagnostics := s.diagnostics ++ [_] }
      refine ⟨t, ht, le_trans ?_ hle⟩
      simp [AnalyzerState.reportCount]

@[grind ←] theorem checkParameters_reports (p : SetFunctionProcessor) (inside : Bool)
    (parameters : List (Variable × Variable)) :
    Reports 0 (checkParameters p inside parameters : Analysis ρ Unit) := by
  induction parameters with
  | nil => exact .pure ()
  | cons parameter rest ih =>
    rw [checkParameters]
    split_ifs
    · exact ih
    · have hrun : ∀ s : AnalyzerState ρ, ∃ t,
          (reportVariable inside >>= fun _ => reportParameters p inside rest >>= fun _ => fail) s
            = ((none : Option Unit), t) ∧ s.reportCount < t.reportCount := by
        intro s
        obtain ⟨t, ht, hle⟩ := reportParameters_run p inside rest
          { s with diagnostics := s.diagnostics ++ [_] }
        refine ⟨t, ?_, lt_of_lt_of_le ?_ hle⟩
        · rw [Check.bind_run]
          dsimp only [reportVariable, report, Check.modify]
          rw [Check.bind_run, ht]
          rfl
        · simp [AnalyzerState.reportCount]
      constructor
      · intro s t a h
        obtain ⟨u, hu, -⟩ := hrun s
        rw [hu] at h
        cases h
      · intro s t h
        obtain ⟨u, hu, hlt⟩ := hrun s
        rw [hu] at h
        cases h
        exact hlt

theorem replaceArguments_reports (p : SetFunctionProcessor) (arguments : List Scalar) :
    Reports 0 (replaceArguments p arguments : Analysis ρ _) := by
  induction arguments generalizing p with
  | nil => exact .pure _
  | cons e es ih =>
    exact .bind_zero streamVariable_reports fun _ => .bind_zero (ih _) fun _ => .pure _

@[grind ←] theorem consume_reports (p : SetFunctionProcessor) (function : AggregateDecl)
    (arguments : List Scalar) : Reports 0 (consume env p function arguments) := by
  refine .bind_zero (clearExpressionResolution_reports ..) fun _ => ?_
  refine .bind_zero (replaceArguments_reports ..) fun r => ?_
  dsimp only
  split
  · exact .pure _
  · exact .bind_zero streamVariable_reports fun _ => .pure _

variable (env) in
mutual

/-- The processor reports exactly when it fails. -/
theorem processSetFunctions_reports (inside : Bool) : ∀ (e : Scalar) (p : SetFunctionProcessor),
    Reports 0 (processSetFunctions env inside e p)
  | .immediate _ _, p => by unfold processSetFunctions; exact .pure _
  | .variableReference v, p => by
    unfold processSetFunctions
    exact .bind_zero (checkReference_reports p inside v) fun _ => .pure _
  | .cast _ _ operand, p => by
    unfold processSetFunctions
    exact .bind_zero (processSetFunctions_reports inside operand p) fun _ => .pure _
  | .unary _ operand, p => by
    unfold processSetFunctions
    exact .bind_zero (processSetFunctions_reports inside operand p) fun _ => .pure _
  | .binary _ left right, p => by
    unfold processSetFunctions
    exact .bind_zero (processSetFunctions_reports inside left p) fun l =>
      .bind_zero (processSetFunctions_reports inside right l.2) fun _ => .pure _
  | .compare _ left right, p => by
    unfold processSetFunctions
    exact .bind_zero (processSetFunctions_reports inside left p) fun l =>
      .bind_zero (processSetFunctions_reports inside right l.2) fun _ => .pure _
  | .match_ _ input pattern escape, p => by
    unfold processSetFunctions
    exact .bind_zero (processSetFunctions_reports inside input p) fun i =>
      .bind_zero (processSetFunctions_reports inside pattern i.2) fun t =>
        .bind_zero (processSetFunctions_reports inside escape t.2) fun _ => .pure _
  | .conditional alternatives default_, p => by
    unfold processSetFunctions
    exact .bind_zero (processAlternatives_reports inside alternatives p) fun as =>
      .bind_zero (processDefault_reports inside default_ as.2) fun _ => .pure _
  | .coalesce alternatives, p => by
    unfold processSetFunctions
    exact .bind_zero (processOperands_reports inside alternatives p) fun _ => .pure _
  | .let_ variables_ body, p => by
    unfold processSetFunctions
    exact .bind_zero (processLetVariables_reports inside variables_ p) fun vs =>
      .bind_zero (processSetFunctions_reports inside body vs.2) fun _ => .pure _
  | .functionCall _ arguments, p => by
    unfold processSetFunctions
    exact .bind_zero (processOperands_reports inside arguments p) fun _ => .pure _
  | .aggregateFunctionCall function arguments, p => by
    unfold processSetFunctions
    split_ifs
    · exact reject_reports ..
    · exact .bind_zero (processOperands_reports true arguments p) fun es =>
        consume_reports es.2 function es.1
  | .subquery _ parameters _, p => by
    unfold processSetFunctions
    exact .bind_zero (checkParameters_reports p inside parameters) fun _ => .pure _
  | .exists_ _ parameters, p => by
    unfold processSetFunctions
    exact .bind_zero (checkParameters_reports p inside parameters) fun _ => .pure _
  | .quantifiedCompare _ _ left _ parameters _, p => by
    unfold processSetFunctions
    exact .bind_zero (checkParameters_reports p inside parameters) fun _ =>
      .bind_zero (processSetFunctions_reports inside left p) fun _ => .pure _
termination_by structural e => e

theorem processOperands_reports (inside : Bool) : ∀ (es : List Scalar) (p : SetFunctionProcessor),
    Reports 0 (processOperands env inside es p)
  | [], p => by unfold processOperands; exact .pure _
  | e :: es, p => by
    unfold processOperands
    exact .bind_zero (processSetFunctions_reports inside e p) fun r =>
      .bind_zero (processOperands_reports inside es r.2) fun _ => .pure _
termination_by structural es => es

theorem processAlternatives_reports (inside : Bool) :
    ∀ (alternatives : List (Scalar × Scalar)) (p : SetFunctionProcessor),
      Reports 0 (processAlternatives env inside alternatives p)
  | [], p => by unfold processAlternatives; exact .pure _
  | (condition, body) :: rest, p => by
    unfold processAlternatives
    exact .bind_zero (processSetFunctions_reports inside condition p) fun c =>
      .bind_zero (processSetFunctions_reports inside body c.2) fun b =>
        .bind_zero (processAlternatives_reports inside rest b.2) fun _ => .pure _
termination_by structural alternatives => alternatives

theorem processDefault_reports (inside : Bool) :
    ∀ (e : Option Scalar) (p : SetFunctionProcessor), Reports 0 (processDefault env inside e p)
  | none, p => by unfold processDefault; exact .pure _
  | some e, p => by
    unfold processDefault
    exact .bind_zero (processSetFunctions_reports inside e p) fun _ => .pure _
termination_by structural e => e

theorem processLetVariables_reports (inside : Bool) :
    ∀ (variables_ : List (Variable × Scalar)) (p : SetFunctionProcessor),
      Reports 0 (processLetVariables env inside variables_ p)
  | [], p => by unfold processLetVariables; exact .pure _
  | (_, value) :: rest, p => by
    unfold processLetVariables
    exact .bind_zero (processSetFunctions_reports inside value p) fun e =>
      .bind_zero (processLetVariables_reports inside rest e.2) fun _ => .pure _
termination_by structural variables_ => variables_

end

theorem installOperator_reports (operator_ : Option Operator) (port : Graph) :
    Reports 0 (installOperator env operator_ port) := by
  unfold installOperator
  grind

theorem install_reports (p : SetFunctionProcessor) (port : Graph) :
    Reports 0 (install env p port) :=
  .bind_zero (installOperator_reports ..) fun _ => installOperator_reports ..

/-! ### Tables -/

theorem buildColumns_reports (escapeColumns includeSystemColumns : Bool) (info : RelationInfo)
    (columns : List Column) :
    Reports 0 (buildColumns env escapeColumns includeSystemColumns info columns) := by
  induction columns generalizing info with
  | nil => exact .pure info
  | cons column columns ih =>
    unfold buildColumns
    split_ifs
    · exact ih info
    · have hv : Reports 0 (columnVariable escapeColumns column : Analysis ρ Variable) := by
        unfold columnVariable
        grind
      exact .bind_zero hv fun v => .bind_zero (resolveAs_reports env v column) fun _ => ih _

@[grind ←] theorem buildRelationInfo_reports (table : Table)
    (escapeColumns includeSystemColumns : Bool) :
    Reports 0 (buildRelationInfo env table escapeColumns includeSystemColumns) :=
  buildColumns_reports ..

@[grind ←] theorem processTableReference_reports (table : Table) :
    Reports 0 (processTableReference env table) := by
  unfold processTableReference
  grind

@[grind ←] theorem processQueryReference_reports (query : QueryInfo) (relation : Name) :
    Reports 0 (processQueryReference env query relation) := by
  unfold processQueryReference
  grind

@[grind ←] theorem processRelationReference_reports (relation : Name) :
    Reports 0 (processRelationReference env relation) := by
  refine .bind_zero (analyzeRelationName_reports env relation) fun r => ?_
  cases r <;> grind

theorem renameColumns_reports (names : List SimpleName) (seen : List String)
    (columns : List ColumnInfo) : Reports 0 (renameColumns env names seen columns) := by
  induction names generalizing seen columns with
  | nil => cases columns <;> exact .pure _
  | cons name names ih =>
    cases columns with
    | nil => exact .pure _
    | cons column columns =>
      rw [renameColumns]
      split_ifs
      · exact reject_reports ..
      · exact .bind_zero (ih _ _) fun _ => .pure _

@[grind ←] theorem rebuildRelationInfo_reports (info : RelationInfo)
    (correlation : CorrelationClause) : Reports 0 (rebuildRelationInfo env info correlation) := by
  unfold rebuildRelationInfo
  dsimp only
  split_ifs
  · exact reject_reports ..
  · split
    · exact .pure _
    · exact .bind_zero (renameColumns_reports ..) fun _ => .pure _

@[grind ←] theorem addRelation_reports (info : RelationInfo) :
    Reports 0 (addRelation info : Analysis ρ Unit) :=
  modifyScope_reports _

theorem processTableExpressionReference_reports (name : Name)
    (correlation : Option CorrelationClause) :
    Reports 0 (processTableExpressionReference env name correlation) := by
  refine .bind_zero (processRelationReference_reports name) fun r => ?_
  have hc : Reports 0 (correlate env r.relation correlation) := by
    unfold correlate
    grind
  exact .bind_zero hc fun _ => .bind_zero (addRelation_reports _) fun _ => .pure _

theorem processTableSubquery_reports (isLateral : Bool) {q : QueryAction ρ}
    (hq : QueryReports n q) (correlation : CorrelationClause) :
    Reports n (processTableSubquery env isLateral q correlation) := by
  unfold processTableSubquery
  split_ifs
  · exact reject_reports ..
  · exact (withScope_reports _ (hq [] false)).bind fun r =>
      .bind_zero (rebuildRelationInfo_reports r.1.relation correlation) fun info =>
        .bind_zero (addRelation_reports info) fun _ => .pure _

/-! ### Joins and apply -/

/-- For every pivot a join specification reports `n` diagnostics when it succeeds. -/
abbrev JoinReports (n : Nat) (j : JoinAction ρ) : Prop := ∀ pivot, Reports n (j pivot)

theorem processJoinCondition_reports {e : ScalarAction ρ} (he : ScalarReports n e) :
    JoinReports n (processJoinCondition e) := by
  intro pivot
  refine ((analyzeScalarExpression_reports he _).bind fun r => (?_ : Reports 0 _)).of_eq n.add_zero
  grind

theorem processUsingColumn_reports (pivot : Nat) (name : SimpleName) :
    Reports 0 (processUsingColumn env pivot name) := by
  have hcolumn : ∀ side identifier columns,
      Reports 0 (usingColumn side identifier columns : Analysis ρ _) := by
    intro side identifier columns
    unfold usingColumn
    grind
  exact .bind_zero currentScope_reports fun _ => .bind_zero (hcolumn ..) fun _ =>
    .bind_zero (hcolumn ..) fun _ => .bind_zero (modifyScope_reports _) fun _ => .pure _

theorem processUsingColumns_reports (pivot : Nat) (result : Scalar) (names : List SimpleName) :
    Reports 0 (processUsingColumns env pivot result names) := by
  induction names generalizing result with
  | nil => exact .pure result
  | cons name names ih =>
    exact .bind_zero (processUsingColumn_reports pivot name) fun _ => ih _

theorem processJoinColumns_reports (columns : List SimpleName) :
    JoinReports 0 (processJoinColumns env columns) := by
  intro pivot
  cases columns with
  | nil => exact reject_reports ..
  | cons name names =>
    exact .bind_zero (processUsingColumn_reports pivot name) fun _ =>
      .bind_zero (processUsingColumns_reports pivot _ names) fun _ =>
        .bind_zero (resolve_reports env _ false) fun _ => .pure _

theorem processJoinExpression_reports (type : JoinType) {l r : Analysis ρ Graph} {i j : Nat}
    {specification : Option (JoinAction ρ)} (hl : Reports i l) (hr : Reports j r)
    (hs : ∀ x ∈ specification, JoinReports n x) (hn : specification = none → n = 0) :
    Reports (i + j + n) (processJoinExpression env type l r specification) := by
  have hjoin : ∀ kind natural transpose,
      Reports (i + j + n) (processJoin env kind natural transpose l r specification) := by
    intro kind natural transpose
    refine (hl.bind fun g => .bind_zero currentScope_reports fun scope => hr.bind fun h =>
      (?_ : Reports n _)).of_eq (Nat.add_assoc ..).symm
    cases natural with
    | true =>
      simp only [if_true]
      split_ifs <;> exact reject_reports ..
    | false =>
      simp only [Bool.false_eq_true, if_false]
      have hspec : Reports n (processSpecification scope.createPivot specification) := by
        cases specification with
        | none =>
          rw [hn rfl]
          exact .pure none
        | some x => exact (hs x rfl _).bind fun _ => .pure _
      refine (hspec.bind fun c => ?_).of_eq n.add_zero
      exact .bind_zero (resolveOperator_reports env _) fun _ => .pure _
  unfold processJoinExpression
  split
  · exact hjoin ..
  · exact reject_reports ..

theorem analyzeApplyArguments_reports {es : List (ScalarAction ρ)} (h : ScalarsReport ns es) :
    Reports ns.sum (analyzeApplyArguments env es) := by
  induction h with
  | nil => exact .pure []
  | cons he _ ih =>
    refine ((analyzeScalarExpression_reports he _).bind fun e =>
      .bind_zero (resolve_reports env e.1 false) fun type => ih.bind fun rest => .pure _).of_eq ?_
    rw [List.sum_cons, Nat.add_zero]

theorem applyColumnNames_reports (target : FunctionDecl) (returned : List String)
    (correlation : CorrelationClause) :
    Reports 0 (applyColumnNames env target returned correlation) := by
  have hnames : ∀ (names : List SimpleName) (seen : List String),
      Reports 0 (correlationNames env seen names) := by
    intro names
    induction names with
    | nil => exact fun _ => .pure []
    | cons name names ih =>
      intro seen
      rw [correlationNames]
      split_ifs
      · exact reject_reports ..
      · exact .bind_zero (ih _) fun _ => .pure _
  unfold applyColumnNames
  grind

theorem processApply_reports {operand : Analysis ρ Graph} (ho : Reports n operand)
    (type : Option ApplyType) (name : Name) {es : List (ScalarAction ρ)} (h : ScalarsReport ns es)
    (correlation : CorrelationClause) :
    Reports (n + ns.sum) (processApply env operand type name es correlation) := by
  refine ho.bind fun input => ((analyzeApplyArguments_reports h).bind fun args => (?_ : Reports 0 _))
  refine .bind_zero (analyzeFunctionName_reports ..) fun functions => ?_
  split
  · exact reject_reports ..
  · refine .bind_zero (resolveOverload_reports ..) fun target => ?_
    have hreturned : Reports 0 (returnedColumns target : Analysis ρ _) := by
      unfold returnedColumns
      dsimp only
      split
      · exact reject_reports ..
      · exact .pure _
      · exact reject_reports ..
    exact .bind_zero hreturned fun returned => .bind_zero (streamVariables_reports _) fun _ =>
      .bind_zero (applyColumnNames_reports ..) fun _ => .bind_zero (addRelation_reports _) fun _ =>
        .bind_zero (resolveOperator_reports env _) fun _ => .pure _

/-! ### The clauses of a query -/

theorem processFromElements_reports {ms : List (Analysis ρ Graph)}
    (h : List.Forall₂ Reports ns ms) (output : Graph) :
    Reports ns.sum (processFromElements env output ms) := by
  induction h generalizing output with
  | nil => exact .pure output
  | cons hm _ ih =>
    rw [List.sum_cons]
    exact hm.bind fun _ => .bind_zero (resolveOperator_reports env _) fun _ => ih _

theorem processFromClause_reports {ms : List (Analysis ρ Graph)}
    (h : List.Forall₂ Reports ns ms) : Reports ns.sum (processFromClause env ms) := by
  cases h with
  | nil =>
    exact .bind_zero (resolveOperator_reports env _) fun _ =>
      .bind_zero (addRelation_reports _) fun _ => .pure _
  | cons hm hms =>
    rw [List.sum_cons]
    exact hm.bind fun output => processFromElements_reports hms output

theorem processWhere_reports {where_ : Option (ScalarAction ρ)}
    (h : ∀ x ∈ where_, ScalarReports n x) (hn : where_ = none → n = 0) (output : Graph) :
    Reports n (processWhere env where_ output) := by
  cases where_ with
  | none =>
    rw [hn rfl]
    exact .pure output
  | some e =>
    refine ((analyzeScalarExpression_reports (h e rfl) _).bind fun r => ?_).of_eq n.add_zero
    grind

/-- From every processor a grouping element reports `n` diagnostics when it succeeds. -/
abbrev GroupingReports (n : Nat) (g : GroupingAction ρ) : Prop := ∀ p, Reports n (g p)

theorem processGroupingColumn_reports {e : ScalarAction ρ} (he : ScalarReports n e) :
    GroupingReports n (processGroupingColumn env e) := by
  intro p
  refine ((analyzeScalarExpression_reports he _).bind fun r => (?_ : Reports 0 _)).of_eq n.add_zero
  dsimp only
  split_ifs
  · exact reject_reports ..
  · refine .bind_zero (clearExpressionResolution_reports env r.1) fun _ => ?_
    split
    · exact .pure _
    · exact reject_reports ..

/-- The reports of the elements of a GROUP BY clause, one by one. -/
structure GroupingClauseReports (ns : List Nat) (groupBy : Option (List (GroupingAction ρ))) :
    Prop where
  some : ∀ gs ∈ groupBy, List.Forall₂ GroupingReports ns gs
  none : groupBy = none → ns = []

theorem processGroupBy_reports {groupBy : Option (List (GroupingAction ρ))}
    (h : GroupingClauseReports ns groupBy) : Reports ns.sum (processGroupBy groupBy) := by
  cases groupBy with
  | none =>
    rw [h.none rfl]
    exact .pure _
  | some gs =>
    have helements : ∀ p, Reports ns.sum (processGroupingElements p gs) := by
      have hgs := h.some gs rfl
      clear h
      induction hgs with
      | nil => exact fun p => .pure p
      | cons hg _ ih =>
        intro p
        rw [List.sum_cons]
        exact (hg p).bind fun q => ih q
    exact helements _

theorem processHaving_reports {having : Option (ScalarAction ρ)}
    (h : ∀ x ∈ having, ScalarReports n x) (hn : having = none → n = 0) (p : SetFunctionProcessor) :
    Reports n (processHaving env having p) := by
  cases having with
  | none =>
    rw [hn rfl]
    exact .pure _
  | some e =>
    refine ((analyzeScalarExpression_reports (h e rfl) _).bind fun r =>
      .bind_zero (processSetFunctions_reports env false r.1 p.activate) fun c =>
        .bind_zero (resolveOperator_reports env _) fun _ => .pure _).of_eq n.add_zero

/-- On every select list a select element reports `n` diagnostics when it succeeds. -/
abbrev SelectReports (n : Nat) (a : SelectAction ρ) : Prop := ∀ s, Reports n (a s)

theorem processSelectColumn_reports (value : ScalarExpression) {e : ScalarAction ρ}
    (he : ScalarReports n e) (name : Option SimpleName) :
    SelectReports n (processSelectColumn env value e name) := fun _ =>
  ((analyzeScalarExpression_reports he _).bind fun _ =>
    .bind_zero streamVariable_reports fun _ => .pure _).of_eq n.add_zero

theorem processSelectAsterisk_reports (qualifier : Option ScalarExpression) :
    SelectReports 0 (processSelectAsterisk env qualifier) := by
  intro s
  unfold processSelectAsterisk
  split
  · exact .bind_zero (analyzeRelationInfoName_reports env _) fun _ => .pure _
  · exact reject_reports ..
  · refine .bind_zero currentScope_reports fun scope => ?_
    split
    · exact reject_reports ..
    · exact .pure _

theorem processSelect_reports {es : List (SelectAction ρ)}
    (h : List.Forall₂ SelectReports ns es) : Reports ns.sum (processSelect env es) := by
  have helements : ∀ s, Reports ns.sum (processSelectElements s es) := by
    induction h with
    | nil => exact fun s => .pure s
    | cons he _ ih =>
      intro s
      rw [List.sum_cons]
      exact (he s).bind fun t => ih t
  refine ((helements _).bind fun s => ?_).of_eq (Nat.add_zero _)
  exact .bind_zero (resolveOperator_reports env _) fun _ => .pure s

theorem processDistinct_reports (quantifier : Option Ast.SetQuantifier) (info : RelationInfo) :
    Reports 0 (processDistinct env quantifier info) := by
  unfold processDistinct
  split
  · exact .bind_zero (resolveOperator_reports env _) fun _ => .pure _
  · exact .pure none

/-- The place of nulls in a sort element is reported. -/
def nullLocationReports (nullLocation : Option NullOrderingSpecification) : Nat :=
  if nullLocation.isSome then 1 else 0

theorem reportNullLocation_reports (nullLocation : Option NullOrderingSpecification) :
    Reports (nullLocationReports nullLocation) (reportNullLocation nullLocation : Analysis ρ Unit) := by
  cases nullLocation with
  | none => exact .pure ()
  | some _ => exact report_reports ..

/-- On every sort list a sort element reports `n` diagnostics when it succeeds. -/
abbrev SortReports (n : Nat) (spec : SortSpecification ρ) : Prop :=
  ∀ s, Reports n (processSortElement spec s)

theorem processSortElement_reports {e : ScalarAction ρ} (he : ScalarReports n e)
    (collation : Option Name) (direction : Option OrderingSpecification)
    (nullLocation : Option NullOrderingSpecification) :
    SortReports (nullLocationReports nullLocation + n) ⟨e, collation, direction, nullLocation⟩ := by
  intro s
  unfold processSortElement
  dsimp only
  split_ifs
  · exact reject_reports ..
  · refine (reportNullLocation_reports nullLocation).bind fun _ =>
      ((analyzeScalarExpression_reports he _).bind fun r => (?_ : Reports 0 _)).of_eq n.add_zero
    split
    · exact reject_reports ..
    · exact .bind_zero streamVariable_reports fun _ => .pure _

theorem processOrderBy_reports {specs : List (SortSpecification ρ)}
    (h : List.Forall₂ SortReports ns specs) : Reports ns.sum (processOrderBy env specs) := by
  have helements : ∀ s, Reports ns.sum (processSortElements s specs) := by
    induction h with
    | nil => exact fun s => .pure s
    | cons he _ ih =>
      intro s
      rw [List.sum_cons]
      exact (he s).bind fun t => ih t
  cases specs with
  | nil =>
    cases h
    exact .pure none
  | cons spec specs =>
    refine ((helements _).bind fun s => ?_).of_eq (Nat.add_zero _)
    exact .bind_zero (resolveOperator_reports env _) fun _ =>
      .bind_zero (resolveOperator_reports env _) fun _ => .pure _

theorem processLimit_reports {limit : Option (ScalarAction ρ)}
    (h : ∀ x ∈ limit, ScalarReports n x) (hn : limit = none → n = 0) (sorted : Bool) :
    Reports n (processLimit env limit sorted) := by
  cases limit with
  | none =>
    rw [hn rfl]
    exact .pure none
  | some e =>
    have hsize : ∀ e, Reports 0 (extractSize env e) := by
      intro e
      refine .bind_zero (clearExpressionResolution_reports env e) fun _ => ?_
      split
      · split
        · exact .pure _
        · exact reject_reports ..
      · exact reject_reports ..
    refine ((analyzeScalarExpression_reports (h e rfl) _).bind fun r =>
      .bind_zero (hsize r.1) fun count => ?_).of_eq n.add_zero
    split_ifs
    · exact .pure _
    · exact .bind_zero (resolveOperator_reports env _) fun _ => .pure _

theorem processColumns_reports (columns : List (Variable × Scalar)) (p : SetFunctionProcessor) :
    Reports 0 (processColumns env columns p) := by
  induction columns generalizing p with
  | nil => exact .pure _
  | cons column columns ih =>
    exact .bind_zero (processSetFunctions_reports env false column.2 p) fun r =>
      .bind_zero (ih _) fun _ => .pure _

theorem installSetFunctions_reports (p : SetFunctionProcessor) (entry : Graph) (b : QueryBlock) :
    Reports 0 (installSetFunctions env p entry b) := by
  unfold installSetFunctions
  split_ifs
  · refine .bind_zero (processColumns_reports b.columns p) fun c => ?_
    have hsort : Reports 0 (processSortColumns env b.sort c.2) := by
      unfold processSortColumns
      split
      · exact .pure _
      · exact .bind_zero (processColumns_reports ..) fun _ => .pure _
    refine .bind_zero hsort fun s => .bind_zero (install_reports s.2 entry) fun port =>
      .bind_zero (resolveOperator_reports env _) fun _ => ?_
    have hresolve : Reports 0 (resolveSort env s.1) := by
      unfold resolveSort
      split
      · exact .pure ()
      · exact resolveOperator_reports ..
    exact .bind_zero hresolve fun _ => .pure _
  · exact .pure _

/-- The reports of the parts of an optional clause. -/
structure OptionReports {β : Type} (P : Nat → β → Prop) (n : Nat) (o : Option β) : Prop where
  some : ∀ x ∈ o, P n x
  none : o = none → n = 0

theorem OptionReports.absent {β : Type} {P : Nat → β → Prop} :
    OptionReports P 0 (Option.none : Option β) :=
  ⟨fun _ h => (nomatch h), fun _ => rfl⟩

theorem OptionReports.present {β : Type} {P : Nat → β → Prop} {x : β} (h : P n x) :
    OptionReports P n (Option.some x) :=
  ⟨fun _ hx => Option.mem_some_iff.mp hx ▸ h, fun h => (nomatch h)⟩

theorem processQuery_reports {c : QueryClauses ρ} {elements from_ groupBy orderBy : List Nat}
    {where_ having limit : Nat} (hf : List.Forall₂ Reports from_ c.from_)
    (hw : OptionReports ScalarReports where_ c.where_)
    (hg : GroupingClauseReports groupBy c.groupBy) (hh : OptionReports ScalarReports having c.having)
    (he : List.Forall₂ SelectReports elements c.elements)
    (ho : List.Forall₂ SortReports orderBy c.orderBy)
    (hl : OptionReports ScalarReports limit c.limit) :
    Reports (from_.sum + where_ + groupBy.sum + having + elements.sum + orderBy.sum + limit)
      (processQuery env c) := by
  refine ((processFromClause_reports hf).bind fun f =>
    (processWhere_reports hw.some hw.none f).bind fun entry =>
    (processGroupBy_reports hg).bind fun p =>
    (processHaving_reports hh.some hh.none p).bind fun h =>
    (processSelect_reports he).bind fun select =>
    .bind_zero (processDistinct_reports c.quantifier select.info) fun distinct =>
    (processOrderBy_reports ho).bind fun sort =>
    (processLimit_reports hl.some hl.none sort.isSome).bind fun limit =>
    .bind_zero (installSetFunctions_reports _ entry _) fun output => .pure _).of_eq ?_
  omega

/-! ### Other query expressions -/

theorem inScope_reports {α : Type} (continueScope : Bool) {m : Analysis ρ α} (hm : Reports n m) :
    Reports n (inScope continueScope m) := by
  unfold inScope
  split_ifs
  · have hscope : Reports 0 (requireScope : Analysis ρ Unit) := by
      refine .bind_zero (.gets _) fun scopes => ?_
      cases scopes with
      | nil => exact reject_reports ..
      | cons scope scopes => exact .pure ()
    exact .bind_zero hscope fun _ => hm
  · exact (withScope_reports _ hm).bind fun _ => .pure _

theorem analyzeRow_reports {es : List (ScalarAction ρ)} (h : ScalarsReport ns es)
    (context : List ScalarValueContext) (index : Nat) :
    Reports ns.sum (analyzeRow context index es) := by
  induction h generalizing index with
  | nil => exact .pure []
  | cons he _ ih =>
    rw [List.sum_cons]
    exact (analyzeScalarExpression_reports he _).bind fun _ => (ih _).bind fun _ => .pure _

/-- In every context the elements of a row report `n` diagnostics when they are analyzed. -/
abbrev RowReports (n : Nat) (row : Option (List (ScalarAction ρ))) : Prop :=
  ∀ es ∈ row, ∀ context, Reports n (analyzeRow context 0 es)

theorem processTableValueConstructor_reports {elements : List (Option (List (ScalarAction ρ)))}
    (h : List.Forall₂ RowReports ns elements) (context : List ScalarValueContext) :
    Reports ns.sum (processTableValueConstructor env elements context) := by
  have hrows : Reports ns.sum (analyzeRows context elements) := by
    induction h with
    | nil => exact .pure []
    | @cons n row ns rows hrow _ ih =>
      cases row with
      | none => exact reject_reports ..
      | some es =>
        rw [List.sum_cons]
        exact (hrow es rfl context).bind fun _ => ih.bind fun _ => .pure _
  exact hrows.bind fun rows => .bind_zero (streamVariables_reports _) fun _ =>
    .bind_zero (resolveOperator_reports env _) fun _ => .pure _

theorem processSetOperation_reports (operation : SetOperation) (quantifier : Plan.SetQuantifier)
    (left right : Graph) (lefts rights : List ColumnInfo) :
    Reports 0 (processSetOperation env operation quantifier left right lefts rights) := by
  unfold processSetOperation
  split_ifs
  · exact reject_reports ..
  · cases operation with
    | union_ =>
      exact .bind_zero (streamVariables_reports _) fun _ =>
        .bind_zero (resolveOperator_reports env _) fun _ => .pure _
    | except => exact .pure _
    | intersect => exact .pure _

theorem processBinaryQuery_reports {l r : QueryAction ρ} (hl : QueryReports n l)
    (operator_ : QueryOperator) (quantifier : Option Ast.SetQuantifier) (corresponding : Bool)
    (hr : QueryReports k r) (context : List ScalarValueContext) :
    Reports (n + k) (processBinaryQuery env l operator_ quantifier corresponding r context) := by
  have hoperands : ∀ operation,
      Reports (n + k) (processOperandQueries env operation l r quantifier corresponding context) := by
    intro operation
    unfold processOperandQueries
    split_ifs
    · exact reject_reports ..
    · exact (hl _ _).bind fun _ => (hr _ _).bind fun _ => processSetOperation_reports ..
  cases operator_ with
  | union_ => exact hoperands _
  | except => exact hoperands _
  | intersect => exact hoperands _
  | outerUnion => exact reject_reports ..

/-- The query of a common table element reports `n` diagnostics when it succeeds. -/
abbrev CommonTableReports (n : Nat) (c : CommonTable ρ) : Prop := QueryReports n c.query

theorem declareCommonTable_reports (name : SimpleName) (columnNames : List SimpleName)
    (output : Graph) (columns : List ColumnInfo) :
    Reports 0 (declareCommonTable env name columnNames output columns) := by
  have hdeclared : ∀ (names : List SimpleName) (seen : List String),
      Reports 0 (declaredColumnNames env seen names) := by
    intro names
    induction names with
    | nil => exact fun _ => .pure []
    | cons name names ih =>
      intro seen
      rw [declaredColumnNames]
      split_ifs
      · exact reject_reports ..
      · exact .bind_zero (ih _) fun _ => .pure _
  have hnames : ∀ names, Reports 0 (commonTableColumnNames env columnNames names) := by
    intro names
    unfold commonTableColumnNames
    grind
  refine .bind_zero (hnames _) fun names => .bind_zero currentScope_reports fun scope => ?_
  split
  · exact modifyScope_reports _
  · exact reject_reports ..

theorem processWith_reports (isRecursive : Bool) {elements : List (CommonTable ρ)}
    (he : List.Forall₂ CommonTableReports ns elements) {q : QueryAction ρ} (hq : QueryReports n q)
    (context : List ScalarValueContext) :
    Reports (ns.sum + n) (processWith env isRecursive elements q context) := by
  have helements : Reports ns.sum (processCommonTables env elements) := by
    induction he with
    | nil => exact .pure ()
    | cons hc _ ih =>
      rw [List.sum_cons]
      exact ((withScope_reports _ (hc [] false)).bind fun r =>
        declareCommonTable_reports ..).bind fun _ => ih
  unfold processWith
  split_ifs
  · exact reject_reports ..
  · exact helements.bind fun _ => hq context true

end Mizugaki.Analyzer
