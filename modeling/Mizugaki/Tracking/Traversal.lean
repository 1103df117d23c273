import Mizugaki.Tracking.Engine

/-! The operators that the analysis of a syntax tree places. Those of EXCEPT and INTERSECT are only among
them when these are written somewhere in the tree. -/

namespace Mizugaki.Analyzer

open Mizugaki.Ast Mizugaki.Plan Mizugaki.Control

/-- No EXCEPT or INTERSECT among set operations, unless their operators are listed. -/
def Admits (merging : Prop) (operations : List QueryOperator) : Prop :=
  ∀ o ∈ operations, o.isDifference = true → merging

namespace Admits

variable {merging : Prop} {os ps : List QueryOperator}

theorem append (h : Admits merging (os ++ ps)) : Admits merging os ∧ Admits merging ps :=
  List.forall_mem_append.mp h

end Admits

variable {ρ : Type} {env : Environment ρ} {merging : Prop}
  {J : List Operator → AnalyzerState ρ → AnalyzerState ρ → Prop} (T : Tracks env merging J)
  [Numbering (J [])] [Resolving env (J [])] [Placing env (J [])]

include T

omit [Placing env (J [])] in
theorem processed_tracked {a : ScalarAction ρ} (h : ScalarTracked J a) :
    ScalarTracked J fun context => process env (a context) :=
  fun context => process_tracked T (h context)

omit T [Numbering (J [])] [Resolving env (J [])] [Placing env (J [])] in
theorem rejected_tracked {a : ScalarAction ρ} {message : List Fragment}
    (h : ∀ context, a context = reject .unsupportedFeature message) : ScalarTracked J a := by
  intro context s t e hrun
  rw [h] at hrun
  cases hrun

/-- The operators of a syntax tree. -/
theorem tracked_induction : SyntaxInduction
    (fun e => Admits merging e.setOperations → ScalarTracked J (scalar env e))
    (fun q => Admits merging q.setOperations → QueryTracked J (query env q))
    (fun t => Admits merging t.setOperations → TableTracked J (tableExpression env t))
    (fun e => Admits merging e.setOperations → SelectTracked J (selectElement env e))
    (fun g => Admits merging g.setOperations → GroupingTracked J (groupingElement env g))
    (fun j => Admits merging j.setOperations → JoinTracked J (joinSpecification env j)) where
  literal value _ := processed_tracked T fun _ => analyzeLiteral_tracked ..
  variableReference name _ := processed_tracked T fun _ => analyzeVariableName_tracked T name
  hostParameter name _ := processed_tracked T fun _ => findPlaceholder_tracked ..
  case_ ho hw hd h := by
    rw [ScalarExpression.setOperations] at h
    obtain ⟨hoperand, h⟩ := h.append
    obtain ⟨hclauses, hdefault⟩ := h.append
    have ho := Compositional.of_scalarOption fun e he =>
      ho e he (forall_setOperationsOption.mp hoperand e he)
    have hd := Compositional.of_scalarOption fun e he =>
      hd e he (forall_setOperationsOption.mp hdefault e he)
    refine processed_tracked T (processCase_tracked T ho ?_ hd)
    rw [scalarPairs_eq]
    exact List.forall_mem_map.mpr fun p hp =>
      ⟨(hw p hp).1 (forall_setOperationsPairs.mp hclauses p hp).1,
        (hw p hp).2 (forall_setOperationsPairs.mp hclauses p hp).2⟩
  cast operator_ type ho h := by
    rw [ScalarExpression.setOperations] at h
    exact processed_tracked T fun _ => processCast_tracked T (ho h) operator_ type
  unary operator_ ho h := by
    rw [ScalarExpression.setOperations] at h
    exact processed_tracked T fun _ => processUnary_tracked T (ho h) operator_
  binary operator_ hl hr h := by
    rw [ScalarExpression.setOperations] at h
    exact processed_tracked T fun _ =>
      processBinary_tracked T (hl h.append.1) (hr h.append.2) operator_ _
  extract field digits ho h := by
    rw [ScalarExpression.setOperations] at h
    exact processed_tracked T fun _ => processExtract_tracked T (ho h) field digits
  valueConstructor _ _ _ := processed_tracked T (rejected_tracked fun _ => rfl)
  subquery kind hq h := by
    rw [ScalarExpression.setOperations] at h
    exact processed_tracked T fun _ => processSubquery_tracked T (hq h) kind
  comparison operator_ hl hr h := by
    rw [ScalarExpression.setOperations] at h
    exact processed_tracked T fun _ =>
      processComparison_tracked T (hl h.append.1) (hr h.append.2) operator_
  quantified operator_ quantifier hl hr h := by
    rw [ScalarExpression.setOperations] at h
    exact processed_tracked T fun _ =>
      quantifiedCompare_tracked T (hl h.append.1) (hr h.append.2) _ _
  between isNot operator_ ht hl hr h := by
    rw [ScalarExpression.setOperations] at h
    obtain ⟨htarget, h⟩ := h.append
    exact processed_tracked T fun _ =>
      processBetween_tracked T (ht htarget) (hl h.append.1) (hr h.append.2) isNot operator_
  in_ isNot hl hv hr h := by
    rw [ScalarExpression.setOperations] at h
    refine processed_tracked T fun _ =>
      processIn_tracked T (hl h.append.1) (Compositional.of_inValues ?_) (hr h.append.2) isNot
    rintro elements rfl e he
    have hright := h.append.2
    rw [QueryExpression.setOperations] at hright
    exact hv elements rfl e he (forall_setOperationsScalars.mp hright e he)
  patternMatch isNot operator_ hi hp he h := by
    rw [ScalarExpression.setOperations] at h
    obtain ⟨hinput, h⟩ := h.append
    obtain ⟨hpattern, hescape⟩ := h.append
    exact processed_tracked T fun _ =>
      processPatternMatch_tracked T (hi hinput) (hp hpattern) (Compositional.of_scalarOption
        fun e hmem => he e hmem (forall_setOperationsOption.mp hescape e hmem)) isNot operator_
  tablePredicate operator_ hq h := by
    rw [ScalarExpression.setOperations] at h
    exact processed_tracked T fun _ => processTablePredicate_tracked T (hq h) operator_
  function name ha h := by
    rw [ScalarExpression.setOperations] at h
    exact processed_tracked T fun _ => processFunctionInvocation_tracked T
      (Compositional.of_scalars fun e he => ha e he (forall_setOperationsScalars.mp h e he)) name
  builtinFunction kind ha h := by
    rw [ScalarExpression.setOperations] at h
    exact processed_tracked T fun _ => processBuiltinFunction_tracked T
      (Compositional.of_scalars fun e he => ha e he (forall_setOperationsScalars.mp h e he)) kind
  builtinSetFunction kind quantifier ha h := by
    rw [ScalarExpression.setOperations] at h
    exact processed_tracked T fun _ => processBuiltinSetFunction_tracked T
      (Compositional.of_scalars fun e he => ha e he (forall_setOperationsScalars.mp h e he))
      kind quantifier
  placeholder index _ := processed_tracked T fun _ => findPlaceholder_tracked ..
  unsupported _ _ := processed_tracked T (rejected_tracked fun _ => rfl)
  query quantifier he hf hw hg hh ho hl h := by
    rw [QueryExpression.setOperations] at h
    obtain ⟨helements, h⟩ := h.append
    obtain ⟨hfrom, h⟩ := h.append
    obtain ⟨hwhere, h⟩ := h.append
    obtain ⟨hgroupBy, h⟩ := h.append
    obtain ⟨hhaving, h⟩ := h.append
    obtain ⟨horderBy, hlimit⟩ := h.append
    intro context continueScope
    refine inScope_tracked T (processQuery_tracked T (Compositional.of_clauses quantifier
      (fun e hmem => he e hmem (forall_setOperationsElements.mp helements e hmem))
      (fun t hmem => hf t hmem (forall_setOperationsTables.mp hfrom t hmem))
      (fun e hmem => hw e hmem (forall_setOperationsOption.mp hwhere e hmem))
      (fun es hes g hmem => hg es hes g hmem
        (forall_setOperationsGroupBy.mp hgroupBy es hes g hmem))
      (fun e hmem => hh e hmem (forall_setOperationsOption.mp hhaving e hmem))
      (fun e hmem => ho e hmem ?_)
      (fun e hmem => hl e hmem (forall_setOperationsOption.mp hlimit e hmem)))) continueScope
    have hkey := forall_setOperationsSort.mp horderBy e hmem
    cases e with
    | mk key collation direction nullLocation =>
      rw [SortElement.setOperations] at hkey
      exact hkey
  relationReference name _ _ continueScope :=
    inScope_tracked T (processRelationReference_tracked T name) continueScope
  values he h := by
    rw [QueryExpression.setOperations] at h
    intro context continueScope
    refine inScope_tracked T (processTableValueConstructor_tracked T
      (Compositional.of_rows fun e hmem row hrow x hx => he e hmem row hrow x hx ?_) context)
      continueScope
    have helement := forall_setOperationsScalars.mp h e hmem
    rw [hrow, ScalarExpression.setOperations] at helement
    exact forall_setOperationsScalars.mp helement x hx
  binaryQuery operator_ quantifier corresponding hl hr h := by
    rw [QueryExpression.setOperations] at h
    obtain ⟨hoperator, h⟩ := List.forall_mem_cons.mp h
    obtain ⟨hleft, hright⟩ := List.forall_mem_append.mp h
    exact fun context _ => processBinaryQuery_tracked T (hl hleft) (hr hright) hoperator quantifier
      _ context
  with_ isRecursive he hq h := by
    rw [QueryExpression.setOperations] at h
    obtain ⟨helements, hexpression⟩ := h.append
    intro context continueScope
    refine inScope_tracked T (processWith_tracked T ?_ (hq hexpression) isRecursive context)
      continueScope
    rw [withElements_eq]
    refine List.forall_mem_map.mpr fun e hmem => he e hmem ?_
    have helement := forall_setOperationsWith.mp helements e hmem
    cases e with
    | mk name columnNames expression =>
      rw [WithElement.setOperations] at helement
      exact helement
  selectColumn name hv h := by
    rw [SelectElement.setOperations] at h
    exact processSelectColumn_tracked T (hv h) _ name
  selectAsterisk qualifier _ := processSelectAsterisk_tracked T qualifier
  groupingColumn _ hc h := by
    rw [GroupingElement.setOperations] at h
    exact processGroupingColumn_tracked T (hc h)
  tableReference _ name correlation _ := processTableExpressionReference_tracked T name correlation
  unnest _ _ _ _ := by
    intro s t g hrun
    cases hrun
  join type hl hr hj h := by
    rw [TableExpression.setOperations] at h
    obtain ⟨hleft, h⟩ := h.append
    obtain ⟨hright, hspecification⟩ := h.append
    refine processJoinExpression_tracked T (hl hleft) (hr hright) ?_ type
    rw [specificationOption_eq]
    exact Compositional.of_option fun j hmem =>
      hj j hmem (forall_setOperationsSpecification.mp hspecification j hmem)
  tableSubquery isLateral correlation hq h := by
    rw [TableExpression.setOperations] at h
    exact processTableSubquery_tracked T (hq h) isLateral correlation
  apply type name correlation ho ha h := by
    rw [TableExpression.setOperations] at h
    exact processApply_tracked T (ho h.append.1) (Compositional.of_scalars fun e he =>
      ha e he (forall_setOperationsScalars.mp h.append.2 e he)) type name correlation
  joinCondition hc h := by
    rw [JoinSpecification.setOperations] at h
    exact processJoinCondition_tracked T (hc h)
  joinColumns columns _ := processJoinColumns_tracked T columns

/-- The operators of a query that was analyzed. -/
theorem query_tracked {q : QueryExpression} (h : Admits merging q.setOperations) :
    QueryTracked J (query env q) := (tracked_induction T).queryExpression q h

end Mizugaki.Analyzer
