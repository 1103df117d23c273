import Mizugaki.Analyzer.QuerySimulation
import Mizugaki.Analyzer.Statement

/-! Statements that read and write over an expression analyzer that notes more than another one. -/

namespace Mizugaki.Analyzer

open Mizugaki.Ast Mizugaki.Plan Mizugaki.Control

variable {ρ σ : Type} {f : σ → ρ}

/-! ### Tables to write -/

@[grind ←] theorem computeWriteType_over (result : WriteKind) (saw : Bool)
    (options : List InsertStatementOption) :
    Simulated f (computeWriteType result saw options) (computeWriteType result saw options) := by
  induction options generalizing result saw with
  | nil => exact .pure _
  | cons o os ih =>
    unfold computeWriteType
    grind

@[grind ←] theorem buildWriteKeys_over (target : WriteTarget) :
    Simulated f (buildWriteKeys target) (buildWriteKeys target) := by
  unfold buildWriteKeys
  grind

section

variable (env : Environment ρ) (a : ExpressionAnalyzer σ)

@[grind ←] theorem namedDestinations_over (target : WriteTarget) (saw : List Nat)
    (names : List SimpleName) :
    Simulated f (namedDestinations (env.over a) target saw names)
      (namedDestinations env target saw names) := by
  induction names generalizing saw with
  | nil => exact .pure _
  | cons name names ih =>
    simp only [namedDestinations, identifierOf_over]
    grind

@[grind ←] theorem destinationColumns_over (target : WriteTarget) (columns : List SimpleName) :
    Simulated f (destinationColumns (env.over a) target columns)
      (destinationColumns env target columns) := by
  unfold destinationColumns
  grind

@[grind ←] theorem processInsertDefaultValues_over (target : WriteTarget)
    (options : List InsertStatementOption) :
    Simulated f (processInsertDefaultValues (env.over a) target options)
      (processInsertDefaultValues env target options) := by
  unfold processInsertDefaultValues
  grind

@[grind ←] theorem processInsertColumns_over (target : WriteTarget) (destinations : List Column)
    (options : List InsertStatementOption) (output : Graph) (columns : List ColumnInfo) :
    Simulated f (processInsertColumns (env.over a) target destinations options output columns)
      (processInsertColumns env target destinations options output columns) := by
  unfold processInsertColumns
  grind

@[grind ←] theorem updateTarget_over (target : WriteTarget) (saw : List Nat) (name : Name) :
    Simulated f (updateTarget (env.over a) target saw name) (updateTarget env target saw name) := by
  cases name with
  | qualified q last => exact reject_over _ _
  | simple name =>
    simp only [updateTarget, identifierOf_over]
    grind

end

section

variable (env : Environment ρ) {a : ExpressionAnalyzer σ}
  [follows : a.Follows f env.expressionAnalyzer]

@[grind ←] theorem extractTable_over (tableName : Name) (aliasName : Option SimpleName) :
    Simulated f (extractTable (env.over a) tableName aliasName)
      (extractTable env tableName aliasName) := by
  refine (analyzeDeclName_over env a _ _ _ tableName true).bind fun found => ?_
  cases found with
  | none => exact fail_over
  | some target =>
    refine (buildRelationInfo_over env target.2 true true).bind fun info => ?_
    cases info.primaryIndex with
    | none => exact reject_over _ _
    | some index => cases aliasName <;> exact .pure _

theorem scalar_over (e : ScalarExpression) :
    ScalarSimulated f (scalar (env.over a) e) (scalar env e) :=
  (simulated_induction env).scalar e

@[grind ←] theorem scanAndFilter_over (target : WriteTarget) (where_ : Option ScalarExpression) :
    Simulated f (scanAndFilter (env.over a) target where_) (scanAndFilter env target where_) := by
  cases where_ with
  | none => exact .pure _
  | some e =>
    refine (analyzeScalarExpression_over (scalar_over env e) _).bind fun ⟨predicate, saw⟩ => ?_
    cases saw with
    | true => exact reject_over _ _
    | false => exact .pure _

@[grind ←] theorem processSetElements_over (target : WriteTarget) (saw : List Nat)
    (elements : List SetElement) :
    Simulated f (processSetElements (env.over a) target saw elements)
      (processSetElements env target saw elements) := by
  induction elements generalizing saw with
  | nil => exact .pure _
  | cons element elements ih =>
    exact (updateTarget_over env a _ _ _).bind fun _ => streamVariable_over.bind fun _ =>
      (analyzeScalarExpression_over (scalar_over env element.value) _).bind fun _ =>
        (ih _).bind fun _ => .pure _

/-! ### Statements -/

theorem processSelectStatement_over (expression : QueryExpression) (targets : List Name) :
    Simulated f (processSelectStatement (env.over a) expression targets)
      (processSelectStatement env expression targets) := by
  cases targets with
  | nil => exact (analyzeQueryExpression_over env expression []).bind fun _ => .pure _
  | cons target targets => exact reject_over _ _

theorem processInsertStatement_over (tableName : Name) (columns : List SimpleName)
    (expression : Option QueryExpression) (options : List InsertStatementOption) :
    Simulated f (processInsertStatement (env.over a) tableName columns expression options)
      (processInsertStatement env tableName columns expression options) := by
  refine (extractTable_over env tableName none).bind fun target =>
    (destinationColumns_over env a target columns).bind fun destinations => ?_
  cases expression with
  | none => exact processInsertDefaultValues_over env a target options
  | some expression =>
    exact (analyzeQueryExpression_over env expression _).bind fun _ =>
      processInsertColumns_over env a _ _ _ _ _

theorem processUpdateStatement_over (tableName : Name) (aliasName : Option SimpleName)
    (elements : List SetElement) (where_ : Option ScalarExpression) :
    Simulated f (processUpdateStatement (env.over a) tableName aliasName elements where_)
      (processUpdateStatement env tableName aliasName elements where_) := by
  cases elements with
  | nil => exact reject_over _ _
  | cons element elements =>
    refine (extractTable_over env tableName aliasName).bind fun target =>
      (withScope_over _ ?_).bind fun _ => .pure _
    exact (scanAndFilter_over env target where_).bind fun _ =>
      (buildWriteKeys_over target).bind fun _ =>
        (processSetElements_over env target [] _).bind fun _ => .pure _

theorem processDeleteStatement_over (tableName : Name) (aliasName : Option SimpleName)
    (where_ : Option ScalarExpression) :
    Simulated f (processDeleteStatement (env.over a) tableName aliasName where_)
      (processDeleteStatement env tableName aliasName where_) := by
  refine (extractTable_over env tableName aliasName).bind fun target =>
    (withScope_over _ ?_).bind fun _ => .pure _
  exact (scanAndFilter_over env target where_).bind fun _ =>
    (buildWriteKeys_over target).bind fun _ => .pure _

end

end Mizugaki.Analyzer
