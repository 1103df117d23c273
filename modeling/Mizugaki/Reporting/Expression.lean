import Mizugaki.Analyzer.Scalar
import Mizugaki.Analyzer.SetFunction
import Mizugaki.Reporting.Basic

/-! Reports of scalar expressions: those of the operands, and one for a cast operator that
is not supported, after which the analysis goes on. -/

namespace Mizugaki.Analyzer

open Mizugaki.Ast Mizugaki.Plan Mizugaki.Control

variable {ρ : Type} (env : Environment ρ)

/-- In every context the analysis of a scalar expression reports `n` diagnostics when it succeeds. -/
abbrev ScalarReports (n : Nat) (e : ScalarAction ρ) : Prop := ∀ context, Reports n (e context)

/-- In every context the analysis of a query reports `n` diagnostics when it succeeds. -/
abbrev QueryReports (n : Nat) (q : QueryAction ρ) : Prop :=
  ∀ context continueScope, Reports n (q context continueScope)

/-- The reports of a list of expressions, one by one. -/
abbrev ScalarsReport (ns : List Nat) (es : List (ScalarAction ρ)) : Prop :=
  List.Forall₂ ScalarReports ns es

variable {env} {n k : Nat} {ns : List Nat} {e : ScalarAction ρ} {es : List (ScalarAction ρ)}
  {q : QueryAction ρ}

theorem process_reports {m : Analysis ρ Scalar} (hm : Reports n m) :
    Reports n (process env m) := by
  refine (hm.bind fun e => ?_).of_eq n.add_zero
  split_ifs
  · exact .bind_zero (resolve_reports env e true) fun _ => .pure e
  · exact .pure e

theorem analyzeScalarExpression_reports (he : ScalarReports n e) (context : ValueContext) :
    Reports n (analyzeScalarExpression e context) := by
  refine .bind_zero (.gets _) fun saved => .bind_zero (modify_reports fun _ => rfl) fun _ => ?_
  refine ((he context).bind fun value => ?_).of_eq n.add_zero
  refine .bind_zero (.gets _) fun sawAggregate => ?_
  exact .bind_zero (modify_reports fun _ => rfl) fun _ => .pure (value, sawAggregate)

theorem option_reports {e : Option (ScalarAction ρ)} (context : ValueContext)
    (he : ∀ x ∈ e, ScalarReports n x) (hn : e = none → n = 0) :
    Reports n (Check.option (e.map (· context))) := by
  cases e with
  | none =>
    rw [hn rfl]
    exact .pure none
  | some x => exact ((he x rfl context).bind fun a => .pure (some a)).of_eq n.add_zero

theorem analyzeAll_reports (h : ScalarsReport ns es) : Reports ns.sum (analyzeAll es) := by
  induction h with
  | nil => exact .pure []
  | cons he _ ih =>
    refine ((he .unspecified).bind fun e => ih.bind fun es => .pure (e :: es)).of_eq ?_
    rw [List.sum_cons, Nat.add_zero]

theorem analyzeArguments_reports (h : ScalarsReport ns es) :
    Reports ns.sum (analyzeArguments env es) := by
  induction h with
  | nil => exact .pure []
  | cons he _ ih =>
    refine ((he .unspecified).bind fun e => .bind_zero (resolve_reports env e false) fun type =>
      ih.bind fun rest => .pure ((e, type) :: rest)).of_eq ?_
    rw [List.sum_cons, Nat.add_zero]

/-! ### References, case and cast -/

@[grind ←] theorem findPlaceholder_reports (identifier : String) (message : List Fragment) :
    Reports 0 (findPlaceholder env identifier message) := by
  unfold findPlaceholder
  grind

theorem processHostParameter_reports (name : SimpleName) :
    Reports 0 (processHostParameter env name) :=
  findPlaceholder_reports ..

theorem processPlaceholder_reports (index : Nat) : Reports 0 (processPlaceholder env index) :=
  findPlaceholder_reports ..

/-- The reports of the when clauses of a case expression: of the condition and of the result of
each. -/
abbrev PairsReport (ns : List (Nat × Nat)) (clauses : List (ScalarAction ρ × ScalarAction ρ)) :
    Prop :=
  List.Forall₂ (fun n c => ScalarReports n.1 c.1 ∧ ScalarReports n.2 c.2) ns clauses

/-- The number of reports of a list of pairs. -/
def pairSum (ns : List (Nat × Nat)) : Nat := (ns.map fun n => n.1 + n.2).sum

theorem processWhenClauses_reports {ns : List (Nat × Nat)}
    {clauses : List (ScalarAction ρ × ScalarAction ρ)} (h : PairsReport ns clauses)
    (variable_ : Option Variable) (context : ValueContext) :
    Reports (pairSum ns) (processWhenClauses variable_ context clauses) := by
  induction h with
  | nil => exact .pure []
  | cons hc _ ih =>
    refine ((hc.1 .unspecified).bind fun w => (hc.2 context).bind fun t =>
      ih.bind fun rest => .pure _).of_eq ?_
    simp only [pairSum, List.map_cons, List.sum_cons]
    omega

theorem processCase_reports {operand default_ : Option (ScalarAction ρ)} {d : Nat}
    {ns : List (Nat × Nat)} {clauses : List (ScalarAction ρ × ScalarAction ρ)}
    (ho : ∀ x ∈ operand, ScalarReports n x) (hn : operand = none → n = 0)
    (hc : PairsReport ns clauses) (hd : ∀ x ∈ default_, ScalarReports d x)
    (hd0 : default_ = none → d = 0) (context : ValueContext) :
    Reports (n + pairSum ns + d) (processCase operand clauses default_ context) := by
  cases clauses with
  | nil => exact reject_reports ..
  | cons c cs =>
    cases operand with
    | none =>
      refine ((processWhenClauses_reports hc none context).bind fun as =>
        (option_reports context hd hd0).bind fun x => .pure _).of_eq ?_
      rw [hn rfl]
      omega
    | some x =>
      refine ((ho x rfl .unspecified).bind fun value => .bind_zero localVariable_reports fun v =>
        (processWhenClauses_reports hc (some v) context).bind fun as =>
          (option_reports context hd hd0).bind fun y => .pure _).of_eq ?_
      omega

/-- A cast operator other than `CAST` is reported. -/
def castReports (operator_ : CastOperator) : Nat := if operator_ = .cast then 0 else 1

theorem reportCastOperator_reports (operator_ : CastOperator) :
    Reports (castReports operator_) (reportCastOperator operator_ : Analysis ρ Unit) := by
  cases operator_ with
  | cast => exact .pure ()
  | treat => exact report_reports ..
  | generalize => exact report_reports ..

theorem processCast_reports (operator_ : CastOperator) (he : ScalarReports n e) (type : TypeNode) :
    Reports (castReports operator_ + n) (processCast env operator_ e type) := by
  refine ((reportCastOperator_reports operator_).bind fun _ => (he .unspecified).bind fun e =>
    .bind_zero (analyzeType_reports env type) fun t => .pure _).of_eq ?_
  rw [Nat.add_zero]

/-! ### Operators and predicates -/

theorem processUnary_reports (operator_ : Ast.UnaryOperator) (he : ScalarReports n e) :
    Reports n (processUnary operator_ e) := by
  have hop : Reports 0 (convertUnaryOperator operator_ : Analysis ρ _) := by
    cases operator_ <;> first | exact .pure _ | exact reject_reports ..
  exact .bind_zero hop fun op => (he .unspecified).bind fun e => .pure (Scalar.unary op e)

theorem processIs_reports (he : ScalarReports n e) (isNot : Bool) (right : ScalarExpression) :
    Reports n (processIs e isNot right) := by
  cases right
  case literalExpression literal =>
    have hop : Reports 0 (convertIsRight literal : Analysis ρ _) := by
      unfold convertIsRight
      grind
    refine .bind_zero hop fun op => ((he .unspecified).bind fun e => ?_).of_eq n.add_zero
    exact .pure _
  all_goals exact reject_reports ..

/-- The operand on the right of `IS` is not analyzed. -/
def binaryReports (operator_ : Ast.BinaryOperator) (left right : Nat) : Nat :=
  match operator_ with
  | .is | .isNot => left
  | _ => left + right

theorem processBinary_reports {r : ScalarAction ρ} (he : ScalarReports n e)
    (operator_ : Ast.BinaryOperator) (right : ScalarExpression) (hr : ScalarReports k r) :
    Reports (binaryReports operator_ n k) (processBinary e operator_ right r) := by
  have hop : Reports 0 (convertBinaryOperator operator_ : Analysis ρ _) := by
    unfold convertBinaryOperator
    grind
  have hoperands : Reports (n + k) (convertBinaryOperator operator_ >>= fun op =>
      e .unspecified >>= fun l => r .unspecified >>= fun r => pure (Scalar.binary op l r)) :=
    .bind_zero hop fun op => (he .unspecified).bind fun l =>
      (hr .unspecified).bind fun r => .pure (Scalar.binary op l r)
  cases operator_
  case is => exact processIs_reports he false right
  case isNot => exact processIs_reports he true right
  all_goals exact hoperands

theorem processComparison_reports {r : ScalarAction ρ} (he : ScalarReports n e)
    (operator_ : Ast.ComparisonOperator) (hr : ScalarReports k r) :
    Reports (n + k) (processComparison e operator_ r) :=
  (he .unspecified).bind fun _ => (hr .unspecified).bind fun _ => .pure _

theorem processBetween_reports {l r : ScalarAction ρ} {i j : Nat} (he : ScalarReports n e)
    (isNot : Bool) (operator_ : Option BetweenOperator) (hl : ScalarReports i l)
    (hr : ScalarReports j r) : Reports (n + i + j) (processBetween e isNot operator_ l r) := by
  refine ((he .unspecified).bind fun t => (hl .unspecified).bind fun l =>
    (hr .unspecified).bind fun r => (?_ : Reports 0 _)).of_eq (by omega)
  dsimp only
  split
  · exact .bind_zero localVariable_reports fun _ => .bind_zero localVariable_reports fun _ =>
      .bind_zero localVariable_reports fun _ => .pure _
  · exact .bind_zero localVariable_reports fun _ => .pure _

theorem processPatternMatch_reports {pattern : ScalarAction ρ} {escape : Option (ScalarAction ρ)}
    {i j : Nat} (he : ScalarReports n e) (isNot : Bool) (operator_ : PatternMatchOperator)
    (hp : ScalarReports i pattern) (hs : ∀ x ∈ escape, ScalarReports j x)
    (hs0 : escape = none → j = 0) :
    Reports (n + i + j) (processPatternMatch e isNot operator_ pattern escape) := by
  refine ((he .unspecified).bind fun t => (hp .unspecified).bind fun l =>
    (option_reports .unspecified hs hs0).bind fun r => (?_ : Reports 0 _)).of_eq (by omega)
  exact .pure _

/-! ### Functions -/

@[grind ←] theorem resolveOverload_reports {δ : Type} (o : Overload δ) (left : δ) (rest : List δ) :
    Reports 0 (resolveOverload env o left rest) := by
  induction rest generalizing left with
  | nil => exact .pure left
  | cons right rest ih =>
    unfold resolveOverload
    grind

@[grind ←] theorem callAggregate_reports (function : AggregateDecl) (arguments : List Scalar) :
    Reports 0 (callAggregate function arguments : Analysis ρ Scalar) :=
  .bind_zero (modify_reports fun _ => rfl) fun _ => .pure _

theorem processFunctionInvocation_reports (name : Name) (h : ScalarsReport ns es) :
    Reports ns.sum (processFunctionInvocation env name es) := by
  refine ((analyzeArguments_reports h).bind fun args => (?_ : Reports 0 _)).of_eq (Nat.add_zero _)
  refine .bind_zero (analyzeFunctionName_reports env name es.length) fun functions => ?_
  split
  · grind
  · refine .bind_zero (analyzeAggregationName_reports env name es.length) fun aggregates => ?_
    grind

theorem processNullif_reports (h : ScalarsReport ns es) :
    Reports ns.sum (processNullif env es) := by
  rcases h with _ | ⟨hl, _ | ⟨hr, _ | ⟨h₃, h⟩⟩⟩
  · exact reject_reports ..
  · exact reject_reports ..
  · refine ((hl .unspecified).bind fun l => (hr .unspecified).bind fun r =>
      .bind_zero (resolve_reports env l false) fun type =>
        .bind_zero localVariable_reports fun v => .pure _).of_eq ?_
    simp
  · exact reject_reports ..

theorem processCoalesce_reports (h : ScalarsReport ns es) :
    Reports ns.sum (processCoalesce es) := by
  cases es with
  | nil => exact reject_reports ..
  | cons e es => exact (analyzeAll_reports h).bind fun _ => .pure _

theorem processDeclaredBuiltin_reports (function : BuiltinFunctionKind) (h : ScalarsReport ns es) :
    Reports ns.sum (processDeclaredBuiltin env function es) := by
  refine ((analyzeArguments_reports h).bind fun args => (?_ : Reports 0 _)).of_eq (Nat.add_zero _)
  dsimp only
  split
  · exact reject_reports ..
  · exact .bind_zero (resolveOverload_reports ..) fun _ => .pure _

theorem processBuiltinFunction_reports (function : BuiltinFunctionKind) (h : ScalarsReport ns es) :
    Reports ns.sum (processBuiltinFunction env function es) := by
  unfold processBuiltinFunction
  split
  · exact processNullif_reports h
  · exact processCoalesce_reports h
  · exact reject_reports ..
  · exact reject_reports ..
  · exact reject_reports ..
  · exact reject_reports ..
  · exact processDeclaredBuiltin_reports _ h

theorem processBuiltinSetFunction_reports (function : BuiltinSetFunctionKind)
    (quantifier : Option Ast.SetQuantifier) (h : ScalarsReport ns es) :
    Reports ns.sum (processBuiltinSetFunction env function quantifier es) := by
  refine ((analyzeArguments_reports h).bind fun args => (?_ : Reports 0 _)).of_eq (Nat.add_zero _)
  dsimp only
  split
  · exact reject_reports ..
  · exact .bind_zero (resolveOverload_reports ..) fun _ => callAggregate_reports ..

theorem processExtract_reports (field : ExtractFieldKind) (subsecondDigits : Option Nat)
    (he : ScalarReports n e) : Reports n (processExtract env field subsecondDigits e) := by
  refine ((he .unspecified).bind fun e => (?_ : Reports 0 _)).of_eq n.add_zero
  refine .bind_zero (resolve_reports env e false) fun type => ?_
  have hvalidate : Reports 0 (validateExtractField field type : Analysis ρ Unit) := by
    unfold validateExtractField
    grind
  refine .bind_zero hvalidate fun _ => ?_
  refine .bind_zero (analyzeFunctionName_reports ..) fun functions => ?_
  split
  · exact .bind_zero (resolveOverload_reports ..) fun _ => .pure _
  · exact reject_reports ..

/-! ### Subqueries -/

theorem analyzeSubquery_reports (hq : QueryReports n q) : Reports n (analyzeSubquery q) := by
  refine .bind_zero (currentScope_reports.map _) fun original => ?_
  refine .bind_zero (modifyScope_reports _) fun _ => ?_
  refine ((withScope_reports _ (hq [] false)).bind fun r => ?_).of_eq n.add_zero
  exact .bind_zero (modifyScope_reports _) fun _ => .pure _

@[grind ←] theorem singleColumn_reports (columns : List ColumnInfo) :
    Reports 0 (singleColumn columns : Analysis ρ Variable) := by
  unfold singleColumn
  grind

/-- A row subquery is rejected before its query is analyzed. -/
theorem processSubquery_reports (hq : QueryReports n q) (contextKind : ExpressionContextKind) :
    Reports n (processSubquery q contextKind) := by
  cases contextKind with
  | row => exact reject_reports ..
  | scalar =>
    exact (analyzeSubquery_reports hq).bind fun r =>
      .bind_zero (singleColumn_reports r.1.relation.columns) fun _ => .pure _

theorem quantifiedCompare_reports (operator_ : Plan.ComparisonOperator)
    (quantifier : Plan.Quantifier) (he : ScalarReports n e) (hq : QueryReports k q) :
    Reports (n + k) (quantifiedCompare operator_ quantifier e q) :=
  (he .unspecified).bind fun _ => (analyzeSubquery_reports hq).bind fun r =>
    .bind_zero (singleColumn_reports r.1.relation.columns) fun _ => .pure _

theorem processQuantifiedComparison_reports (he : ScalarReports n e)
    (operator_ : Ast.ComparisonOperator) (quantifier : Ast.Quantifier) (hq : QueryReports k q) :
    Reports (n + k) (processQuantifiedComparison e operator_ quantifier q) :=
  quantifiedCompare_reports _ _ he hq

theorem processInValues_reports (he : ScalarReports n e) (isNot : Bool) (h : ScalarsReport ns es) :
    Reports (n + ns.sum) (processInValues e isNot es) := by
  cases h with
  | nil => exact reject_reports ..
  | cons hfirst hrest =>
    refine ((he .unspecified).bind fun l => (hfirst .unspecified).bind fun e =>
      (analyzeAll_reports hrest).bind fun es => .bind_zero localVariable_reports fun v =>
        .pure _).of_eq ?_
    rw [List.sum_cons, Nat.add_zero]

theorem processIn_reports (he : ScalarReports n e) (isNot : Bool) {counts : Option (List Nat)}
    {values : Option (List (ScalarAction ρ))} (hv : Option.Rel ScalarsReport counts values)
    (hq : QueryReports k q) :
    Reports (n + (counts.map List.sum).getD k) (processIn e isNot values q) := by
  cases hv with
  | some h => exact processInValues_reports he isNot h
  | none =>
    unfold processIn processInQuery
    cases isNot
    · exact quantifiedCompare_reports .equal .any he hq
    · exact quantifiedCompare_reports .notEqual .all he hq

theorem processTablePredicate_reports (operator_ : TableOperator) (hq : QueryReports n q) :
    Reports n (processTablePredicate operator_ q) := by
  cases operator_ with
  | exists_ => exact (analyzeSubquery_reports hq).bind fun r => .pure _
  | unique => exact reject_reports ..

end Mizugaki.Analyzer
