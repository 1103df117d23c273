import Mizugaki.Analyzer.Simulation
import Mizugaki.Analyzer.Traversal

/-! Queries over an expression analyzer that notes more than another one: the set function processor,
table expressions, clauses and query expressions, and from them the analysis of every syntax
tree. -/

namespace Mizugaki.Analyzer

set_option linter.unusedSectionVars false

open Mizugaki.Ast Mizugaki.Plan Mizugaki.Control

variable {ρ σ : Type} {f : σ → ρ}

/-! ### Set functions -/

@[grind ←] theorem checkReference_over (p : SetFunctionProcessor) (inside : Bool) (v : Variable) :
    Simulated f (checkReference p inside v) (checkReference p inside v) := by
  unfold checkReference checkVariable reportVariable
  grind

@[grind ←] theorem reportParameters_over (p : SetFunctionProcessor) (inside : Bool)
    (parameters : List (Variable × Variable)) :
    Simulated f (reportParameters p inside parameters) (reportParameters p inside parameters) := by
  induction parameters with
  | nil => exact .pure ()
  | cons parameter parameters ih =>
    unfold reportParameters reportVariable
    grind

@[grind ←] theorem checkParameters_over (p : SetFunctionProcessor) (inside : Bool)
    (parameters : List (Variable × Variable)) :
    Simulated f (checkParameters p inside parameters) (checkParameters p inside parameters) := by
  induction parameters with
  | nil => exact .pure ()
  | cons parameter parameters ih =>
    unfold checkParameters reportVariable
    grind

@[grind ←] theorem replaceArguments_over (p : SetFunctionProcessor) (arguments : List Scalar) :
    Simulated f (replaceArguments p arguments) (replaceArguments p arguments) := by
  induction arguments generalizing p with
  | nil => exact .pure _
  | cons e es ih => exact streamVariable_over.bind fun _ => (ih _).bind fun _ => .pure _

section

variable (env : Environment ρ) {a : ExpressionAnalyzer σ}
  [follows : a.Follows f env.expressionAnalyzer]

@[grind ←] theorem consume_over (p : SetFunctionProcessor) (function : AggregateDecl)
    (arguments : List Scalar) :
    Simulated f (consume (env.over a) p function arguments) (consume env p function arguments) := by
  unfold consume
  grind

mutual

@[grind ←] theorem processSetFunctions_over (inside : Bool) : ∀ e p,
    Simulated f (processSetFunctions (env.over a) inside e p) (processSetFunctions env inside e p)
  | .immediate _ _, p => .pure _
  | .variableReference v, p => (checkReference_over p inside v).bind fun _ => .pure _
  | .cast _ _ operand, p => (processSetFunctions_over inside operand p).bind fun _ => .pure _
  | .unary _ operand, p => (processSetFunctions_over inside operand p).bind fun _ => .pure _
  | .binary _ left right, p => (processSetFunctions_over inside left p).bind fun x =>
    (processSetFunctions_over inside right x.2).bind fun _ => .pure _
  | .compare _ left right, p => (processSetFunctions_over inside left p).bind fun x =>
    (processSetFunctions_over inside right x.2).bind fun _ => .pure _
  | .match_ _ input pattern escape, p => (processSetFunctions_over inside input p).bind fun x =>
    (processSetFunctions_over inside pattern x.2).bind fun y =>
      (processSetFunctions_over inside escape y.2).bind fun _ => .pure _
  | .conditional alternatives default_, p =>
    (processAlternatives_over inside alternatives p).bind fun x =>
      (processDefault_over inside default_ x.2).bind fun _ => .pure _
  | .coalesce alternatives, p => (processOperands_over inside alternatives p).bind fun _ => .pure _
  | .let_ variables_ body, p => (processLetVariables_over inside variables_ p).bind fun x =>
    (processSetFunctions_over inside body x.2).bind fun _ => .pure _
  | .functionCall _ arguments, p => (processOperands_over inside arguments p).bind fun _ => .pure _
  | .aggregateFunctionCall function arguments, p => by
    rw [processSetFunctions, processSetFunctions]
    split_ifs
    · exact reject_over _ _
    · exact (processOperands_over true arguments p).bind fun x => consume_over env x.2 function x.1
  | .subquery _ parameters _, p => (checkParameters_over p inside parameters).bind fun _ => .pure _
  | .exists_ _ parameters, p => (checkParameters_over p inside parameters).bind fun _ => .pure _
  | .quantifiedCompare _ _ left _ parameters _, p =>
    (checkParameters_over p inside parameters).bind fun _ =>
      (processSetFunctions_over inside left p).bind fun _ => .pure _
termination_by structural e => e

theorem processOperands_over (inside : Bool) : ∀ es p,
    Simulated f (processOperands (env.over a) inside es p) (processOperands env inside es p)
  | [], _ => .pure _
  | e :: es, p => (processSetFunctions_over inside e p).bind fun x =>
    (processOperands_over inside es x.2).bind fun _ => .pure _
termination_by structural es => es

theorem processAlternatives_over (inside : Bool) : ∀ alternatives p,
    Simulated f (processAlternatives (env.over a) inside alternatives p)
      (processAlternatives env inside alternatives p)
  | [], _ => .pure _
  | (condition, body) :: rest, p => (processSetFunctions_over inside condition p).bind fun x =>
    (processSetFunctions_over inside body x.2).bind fun y =>
      (processAlternatives_over inside rest y.2).bind fun _ => .pure _
termination_by structural alternatives => alternatives

theorem processDefault_over (inside : Bool) : ∀ e p,
    Simulated f (processDefault (env.over a) inside e p) (processDefault env inside e p)
  | none, _ => .pure _
  | some e, p => (processSetFunctions_over inside e p).bind fun _ => .pure _
termination_by structural e => e

theorem processLetVariables_over (inside : Bool) : ∀ variables_ p,
    Simulated f (processLetVariables (env.over a) inside variables_ p)
      (processLetVariables env inside variables_ p)
  | [], _ => .pure _
  | (_, value) :: rest, p => (processSetFunctions_over inside value p).bind fun x =>
    (processLetVariables_over inside rest x.2).bind fun _ => .pure _
termination_by structural variables_ => variables_

end

@[grind ←] theorem installOperator_over (operator_ : Option Operator) (port : Graph) :
    Simulated f (installOperator (env.over a) operator_ port)
      (installOperator env operator_ port) := by
  unfold installOperator
  grind

@[grind ←] theorem install_over (p : SetFunctionProcessor) (port : Graph) :
    Simulated f (install (env.over a) p port) (install env p port) := by
  unfold install
  grind

/-! ### Relations -/

@[grind ←] theorem columnVariable_over (escapeColumns : Bool) (column : Column) :
    Simulated f (columnVariable escapeColumns column) (columnVariable escapeColumns column) := by
  unfold columnVariable
  grind

@[grind ←] theorem buildColumns_over (escapeColumns includeSystemColumns : Bool)
    (info : RelationInfo) (columns : List Column) :
    Simulated f (buildColumns (env.over a) escapeColumns includeSystemColumns info columns)
      (buildColumns env escapeColumns includeSystemColumns info columns) := by
  induction columns generalizing info with
  | nil => exact .pure info
  | cons column columns ih =>
    unfold buildColumns
    grind

@[grind ←] theorem buildRelationInfo_over (table : Table)
    (escapeColumns includeSystemColumns : Bool) :
    Simulated f (buildRelationInfo (env.over a) table escapeColumns includeSystemColumns)
      (buildRelationInfo env table escapeColumns includeSystemColumns) :=
  buildColumns_over env _ _ _ _

@[grind ←] theorem processTableReference_over (table : Table) :
    Simulated f (processTableReference (env.over a) table) (processTableReference env table) := by
  unfold processTableReference
  grind

@[grind ←] theorem processQueryReference_over (query : QueryInfo) (relation : Name) :
    Simulated f (processQueryReference (env.over a) query relation)
      (processQueryReference env query relation) := by
  simp only [processQueryReference, identifierOf_over]
  grind

@[grind ←] theorem processRelationReference_over (relation : Name) :
    Simulated f (processRelationReference (env.over a) relation)
      (processRelationReference env relation) := by
  unfold processRelationReference
  grind

@[grind ←] theorem renameColumns_over (names : List SimpleName) (seen : List String)
    (columns : List ColumnInfo) :
    Simulated f (renameColumns (env.over a) names seen columns)
      (renameColumns env names seen columns) := by
  induction names generalizing seen columns with
  | nil =>
    unfold renameColumns
    grind
  | cons name names ih =>
    unfold renameColumns
    grind

@[grind ←] theorem rebuildRelationInfo_over (info : RelationInfo)
    (correlation : CorrelationClause) :
    Simulated f (rebuildRelationInfo (env.over a) info correlation)
      (rebuildRelationInfo env info correlation) := by
  simp only [rebuildRelationInfo, identifierOf_over]
  grind

@[grind ←] theorem correlate_over (info : RelationInfo) (correlation : Option CorrelationClause) :
    Simulated f (correlate (env.over a) info correlation) (correlate env info correlation) := by
  unfold correlate
  grind

@[grind ←] theorem addRelation_over (info : RelationInfo) :
    Simulated f (addRelation info) (addRelation info) :=
  modifyScope_over _

@[grind ←] theorem processTableExpressionReference_over (name : Name)
    (correlation : Option CorrelationClause) :
    Simulated f (processTableExpressionReference (env.over a) name correlation)
      (processTableExpressionReference env name correlation) := by
  unfold processTableExpressionReference
  grind

@[grind ←] theorem processTableSubquery_over {q : QueryAction σ} {r : QueryAction ρ}
    (h : QuerySimulated f q r) (isLateral : Bool) (correlation : CorrelationClause) :
    Simulated f (processTableSubquery (env.over a) isLateral q correlation)
      (processTableSubquery env isLateral r correlation) := by
  unfold processTableSubquery
  grind

/-! ### Joins and APPLY -/

abbrev JoinSimulated (f : σ → ρ) (j : JoinAction σ) (k : JoinAction ρ) : Prop :=
  ∀ pivot, Simulated f (j pivot) (k pivot)

theorem processJoinCondition_over {x : ScalarAction σ} {y : ScalarAction ρ}
    (h : ScalarSimulated f x y) :
    JoinSimulated f (processJoinCondition x) (processJoinCondition y) := by
  unfold processJoinCondition
  grind

@[grind ←] theorem processUsingColumn_over (pivot : Nat) (name : SimpleName) :
    Simulated f (processUsingColumn (env.over a) pivot name)
      (processUsingColumn env pivot name) := by
  simp only [processUsingColumn, usingColumn, hideColumn, identifierOf_over]
  grind

@[grind ←] theorem processUsingColumns_over (pivot : Nat) (result : Scalar)
    (names : List SimpleName) :
    Simulated f (processUsingColumns (env.over a) pivot result names)
      (processUsingColumns env pivot result names) := by
  induction names generalizing result with
  | nil => exact .pure result
  | cons name names ih =>
    unfold processUsingColumns
    grind

theorem processJoinColumns_over (columns : List SimpleName) :
    JoinSimulated f (processJoinColumns (env.over a) columns) (processJoinColumns env columns) := by
  unfold processJoinColumns
  grind

@[grind ←] theorem processSpecification_over {j : Option (JoinAction σ)}
    {k : Option (JoinAction ρ)} (h : Option.Rel (JoinSimulated f) j k) (pivot : Nat) :
    Simulated f (processSpecification pivot j) (processSpecification pivot k) := by
  cases h with
  | none => exact .pure none
  | some h => exact (h pivot).bind fun _ => .pure _

theorem processJoin_over {l r : Analysis σ Graph} {l' r' : Analysis ρ Graph}
    {j : Option (JoinAction σ)} {k : Option (JoinAction ρ)} (hl : Simulated f l l')
    (hr : Simulated f r r') (hj : Option.Rel (JoinSimulated f) j k) (kind : JoinKind)
    (natural transpose : Bool) :
    Simulated f (processJoin (env.over a) kind natural transpose l r j)
      (processJoin env kind natural transpose l' r' k) := by
  have hsome : j.isSome = k.isSome := by cases hj <;> rfl
  refine hl.bind fun _ => currentScope_over.bind fun _ => hr.bind fun _ => ?_
  cases natural with
  | false =>
    exact (processSpecification_over hj _).bind fun _ => (resolveOperator_over env _).bind
      fun _ => .pure _
  | true =>
    simp only [if_true, hsome]
    split_ifs <;> exact reject_over _ _

@[grind ←] theorem processJoinExpression_over {l r : Analysis σ Graph} {l' r' : Analysis ρ Graph}
    {j : Option (JoinAction σ)} {k : Option (JoinAction ρ)} (hl : Simulated f l l')
    (hr : Simulated f r r') (hj : Option.Rel (JoinSimulated f) j k) (type : JoinType) :
    Simulated f (processJoinExpression (env.over a) type l r j)
      (processJoinExpression env type l' r' k) := by
  unfold processJoinExpression
  cases convertJoinType type with
  | none => exact reject_over _ _
  | some converted => exact processJoin_over env hl hr hj _ _ _

@[grind ←] theorem analyzeApplyArguments_over {xs : List (ScalarAction σ)}
    {ys : List (ScalarAction ρ)} (h : ListSimulated f xs ys) :
    Simulated f (analyzeApplyArguments (env.over a) xs) (analyzeApplyArguments env ys) := by
  induction h with
  | nil => exact .pure []
  | cons h _ ih =>
    exact (analyzeScalarExpression_over h _).bind fun _ => (resolve_over env _ _).bind fun _ =>
      ih.bind fun _ => .pure _

@[simp, grind =] theorem applicableTableFunctions_over (types : List TypeData)
    (functions : List FunctionDecl) :
    applicableTableFunctions (env.over a) types functions =
      applicableTableFunctions env types functions := by
  simp [applicableTableFunctions]

@[grind ←] theorem returnedColumns_over (target : FunctionDecl) :
    Simulated f (returnedColumns target) (returnedColumns target) := by
  unfold returnedColumns
  grind

@[grind ←] theorem correlationNames_over (seen : List String) (names : List SimpleName) :
    Simulated f (correlationNames (env.over a) seen names) (correlationNames env seen names) := by
  induction names generalizing seen with
  | nil => exact .pure []
  | cons name names ih =>
    unfold correlationNames
    grind

@[grind ←] theorem applyColumnNames_over (target : FunctionDecl) (returned : List String)
    (correlation : CorrelationClause) :
    Simulated f (applyColumnNames (env.over a) target returned correlation)
      (applyColumnNames env target returned correlation) := by
  simp only [applyColumnNames, identifierOf_over]
  grind

@[grind ←] theorem processApply_over {m : Analysis σ Graph} {n : Analysis ρ Graph}
    {xs : List (ScalarAction σ)} {ys : List (ScalarAction ρ)} (hm : Simulated f m n)
    (h : ListSimulated f xs ys) (type : Option ApplyType) (name : Name)
    (correlation : CorrelationClause) :
    Simulated f (processApply (env.over a) m type name xs correlation)
      (processApply env n type name ys correlation) := by
  simp only [processApply, h.length_eq, applicableTableFunctions_over]
  refine hm.bind fun _ => (analyzeApplyArguments_over env h).bind fun args =>
    (analyzeFunctionName_over env a name _).bind fun functions => ?_
  cases applicableTableFunctions env (args.map Prod.snd) functions with
  | nil => exact reject_over _ _
  | cons candidate rest =>
    exact (resolveOverload_over env a _ _ _).bind fun _ => (returnedColumns_over _).bind
      fun _ => (streamVariables_over _).bind fun _ => (applyColumnNames_over env _ _ _).bind
      fun _ => (addRelation_over _).bind fun _ => (resolveOperator_over env _).bind
      fun _ => .pure _

/-! ### Clauses -/

abbrev GroupingSimulated (f : σ → ρ) (g : GroupingAction σ) (k : GroupingAction ρ) : Prop :=
  ∀ p, Simulated f (g p) (k p)

abbrev SelectSimulated (f : σ → ρ) (l : SelectAction σ) (k : SelectAction ρ) : Prop :=
  ∀ s, Simulated f (l s) (k s)

structure SortSimulated (f : σ → ρ) (x : SortSpecification σ) (y : SortSpecification ρ) :
    Prop where
  key : ScalarSimulated f x.key y.key
  collation : x.collation = y.collation
  direction : x.direction = y.direction
  nullLocation : x.nullLocation = y.nullLocation

structure ClausesSimulated (f : σ → ρ) (c : QueryClauses σ) (d : QueryClauses ρ) : Prop where
  quantifier : c.quantifier = d.quantifier
  elements : List.Forall₂ (SelectSimulated f) c.elements d.elements
  from_ : List.Forall₂ (Simulated f) c.from_ d.from_
  where_ : OptionSimulated f c.where_ d.where_
  groupBy : Option.Rel (List.Forall₂ (GroupingSimulated f)) c.groupBy d.groupBy
  having : OptionSimulated f c.having d.having
  orderBy : List.Forall₂ (SortSimulated f) c.orderBy d.orderBy
  limit : OptionSimulated f c.limit d.limit

theorem processFromElements_over {xs : List (Analysis σ Graph)} {ys : List (Analysis ρ Graph)}
    (h : List.Forall₂ (Simulated f) xs ys) (output : Graph) :
    Simulated f (processFromElements (env.over a) output xs) (processFromElements env output ys) := by
  induction h generalizing output with
  | nil => exact .pure output
  | cons h _ ih =>
    exact h.bind fun _ => (resolveOperator_over env _).bind fun _ => ih _

theorem processFromClause_over {xs : List (Analysis σ Graph)} {ys : List (Analysis ρ Graph)}
    (h : List.Forall₂ (Simulated f) xs ys) :
    Simulated f (processFromClause (env.over a) xs) (processFromClause env ys) := by
  cases h with
  | nil =>
    exact (resolveOperator_over env _).bind fun _ => (addRelation_over _).bind fun _ => .pure _
  | cons h hs => exact h.bind fun output => processFromElements_over env hs output

theorem processWhere_over {x : Option (ScalarAction σ)} {y : Option (ScalarAction ρ)}
    (h : OptionSimulated f x y) (output : Graph) :
    Simulated f (processWhere (env.over a) x output) (processWhere env y output) := by
  cases h with
  | none => exact .pure output
  | some h =>
    unfold processWhere
    grind

theorem processGroupingColumn_over {x : ScalarAction σ} {y : ScalarAction ρ}
    (h : ScalarSimulated f x y) :
    GroupingSimulated f (processGroupingColumn (env.over a) x) (processGroupingColumn env y) := by
  unfold processGroupingColumn
  grind

theorem processGroupBy_over {xs : Option (List (GroupingAction σ))}
    {ys : Option (List (GroupingAction ρ))}
    (h : Option.Rel (List.Forall₂ (GroupingSimulated f)) xs ys) :
    Simulated f (processGroupBy xs) (processGroupBy ys) := by
  have helements : ∀ (p : SetFunctionProcessor) {gs : List (GroupingAction σ)}
      {ks : List (GroupingAction ρ)}, List.Forall₂ (GroupingSimulated f) gs ks →
      Simulated f (processGroupingElements p gs) (processGroupingElements p ks) := by
    intro p gs ks h
    induction h generalizing p with
    | nil => exact .pure p
    | cons h _ ih => exact (h p).bind fun p => ih p
  cases h with
  | none => exact .pure _
  | some h => exact helements _ h

theorem processHaving_over {x : Option (ScalarAction σ)} {y : Option (ScalarAction ρ)}
    (h : OptionSimulated f x y) (p : SetFunctionProcessor) :
    Simulated f (processHaving (env.over a) x p) (processHaving env y p) := by
  cases h with
  | none => exact .pure _
  | some h =>
    unfold processHaving
    grind

theorem processSelectColumn_over {x : ScalarAction σ} {y : ScalarAction ρ}
    (h : ScalarSimulated f x y) (value : ScalarExpression) (name : Option SimpleName) :
    SelectSimulated f (processSelectColumn (env.over a) value x name)
      (processSelectColumn env value y name) := by
  intro s
  exact (analyzeScalarExpression_over h _).bind fun _ => streamVariable_over.bind fun _ => .pure _

theorem processSelectAsterisk_over (qualifier : Option ScalarExpression) :
    SelectSimulated f (processSelectAsterisk (env.over a) qualifier)
      (processSelectAsterisk env qualifier) := by
  unfold processSelectAsterisk
  grind

theorem processSelect_over {xs : List (SelectAction σ)} {ys : List (SelectAction ρ)}
    (h : List.Forall₂ (SelectSimulated f) xs ys) :
    Simulated f (processSelect (env.over a) xs) (processSelect env ys) := by
  have helements : ∀ s, Simulated f (processSelectElements s xs) (processSelectElements s ys) := by
    induction h with
    | nil => exact fun s => .pure s
    | cons h _ ih => exact fun s => (h s).bind fun s => ih s
  exact (helements _).bind fun _ => (resolveOperator_over env _).bind fun _ => .pure _

theorem processDistinct_over (quantifier : Option Ast.SetQuantifier) (info : RelationInfo) :
    Simulated f (processDistinct (env.over a) quantifier info)
      (processDistinct env quantifier info) := by
  unfold processDistinct
  grind

theorem processSortElement_over {x : SortSpecification σ} {y : SortSpecification ρ}
    (h : SortSimulated f x y) (s : SortList) :
    Simulated f (processSortElement x s) (processSortElement y s) := by
  have hkey := h.key
  simp only [processSortElement, reportNullLocation, h.collation, h.direction, h.nullLocation]
  grind

theorem processOrderBy_over {xs : List (SortSpecification σ)} {ys : List (SortSpecification ρ)}
    (h : List.Forall₂ (SortSimulated f) xs ys) :
    Simulated f (processOrderBy (env.over a) xs) (processOrderBy env ys) := by
  have helements : ∀ s, Simulated f (processSortElements s xs) (processSortElements s ys) := by
    induction h with
    | nil => exact fun s => .pure s
    | cons h _ ih => exact fun s => (processSortElement_over h s).bind fun s => ih s
  cases h with
  | nil => exact .pure none
  | cons h hs =>
    exact (helements _).bind fun _ => (resolveOperator_over env _).bind fun _ =>
      (resolveOperator_over env _).bind fun _ => .pure _

theorem extractSize_over (e : Scalar) :
    Simulated f (extractSize (env.over a) e) (extractSize env e) := by
  refine (clearExpressionResolution_over env e).bind fun _ => ?_
  split
  · split
    · exact .pure _
    · exact reject_over _ _
  · exact reject_over _ _

theorem processLimit_over {x : Option (ScalarAction σ)} {y : Option (ScalarAction ρ)}
    (h : OptionSimulated f x y) (sorted : Bool) :
    Simulated f (processLimit (env.over a) x sorted) (processLimit env y sorted) := by
  cases h with
  | none => exact .pure none
  | some h =>
    refine (analyzeScalarExpression_over h _).bind fun _ => (extractSize_over env _).bind
      fun count => ?_
    split_ifs
    · exact .pure _
    · exact (resolveOperator_over env _).bind fun _ => .pure _

@[grind ←] theorem processColumns_over (columns : List (Variable × Scalar))
    (p : SetFunctionProcessor) :
    Simulated f (processColumns (env.over a) columns p) (processColumns env columns p) := by
  induction columns generalizing p with
  | nil => exact .pure _
  | cons column columns ih =>
    exact (processSetFunctions_over env false _ p).bind fun _ => (ih _).bind fun _ => .pure _

@[grind ←] theorem installSetFunctions_over (p : SetFunctionProcessor) (entry : Graph)
    (b : QueryBlock) :
    Simulated f (installSetFunctions (env.over a) p entry b)
      (installSetFunctions env p entry b) := by
  unfold installSetFunctions processSortColumns resolveSort
  grind

theorem processQuery_over {c : QueryClauses σ} {d : QueryClauses ρ} (h : ClausesSimulated f c d) :
    Simulated f (processQuery (env.over a) c) (processQuery env d) := by
  rw [processQuery, processQuery, h.quantifier]
  exact (processFromClause_over env h.from_).bind fun _ => (processWhere_over env h.where_ _).bind
    fun _ => (processGroupBy_over h.groupBy).bind fun _ => (processHaving_over env h.having _).bind
    fun _ => (processSelect_over env h.elements).bind fun _ => (processDistinct_over env _ _).bind
    fun _ => (processOrderBy_over env h.orderBy).bind fun _ => (processLimit_over env h.limit _).bind
    fun _ => (installSetFunctions_over env _ _ _).bind fun _ => .pure _

/-! ### Other query expressions -/

theorem inScope_over {α : Type} (continueScope : Bool) {m : Analysis σ α} {n : Analysis ρ α}
    (h : Simulated f m n) :
    Simulated f (inScope continueScope m) (inScope continueScope n) := by
  unfold inScope requireScope
  grind

theorem analyzeRow_over {xs : List (ScalarAction σ)} {ys : List (ScalarAction ρ)}
    (h : ListSimulated f xs ys) (context : List ScalarValueContext) (index : Nat) :
    Simulated f (analyzeRow context index xs) (analyzeRow context index ys) := by
  induction h generalizing index with
  | nil => exact .pure []
  | cons h _ ih =>
    exact (analyzeScalarExpression_over h _).bind fun _ => (ih _).bind fun _ => .pure _

theorem analyzeRows_over {xs : List (Option (List (ScalarAction σ)))}
    {ys : List (Option (List (ScalarAction ρ)))}
    (h : List.Forall₂ (Option.Rel (ListSimulated f)) xs ys) (context : List ScalarValueContext) :
    Simulated f (analyzeRows context xs) (analyzeRows context ys) := by
  induction h with
  | nil => exact .pure []
  | cons h _ ih =>
    cases h with
    | none => exact reject_over _ _
    | some h => exact (analyzeRow_over h context 0).bind fun _ => ih.bind fun _ => .pure _

theorem processTableValueConstructor_over {xs : List (Option (List (ScalarAction σ)))}
    {ys : List (Option (List (ScalarAction ρ)))}
    (h : List.Forall₂ (Option.Rel (ListSimulated f)) xs ys) (context : List ScalarValueContext) :
    Simulated f (processTableValueConstructor (env.over a) xs context)
      (processTableValueConstructor env ys context) :=
  (analyzeRows_over h context).bind fun _ => (streamVariables_over _).bind fun _ =>
    (resolveOperator_over env _).bind fun _ => .pure _

theorem processSetOperation_over (operation : SetOperation) (quantifier : Plan.SetQuantifier)
    (left right : Graph) (lefts rights : List ColumnInfo) :
    Simulated f (processSetOperation (env.over a) operation quantifier left right lefts rights)
      (processSetOperation env operation quantifier left right lefts rights) := by
  unfold processSetOperation processUnion processExceptIntersect
  split_ifs
  · exact reject_over _ _
  · cases operation <;> grind

theorem processBinaryQuery_over {q r : QueryAction σ} {q' r' : QueryAction ρ}
    (hq : QuerySimulated f q q') (hr : QuerySimulated f r r') (operator_ : QueryOperator)
    (quantifier : Option Ast.SetQuantifier) (corresponding : Bool)
    (context : List ScalarValueContext) :
    Simulated f (processBinaryQuery (env.over a) q operator_ quantifier corresponding r context)
      (processBinaryQuery env q' operator_ quantifier corresponding r' context) := by
  have hoperands : ∀ operation,
      Simulated f (processOperandQueries (env.over a) operation q r quantifier corresponding context)
        (processOperandQueries env operation q' r' quantifier corresponding context) := by
    intro operation
    unfold processOperandQueries
    split_ifs
    · exact reject_over _ _
    · exact (hq _ _).bind fun _ => (hr _ _).bind fun _ => processSetOperation_over env _ _ _ _ _ _
  cases operator_ with
  | union_ => exact hoperands _
  | except => exact hoperands _
  | intersect => exact hoperands _
  | outerUnion => exact reject_over _ _

structure CommonTableSimulated (f : σ → ρ) (x : CommonTable σ) (y : CommonTable ρ) : Prop where
  name : x.name = y.name
  columnNames : x.columnNames = y.columnNames
  query : QuerySimulated f x.query y.query

@[grind ←] theorem declaredColumnNames_over (seen : List String) (names : List SimpleName) :
    Simulated f (declaredColumnNames (env.over a) seen names)
      (declaredColumnNames env seen names) := by
  induction names generalizing seen with
  | nil => exact .pure []
  | cons name names ih =>
    unfold declaredColumnNames
    grind

theorem declareCommonTable_over (name : SimpleName) (columnNames : List SimpleName)
    (output : Graph) (columns : List ColumnInfo) :
    Simulated f (declareCommonTable (env.over a) name columnNames output columns)
      (declareCommonTable env name columnNames output columns) := by
  unfold declareCommonTable commonTableColumnNames addQuery
  grind

theorem processCommonTable_over {x : CommonTable σ} {y : CommonTable ρ}
    (h : CommonTableSimulated f x y) :
    Simulated f (processCommonTable (env.over a) x) (processCommonTable env y) := by
  rw [processCommonTable, processCommonTable, h.name, h.columnNames]
  exact (withScope_over _ (h.query [] false)).bind fun _ => declareCommonTable_over env _ _ _ _

theorem processWith_over {xs : List (CommonTable σ)} {ys : List (CommonTable ρ)}
    {q : QueryAction σ} {r : QueryAction ρ} (h : List.Forall₂ (CommonTableSimulated f) xs ys)
    (hq : QuerySimulated f q r) (isRecursive : Bool) (context : List ScalarValueContext) :
    Simulated f (processWith (env.over a) isRecursive xs q context)
      (processWith env isRecursive ys r context) := by
  have htables : Simulated f (processCommonTables (env.over a) xs) (processCommonTables env ys) := by
    induction h with
    | nil => exact .pure ()
    | cons h _ ih => exact (processCommonTable_over env h).bind fun _ => ih
  unfold processWith
  split_ifs
  · exact reject_over _ _
  · exact htables.bind fun _ => hq context true

/-! ### Syntax trees -/

@[grind ←] theorem processHostParameter_over (name : SimpleName) :
    Simulated f (processHostParameter (env.over a) name) (processHostParameter env name) := by
  simp only [processHostParameter, Environment.over_options]
  exact findPlaceholder_over env a _ _

@[grind ←] theorem processPlaceholder_over (index : Nat) :
    Simulated f (processPlaceholder (env.over a) index) (processPlaceholder env index) := by
  simp only [processPlaceholder, Environment.over_options]
  exact findPlaceholder_over env a _ _

theorem forall₂_map {α β γ : Type} {R : β → γ → Prop} {g : α → β} {k : α → γ} {xs : List α}
    (h : ∀ x ∈ xs, R (g x) (k x)) : List.Forall₂ R (xs.map g) (xs.map k) := by
  rw [List.forall₂_map_left_iff, List.forall₂_map_right_iff, List.forall₂_same]
  exact h

theorem rel_map {α β γ : Type} {R : β → γ → Prop} {g : α → β} {k : α → γ} {x : Option α}
    (h : ∀ y ∈ x, R (g y) (k y)) : Option.Rel R (x.map g) (x.map k) := by
  cases x with
  | none => exact .none
  | some y => exact .some (h y rfl)

theorem scalars_over {es : List ScalarExpression}
    (h : ∀ e ∈ es, ScalarSimulated f (scalar (env.over a) e) (scalar env e)) :
    ListSimulated f (scalars (env.over a) es) (scalars env es) := by
  rw [scalars_eq, scalars_eq]
  exact forall₂_map h

theorem scalarOption_over {o : Option ScalarExpression}
    (h : ∀ e ∈ o, ScalarSimulated f (scalar (env.over a) e) (scalar env e)) :
    OptionSimulated f (scalarOption (env.over a) o) (scalarOption env o) := by
  rw [scalarOption_eq, scalarOption_eq]
  exact rel_map h

theorem scalarPairs_over {pairs : List (ScalarExpression × ScalarExpression)}
    (h : ∀ p ∈ pairs, ScalarSimulated f (scalar (env.over a) p.1) (scalar env p.1) ∧
      ScalarSimulated f (scalar (env.over a) p.2) (scalar env p.2)) :
    PairsSimulated f (scalarPairs (env.over a) pairs) (scalarPairs env pairs) := by
  rw [scalarPairs_eq, scalarPairs_eq]
  exact forall₂_map h

theorem rowElements_over {e : ScalarExpression} (h : ∀ row, e = .valueConstructor .row row →
      ∀ x ∈ row, ScalarSimulated f (scalar (env.over a) x) (scalar env x)) :
    Option.Rel (ListSimulated f) (rowElements (env.over a) e) (rowElements env e) := by
  cases e with
  | valueConstructor kind elements =>
    cases kind with
    | row => exact .some (scalars_over env (h elements rfl))
    | array => exact .none
  | _ => exact .none

theorem rows_over {es : List ScalarExpression} (h : ∀ e ∈ es, ∀ row,
      e = .valueConstructor .row row →
      ∀ x ∈ row, ScalarSimulated f (scalar (env.over a) x) (scalar env x)) :
    List.Forall₂ (Option.Rel (ListSimulated f)) (rows (env.over a) es) (rows env es) := by
  rw [rows_eq, rows_eq]
  exact forall₂_map fun e he => rowElements_over env (h e he)

theorem inValues_over {q : QueryExpression} (h : ∀ elements, q = .tableValueConstructor elements →
      ∀ e ∈ elements, ScalarSimulated f (scalar (env.over a) e) (scalar env e)) :
    Option.Rel (ListSimulated f) (inValues (env.over a) q) (inValues env q) := by
  cases q with
  | tableValueConstructor elements => exact .some (scalars_over env (h elements rfl))
  | _ => exact .none

theorem sortElement_over {e : SortElement}
    (h : ScalarSimulated f (scalar (env.over a) e.key) (scalar env e.key)) :
    SortSimulated f (sortElement (env.over a) e) (sortElement env e) := by
  cases e
  exact ⟨h, rfl, rfl, rfl⟩

theorem withElement_over {e : WithElement}
    (h : QuerySimulated f (query (env.over a) e.expression) (query env e.expression)) :
    CommonTableSimulated f ⟨e.name, e.columnNames, query (env.over a) e.expression⟩
      ⟨e.name, e.columnNames, query env e.expression⟩ :=
  ⟨rfl, rfl, h⟩

theorem simulated_induction : SyntaxInduction
    (fun e => ScalarSimulated f (scalar (env.over a) e) (scalar env e))
    (fun q => QuerySimulated f (query (env.over a) q) (query env q))
    (fun t => Simulated f (tableExpression (env.over a) t) (tableExpression env t))
    (fun e => SelectSimulated f (selectElement (env.over a) e) (selectElement env e))
    (fun g => GroupingSimulated f (groupingElement (env.over a) g) (groupingElement env g))
    (fun j => JoinSimulated f (joinSpecification (env.over a) j) (joinSpecification env j)) where
  literal value context := process_over env (analyzeLiteral_over env a value _)
  variableReference name _ := process_over env (analyzeVariableName_over env name)
  hostParameter name _ := process_over env (processHostParameter_over env name)
  case_ ho hw hd context := process_over env (processCase_over
    (scalarOption_over env ho) (scalarPairs_over env hw) (scalarOption_over env hd) context)
  cast operator_ type ho _ := process_over env (processCast_over env a ho operator_ type)
  unary operator_ ho _ := process_over env (processUnary_over ho operator_)
  binary operator_ hl hr _ := process_over env (processBinary_over hl hr operator_ _)
  extract field digits ho _ := process_over env (processExtract_over env ho field digits)
  valueConstructor _ _ _ := process_over env (reject_over _ _)
  subquery kind hq _ := process_over env (processSubquery_over hq kind)
  comparison operator_ hl hr _ := process_over env (processComparison_over hl hr operator_)
  quantified operator_ quantifier hl hr _ := process_over env (quantifiedCompare_over hl hr _ _)
  between isNot operator_ ht hl hr _ := process_over env (processBetween_over ht hl hr isNot operator_)
  in_ isNot hl hv hr _ := process_over env (processIn_over hl (inValues_over env hv) hr isNot)
  patternMatch isNot operator_ hi hp he _ := process_over env (processPatternMatch_over hi hp
    (scalarOption_over env he) isNot operator_)
  tablePredicate operator_ hq _ := process_over env (processTablePredicate_over hq operator_)
  function name ha _ := process_over env (processFunctionInvocation_over env
    (scalars_over env ha) name)
  builtinFunction kind ha _ := process_over env (processBuiltinFunction_over env
    (scalars_over env ha) kind)
  builtinSetFunction kind quantifier ha _ := process_over env (processBuiltinSetFunction_over env
    (scalars_over env ha) kind quantifier)
  placeholder index _ := process_over env (processPlaceholder_over env index)
  unsupported _ _ := process_over env (reject_over _ _)
  query quantifier he hf hw hg hh ho hl _ continueScope := by
    refine inScope_over continueScope (processQuery_over env ⟨rfl, ?_, ?_, ?_, ?_, ?_, ?_, ?_⟩)
    · rw [selectElements_eq, selectElements_eq]
      exact forall₂_map he
    · rw [tableExpressions_eq, tableExpressions_eq]
      exact forall₂_map hf
    · exact scalarOption_over env hw
    · rw [groupingClause_eq, groupingClause_eq]
      exact rel_map fun es hes => forall₂_map (hg es hes)
    · exact scalarOption_over env hh
    · rw [sortElements_eq, sortElements_eq]
      exact forall₂_map fun e hmem => sortElement_over env (ho e hmem)
    · exact scalarOption_over env hl
  relationReference name _ continueScope :=
    inScope_over continueScope (processRelationReference_over env name)
  values he context continueScope :=
    inScope_over continueScope (processTableValueConstructor_over env (rows_over env he) context)
  binaryQuery operator_ quantifier corresponding hl hr context _ :=
    processBinaryQuery_over env hl hr operator_ quantifier _ context
  with_ isRecursive he hq context continueScope := by
    refine inScope_over continueScope (processWith_over env ?_ hq isRecursive context)
    rw [withElements_eq, withElements_eq]
    exact forall₂_map fun e hmem => withElement_over env (he e hmem)
  selectColumn name hv := processSelectColumn_over env hv _ name
  selectAsterisk qualifier := processSelectAsterisk_over env qualifier
  groupingColumn _ hc := processGroupingColumn_over env hc
  tableReference _ name correlation := processTableExpressionReference_over env name correlation
  unnest _ _ _ := reject_over _ _
  join type hl hr hj := by
    refine processJoinExpression_over env hl hr ?_ type
    rw [specificationOption_eq, specificationOption_eq]
    exact rel_map hj
  tableSubquery isLateral correlation hq := processTableSubquery_over env hq isLateral correlation
  apply type name correlation ho ha := processApply_over env ho
    (scalars_over env ha) type name correlation
  joinCondition hc := processJoinCondition_over hc
  joinColumns columns := processJoinColumns_over env columns

/-- The analysis of a query over an analyzer that notes more is the one over the other analyzer, apart
from what is noted. -/
theorem analyzeQueryExpression_over (expression : QueryExpression)
    (context : List ScalarValueContext) :
    Simulated f (analyzeQueryExpression (env.over a) expression context)
      (analyzeQueryExpression env expression context) :=
  (simulated_induction env).queryExpression expression context false

end

end Mizugaki.Analyzer
