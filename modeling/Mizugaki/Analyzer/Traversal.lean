import Mizugaki.Analyzer.Engine
import Mizugaki.Ast.Induction

/-! Induction over the traversal of the syntax tree. Properties of analyses that every function
of the analyzer hands on from the analyses of its children hold of the analysis of every
syntax tree. -/

namespace Mizugaki.Analyzer

open Mizugaki.Ast Mizugaki.Plan

variable {ρ : Type}

/-! ### Lists of children -/

section

variable (env : Environment ρ)

theorem scalars_eq (es : List ScalarExpression) : scalars env es = es.map (scalar env) := by
  induction es with
  | nil => rfl
  | cons e es ih => rw [scalars, List.map_cons, ih]

theorem scalarOption_eq (o : Option ScalarExpression) : scalarOption env o = o.map (scalar env) := by
  cases o <;> rfl

theorem scalarPairs_eq (pairs : List (ScalarExpression × ScalarExpression)) :
    scalarPairs env pairs = pairs.map fun p => (scalar env p.1, scalar env p.2) := by
  induction pairs with
  | nil => rfl
  | cons p pairs ih =>
    obtain ⟨a, b⟩ := p
    rw [scalarPairs, List.map_cons, ih]

theorem rows_eq (es : List ScalarExpression) : rows env es = es.map (rowElements env) := by
  induction es with
  | nil => rfl
  | cons e es ih => rw [rows, List.map_cons, ih]

theorem rowElements_some {e : ScalarExpression} {row : List (ScalarAction ρ)}
    (h : rowElements env e = some row) :
    ∃ elements, e = .valueConstructor .row elements ∧ row = elements.map (scalar env) := by
  rcases e
  case valueConstructor kind elements =>
    cases kind with
    | array => cases h
    | row =>
      obtain rfl := Option.some.inj h
      exact ⟨elements, rfl, scalars_eq env elements⟩
  all_goals cases h

theorem inValues_some {q : QueryExpression} {values : List (ScalarAction ρ)}
    (h : inValues env q = some values) :
    ∃ elements, q = .tableValueConstructor elements ∧ values = elements.map (scalar env) := by
  cases q with
  | tableValueConstructor elements =>
    obtain rfl := Option.some.inj h
    exact ⟨elements, rfl, scalars_eq env elements⟩
  | _ => cases h

theorem selectElements_eq (es : List SelectElement) :
    selectElements env es = es.map (selectElement env) := by
  induction es with
  | nil => rfl
  | cons e es ih => rw [selectElements, List.map_cons, ih]

theorem groupingElements_eq (es : List GroupingElement) :
    groupingElements env es = es.map (groupingElement env) := by
  induction es with
  | nil => rfl
  | cons e es ih => rw [groupingElements, List.map_cons, ih]

theorem groupingClause_eq (o : Option (List GroupingElement)) :
    groupingClause env o = o.map fun es => es.map (groupingElement env) := by
  cases o with
  | none => rfl
  | some es => exact congrArg some (groupingElements_eq env es)

theorem sortElements_eq (es : List SortElement) :
    sortElements env es = es.map (sortElement env) := by
  induction es with
  | nil => rfl
  | cons e es ih => rw [sortElements, List.map_cons, ih]

theorem sortElement_key (e : SortElement) : (sortElement env e).key = scalar env e.key := by
  cases e
  rfl

theorem withElements_eq (es : List WithElement) :
    withElements env es = es.map fun e => ⟨e.name, e.columnNames, query env e.expression⟩ := by
  induction es with
  | nil => rfl
  | cons e es ih =>
    cases e
    rw [withElements, List.map_cons, ih]
    rfl

theorem tableExpressions_eq (ts : List TableExpression) :
    tableExpressions env ts = ts.map (tableExpression env) := by
  induction ts with
  | nil => rfl
  | cons t ts ih => rw [tableExpressions, List.map_cons, ih]

theorem specificationOption_eq (o : Option JoinSpecification) :
    specificationOption env o = o.map (joinSpecification env) := by
  cases o <;> rfl

end

/-! ### Compositional properties -/

/-- Every clause of a query has the properties of its kind. -/
structure QueryClauses.All (S : ScalarAction ρ → Prop) (T : Analysis ρ Graph → Prop)
    (L : SelectAction ρ → Prop) (G : GroupingAction ρ → Prop) (c : QueryClauses ρ) : Prop where
  elements : ∀ a ∈ c.elements, L a
  from_ : ∀ m ∈ c.from_, T m
  where_ : ∀ a ∈ c.where_, S a
  groupBy : ∀ es ∈ c.groupBy, ∀ g ∈ es, G g
  having : ∀ a ∈ c.having, S a
  orderBy : ∀ spec ∈ c.orderBy, S spec.key
  limit : ∀ a ∈ c.limit, S a

/-- Properties of the analyses of scalar expressions, queries, table expressions, select and
grouping elements and join specifications that the functions of the analyzer hand on. -/
structure Compositional (env : Environment ρ) (S : ScalarAction ρ → Prop)
    (Q : QueryAction ρ → Prop) (T : Analysis ρ Graph → Prop) (L : SelectAction ρ → Prop)
    (G : GroupingAction ρ → Prop) (J : JoinAction ρ → Prop) : Prop where
  processed {a : ScalarAction ρ} : S a → S fun context => process env (a context)
  literal (value : Literal) : S fun context => analyzeLiteral env value (context.find 0)
  variableReference (name : Name) : S fun _ => analyzeVariableName env name
  hostParameter (name : SimpleName) : S fun _ => processHostParameter env name
  placeholder (index : Nat) : S fun _ => processPlaceholder env index
  rejected (message : List Fragment) : S fun _ => reject .unsupportedFeature message
  case_ {operand default_ : Option (ScalarAction ρ)}
    {whenClauses : List (ScalarAction ρ × ScalarAction ρ)} :
    (∀ a ∈ operand, S a) → (∀ p ∈ whenClauses, S p.1 ∧ S p.2) → (∀ a ∈ default_, S a) →
    S (processCase operand whenClauses default_)
  cast {operand : ScalarAction ρ} (operator_ : CastOperator) (type : TypeNode) :
    S operand → S fun _ => processCast env operator_ operand type
  unary {operand : ScalarAction ρ} (operator_ : Ast.UnaryOperator) :
    S operand → S fun _ => processUnary operator_ operand
  binary {left right : ScalarAction ρ} (operator_ : Ast.BinaryOperator)
    (node : ScalarExpression) :
    S left → S right → S fun _ => processBinary left operator_ node right
  extract {operand : ScalarAction ρ} (field : ExtractFieldKind) (digits : Option Nat) :
    S operand → S fun _ => processExtract env field digits operand
  subquery {query : QueryAction ρ} (contextKind : ExpressionContextKind) :
    Q query → S fun _ => processSubquery query contextKind
  comparison {left right : ScalarAction ρ} (operator_ : Ast.ComparisonOperator) :
    S left → S right → S fun _ => processComparison left operator_ right
  quantified {left : ScalarAction ρ} {right : QueryAction ρ} (operator_ : Ast.ComparisonOperator)
    (quantifier : Ast.Quantifier) :
    S left → Q right → S fun _ => processQuantifiedComparison left operator_ quantifier right
  between {target left right : ScalarAction ρ} (isNot : Bool) (operator_ : Option BetweenOperator) :
    S target → S left → S right →
    S fun _ => processBetween target isNot operator_ left right
  in_ {left : ScalarAction ρ} {values : Option (List (ScalarAction ρ))} {right : QueryAction ρ}
    (isNot : Bool) :
    S left → (∀ vs ∈ values, ∀ a ∈ vs, S a) → Q right →
    S fun _ => processIn left isNot values right
  patternMatch {input pattern : ScalarAction ρ} {escape : Option (ScalarAction ρ)} (isNot : Bool)
    (operator_ : PatternMatchOperator) :
    S input → S pattern → (∀ a ∈ escape, S a) →
    S fun _ => processPatternMatch input isNot operator_ pattern escape
  tablePredicate {operand : QueryAction ρ} (operator_ : TableOperator) :
    Q operand → S fun _ => processTablePredicate operator_ operand
  function {arguments : List (ScalarAction ρ)} (name : Name) :
    (∀ a ∈ arguments, S a) → S fun _ => processFunctionInvocation env name arguments
  builtinFunction {arguments : List (ScalarAction ρ)} (kind : BuiltinFunctionKind) :
    (∀ a ∈ arguments, S a) → S fun _ => processBuiltinFunction env kind arguments
  builtinSetFunction {arguments : List (ScalarAction ρ)} (kind : BuiltinSetFunctionKind)
    (quantifier : Option Ast.SetQuantifier) :
    (∀ a ∈ arguments, S a) → S fun _ => processBuiltinSetFunction env kind quantifier arguments
  clauses {c : QueryClauses ρ} :
    c.All S T L G → Q fun _ continueScope => inScope continueScope (processQuery env c)
  relationReference (name : Name) :
    Q fun _ continueScope => inScope continueScope (processRelationReference env name)
  values {elements : List (Option (List (ScalarAction ρ)))} :
    (∀ row ∈ elements, ∀ es ∈ row, ∀ a ∈ es, S a) →
    Q fun context continueScope =>
      inScope continueScope (processTableValueConstructor env elements context)
  binaryQuery {left right : QueryAction ρ} (operator_ : QueryOperator)
    (quantifier : Option Ast.SetQuantifier) (corresponding : Bool) :
    Q left → Q right →
    Q fun context _ => processBinaryQuery env left operator_ quantifier corresponding right context
  with_ {elements : List (CommonTable ρ)} {query : QueryAction ρ} (isRecursive : Bool) :
    (∀ e ∈ elements, Q e.query) → Q query →
    Q fun context continueScope =>
      inScope continueScope (processWith env isRecursive elements query context)
  selectColumn {action : ScalarAction ρ} (value : ScalarExpression) (name : Option SimpleName) :
    S action → L (processSelectColumn env value action name)
  selectAsterisk (qualifier : Option ScalarExpression) : L (processSelectAsterisk env qualifier)
  groupingColumn {column : ScalarAction ρ} : S column → G (processGroupingColumn env column)
  tableReference (name : Name) (correlation : Option CorrelationClause) :
    T (processTableExpressionReference env name correlation)
  tableRejected (message : List Fragment) : T (reject .unsupportedFeature message)
  join {left right : Analysis ρ Graph} {specification : Option (JoinAction ρ)} (type : JoinType) :
    T left → T right → (∀ j ∈ specification, J j) →
    T (processJoinExpression env type left right specification)
  tableSubquery {query : QueryAction ρ} (isLateral : Bool) (correlation : CorrelationClause) :
    Q query → T (processTableSubquery env isLateral query correlation)
  apply {operand : Analysis ρ Graph} {arguments : List (ScalarAction ρ)} (type : Option ApplyType)
    (name : Name) (correlation : CorrelationClause) :
    T operand → (∀ a ∈ arguments, S a) →
    T (processApply env operand type name arguments correlation)
  joinCondition {condition : ScalarAction ρ} : S condition → J (processJoinCondition condition)
  joinColumns (columns : List SimpleName) : J (processJoinColumns env columns)

namespace Compositional

variable {env : Environment ρ} {S : ScalarAction ρ → Prop} {Q : QueryAction ρ → Prop}
  {T : Analysis ρ Graph → Prop} {L : SelectAction ρ → Prop} {G : GroupingAction ρ → Prop}
  {J : JoinAction ρ → Prop} (h : Compositional env S Q T L G J)

/-! What holds of the children of a node holds of their analyses. -/

theorem of_option {α β : Type} {P : β → Prop} {f : α → β} {o : Option α}
    (ho : ∀ a ∈ o, P (f a)) : ∀ b ∈ o.map f, P b := by
  intro b hb
  obtain ⟨a, ha, rfl⟩ := Option.map_eq_some_iff.mp hb
  exact ho a ha

theorem of_scalars {es : List ScalarExpression} (hes : ∀ e ∈ es, S (scalar env e)) :
    ∀ a ∈ scalars env es, S a := by
  rw [scalars_eq]
  exact List.forall_mem_map.mpr hes

theorem of_scalarOption {o : Option ScalarExpression} (ho : ∀ e ∈ o, S (scalar env e)) :
    ∀ a ∈ scalarOption env o, S a := by
  rw [scalarOption_eq]
  exact of_option ho

theorem of_inValues {q : QueryExpression}
    (hq : ∀ elements, q = .tableValueConstructor elements → ∀ e ∈ elements, S (scalar env e)) :
    ∀ vs ∈ inValues env q, ∀ a ∈ vs, S a := by
  intro vs hvs
  obtain ⟨elements, rfl, rfl⟩ := inValues_some env hvs
  exact List.forall_mem_map.mpr (hq elements rfl)

theorem of_rows {elements : List ScalarExpression}
    (helements : ∀ e ∈ elements, ∀ row, e = .valueConstructor .row row →
      ∀ x ∈ row, S (scalar env x)) :
    ∀ row ∈ rows env elements, ∀ es ∈ row, ∀ a ∈ es, S a := by
  rw [rows_eq]
  refine List.forall_mem_map.mpr fun e he es hes => ?_
  obtain ⟨row, rfl, rfl⟩ := rowElements_some env hes
  exact List.forall_mem_map.mpr (helements _ he row rfl)

theorem of_clauses {elements : List SelectElement} {from_ : List TableExpression}
    {where_ having limit : Option ScalarExpression} {groupBy : Option (List GroupingElement)}
    {orderBy : List SortElement} (quantifier : Option Ast.SetQuantifier)
    (helements : ∀ e ∈ elements, L (selectElement env e))
    (hfrom : ∀ t ∈ from_, T (tableExpression env t)) (hwhere : ∀ e ∈ where_, S (scalar env e))
    (hgroup : ∀ es ∈ groupBy, ∀ g ∈ es, G (groupingElement env g))
    (hhaving : ∀ e ∈ having, S (scalar env e)) (horder : ∀ e ∈ orderBy, S (scalar env e.key))
    (hlimit : ∀ e ∈ limit, S (scalar env e)) :
    QueryClauses.All S T L G
      { quantifier := quantifier
        elements := selectElements env elements
        from_ := tableExpressions env from_
        where_ := scalarOption env where_
        groupBy := groupingClause env groupBy
        having := scalarOption env having
        orderBy := sortElements env orderBy
        limit := scalarOption env limit } where
  elements := by
    rw [selectElements_eq]
    exact List.forall_mem_map.mpr helements
  from_ := by
    rw [tableExpressions_eq]
    exact List.forall_mem_map.mpr hfrom
  where_ := of_scalarOption hwhere
  groupBy := by
    rw [groupingClause_eq]
    exact of_option fun es hes => List.forall_mem_map.mpr (hgroup es hes)
  having := of_scalarOption hhaving
  orderBy := by
    rw [sortElements_eq]
    refine List.forall_mem_map.mpr fun e he => ?_
    rw [sortElement_key]
    exact horder e he
  limit := of_scalarOption hlimit

include h

theorem induction : SyntaxInduction (fun e => S (scalar env e))
    (fun q => Q (query env q)) (fun t => T (tableExpression env t))
    (fun e => L (selectElement env e)) (fun g => G (groupingElement env g))
    (fun j => J (joinSpecification env j)) where
  literal value := h.processed (h.literal value)
  variableReference name := h.processed (h.variableReference name)
  hostParameter name := h.processed (h.hostParameter name)
  case_ ho hw hd := h.processed (h.case_ (of_scalarOption ho)
    (by rw [scalarPairs_eq]; exact List.forall_mem_map.mpr hw) (of_scalarOption hd))
  cast operator_ type ho := h.processed (h.cast operator_ type ho)
  unary operator_ ho := h.processed (h.unary operator_ ho)
  binary operator_ hl hr := h.processed (h.binary operator_ _ hl hr)
  extract field digits ho := h.processed (h.extract field digits ho)
  valueConstructor _ _ := h.processed (h.rejected _)
  subquery kind hq := h.processed (h.subquery kind hq)
  comparison operator_ hl hr := h.processed (h.comparison operator_ hl hr)
  quantified operator_ quantifier hl hr := h.processed (h.quantified operator_ quantifier hl hr)
  between isNot operator_ ht hl hr := h.processed (h.between isNot operator_ ht hl hr)
  in_ isNot hl hv hr := h.processed (h.in_ isNot hl (of_inValues hv) hr)
  patternMatch isNot operator_ hi hp he :=
    h.processed (h.patternMatch isNot operator_ hi hp (of_scalarOption he))
  tablePredicate operator_ hq := h.processed (h.tablePredicate operator_ hq)
  function name ha := h.processed (h.function name (of_scalars ha))
  builtinFunction kind ha := h.processed (h.builtinFunction kind (of_scalars ha))
  builtinSetFunction kind quantifier ha :=
    h.processed (h.builtinSetFunction kind quantifier (of_scalars ha))
  placeholder index := h.processed (h.placeholder index)
  unsupported _ := h.processed (h.rejected _)
  query quantifier he hf hw hg hh ho hl := h.clauses (of_clauses quantifier he hf hw hg hh ho hl)
  relationReference name := h.relationReference name
  values he := h.values (of_rows he)
  binaryQuery operator_ quantifier _ hl hr := h.binaryQuery operator_ quantifier _ hl hr
  with_ isRecursive he hq := h.with_ isRecursive
    (by rw [withElements_eq]; exact List.forall_mem_map.mpr he) hq
  selectColumn name hv := h.selectColumn _ name hv
  selectAsterisk qualifier := h.selectAsterisk qualifier
  groupingColumn _ hc := h.groupingColumn hc
  tableReference _ name correlation := h.tableReference name correlation
  unnest _ _ _ := h.tableRejected _
  join type hl hr hj := h.join type hl hr
    (by rw [specificationOption_eq]; exact of_option hj)
  tableSubquery isLateral correlation hq := h.tableSubquery isLateral correlation hq
  apply type name correlation ho ha := h.apply type name correlation ho (of_scalars ha)
  joinCondition hc := h.joinCondition hc
  joinColumns columns := h.joinColumns columns

theorem scalar (e : ScalarExpression) : S (Analyzer.scalar env e) := h.induction.scalar e

theorem queryExpression (q : QueryExpression) : Q (query env q) := h.induction.queryExpression q

theorem table (t : TableExpression) : T (tableExpression env t) := h.induction.table t

end Compositional

/-! ### Queries of clauses -/

/-- The clauses of a query, each with its analysis. -/
def queryClauses (env : Environment ρ) (quantifier : Option Ast.SetQuantifier)
    (elements : List SelectElement) (from_ : List TableExpression)
    (where_ : Option ScalarExpression) (groupBy : Option (List GroupingElement))
    (having : Option ScalarExpression) (orderBy : List SortElement)
    (limit : Option ScalarExpression) : QueryClauses ρ where
  quantifier := quantifier
  elements := selectElements env elements
  from_ := tableExpressions env from_
  where_ := scalarOption env where_
  groupBy := groupingClause env groupBy
  having := scalarOption env having
  orderBy := sortElements env orderBy
  limit := scalarOption env limit

/-- A query that was analyzed is a run of its clauses, in the scope around it or in one of its
own. -/
theorem query_run {env : Environment ρ} {quantifier : Option Ast.SetQuantifier}
    {elements : List SelectElement} {from_ : List TableExpression}
    {where_ having limit : Option ScalarExpression} {groupBy : Option (List GroupingElement)}
    {orderBy : List SortElement} {context : List ScalarValueContext} {continueScope : Bool}
    {s t : AnalyzerState ρ} {r : QueryResult}
    (h : query env (.query quantifier elements from_ where_ groupBy having orderBy limit)
      context continueScope s = (some r, t)) :
    ∃ u v, Nonempty (QueryRun env (queryClauses env quantifier elements from_ where_ groupBy having
      orderBy limit) u v r) ∧ (u = s ∨ u = s.enter .empty) := by
  obtain ⟨-, -, hrun⟩ | ⟨-, u, hrun, -⟩ := inScope_yields h
  · exact ⟨s, t, processQuery_run env hrun, .inl rfl⟩
  · exact ⟨_, u, processQuery_run env hrun, .inr rfl⟩

end Mizugaki.Analyzer
