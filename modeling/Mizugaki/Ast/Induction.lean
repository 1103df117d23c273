import Mizugaki.Ast.Expression

/-! Induction over scalar, query and table expressions. A property of each kind of node that
follows from the properties of the nodes below it holds of every syntax tree. -/

namespace Mizugaki.Ast

def SortElement.key : SortElement → ScalarExpression
  | mk key _ _ _ => key

def WithElement.name : WithElement → SimpleName
  | mk name _ _ => name

def WithElement.columnNames : WithElement → List SimpleName
  | mk _ columnNames _ => columnNames

def WithElement.expression : WithElement → QueryExpression
  | mk _ _ expression => expression

/-- Properties of scalar expressions, queries, table expressions, select and grouping elements and
join specifications that every node has when the nodes below it have them. -/
structure SyntaxInduction (S : ScalarExpression → Prop) (Q : QueryExpression → Prop)
    (T : TableExpression → Prop) (L : SelectElement → Prop) (G : GroupingElement → Prop)
    (J : JoinSpecification → Prop) : Prop where
  literal (value : Literal) : S (.literalExpression value)
  variableReference (name : Name) : S (.variableReference name)
  hostParameter (name : SimpleName) : S (.hostParameterReference name)
  case_ {operand defaultResult : Option ScalarExpression}
    {whenClauses : List (ScalarExpression × ScalarExpression)} :
    (∀ e ∈ operand, S e) → (∀ p ∈ whenClauses, S p.1 ∧ S p.2) → (∀ e ∈ defaultResult, S e) →
    S (.caseExpression operand whenClauses defaultResult)
  cast {operand : ScalarExpression} (operator_ : CastOperator) (type : TypeNode) :
    S operand → S (.castExpression operator_ operand type)
  unary {operand : ScalarExpression} (operator_ : UnaryOperator) :
    S operand → S (.unaryExpression operator_ operand)
  binary {left right : ScalarExpression} (operator_ : BinaryOperator) :
    S left → S right → S (.binaryExpression left operator_ right)
  extract {operand : ScalarExpression} (field : ExtractFieldKind) (digits : Option Nat) :
    S operand → S (.extractExpression field digits operand)
  valueConstructor (kind : ValueConstructorKind) (elements : List ScalarExpression) :
    S (.valueConstructor kind elements)
  subquery {query : QueryExpression} (contextKind : ExpressionContextKind) :
    Q query → S (.subquery query contextKind)
  comparison {left right : ScalarExpression} (operator_ : ComparisonOperator) :
    S left → S right → S (.comparisonPredicate left operator_ right)
  quantified {left : ScalarExpression} {right : QueryExpression} (operator_ : ComparisonOperator)
    (quantifier : Quantifier) :
    S left → Q right → S (.quantifiedComparisonPredicate left operator_ quantifier right)
  between {target left right : ScalarExpression} (isNot : Bool)
    (operator_ : Option BetweenOperator) :
    S target → S left → S right → S (.betweenPredicate target isNot operator_ left right)
  in_ {left : ScalarExpression} {right : QueryExpression} (isNot : Bool) :
    S left → (∀ elements, right = .tableValueConstructor elements → ∀ e ∈ elements, S e) →
    Q right → S (.inPredicate left isNot right)
  patternMatch {input pattern : ScalarExpression} {escape : Option ScalarExpression}
    (isNot : Bool) (operator_ : PatternMatchOperator) :
    S input → S pattern → (∀ e ∈ escape, S e) →
    S (.patternMatchPredicate input isNot operator_ pattern escape)
  tablePredicate {operand : QueryExpression} (operator_ : TableOperator) :
    Q operand → S (.tablePredicate operator_ operand)
  function {arguments : List ScalarExpression} (name : Name) :
    (∀ e ∈ arguments, S e) → S (.functionInvocation name arguments)
  builtinFunction {arguments : List ScalarExpression} (kind : BuiltinFunctionKind) :
    (∀ e ∈ arguments, S e) → S (.builtinFunctionInvocation kind arguments)
  builtinSetFunction {arguments : List ScalarExpression} (kind : BuiltinSetFunctionKind)
    (quantifier : Option SetQuantifier) :
    (∀ e ∈ arguments, S e) → S (.builtinSetFunctionInvocation kind quantifier arguments)
  placeholder (index : Nat) : S (.placeholderReference index)
  unsupported (kind : UnsupportedScalarKind) : S (.unsupported kind)
  query {elements : List SelectElement} {from_ : List TableExpression}
    {where_ having limit : Option ScalarExpression} {groupBy : Option (List GroupingElement)}
    {orderBy : List SortElement} (quantifier : Option SetQuantifier) :
    (∀ e ∈ elements, L e) → (∀ t ∈ from_, T t) → (∀ e ∈ where_, S e) →
    (∀ es ∈ groupBy, ∀ g ∈ es, G g) → (∀ e ∈ having, S e) → (∀ e ∈ orderBy, S e.key) →
    (∀ e ∈ limit, S e) → Q (.query quantifier elements from_ where_ groupBy having orderBy limit)
  relationReference (name : Name) : Q (.tableReference name)
  values {elements : List ScalarExpression} :
    (∀ e ∈ elements, ∀ row, e = .valueConstructor .row row → ∀ x ∈ row, S x) →
    Q (.tableValueConstructor elements)
  binaryQuery {left right : QueryExpression} (operator_ : QueryOperator)
    (quantifier : Option SetQuantifier) (corresponding : Option (List SimpleName)) :
    Q left → Q right → Q (.binaryExpression left operator_ quantifier corresponding right)
  with_ {elements : List WithElement} {expression : QueryExpression} (isRecursive : Bool) :
    (∀ e ∈ elements, Q e.expression) → Q expression →
    Q (.withExpression isRecursive elements expression)
  selectColumn {value : ScalarExpression} (name : Option SimpleName) :
    S value → L (.selectColumn value name)
  selectAsterisk (qualifier : Option ScalarExpression) : L (.selectAsterisk qualifier)
  groupingColumn {column : ScalarExpression} (collation : Option Name) :
    S column → G (.groupingColumn column collation)
  tableReference (isOnly : Bool) (name : Name) (correlation : Option CorrelationClause) :
    T (.tableReference isOnly name correlation)
  unnest (expression : ScalarExpression) (withOrdinality : Bool)
    (correlation : CorrelationClause) : T (.unnest expression withOrdinality correlation)
  join {left right : TableExpression} {specification : Option JoinSpecification}
    (type : JoinType) :
    T left → T right → (∀ j ∈ specification, J j) → T (.join left type right specification)
  tableSubquery {expression : QueryExpression} (isLateral : Bool)
    (correlation : CorrelationClause) :
    Q expression → T (.subquery isLateral expression correlation)
  apply {operand : TableExpression} {arguments : List ScalarExpression}
    (type : Option ApplyType) (name : Name) (correlation : CorrelationClause) :
    T operand → (∀ e ∈ arguments, S e) → T (.apply operand type name arguments correlation)
  joinCondition {expression : ScalarExpression} : S expression → J (.joinCondition expression)
  joinColumns (columns : List SimpleName) : J (.joinColumns columns)

namespace SyntaxInduction

variable {S : ScalarExpression → Prop} {Q : QueryExpression → Prop} {T : TableExpression → Prop}
  {L : SelectElement → Prop} {G : GroupingElement → Prop} {J : JoinSpecification → Prop}
  (h : SyntaxInduction S Q T L G J)

include h

set_option linter.unusedSectionVars false

mutual

theorem scalar : ∀ e, S e
  | .literalExpression value => h.literal value
  | .variableReference name => h.variableReference name
  | .hostParameterReference name => h.hostParameter name
  | .caseExpression operand whenClauses defaultResult =>
    h.case_ (scalarOption operand) (scalarPairs whenClauses) (scalarOption defaultResult)
  | .castExpression operator_ operand type => h.cast operator_ type (scalar operand)
  | .unaryExpression operator_ operand => h.unary operator_ (scalar operand)
  | .binaryExpression left operator_ right => h.binary operator_ (scalar left) (scalar right)
  | .extractExpression field digits operand => h.extract field digits (scalar operand)
  | .valueConstructor kind elements => h.valueConstructor kind elements
  | .subquery q contextKind => h.subquery contextKind (queryExpression q)
  | .comparisonPredicate left operator_ right =>
    h.comparison operator_ (scalar left) (scalar right)
  | .quantifiedComparisonPredicate left operator_ quantifier right =>
    h.quantified operator_ quantifier (scalar left) (queryExpression right)
  | .betweenPredicate target isNot operator_ left right =>
    h.between isNot operator_ (scalar target) (scalar left) (scalar right)
  | .inPredicate left isNot right =>
    h.in_ isNot (scalar left) (inValues right) (queryExpression right)
  | .patternMatchPredicate input isNot operator_ pattern escape =>
    h.patternMatch isNot operator_ (scalar input) (scalar pattern) (scalarOption escape)
  | .tablePredicate operator_ operand => h.tablePredicate operator_ (queryExpression operand)
  | .functionInvocation name arguments => h.function name (scalars arguments)
  | .builtinFunctionInvocation kind arguments => h.builtinFunction kind (scalars arguments)
  | .builtinSetFunctionInvocation kind quantifier arguments =>
    h.builtinSetFunction kind quantifier (scalars arguments)
  | .placeholderReference index => h.placeholder index
  | .unsupported kind => h.unsupported kind
termination_by structural e => e

theorem scalars : ∀ es : List ScalarExpression, ∀ e ∈ es, S e
  | [], _, he => nomatch he
  | e :: es, x, hx => (List.mem_cons.mp hx).elim (fun heq => heq ▸ scalar e)
      (scalars es x)
termination_by structural es => es

theorem scalarOption : ∀ o : Option ScalarExpression, ∀ e ∈ o, S e
  | none, _, he => nomatch he
  | some e, _, hx => (Option.mem_some_iff.mp hx) ▸ scalar e
termination_by structural o => o

theorem scalarPairs : ∀ pairs : List (ScalarExpression × ScalarExpression),
    ∀ p ∈ pairs, S p.1 ∧ S p.2
  | [], _, hp => nomatch hp
  | (a, b) :: rest, p, hp => by
    obtain rfl | hp := List.mem_cons.mp hp
    · exact ⟨scalar a, scalar b⟩
    · exact scalarPairs rest p hp
termination_by structural pairs => pairs

theorem rowElements : ∀ e : ScalarExpression, ∀ row, e = .valueConstructor .row row →
    ∀ x ∈ row, S x
  | .valueConstructor kind elements, row, he => by
    obtain ⟨-, rfl⟩ := (ScalarExpression.valueConstructor.injEq ..).mp he
    exact scalars elements
  | .literalExpression _, _, he => nomatch he
  | .variableReference _, _, he => nomatch he
  | .hostParameterReference _, _, he => nomatch he
  | .caseExpression _ _ _, _, he => nomatch he
  | .castExpression _ _ _, _, he => nomatch he
  | .unaryExpression _ _, _, he => nomatch he
  | .binaryExpression _ _ _, _, he => nomatch he
  | .extractExpression _ _ _, _, he => nomatch he
  | .subquery _ _, _, he => nomatch he
  | .comparisonPredicate _ _ _, _, he => nomatch he
  | .quantifiedComparisonPredicate _ _ _ _, _, he => nomatch he
  | .betweenPredicate _ _ _ _ _, _, he => nomatch he
  | .inPredicate _ _ _, _, he => nomatch he
  | .patternMatchPredicate _ _ _ _ _, _, he => nomatch he
  | .tablePredicate _ _, _, he => nomatch he
  | .functionInvocation _ _, _, he => nomatch he
  | .builtinFunctionInvocation _ _, _, he => nomatch he
  | .builtinSetFunctionInvocation _ _ _, _, he => nomatch he
  | .placeholderReference _, _, he => nomatch he
  | .unsupported _, _, he => nomatch he
termination_by structural e => e

theorem rows : ∀ es : List ScalarExpression, ∀ e ∈ es, ∀ row, e = .valueConstructor .row row →
    ∀ x ∈ row, S x
  | [], _, he => nomatch he
  | e :: es, x, hx => (List.mem_cons.mp hx).elim (fun heq => heq ▸ rowElements e)
      (rows es x)
termination_by structural es => es

theorem inValues : ∀ q : QueryExpression, ∀ elements, q = .tableValueConstructor elements →
    ∀ e ∈ elements, S e
  | .tableValueConstructor elements, _, hq => by
    obtain rfl := (QueryExpression.tableValueConstructor.injEq ..).mp hq
    exact scalars elements
  | .query _ _ _ _ _ _ _ _, _, hq => nomatch hq
  | .tableReference _, _, hq => nomatch hq
  | .binaryExpression _ _ _ _ _, _, hq => nomatch hq
  | .withExpression _ _ _, _, hq => nomatch hq
termination_by structural q => q

theorem queryExpression : ∀ q, Q q
  | .query quantifier elements from_ where_ groupBy having orderBy limit =>
    h.query quantifier (selectElements elements) (tableExpressions from_) (scalarOption where_)
      (groupingClause groupBy) (scalarOption having) (sortElements orderBy) (scalarOption limit)
  | .tableReference name => h.relationReference name
  | .tableValueConstructor elements => h.values (rows elements)
  | .binaryExpression left operator_ quantifier corresponding right =>
    h.binaryQuery operator_ quantifier corresponding (queryExpression left)
      (queryExpression right)
  | .withExpression isRecursive elements expression =>
    h.with_ isRecursive (withElements elements) (queryExpression expression)
termination_by structural q => q

theorem selectElement : ∀ e, L e
  | .selectColumn value name => h.selectColumn name (scalar value)
  | .selectAsterisk qualifier => h.selectAsterisk qualifier
termination_by structural e => e

theorem selectElements : ∀ es : List SelectElement, ∀ e ∈ es, L e
  | [], _, he => nomatch he
  | e :: es, x, hx => (List.mem_cons.mp hx).elim (fun heq => heq ▸ selectElement e)
      (selectElements es x)
termination_by structural es => es

theorem groupingElement : ∀ e, G e
  | .groupingColumn column collation => h.groupingColumn collation (scalar column)
termination_by structural e => e

theorem groupingElements : ∀ es : List GroupingElement, ∀ g ∈ es, G g
  | [], _, hg => nomatch hg
  | e :: es, g, hg => (List.mem_cons.mp hg).elim (fun heq => heq ▸ groupingElement e)
      (groupingElements es g)
termination_by structural es => es

theorem groupingClause : ∀ o : Option (List GroupingElement), ∀ es ∈ o, ∀ g ∈ es, G g
  | none, _, hes => nomatch hes
  | some elements, es, hes => by
    obtain rfl := Option.mem_some_iff.mp hes
    exact groupingElements elements
termination_by structural o => o

theorem sortElement : ∀ e : SortElement, S e.key
  | .mk key _ _ _ => scalar key
termination_by structural e => e

theorem sortElements : ∀ es : List SortElement, ∀ e ∈ es, S e.key
  | [], _, he => nomatch he
  | e :: es, x, hx => (List.mem_cons.mp hx).elim (fun heq => heq ▸ sortElement e)
      (sortElements es x)
termination_by structural es => es

theorem withElement : ∀ e : WithElement, Q e.expression
  | .mk _ _ expression => queryExpression expression
termination_by structural e => e

theorem withElements : ∀ es : List WithElement, ∀ e ∈ es, Q e.expression
  | [], _, he => nomatch he
  | e :: es, x, hx => (List.mem_cons.mp hx).elim (fun heq => heq ▸ withElement e)
      (withElements es x)
termination_by structural es => es

theorem table : ∀ t, T t
  | .tableReference isOnly name correlation => h.tableReference isOnly name correlation
  | .unnest expression withOrdinality correlation =>
    h.unnest expression withOrdinality correlation
  | .join left type right specification =>
    h.join type (table left) (table right) (specificationOption specification)
  | .subquery isLateral expression correlation =>
    h.tableSubquery isLateral correlation (queryExpression expression)
  | .apply operand type name arguments correlation =>
    h.apply type name correlation (table operand) (scalars arguments)
termination_by structural t => t

theorem tableExpressions : ∀ ts : List TableExpression, ∀ t ∈ ts, T t
  | [], _, ht => nomatch ht
  | t :: ts, x, hx => (List.mem_cons.mp hx).elim (fun heq => heq ▸ table t)
      (tableExpressions ts x)
termination_by structural ts => ts

theorem joinSpecification : ∀ s, J s
  | .joinCondition expression => h.joinCondition (scalar expression)
  | .joinColumns columns => h.joinColumns columns
termination_by structural s => s

theorem specificationOption : ∀ o : Option JoinSpecification, ∀ j ∈ o, J j
  | none, _, hj => nomatch hj
  | some s, _, hj => (Option.mem_some_iff.mp hj) ▸ joinSpecification s
termination_by structural o => o

end

end SyntaxInduction

/-! ### Queries alone -/

/-- Properties of queries and table expressions alone that every node has when the queries and
table expressions below it have them; queries in scalar expressions do not matter. -/
structure QueryInduction (Q : QueryExpression → Prop) (T : TableExpression → Prop) : Prop where
  query {elements : List SelectElement} {from_ : List TableExpression}
    {where_ having limit : Option ScalarExpression} {groupBy : Option (List GroupingElement)}
    {orderBy : List SortElement} (quantifier : Option SetQuantifier) :
    (∀ t ∈ from_, T t) → Q (.query quantifier elements from_ where_ groupBy having orderBy limit)
  relationReference (name : Name) : Q (.tableReference name)
  values (elements : List ScalarExpression) : Q (.tableValueConstructor elements)
  binaryQuery {left right : QueryExpression} (operator_ : QueryOperator)
    (quantifier : Option SetQuantifier) (corresponding : Option (List SimpleName)) :
    Q left → Q right → Q (.binaryExpression left operator_ quantifier corresponding right)
  with_ {elements : List WithElement} {expression : QueryExpression} (isRecursive : Bool) :
    (∀ e ∈ elements, Q e.expression) → Q expression →
    Q (.withExpression isRecursive elements expression)
  tableReference (isOnly : Bool) (name : Name) (correlation : Option CorrelationClause) :
    T (.tableReference isOnly name correlation)
  unnest (expression : ScalarExpression) (withOrdinality : Bool)
    (correlation : CorrelationClause) : T (.unnest expression withOrdinality correlation)
  join {left right : TableExpression} (type : JoinType)
    (specification : Option JoinSpecification) :
    T left → T right → T (.join left type right specification)
  tableSubquery {expression : QueryExpression} (isLateral : Bool)
    (correlation : CorrelationClause) :
    Q expression → T (.subquery isLateral expression correlation)
  apply {operand : TableExpression} (type : Option ApplyType) (name : Name)
    (arguments : List ScalarExpression) (correlation : CorrelationClause) :
    T operand → T (.apply operand type name arguments correlation)

namespace QueryInduction

variable {Q : QueryExpression → Prop} {T : TableExpression → Prop}

theorem syntax_ (h : QueryInduction Q T) : SyntaxInduction (fun _ => True) Q T (fun _ => True)
    (fun _ => True) (fun _ => True) := by
  constructor
  case query => exact fun quantifier _ hfrom _ _ _ _ _ => h.query quantifier hfrom
  case relationReference => exact h.relationReference
  case values => exact fun _ => h.values _
  case binaryQuery => exact h.binaryQuery
  case with_ => exact h.with_
  case tableReference => exact h.tableReference
  case unnest => exact h.unnest
  case join => exact fun type hl hr _ => h.join type _ hl hr
  case tableSubquery => exact h.tableSubquery
  case apply => exact fun type name correlation ho _ => h.apply type name _ correlation ho
  all_goals intros; trivial

theorem queryExpression (h : QueryInduction Q T) (q : QueryExpression) : Q q :=
  h.syntax_.queryExpression q

theorem table (h : QueryInduction Q T) (t : TableExpression) : T t := h.syntax_.table t

end QueryInduction

end Mizugaki.Ast
