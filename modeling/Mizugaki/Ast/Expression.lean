import Mizugaki.Ast.Name

/-! Scalar, query and table expressions. A scalar node kind that the scalar
analyzer does not handle keeps its kind only: its children are never visited.
The row value constructor is kept in full, since `VALUES` and `IN` look into it. -/

namespace Mizugaki.Ast

inductive UnaryOperator where
  | plus | minus | not_ | atLocal | referenceResolution
  deriving DecidableEq, Repr

inductive BinaryOperator where
  | plus | minus | asterisk | solidus | percent | concatenation | elementReference | atTimeZone
  | and_ | or_ | is | isNot | overlaps | isDistinctFrom | contains | isContainedBy
  | haveElementsInCommon
  deriving DecidableEq, Repr

inductive ComparisonOperator where
  | equals | notEquals | notEqualsAlternative | lessThan | greaterThan | lessThanOrEquals
  | greaterThanOrEquals
  deriving DecidableEq, Repr

inductive Quantifier where
  | all | some_ | any
  deriving DecidableEq, Repr

inductive BetweenOperator where
  | asymmetric | symmetric
  deriving DecidableEq, Repr

inductive PatternMatchOperator where
  | like | similarTo
  deriving DecidableEq, Repr

inductive TableOperator where
  | exists_ | unique
  deriving DecidableEq, Repr

inductive SetQuantifier where
  | distinct | all
  deriving DecidableEq, Repr

inductive ValueConstructorKind where
  | array | row
  deriving DecidableEq, Repr

inductive ExpressionContextKind where
  | scalar | row
  deriving DecidableEq, Repr

inductive CastOperator where
  | cast | treat | generalize
  deriving DecidableEq, Repr

inductive BuiltinFunctionKind where
  | position | length | characterLength | octetLength | bitLength | cardinality | abs | ceil
  | floor | mod | substring | upper | lower | convert | translate | overlay | currentDate
  | currentTime | localtime | currentTimestamp | localtimestamp | nullif | coalesce | nextValueFor
  | user | currentUser | currentRole | systemUser | currentPath
  deriving DecidableEq, Repr

inductive BuiltinSetFunctionKind where
  | avg | max | min | sum | every | any | some_ | count | bitAnd | bitOr | boolAnd | boolOr
  deriving DecidableEq, Repr

inductive ExtractFieldKind where
  | year | month | day | hour | minute | second | timezoneHour | timezoneMinute | date
  | yearToMonth | yearToDay | yearToHour | yearToMinute | yearToSecond
  deriving DecidableEq, Repr

inductive UnsupportedScalarKind where
  | fieldReference | trimExpression | newInvocation | methodInvocation | staticMethodInvocation
  | currentOfCursor
  deriving DecidableEq, Repr

inductive QueryOperator where
  | union_ | outerUnion | except | intersect
  deriving DecidableEq, Repr

inductive JoinType where
  | cross | inner | leftOuter | rightOuter | fullOuter | naturalInner | naturalLeftOuter
  | naturalRightOuter | naturalFullOuter | union_
  deriving DecidableEq, Repr

inductive ApplyType where
  | cross | outer
  deriving DecidableEq, Repr

inductive OrderingSpecification where
  | asc | desc
  deriving DecidableEq, Repr

inductive NullOrderingSpecification where
  | first | last
  deriving DecidableEq, Repr

/-- `table::correlation_clause`. -/
structure CorrelationClause where
  correlationName : SimpleName
  columnNames : List SimpleName
  deriving DecidableEq, Repr

mutual

/-- `scalar::expression`. -/
inductive ScalarExpression where
  | literalExpression (value : Literal)
  | variableReference (name : Name)
  | hostParameterReference (name : SimpleName)
  | caseExpression (operand : Option ScalarExpression)
      (whenClauses : List (ScalarExpression × ScalarExpression))
      (defaultResult : Option ScalarExpression)
  | castExpression (operatorKind : CastOperator) (operand : ScalarExpression) (type : TypeNode)
  | unaryExpression (operatorKind : UnaryOperator) (operand : ScalarExpression)
  | binaryExpression (left : ScalarExpression) (operatorKind : BinaryOperator)
      (right : ScalarExpression)
  | extractExpression (field : ExtractFieldKind) (subsecondDigits : Option Nat)
      (operand : ScalarExpression)
  | valueConstructor (operatorKind : ValueConstructorKind) (elements : List ScalarExpression)
  | subquery (query : QueryExpression) (contextKind : ExpressionContextKind)
  | comparisonPredicate (left : ScalarExpression) (operatorKind : ComparisonOperator)
      (right : ScalarExpression)
  | quantifiedComparisonPredicate (left : ScalarExpression) (operatorKind : ComparisonOperator)
      (quantifier : Quantifier) (right : QueryExpression)
  | betweenPredicate (target : ScalarExpression) (isNot : Bool)
      (operatorKind : Option BetweenOperator) (left right : ScalarExpression)
  | inPredicate (left : ScalarExpression) (isNot : Bool) (right : QueryExpression)
  | patternMatchPredicate (matchValue : ScalarExpression) (isNot : Bool)
      (operatorKind : PatternMatchOperator) (pattern : ScalarExpression)
      (escape : Option ScalarExpression)
  | tablePredicate (operatorKind : TableOperator) (operand : QueryExpression)
  | functionInvocation (name : Name) (arguments : List ScalarExpression)
  | builtinFunctionInvocation (function : BuiltinFunctionKind) (arguments : List ScalarExpression)
  | builtinSetFunctionInvocation (function : BuiltinSetFunctionKind)
      (quantifier : Option SetQuantifier) (arguments : List ScalarExpression)
  | placeholderReference (index : Nat)
  | unsupported (kind : UnsupportedScalarKind)

/-- `query::expression`. -/
inductive QueryExpression where
  | query (quantifier : Option SetQuantifier) (elements : List SelectElement)
      (from_ : List TableExpression) (where_ : Option ScalarExpression)
      (groupBy : Option (List GroupingElement)) (having : Option ScalarExpression)
      (orderBy : List SortElement) (limit : Option ScalarExpression)
  | tableReference (name : Name)
  | tableValueConstructor (elements : List ScalarExpression)
  | binaryExpression (left : QueryExpression) (operatorKind : QueryOperator)
      (quantifier : Option SetQuantifier) (corresponding : Option (List SimpleName))
      (right : QueryExpression)
  | withExpression (isRecursive : Bool) (elements : List WithElement)
      (expression : QueryExpression)

/-- `query::select_element`. -/
inductive SelectElement where
  | selectColumn (value : ScalarExpression) (name : Option SimpleName)
  | selectAsterisk (qualifier : Option ScalarExpression)

/-- `query::grouping_element`. -/
inductive GroupingElement where
  | groupingColumn (column : ScalarExpression) (collation : Option Name)

/-- `common::sort_element`. -/
inductive SortElement where
  | mk (key : ScalarExpression) (collation : Option Name)
      (direction : Option OrderingSpecification) (nullLocation : Option NullOrderingSpecification)

/-- `query::with_element`. -/
inductive WithElement where
  | mk (name : SimpleName) (columnNames : List SimpleName) (expression : QueryExpression)

/-- `table::expression`. -/
inductive TableExpression where
  | tableReference (isOnly : Bool) (name : Name) (correlation : Option CorrelationClause)
  | unnest (expression : ScalarExpression) (withOrdinality : Bool)
      (correlation : CorrelationClause)
  | join (left : TableExpression) (operatorKind : JoinType) (right : TableExpression)
      (specification : Option JoinSpecification)
  | subquery (isLateral : Bool) (expression : QueryExpression) (correlation : CorrelationClause)
  | apply (operand : TableExpression) (operatorKind : Option ApplyType) (name : Name)
      (arguments : List ScalarExpression) (correlation : CorrelationClause)

/-- `table::join_specification`. -/
inductive JoinSpecification where
  | joinCondition (expression : ScalarExpression)
  | joinColumns (columns : List SimpleName)

end

end Mizugaki.Ast
