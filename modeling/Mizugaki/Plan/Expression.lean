import Mizugaki.Plan.Data

/-! Scalar expressions, relational operators and graphs of an execution plan. An
operator holds its own expressions, columns and mappings; a graph joins operators
by their ports. Every output port is consumed once and a graph under analysis has
one output, so a graph is the tree of the operators below that output. -/

namespace Mizugaki.Plan

inductive CastLossPolicy where
  | ignore | error
  deriving DecidableEq, Repr

inductive UnaryOperator where
  | plus | signInversion | conditionalNot | isNull | isTrue | isFalse | isUnknown
  deriving DecidableEq, Repr

inductive BinaryOperator where
  | add | subtract | multiply | divide | remainder | concat | conditionalAnd | conditionalOr
  deriving DecidableEq, Repr

inductive ComparisonOperator where
  | equal | notEqual | less | lessEqual | greater | greaterEqual
  deriving DecidableEq, Repr

inductive MatchOperator where
  | like | similar
  deriving DecidableEq, Repr

inductive Quantifier where
  | all | any
  deriving DecidableEq, Repr

inductive JoinKind where
  | inner | leftOuter | fullOuter
  deriving DecidableEq, Repr

inductive ApplyKind where
  | cross | outer
  deriving DecidableEq, Repr

inductive SetQuantifier where
  | distinct | all
  deriving DecidableEq, Repr

inductive WriteKind where
  | insert | insertSkip | insertOverwrite | update | delete
  deriving DecidableEq, Repr

/-- A column of the aggregate operator. -/
structure AggregateColumn where
  function : AggregateDecl
  arguments : List Variable
  destination : Variable
  deriving DecidableEq, Repr

mutual

/-- `takatori::scalar::expression`, with the extension nodes of yugawara. -/
inductive Scalar where
  | immediate (value : ValueData) (type : TypeData)
  | variableReference (variable_ : Variable)
  | cast (type : TypeData) (lossPolicy : CastLossPolicy) (operand : Scalar)
  | unary (operator_ : UnaryOperator) (operand : Scalar)
  | binary (operator_ : BinaryOperator) (left right : Scalar)
  | compare (operator_ : ComparisonOperator) (left right : Scalar)
  | match_ (operator_ : MatchOperator) (input pattern escape : Scalar)
  | conditional (alternatives : List (Scalar × Scalar)) (default_ : Option Scalar)
  | coalesce (alternatives : List Scalar)
  | let_ (variables_ : List (Variable × Scalar)) (body : Scalar)
  | functionCall (function : FunctionDecl) (arguments : List Scalar)
  | aggregateFunctionCall (function : AggregateDecl) (arguments : List Scalar)
  | subquery (graph : Graph) (parameters : List (Variable × Variable)) (outputColumn : Variable)
  | exists_ (graph : Graph) (parameters : List (Variable × Variable))
  | quantifiedCompare (operator_ : ComparisonOperator) (quantifier : Quantifier) (left : Scalar)
      (graph : Graph) (parameters : List (Variable × Variable)) (rightColumn : Variable)

/-- `takatori::relation::expression`, without its ports. -/
inductive Operator where
  | scan (source : Index) (columns : List (Column × Variable))
  | values (columns : List Variable) (rows : List (List Scalar))
  | filter (condition : Scalar)
  | project (columns : List (Variable × Scalar))
  | apply (operatorKind : ApplyKind) (function : FunctionDecl) (arguments : List Scalar)
      (columns : List (Nat × Variable))
  | join (operatorKind : JoinKind) (condition : Option Scalar)
  | distinct (groupKeys : List Variable)
  | limit (count : Option Nat) (groupKeys : List Variable)
      (sortKeys : List (Variable × SortDirection))
  | union_ (quantifier : SetQuantifier) (mappings : List (Variable × Variable × Variable))
  | difference (quantifier : SetQuantifier) (groupKeyPairs : List (Variable × Variable))
  | intersection (quantifier : SetQuantifier) (groupKeyPairs : List (Variable × Variable))
  | aggregate (groupKeys : List Variable) (columns : List AggregateColumn)
  | subquery (graph : Graph) (mappings : List (Variable × Variable)) (isClone : Bool)
  | emit (columns : List (Variable × Option String))
  | write (operatorKind : WriteKind) (destination : Index) (keys : List (Variable × Column))
      (columns : List (Variable × Column))

/-- The operators below an output port. -/
inductive Graph where
  | source (operator_ : Operator)
  | unary (operator_ : Operator) (input : Graph)
  | binary (operator_ : Operator) (left right : Graph)

end

namespace Graph

/-- `output_port::owner`. -/
def owner : Graph → Operator
  | source op => op
  | unary op _ => op
  | binary op _ _ => op

/-- The operators of a graph, from its output down. -/
def operators : Graph → List Operator
  | source op => [op]
  | unary op g => op :: g.operators
  | binary op l r => op :: (l.operators ++ r.operators)

end Graph

/-- An operator of EXCEPT or INTERSECT. -/
@[simp, grind =] def Operator.isDifference : Operator → Bool
  | difference _ _ | intersection _ _ => true
  | scan _ _ | values _ _ | filter _ | project _ | apply _ _ _ _ | join _ _ | distinct _ | limit _ _ _
  | union_ _ _ | aggregate _ _ | subquery _ _ _ | emit _ | write _ _ _ _ => false

/-- The variables an operator defines. -/
def Operator.defines : Operator → List Variable
  | scan _ columns => columns.map Prod.snd
  | values columns _ => columns
  | project columns => columns.map Prod.fst
  | apply _ _ _ columns => columns.map Prod.snd
  | union_ _ mappings => mappings.map fun m => m.2.2
  | aggregate _ columns => columns.map AggregateColumn.destination
  | subquery _ mappings _ => mappings.map Prod.snd
  | filter _ | join _ _ | distinct _ | limit _ _ _ | difference _ _ | intersection _ _ | emit _
  | write _ _ _ _ => []

/-- The variables the operators of a graph define. -/
def Graph.defines (g : Graph) : List Variable := g.operators.flatMap Operator.defines

@[simp] theorem Graph.defines_source (op : Operator) : (Graph.source op).defines = op.defines := by
  simp [Graph.defines, Graph.operators]

@[simp] theorem Graph.defines_unary (op : Operator) (g : Graph) :
    (Graph.unary op g).defines = op.defines ++ g.defines := by
  simp [Graph.defines, Graph.operators]

@[simp] theorem Graph.defines_binary (op : Operator) (l r : Graph) :
    (Graph.binary op l r).defines = op.defines ++ (l.defines ++ r.defines) := by
  simp [Graph.defines, Graph.operators]

end Mizugaki.Plan
