import Mizugaki.Ast.Statement
import Mizugaki.Data.RecordTree

/-! The classes of syntax tree objects with their members, as `ast/**/*.h` declare them. An
object is a record of its class: this view of the tree serves the code that treats all
classes alike, comparison and the tree validator. -/

namespace Mizugaki.Syntax

open Mizugaki.Ast (NodeRegion)

/-- The concrete classes, by directory. The first row are the elements: they are held by
value, are no nodes and have no node kind. -/
inductive Class where
  | sortElement | targetElement | correspondingClause | groupByClause | withElement
  | caseWhenClause | columnConstraintDefinition | privilegeAction | privilegeObject
  | privilegeUser | setElement | storageParameter | correlationClause | fieldDefinition
  | literalBoolean | literalDatetime | literalInterval | literalNumeric | literalString
  | literalNull | literalEmpty | literalDefault
  | nameSimple | nameQualified
  | query | queryTableReference | tableValueConstructor | queryBinaryExpression | withExpression
  | selectColumn | selectAsterisk | groupingColumn
  | literalExpression | variableReference | hostParameterReference | fieldReference
  | caseExpression | castExpression | unaryExpression | scalarBinaryExpression
  | extractExpression | trimExpression | valueConstructor | scalarSubquery
  | comparisonPredicate | quantifiedComparisonPredicate | betweenPredicate | inPredicate
  | patternMatchPredicate | tablePredicate | functionInvocation | builtinFunctionInvocation
  | builtinSetFunctionInvocation | newInvocation | methodInvocation | staticMethodInvocation
  | currentOfCursor | placeholderReference
  | emptyStatement | selectStatement | insertStatement | updateStatement | deleteStatement
  | tableDefinition | indexDefinition | viewDefinition | sequenceDefinition | schemaDefinition
  | alterTableStatement | alterIndexStatement | dropStatement | truncateTableStatement
  | grantPrivilegeStatement | revokePrivilegeStatement
  | columnDefinition | tableConstraintDefinition
  | simpleConstraint | expressionConstraint | keyConstraint | referentialConstraint
  | identityConstraint
  | renameTableAction | renameColumnAction | renameIndexAction
  | tableReference | unnest | join | tableSubquery | apply | joinCondition | joinColumns
  | typeSimple | characterString | bitString | octetString | decimal | binaryNumeric
  | typeDatetime | typeInterval | row | userDefined | collection
  deriving DecidableEq, Repr

/-- The names of data members, without the trailing `_`. -/
inductive Member where
  | action | actionKind | actions | aliasName | arguments | authorizationIdentifier | body
  | character | collation | column | columnName | columnNames | columns | concatenations | constraintKind
  | constraints | contextKind | correlation | correlationName | corresponding | cycle
  | defaultResult | direction | element | elements | escape | expression | field | from_
  | function | generation | groupBy | hasTimeZone | having | identifier | identifierKind
  | identityColumnOption | ifExists | incrementValue | index | indicator | initialValue
  | isLateral | isNot | isOnly | isRecursive | key | keys | last | left | length | limit
  | matchValue | maxValue | minValue | name | nullLocation | objectKind | objectName | objects
  | onDelete | onUpdate | operand | operatorKind | options | orderBy | owner | parameters
  | pattern | precision | predicate | qualifier | quantifier | query | replacement | result
  | right | scale | sign | source | specification | statementKind | subsecondDigits | tableName
  | target | targetColumns | targets | type | typeKind | unsignedValue | userKind | userName
  | users | value | valueKind | values | when | whenClauses | where_ | withOrdinality
  deriving DecidableEq, Repr

/-- `privilege_user_kind`. -/
inductive PrivilegeUserKind where
  | identifier | allUsers | currentUser | public_
  deriving DecidableEq, Repr

/-- What a member without parts of its own holds. An enumerator is its position in the
enumeration of the member. -/
inductive Attribute where
  | flag (value : Bool)
  | size (value : Nat)
  | chars (value : String)
  | enumerator (position : Nat)
  | privilegeUserKind (kind : PrivilegeUserKind)
  deriving DecidableEq, Repr

/-- The base classes that nodes are held through. -/
inductive Base where
  | statement | tableElement | constraint | alterTableAction | alterIndexAction
  | queryExpression | selectElement | groupingElement | tableExpression | joinSpecification
  | scalarExpression | literal | type | name
  deriving DecidableEq, Repr

/-- A value of a member. The region of an object stands for all its regions, that of its
description comment included. An empty pointer or optional is `null`. -/
abbrev Value := RecordTree Class Member Attribute NodeRegion

/-- The declared type of a member; `regioned` values and plain ones are not told apart. -/
inductive Shape where
  | plain
  | optional (shape : Shape)
  | vector (shape : Shape)
  | pointer (base : Base)
  | simpleName
  | object (cls : Class)
  deriving DecidableEq, Repr

namespace Class

/-- The base class, if the class is one of nodes. -/
def base : Class → Option Base
  | sortElement | targetElement | correspondingClause | groupByClause | withElement
  | caseWhenClause | columnConstraintDefinition | privilegeAction | privilegeObject
  | privilegeUser | setElement | storageParameter | correlationClause | fieldDefinition => none
  | literalBoolean | literalDatetime | literalInterval | literalNumeric | literalString
  | literalNull | literalEmpty | literalDefault => some .literal
  | nameSimple | nameQualified => some .name
  | query | queryTableReference | tableValueConstructor | queryBinaryExpression
  | withExpression => some .queryExpression
  | selectColumn | selectAsterisk => some .selectElement
  | groupingColumn => some .groupingElement
  | literalExpression | variableReference | hostParameterReference | fieldReference
  | caseExpression | castExpression | unaryExpression | scalarBinaryExpression
  | extractExpression | trimExpression | valueConstructor | scalarSubquery
  | comparisonPredicate | quantifiedComparisonPredicate | betweenPredicate | inPredicate
  | patternMatchPredicate | tablePredicate | functionInvocation | builtinFunctionInvocation
  | builtinSetFunctionInvocation | newInvocation | methodInvocation | staticMethodInvocation
  | currentOfCursor | placeholderReference => some .scalarExpression
  | emptyStatement | selectStatement | insertStatement | updateStatement | deleteStatement
  | tableDefinition | indexDefinition | viewDefinition | sequenceDefinition | schemaDefinition
  | alterTableStatement | alterIndexStatement | dropStatement | truncateTableStatement
  | grantPrivilegeStatement | revokePrivilegeStatement => some .statement
  | columnDefinition | tableConstraintDefinition => some .tableElement
  | simpleConstraint | expressionConstraint | keyConstraint | referentialConstraint
  | identityConstraint => some .constraint
  | renameTableAction | renameColumnAction => some .alterTableAction
  | renameIndexAction => some .alterIndexAction
  | tableReference | unnest | join | tableSubquery | apply => some .tableExpression
  | joinCondition | joinColumns => some .joinSpecification
  | typeSimple | characterString | bitString | octetString | decimal | binaryNumeric
  | typeDatetime | typeInterval | row | userDefined | collection => some .type

def isNode (c : Class) : Bool := c.base.isSome

open Shape in
/-- The data members with their declared types, in the order of the declaration. -/
def fields : Class → List (Member × Shape)
  | sortElement => [(.key, pointer .scalarExpression), (.collation, pointer .name),
      (.direction, optional plain), (.nullLocation, optional plain)]
  | targetElement => [(.target, pointer .name), (.indicator, simpleName)]
  | correspondingClause => [(.columnNames, vector simpleName)]
  | groupByClause => [(.elements, vector (pointer .groupingElement))]
  | withElement => [(.name, simpleName), (.columnNames, vector simpleName),
      (.expression, pointer .queryExpression)]
  | caseWhenClause => [(.when, pointer .scalarExpression), (.result, pointer .scalarExpression)]
  | columnConstraintDefinition => [(.name, pointer .name), (.body, pointer .constraint)]
  | privilegeAction => [(.actionKind, plain)]
  | privilegeObject => [(.objectKind, optional plain), (.objectName, pointer .name)]
  | privilegeUser => [(.userKind, plain), (.authorizationIdentifier, simpleName)]
  | setElement => [(.target, pointer .name), (.value, pointer .scalarExpression)]
  | storageParameter => [(.name, pointer .name), (.value, pointer .scalarExpression)]
  | correlationClause => [(.correlationName, simpleName), (.columnNames, vector simpleName)]
  | fieldDefinition => [(.name, simpleName), (.type, pointer .type), (.collation, pointer .name)]
  | literalBoolean => [(.value, plain)]
  | literalDatetime => [(.valueKind, plain), (.value, plain)]
  | literalInterval => [(.sign, optional plain), (.value, plain)]
  | literalNumeric => [(.valueKind, plain), (.sign, optional plain),
      (.unsignedValue, plain)]
  | literalString => [(.valueKind, plain), (.value, plain),
      (.concatenations, vector plain)]
  | literalNull | literalEmpty | literalDefault => []
  | nameSimple => [(.identifier, plain), (.identifierKind, plain)]
  | nameQualified => [(.qualifier, pointer .name), (.last, simpleName)]
  | query => [(.quantifier, optional plain), (.elements, vector (pointer .selectElement)),
      (.from_, vector (pointer .tableExpression)), (.where_, pointer .scalarExpression),
      (.groupBy, optional (object groupByClause)), (.having, pointer .scalarExpression),
      (.orderBy, vector (object sortElement)), (.limit, pointer .scalarExpression)]
  | queryTableReference => [(.name, pointer .name)]
  | tableValueConstructor => [(.elements, vector (pointer .scalarExpression))]
  | queryBinaryExpression => [(.left, pointer .queryExpression), (.operatorKind, plain),
      (.quantifier, optional plain),
      (.corresponding, optional (object correspondingClause)), (.right, pointer .queryExpression)]
  | withExpression => [(.isRecursive, plain), (.elements, vector (object withElement)),
      (.expression, pointer .queryExpression)]
  | selectColumn => [(.value, pointer .scalarExpression), (.name, simpleName)]
  | selectAsterisk => [(.qualifier, pointer .scalarExpression)]
  | groupingColumn => [(.column, pointer .scalarExpression), (.collation, pointer .name)]
  | literalExpression => [(.value, pointer .literal)]
  | variableReference => [(.name, pointer .name)]
  | hostParameterReference => [(.name, simpleName)]
  | fieldReference => [(.value, pointer .scalarExpression), (.operatorKind, plain),
      (.name, simpleName)]
  | caseExpression => [(.operand, pointer .scalarExpression),
      (.whenClauses, vector (object caseWhenClause)), (.defaultResult, pointer .scalarExpression)]
  | castExpression => [(.operatorKind, plain), (.operand, pointer .scalarExpression),
      (.type, pointer .type)]
  | unaryExpression => [(.operatorKind, plain), (.operand, pointer .scalarExpression)]
  | scalarBinaryExpression => [(.left, pointer .scalarExpression), (.operatorKind, plain),
      (.right, pointer .scalarExpression)]
  | extractExpression => [(.field, plain), (.subsecondDigits, optional plain),
      (.operand, pointer .scalarExpression)]
  | trimExpression => [(.specification, optional plain),
      (.character, pointer .scalarExpression), (.source, pointer .scalarExpression)]
  | valueConstructor => [(.operatorKind, plain),
      (.elements, vector (pointer .scalarExpression))]
  | scalarSubquery => [(.query, pointer .queryExpression), (.contextKind, plain)]
  | comparisonPredicate => [(.left, pointer .scalarExpression), (.operatorKind, plain),
      (.right, pointer .scalarExpression)]
  | quantifiedComparisonPredicate => [(.left, pointer .scalarExpression),
      (.operatorKind, plain), (.quantifier, plain), (.right, pointer .queryExpression)]
  | betweenPredicate => [(.target, pointer .scalarExpression), (.isNot, plain),
      (.operatorKind, optional plain), (.left, pointer .scalarExpression),
      (.right, pointer .scalarExpression)]
  | inPredicate => [(.left, pointer .scalarExpression), (.isNot, plain),
      (.right, pointer .queryExpression)]
  | patternMatchPredicate => [(.matchValue, pointer .scalarExpression), (.isNot, plain),
      (.operatorKind, plain), (.pattern, pointer .scalarExpression),
      (.escape, pointer .scalarExpression)]
  | tablePredicate => [(.operatorKind, plain), (.operand, pointer .queryExpression)]
  | functionInvocation => [(.name, pointer .name),
      (.arguments, vector (pointer .scalarExpression))]
  | builtinFunctionInvocation => [(.function, plain),
      (.arguments, vector (pointer .scalarExpression))]
  | builtinSetFunctionInvocation => [(.function, plain), (.quantifier, optional plain),
      (.arguments, vector (pointer .scalarExpression))]
  | newInvocation => [(.type, pointer .type), (.arguments, vector (pointer .scalarExpression))]
  | methodInvocation => [(.value, pointer .scalarExpression), (.operatorKind, plain),
      (.name, simpleName), (.arguments, vector (pointer .scalarExpression))]
  | staticMethodInvocation => [(.type, pointer .type), (.name, simpleName),
      (.arguments, vector (pointer .scalarExpression))]
  | currentOfCursor => [(.name, pointer .name)]
  | placeholderReference => [(.index, plain)]
  | emptyStatement => []
  | selectStatement => [(.expression, pointer .queryExpression),
      (.targets, vector (object targetElement))]
  | insertStatement => [(.tableName, pointer .name), (.columns, vector simpleName),
      (.expression, pointer .queryExpression), (.options, vector plain)]
  | updateStatement => [(.tableName, pointer .name), (.aliasName, simpleName),
      (.elements, vector (object setElement)), (.where_, pointer .scalarExpression)]
  | deleteStatement => [(.tableName, pointer .name), (.aliasName, simpleName),
      (.where_, pointer .scalarExpression)]
  | tableDefinition => [(.name, pointer .name), (.elements, vector (pointer .tableElement)),
      (.options, vector plain), (.parameters, vector (object storageParameter))]
  | indexDefinition => [(.name, pointer .name), (.tableName, pointer .name),
      (.keys, vector (object sortElement)), (.values, vector (pointer .scalarExpression)),
      (.predicate, pointer .scalarExpression), (.options, vector plain),
      (.parameters, vector (object storageParameter))]
  | viewDefinition => [(.name, pointer .name), (.columns, vector simpleName),
      (.query, pointer .queryExpression), (.options, vector plain),
      (.parameters, vector (object storageParameter))]
  | sequenceDefinition => [(.name, pointer .name), (.type, pointer .type),
      (.initialValue, pointer .scalarExpression), (.incrementValue, pointer .scalarExpression),
      (.minValue, pointer .scalarExpression), (.maxValue, pointer .scalarExpression),
      (.owner, pointer .name), (.options, vector plain)]
  | schemaDefinition => [(.name, pointer .name), (.userName, simpleName),
      (.elements, vector (pointer .statement)), (.options, vector plain)]
  | alterTableStatement => [(.ifExists, plain), (.name, pointer .name),
      (.action, pointer .alterTableAction)]
  | alterIndexStatement => [(.ifExists, plain), (.name, pointer .name),
      (.action, pointer .alterIndexAction)]
  | dropStatement => [(.statementKind, plain), (.name, pointer .name),
      (.options, vector plain)]
  | truncateTableStatement => [(.name, pointer .name),
      (.identityColumnOption, optional plain)]
  | grantPrivilegeStatement | revokePrivilegeStatement =>
      [(.actions, vector (object privilegeAction)), (.objects, vector (object privilegeObject)),
      (.users, vector (object privilegeUser))]
  | columnDefinition => [(.name, simpleName), (.type, pointer .type),
      (.constraints, vector (object columnConstraintDefinition))]
  | tableConstraintDefinition => [(.name, pointer .name), (.body, pointer .constraint)]
  | simpleConstraint => [(.constraintKind, plain)]
  | expressionConstraint => [(.constraintKind, plain), (.expression, pointer .scalarExpression)]
  | keyConstraint => [(.constraintKind, plain), (.key, vector (object sortElement)),
      (.values, vector (pointer .scalarExpression)),
      (.parameters, vector (object storageParameter))]
  | referentialConstraint => [(.columns, vector simpleName), (.target, pointer .name),
      (.targetColumns, vector simpleName), (.onUpdate, optional plain),
      (.onDelete, optional plain)]
  | identityConstraint => [(.generation, plain), (.initialValue, pointer .scalarExpression),
      (.incrementValue, pointer .scalarExpression), (.minValue, pointer .scalarExpression),
      (.maxValue, pointer .scalarExpression), (.cycle, optional plain)]
  | renameTableAction => [(.replacement, simpleName)]
  | renameColumnAction => [(.ifExists, plain), (.columnName, simpleName),
      (.replacement, simpleName)]
  | renameIndexAction => [(.replacement, simpleName)]
  | tableReference => [(.isOnly, plain), (.name, pointer .name),
      (.correlation, optional (object correlationClause))]
  | unnest => [(.expression, pointer .scalarExpression), (.withOrdinality, plain),
      (.correlation, object correlationClause)]
  | join => [(.left, pointer .tableExpression), (.operatorKind, plain),
      (.right, pointer .tableExpression), (.specification, pointer .joinSpecification)]
  | tableSubquery => [(.isLateral, plain), (.expression, pointer .queryExpression),
      (.correlation, object correlationClause)]
  | apply => [(.operand, pointer .tableExpression), (.operatorKind, optional plain),
      (.name, pointer .name), (.arguments, vector (pointer .scalarExpression)),
      (.correlation, object correlationClause)]
  | joinCondition => [(.expression, pointer .scalarExpression)]
  | joinColumns => [(.columns, vector simpleName)]
  | typeSimple => [(.typeKind, plain)]
  | characterString | bitString | octetString => [(.typeKind, plain),
      (.length, optional plain)]
  | decimal => [(.typeKind, plain), (.precision, optional plain),
      (.scale, optional plain)]
  | binaryNumeric => [(.typeKind, plain), (.precision, optional plain)]
  | typeDatetime => [(.typeKind, plain), (.hasTimeZone, optional plain)]
  | typeInterval => []
  | row => [(.elements, vector (object fieldDefinition))]
  | userDefined => [(.name, pointer .name)]
  | collection => [(.element, pointer .type), (.length, optional plain)]

def members (c : Class) : List Member := c.fields.map Prod.fst

end Class

/-- The kind of a privilege user is `identifier`. -/
def namesUser (get : Member → Value) : Bool :=
  match get .userKind with
  | .leaf (.privilegeUserKind .identifier) _ => true
  | _ => false

/-- The value is one of a member declared with the type. -/
inductive Formed : Shape → Value → Prop
  | plain (a : Attribute) (r : NodeRegion) : Formed .plain (.leaf a r)
  | empty (s : Shape) : Formed (.optional s) .null
  | present {s : Shape} {v : Value} : Formed s v → Formed (.optional s) v
  | nil (s : Shape) : Formed (.vector s) (.list [])
  | cons {s : Shape} {v : Value} {vs : List Value} :
      Formed s v → Formed (.vector s) (.list vs) → Formed (.vector s) (.list (v :: vs))
  | nullPointer (b : Base) : Formed (.pointer b) .null
  | pointer {b : Base} {c : Class} {v : Value} :
      c.base = some b → Formed (.object c) v → Formed (.pointer b) v
  | nullName : Formed .simpleName .null
  | simpleName {v : Value} : Formed (.object .nameSimple) v → Formed .simpleName v
  | object (c : Class) (r : NodeRegion) {get : Member → Value} :
      (∀ field ∈ c.fields, Formed field.2 (get field.1)) → Formed (.object c) (.record c r get)

/-- A regular identifier. -/
def nameValue (identifier : String) : Value :=
  .record .nameSimple ⟨0, 0⟩ fun
    | .identifier => .leaf (.chars identifier) ⟨0, 0⟩
    | .identifierKind => .leaf (.enumerator 0) ⟨0, 0⟩
    | _ => .null

theorem nameValue_formed (identifier : String) :
    Formed (.object .nameSimple) (nameValue identifier) := by
  refine .object _ _ fun field h => ?_
  simp only [Class.fields, List.mem_cons, List.not_mem_nil, or_false] at h
  obtain rfl | rfl := h
  · exact .plain _ _
  · exact .plain _ _

/-- An object: a node or an element. -/
structure Object where
  cls : Class
  region : NodeRegion
  get : Member → Value
  formed : Formed (.object cls) (.record cls region get)

namespace Object

def value (o : Object) : Value := .record o.cls o.region o.get

end Object

end Mizugaki.Syntax
