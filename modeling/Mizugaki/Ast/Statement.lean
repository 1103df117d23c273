import Mizugaki.Ast.Expression

/-! Statements. A constraint, an alteration or a statement that has no analysis keeps
its kind only. A region survives in one place: where a description comment stands. -/

namespace Mizugaki.Ast

/-- `node_region`, of a description; an invalid one is the absence of it. -/
structure NodeRegion where
  begin_ : Nat
  end_ : Nat
  deriving DecidableEq, Repr

/-- `statement::storage_parameter`. -/
structure StorageParameter where
  name : Name
  value : Option ScalarExpression

inductive InsertStatementOption where
  | orReplace | orIgnore
  deriving DecidableEq, Repr

/-- `statement::set_element`. -/
structure SetElement where
  target : Name
  value : ScalarExpression

inductive IdentityGenerationType where
  | always | byDefault
  deriving DecidableEq, Repr

/-- `statement::identity_constraint`. -/
structure IdentityConstraint where
  generation : IdentityGenerationType
  initialValue : Option ScalarExpression
  incrementValue : Option ScalarExpression
  minValue : Option ScalarExpression
  maxValue : Option ScalarExpression
  cycle : Option Bool

/-- `statement::key_constraint`. -/
structure KeyConstraint where
  key : List SortElement
  values : List ScalarExpression
  parameters : List StorageParameter

/-- The constraint kinds that have no analysis. -/
inductive UnsupportedConstraintKind where
  | check | unique | referential | generationClause
  deriving DecidableEq, Repr

/-- `statement::constraint`. -/
inductive Constraint where
  | primaryKey (constraint : KeyConstraint)
  | null
  | notNull
  | defaultClause (expression : ScalarExpression)
  | identityColumn (constraint : IdentityConstraint)
  | unsupported (kind : UnsupportedConstraintKind)

/-- `statement::column_definition`. -/
structure ColumnDefinition where
  name : SimpleName
  type : TypeNode
  constraints : List Constraint
  description : Option NodeRegion

/-- `statement::table_element`. -/
inductive TableElement where
  | columnDefinition (definition : ColumnDefinition)
  | constraintDefinition (body : Constraint)

inductive TableDefinitionOption where
  | temporary | ifNotExists
  deriving DecidableEq, Repr

/-- `statement::table_definition`. -/
structure TableDefinition where
  name : Name
  elements : List TableElement
  options : List TableDefinitionOption
  parameters : List StorageParameter
  description : Option NodeRegion

inductive IndexDefinitionOption where
  | unique | ifNotExists
  deriving DecidableEq, Repr

/-- `statement::index_definition`. -/
structure IndexDefinition where
  name : Option Name
  tableName : Name
  keys : List SortElement
  values : List ScalarExpression
  predicate : Option ScalarExpression
  options : List IndexDefinitionOption
  parameters : List StorageParameter
  description : Option NodeRegion

/-- `statement::alter_table_action`. -/
inductive AlterTableAction where
  | renameTable (replacement : SimpleName)
  | renameColumn (columnName : SimpleName) (ifExists : Bool) (replacement : SimpleName)
  deriving DecidableEq, Repr

/-- `statement::alter_index_action`. -/
inductive AlterIndexAction where
  | renameIndex (replacement : SimpleName)
  deriving DecidableEq, Repr

inductive DropStatementKind where
  | table | index | view | sequence | schema
  deriving DecidableEq, Repr

inductive DropStatementOption where
  | ifExists | restrict | cascade
  deriving DecidableEq, Repr

inductive IdentityColumnRestartOption where
  | continueIdentity | restartIdentity
  deriving DecidableEq, Repr

inductive PrivilegeActionKind where
  | allPrivileges | select | insert | update | delete
  deriving DecidableEq, Repr

inductive PrivilegeObjectKind where
  | table | schema
  deriving DecidableEq, Repr

/-- `statement::privilege_object`. -/
structure PrivilegeObject where
  objectKind : Option PrivilegeObjectKind
  objectName : Name
  deriving DecidableEq, Repr

/-- `statement::privilege_user`. -/
inductive PrivilegeUser where
  | identifier (authorizationIdentifier : SimpleName)
  | allUsers
  | currentUser
  | public_
  deriving DecidableEq, Repr

/-- `statement::grant_privilege_statement` and `statement::revoke_privilege_statement`. -/
structure PrivilegeStatement where
  actions : List PrivilegeActionKind
  objects : List PrivilegeObject
  users : List PrivilegeUser
  deriving DecidableEq, Repr

/-- The statement kinds that have no analysis. -/
inductive UnsupportedStatementKind where
  | viewDefinition | sequenceDefinition | schemaDefinition
  deriving DecidableEq, Repr

/-- `statement::statement`. -/
inductive Statement where
  | selectStatement (expression : QueryExpression) (targets : List Name)
  | insertStatement (tableName : Name) (columns : List SimpleName)
      (expression : Option QueryExpression) (options : List InsertStatementOption)
  | updateStatement (tableName : Name) (aliasName : Option SimpleName)
      (elements : List SetElement) (where_ : Option ScalarExpression)
  | deleteStatement (tableName : Name) (aliasName : Option SimpleName)
      (where_ : Option ScalarExpression)
  | tableDefinition (definition : TableDefinition)
  | indexDefinition (definition : IndexDefinition)
  | alterTableStatement (name : Name) (action : AlterTableAction) (ifExists : Bool)
  | alterIndexStatement (name : Name) (action : AlterIndexAction) (ifExists : Bool)
  | dropStatement (kind : DropStatementKind) (name : Name) (options : List DropStatementOption)
  | truncateTableStatement (name : Name)
      (identityColumnOption : Option IdentityColumnRestartOption)
  | grantPrivilegeStatement (statement : PrivilegeStatement)
  | revokePrivilegeStatement (statement : PrivilegeStatement)
  | emptyStatement
  | unsupported (kind : UnsupportedStatementKind)

end Mizugaki.Ast
