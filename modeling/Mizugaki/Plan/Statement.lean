import Mizugaki.Plan.Expression

/-! The statements an analysis results in besides execution plans. -/

namespace Mizugaki.Plan

/-- `takatori::statement::table_action_kind`. -/
inductive TableActionKind where
  | control | select | insert | update | delete
  deriving DecidableEq, Repr

/-- `takatori::statement::authorization_user_kind`. -/
inductive AuthorizationUserKind where
  | specified | allUsers | currentUser
  deriving DecidableEq, Repr

/-- `takatori::statement::details::table_authorization_entry`. -/
structure AuthorizationEntry where
  userKind : AuthorizationUserKind
  authorizationIdentifier : String
  privileges : List TableActionKind
  deriving DecidableEq, Repr

/-- `takatori::statement::details::table_privilege_element`. -/
structure TablePrivilegeElement where
  table : Table
  defaultPrivileges : List TableActionKind
  authorizationEntries : List AuthorizationEntry
  deriving DecidableEq, Repr

/-- `takatori::statement::statement`. -/
inductive Statement where
  | empty
  | write (operatorKind : WriteKind) (destination : Index) (columns : List Column)
      (tuples : List (List Scalar))
  | createTable (schema : Schema) (definition : Table) (primaryKey : Index)
  | createIndex (schema : Schema) (definition : Index)
  | renameTable (schema : Schema) (target : Table) (replacement : String)
  | renameColumn (table : Table) (column : Column) (replacement : String)
  | renameIndex (schema : Schema) (target : Index) (replacement : String)
  | dropTable (schema : Schema) (target : Table)
  | dropIndex (schema : Schema) (target : Index)
  | truncateTable (target : Table) (restartIdentity : Bool)
  | grantTable (elements : List TablePrivilegeElement)
  | revokeTable (elements : List TablePrivilegeElement)

end Mizugaki.Plan
