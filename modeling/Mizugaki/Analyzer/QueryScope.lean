import Mizugaki.Analyzer.RelationInfo
import Mizugaki.Plan.Expression

/-! A scope of names of a query. Relations are found by their names or by their
declarations, queries of common table elements by their names. That the two maps
of relations summarise the relations is a field. -/

namespace Mizugaki.Analyzer

open Mizugaki.Data.Chain Mizugaki.Data.UniqueMap
open Mizugaki.Plan

/-- `query_info`. -/
structure QueryInfo where
  queryGraph : Graph
  outputColumns : List Variable
  outputColumnNames : List (Option String)

/-- `query_scope_feature_set`. -/
structure ScopeFeatures where
  expose : Bool := false
  independent : Bool := false
  correlation : Bool := false
  deriving DecidableEq, Repr

namespace RelationInfo

/-- The name under which a relation enters a scope: its identifier, or else the name of its
declaration. The identifier is read only here. -/
def scopeName (r : RelationInfo) : Option String :=
  if r.identifier ≠ "" then some r.identifier else r.declaration.map Relation.simpleName

/-- The declaration under which a relation enters a scope, when it has no identifier. -/
def scopeReference (r : RelationInfo) : Option Nat :=
  if r.identifier ≠ "" then none else r.declaration.map Relation.address

@[simp] theorem scopeName_hide (r : RelationInfo) (i : Nat) :
    (r.hide i).scopeName = r.scopeName := rfl

@[simp] theorem scopeReference_hide (r : RelationInfo) (i : Nat) :
    (r.hide i).scopeReference = r.scopeReference := rfl

end RelationInfo

/-- `query_scope`, without its parent: a chain of scopes is a list, the innermost first. -/
structure QueryScope where
  relations : List RelationInfo
  nameMap : String → Option Position
  referenceMap : Nat → Option Position
  queryMap : String → Option QueryInfo
  features : ScopeFeatures
  parameters : List (Variable × Variable)
  names : Indexes RelationInfo.scopeName relations nameMap
  references : Indexes RelationInfo.scopeReference relations referenceMap

namespace QueryScope

/-- A scope without relations. -/
def empty (features : ScopeFeatures := {}) : QueryScope where
  relations := []
  nameMap _ := none
  referenceMap _ := none
  queryMap _ := none
  features := features
  parameters := []
  names := indexes_nil
  references := indexes_nil

/-- `query_scope::add`, of a relation. -/
def add (s : QueryScope) (info : RelationInfo) : QueryScope where
  relations := s.relations ++ [info]
  nameMap := enterKey s.nameMap info.scopeName s.relations.length
  referenceMap := enterKey s.referenceMap info.scopeReference s.relations.length
  queryMap := s.queryMap
  features := s.features
  parameters := s.parameters
  names := s.names.enterKey info
  references := s.references.enterKey info

/-- `query_scope::find`, by name. -/
def find (s : QueryScope) (identifier : String) : Option Position := s.nameMap identifier

/-- `query_scope::find`, by declaration. -/
def findDeclaration (s : QueryScope) (relation : Relation) : Option Position :=
  s.referenceMap relation.address

/-- `query_scope::create_pivot`. -/
def createPivot (s : QueryScope) : Nat := s.relations.length

/-- `query_scope::add`, of a query: no result when the name is taken. -/
def addQuery (s : QueryScope) (name : String) (query : QueryInfo) : Option QueryScope :=
  match s.queryMap name with
  | some _ => none
  | none => some { s with queryMap := Function.update s.queryMap name (some query) }

/-- `query_scope::find_query`. -/
def findQuery (s : QueryScope) (name : String) : Option QueryInfo := s.queryMap name

/-- The parameter that stands for a free variable. -/
def findParameter (s : QueryScope) (free : Variable) : Option Variable :=
  (s.parameters.find? fun p => p.1 = free).map Prod.snd

def pushParameter (s : QueryScope) (free parameter : Variable) : QueryScope :=
  { s with parameters := s.parameters ++ [(free, parameter)] }

def setFeatures (s : QueryScope) (features : ScopeFeatures) : QueryScope :=
  { s with features := features }

/-- Hide a column of a relation, in place. -/
def hide (s : QueryScope) (relation column : Nat) : QueryScope where
  relations := s.relations.modify relation fun r => r.hide column
  nameMap := s.nameMap
  referenceMap := s.referenceMap
  queryMap := s.queryMap
  features := s.features
  parameters := s.parameters
  names := s.names.congr (modify_map_eq (fun r => r.scopeName_hide column) relation)
  references := s.references.congr (modify_map_eq (fun r => r.scopeReference_hide column) relation)

/-- The exported columns of a name, over all relations of the scope. -/
def exportedNamed (s : QueryScope) (identifier : String) : List ColumnInfo :=
  s.relations.flatMap fun r => r.exportedNamed identifier

/-- The relations of a name. -/
def named (s : QueryScope) (identifier : String) : List RelationInfo :=
  s.relations.filter fun r => r.scopeName = some identifier

end QueryScope

end Mizugaki.Analyzer
