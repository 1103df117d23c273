import Mathlib.Algebra.Ring.Int.Defs
import Mathlib.Algebra.Ring.Nat
import Mathlib.Tactic.Common

/-! The data of an execution plan: types, values, storage declarations and
variables. A declaration is identified by its address, as the analyzer compares
declarations by pointer; a variable is identified by its number. Labels of
variables are left out: they are for debugging only. -/

namespace Mizugaki.Plan

/-- `takatori::type::data`. The columns of a table type keep their names only. -/
inductive TypeData where
  | unknown | boolean | int1 | int2 | int4 | int8 | float4 | float8
  | decimal (precision scale : Option Nat)
  | character (varying : Bool) (length : Option Nat)
  | bit (varying : Bool) (length : Option Nat)
  | octet (varying : Bool) (length : Option Nat)
  | date
  | timeOfDay (withTimeZone : Bool)
  | timePoint (withTimeZone : Bool)
  | blob | clob
  | table (columns : List String)
  deriving DecidableEq, Repr

/-- `takatori::value::data`. A decimal is `coefficient * 10 ^ exponent`; a double is its bits. -/
inductive ValueData where
  | unknown
  | boolean (value : Bool)
  | int4 (value : Int)
  | int8 (value : Int)
  | float8 (bits : Nat)
  | decimal (coefficient exponent : Int)
  | character (value : List Char)
  | octet (value : List Char)
  | date (value : Int)
  | timeOfDay (value : Int)
  | timePoint (value : Int)
  deriving DecidableEq, Repr

inductive SortDirection where
  | ascendant | descendant
  deriving DecidableEq, Repr

/-! ### Declarations -/

/-- `yugawara::function::declaration`. -/
structure FunctionDecl where
  definitionId : Nat
  name : String
  returnType : TypeData
  parameterTypes : List TypeData
  scalarFunction : Bool
  tableValuedFunction : Bool
  deriving DecidableEq, Repr

/-- `yugawara::aggregate::declaration`. -/
structure AggregateDecl where
  definitionId : Nat
  name : String
  returnType : TypeData
  parameterTypes : List TypeData
  deriving DecidableEq, Repr

/-- `yugawara::storage::sequence`. -/
structure Sequence where
  initialValue : Int
  incrementValue : Int
  minValue : Int
  maxValue : Int
  cycle : Bool
  deriving DecidableEq, Repr

/-- `yugawara::storage::column_value`. -/
inductive ColumnValue where
  | nothing
  | immediate (value : ValueData)
  | function (declaration : FunctionDecl)
  | sequence (source : Sequence)
  deriving DecidableEq, Repr

/-- `yugawara::storage::column`. -/
structure Column where
  address : Nat
  simpleName : String
  type : TypeData
  nullable : Bool := true
  defaultValue : ColumnValue := .nothing
  readOnly : Bool := false
  hidden : Bool := false
  synthesized : Bool := false
  description : List Char := []
  deriving DecidableEq, Repr

/-- `yugawara::storage::index`, with the name of the table it belongs to. -/
structure Index where
  address : Nat
  tableAddress : Nat
  tableName : String
  simpleName : String
  keys : List (Column × SortDirection)
  primary : Bool
  description : List Char := []
  deriving DecidableEq, Repr

/-- Whether a column is a key of an index. -/
def Index.isKey (index : Index) (column : Column) : Bool :=
  index.keys.any fun k => k.1.address = column.address

/-- `yugawara::storage::table`, with the primary index that its provider holds for it. -/
structure Table where
  address : Nat
  simpleName : String
  columns : List Column
  primaryIndex : Option Index
  description : List Char := []
  deriving DecidableEq, Repr

/-- `yugawara::storage::relation`. -/
inductive Relation where
  | table (declaration : Table)
  | view (address : Nat) (simpleName : String)
  deriving DecidableEq, Repr

namespace Relation

def address : Relation → Nat
  | table declaration => declaration.address
  | view address _ => address

def simpleName : Relation → String
  | table declaration => declaration.simpleName
  | view _ simpleName => simpleName

end Relation

/-- `yugawara::variable::declaration`: a host parameter or a variable of a schema. -/
structure ExternalVariable where
  name : String
  type : TypeData
  deriving DecidableEq, Repr

/-- `yugawara::schema::declaration`, by what its providers find. -/
structure Schema where
  name : String
  findVariable : String → Option ExternalVariable
  findRelation : String → Option Relation
  findTable : String → Option Table
  findIndex : String → Option Index
  functions : String → Nat → List FunctionDecl
  setFunctions : String → Nat → List AggregateDecl

/-- A schema of tables and set functions. -/
def Schema.ofTables (tables : List Table) (setFunctions : List AggregateDecl) : Schema where
  name := "public"
  findVariable _ := none
  findRelation name := (tables.find? (·.simpleName = name)).map .table
  findTable name := tables.find? (·.simpleName = name)
  findIndex _ := none
  functions _ _ := []
  setFunctions name count :=
    setFunctions.filter fun a => a.name = name ∧ a.parameterTypes.length = count

/-- `yugawara::schema::catalog`. -/
structure Catalog where
  name : String
  findSchema : String → Option Schema

/-! ### Variables -/

/-- `takatori::descriptor::variable`, by the kinds of `yugawara::binding::variable_info_kind`. -/
inductive Variable where
  | tableColumn (column : Column)
  | stream (number : Nat)
  | frame (number : Nat)
  | localVariable (number : Nat)
  | external (declaration : ExternalVariable)
  deriving DecidableEq, Repr

namespace Variable

def isStream : Variable → Bool
  | stream _ => true
  | _ => false

def isFrame : Variable → Bool
  | frame _ => true
  | _ => false

def isLocal : Variable → Bool
  | localVariable _ => true
  | _ => false

/-- The variables that carry the columns of a graph or the parameters of a subquery. -/
def isColumn (v : Variable) : Bool := v.isStream || v.isFrame

/-- The variable was numbered before the counter reached `n`. -/
def Below (n : Nat) : Variable → Prop
  | stream k => k < n
  | frame k => k < n
  | localVariable k => k < n
  | _ => True

theorem Below.mono {n m : Nat} {v : Variable} (h : v.Below n) (hnm : n ≤ m) : v.Below m := by
  cases v <;> simp only [Below] at h ⊢ <;> omega

end Variable

end Mizugaki.Plan
