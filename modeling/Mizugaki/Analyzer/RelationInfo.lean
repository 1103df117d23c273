import Mizugaki.Data.UniqueMap
import Mizugaki.Plan.Data

/-! The columns of a relation in a query scope. Columns of one name are threaded
through their `next` positions, a column declaration is looked up by its address.
That the chains are linked is a field: a relation with a broken chain cannot be built. -/

namespace Mizugaki.Analyzer

open Mizugaki.Data.Chain Mizugaki.Data.UniqueMap
open Mizugaki.Plan

/-- `column_info`. -/
structure ColumnInfo where
  declaration : Option Column := none
  variable_ : Variable
  identifier : Option String
  exported : Bool := true
  next : Option Position := none
  deriving DecidableEq, Repr

namespace ColumnInfo

/-- Columns are threaded by their identifiers. -/
def threading : Threading ColumnInfo String where
  key c := c.identifier
  next c := c.next
  setNext p c := { c with next := p }
  key_setNext _ _ := rfl
  next_setNext _ _ := rfl

def hide (c : ColumnInfo) : ColumnInfo := { c with exported := false }

end ColumnInfo

/-- `relation_info`. -/
structure RelationInfo where
  declaration : Option Relation
  identifier : String
  columns : List ColumnInfo
  nameMap : String → Option Position
  declarationMap : Nat → Option Position
  linked : Linked ColumnInfo.threading columns.length ⟨nameMap, columns⟩

namespace RelationInfo

/-- A relation without columns. -/
def empty (declaration : Option Relation := none) (identifier : String := "") : RelationInfo where
  declaration := declaration
  identifier := identifier
  columns := []
  nameMap _ := none
  declarationMap _ := none
  linked := empty_linked

/-- `relation_info::primary_index`: the provider of a table holds its primary index. -/
def primaryIndex (r : RelationInfo) : Option Index :=
  match r.declaration with
  | some (.table t) => t.primaryIndex
  | _ => none

/-- `relation_info::add`. -/
def add (r : RelationInfo) (info : ColumnInfo) : RelationInfo where
  declaration := r.declaration
  identifier := r.identifier
  columns := (push ColumnInfo.threading ⟨r.nameMap, r.columns⟩ info).cells
  nameMap := (push ColumnInfo.threading ⟨r.nameMap, r.columns⟩ info).heads
  declarationMap :=
    enterKey r.declarationMap (info.declaration.map Column.address) r.columns.length
  linked := by
    have h := push_linked (c := ⟨r.nameMap, r.columns⟩) r.linked info
    have hlength : (push ColumnInfo.threading ⟨r.nameMap, r.columns⟩ info).cells.length
        = r.columns.length + 1 := by
      rw [push, build_cells_length, List.length_append]
      rfl
    rw [hlength]
    exact h

def addAll (r : RelationInfo) (infos : List ColumnInfo) : RelationInfo := infos.foldl add r

section

variable {β : Type} {f : ColumnInfo → β}

/-- What does not read the links sees a column appended, and the others unchanged. -/
theorem add_map (hf : ∀ p c, f { c with next := p } = f c) (r : RelationInfo) (info : ColumnInfo) :
    (r.add info).columns.map f = r.columns.map f ++ [f info] :=
  push_map hf _ info

theorem addAll_map (hf : ∀ p c, f { c with next := p } = f c) (r : RelationInfo)
    (infos : List ColumnInfo) : (r.addAll infos).columns.map f = r.columns.map f ++ infos.map f := by
  induction infos generalizing r with
  | nil => exact (List.append_nil _).symm
  | cons info infos ih =>
    have h := ih (r.add info)
    rw [add_map hf, List.append_assoc] at h
    exact h

end

@[simp] theorem addAll_declaration (r : RelationInfo) (infos : List ColumnInfo) :
    (r.addAll infos).declaration = r.declaration := by
  induction infos generalizing r with
  | nil => rfl
  | cons info infos ih => exact ih (r.add info)

/-- `relation_info::erase`, on the columns. -/
def erase (columns : List ColumnInfo) (first last : Nat) : List ColumnInfo :=
  columns.take first ++ columns.drop last

/-- `relation_info::rebuild`, after the columns were changed in place. -/
def rebuild (r : RelationInfo) (columns : List ColumnInfo) : RelationInfo where
  declaration := r.declaration
  identifier := r.identifier
  columns := (Data.Chain.rebuild ColumnInfo.threading columns).cells
  nameMap := (Data.Chain.rebuild ColumnInfo.threading columns).heads
  declarationMap :=
    (columns.foldl (fun (m, i) c => (enterKey m (c.declaration.map Column.address) i, i + 1))
      ((fun _ => none : Nat → Option Position), 0)).1
  linked := by
    rw [rebuild_cells_length]
    exact rebuild_linked columns

/-- Assign the identifier of the relation. -/
def setIdentifier (r : RelationInfo) (identifier : String) : RelationInfo :=
  { r with identifier := identifier }

/-- Clear the exported flag of a column, in place. -/
def hide (r : RelationInfo) (position : Nat) : RelationInfo where
  declaration := r.declaration
  identifier := r.identifier
  columns := r.columns.modify position ColumnInfo.hide
  nameMap := r.nameMap
  declarationMap := r.declarationMap
  linked := by
    rw [List.length_modify]
    refine r.linked.congr (fun i => ?_) (fun i => ?_)
    all_goals
      simp only [keyAt, nextAt, List.getElem?_modify]
      rcases r.columns[i]? with _ | c
      · simp
      · by_cases hi : position = i <;> simp [hi, ColumnInfo.threading, ColumnInfo.hide]

/-- The positions that `find` and `next` go through for an identifier. -/
def chain (r : RelationInfo) (identifier : String) : List Position :=
  Chained.chain ColumnInfo.threading ⟨r.nameMap, r.columns⟩ identifier

/-- `relation_info::find` by a column declaration. -/
def findDeclaration (r : RelationInfo) (column : Column) : Option Position :=
  r.declarationMap column.address

/-- The exported columns, in order. -/
def exportedColumns (r : RelationInfo) : List ColumnInfo := r.columns.filter ColumnInfo.exported

/-- The exported columns of a name, in order. -/
def exportedNamed (r : RelationInfo) (identifier : String) : List ColumnInfo :=
  r.exportedColumns.filter fun c => c.identifier = some identifier

/-! ### Searching a chain -/

/-- At most one element: `none` stands for two or more. -/
def atMostOne {α : Type} : List α → Option (Option α)
  | [] => some none
  | [a] => some (some a)
  | _ :: _ :: _ => none

/-- Follow a chain and keep the variable of the exported column met; no result when a second
one, or the sentinel, is met. -/
def searchChain (r : RelationInfo) : Option Variable → List Position → Option (Option Variable)
  | found, [] => some found
  | _, .ambiguous :: _ => none
  | found, .at_ i :: rest =>
    match r.columns[i]? with
    | none => searchChain r found rest
    | some c =>
      if c.exported then
        match found with
        | some _ => none
        | none => searchChain r (some c.variable_) rest
      else searchChain r found rest

/-- The chain of an identifier enumerates the columns with that identifier. -/
theorem chain_eq (r : RelationInfo) (identifier : String) :
    r.chain identifier
      = (positions ColumnInfo.threading r.columns identifier 0 r.columns.length).map .at_ :=
  chain_of_linked r.linked identifier

theorem searchChain_eq (r : RelationInfo) (found : Option Variable) (l : List Nat) :
    r.searchChain found (l.map .at_)
      = atMostOne (found.toList
          ++ ((l.filterMap (r.columns[·]?)).filter ColumnInfo.exported).map ColumnInfo.variable_) := by
  induction l generalizing found with
  | nil => rcases found with _ | v <;> rfl
  | cons i l ih =>
    rw [List.map_cons, searchChain]
    rcases hi : r.columns[i]? with _ | c
    · simp only [ih, List.filterMap_cons, hi]
    · by_cases hc : c.exported = true
      · rcases found with _ | v <;> simp [hi, hc, ih, atMostOne]
      · simp [hi, hc, ih]

/-- Searching the chain of an identifier finds the exported columns of that name. -/
theorem searchChain_chain (r : RelationInfo) (found : Option Variable) (identifier : String) :
    r.searchChain found (r.chain identifier)
      = atMostOne (found.toList ++ (r.exportedNamed identifier).map ColumnInfo.variable_) := by
  rw [chain_eq, searchChain_eq, positions_cells, exportedNamed, exportedColumns,
    List.filter_filter, List.filter_filter]
  congr 3
  exact List.filter_congr fun c _ => by
    rw [Bool.and_comm]
    exact congrArg (· && c.exported) (decide_eq_decide.mpr Iff.rfl)

end RelationInfo

end Mizugaki.Analyzer
