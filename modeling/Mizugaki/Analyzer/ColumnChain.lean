import Mizugaki.Analyzer.RelationInfo

/-! Relations of every history. Whatever columns are added, renamed, erased and linked anew,
following a name from its first column enumerates the columns of that name, and a declaration is
found as long as one column has it. -/

namespace Mizugaki.Analyzer

open Mizugaki.Data.Chain Mizugaki.Data.UniqueMap
open Mizugaki.Plan

namespace ColumnInfo

/-- The address of the declaration, under which a column is looked up. -/
def declaredAddress (c : ColumnInfo) : Option Nat := c.declaration.map Column.address

theorem declaredAddress_next (p : Option Position) (c : ColumnInfo) :
    declaredAddress { c with next := p } = declaredAddress c := rfl

/-- Assign the identifier in place. -/
def rename (identifier : Option String) (c : ColumnInfo) : ColumnInfo :=
  { c with identifier := identifier }

end ColumnInfo

namespace RelationInfo

/-- `relation_info::find` by name: the position of the first column. -/
def find (r : RelationInfo) (identifier : String) : Option Position := r.nameMap identifier

/-- Assign identifiers in place, erase the columns from a position on, and `rebuild`. -/
def reshape (r : RelationInfo) (names : Nat → ColumnInfo → Option String) (first : Nat) :
    RelationInfo :=
  r.rebuild (erase (r.columns.mapIdx fun i c => c.rename (names i c)) first r.columns.length)

/-- The relations that a sequence of changes leads to. -/
inductive Built : RelationInfo → Prop
  | empty (declaration : Option Relation) (identifier : String) :
      Built (.empty declaration identifier)
  | add {r : RelationInfo} (h : Built r) (info : ColumnInfo) : Built (r.add info)
  | setIdentifier {r : RelationInfo} (h : Built r) (identifier : String) :
      Built (r.setIdentifier identifier)
  | hide {r : RelationInfo} (h : Built r) (position : Nat) : Built (r.hide position)
  | reshape {r : RelationInfo} (h : Built r) (names : Nat → ColumnInfo → Option String)
      (first : Nat) : Built (r.reshape names first)

/-! ### Declarations -/

/-- The declaration map tells which declarations have no, one or several columns. -/
def Addressed (r : RelationInfo) : Prop :=
  Indexes ColumnInfo.declaredAddress r.columns r.declarationMap

theorem Addressed.add {r : RelationInfo} (h : r.Addressed) (info : ColumnInfo) :
    (r.add info).Addressed := by
  refine (Indexes.enterKey h info).congr ?_
  rw [add_map ColumnInfo.declaredAddress_next, List.map_append, List.map_singleton]

theorem Addressed.hide {r : RelationInfo} (h : r.Addressed) (position : Nat) :
    (r.hide position).Addressed := by
  refine Indexes.congr h ?_
  exact modify_map_eq (f := ColumnInfo.hide) (fun _ => rfl) position

/-- Entering columns one after another indexes all of them. -/
theorem indexes_fold (columns entered : List ColumnInfo) {map : Nat → Option Position}
    (h : Indexes ColumnInfo.declaredAddress entered map) :
    Indexes ColumnInfo.declaredAddress (entered ++ columns)
      (columns.foldl (fun (m, i) c => (enterKey m (c.declaration.map Column.address) i, i + 1))
        (map, entered.length)).1 := by
  induction columns generalizing entered map with
  | nil => rwa [List.append_nil]
  | cons column columns ih =>
    have hrest := ih (entered ++ [column]) (h.enterKey column)
    rw [List.append_assoc, List.length_append, List.length_singleton] at hrest
    exact hrest

theorem rebuild_addressed (r : RelationInfo) (columns : List ColumnInfo) :
    (r.rebuild columns).Addressed := by
  refine Indexes.congr (indexes_fold columns [] indexes_nil) ?_
  exact rebuild_map (T := ColumnInfo.threading) ColumnInfo.declaredAddress_next columns

theorem Built.addressed {r : RelationInfo} (h : Built r) : r.Addressed := by
  induction h with
  | empty => exact indexes_nil
  | add _ info ih => exact ih.add info
  | setIdentifier _ _ ih => exact ih
  | hide _ position ih => exact ih.hide position
  | reshape => exact rebuild_addressed _ _

/-! ### The law -/

/-- The column at a position has a name. -/
def Named (r : RelationInfo) (identifier : String) (i : Nat) : Prop :=
  ∃ c, r.columns[i]? = some c ∧ c.identifier = some identifier

/-- The column at a position has a declaration. -/
def Declares (r : RelationInfo) (column : Column) (i : Nat) : Prop :=
  ∃ c, r.columns[i]? = some c ∧ c.declaredAddress = some column.address

theorem keyAt_eq_some {r : RelationInfo} {identifier : String} {i : Nat} :
    keyAt ColumnInfo.threading r.columns i = some identifier ↔ r.Named identifier i :=
  Option.bind_eq_some_iff

/-- What can be asked of the columns of a relation. -/
structure ColumnLaw (r : RelationInfo) : Prop where
  /-- Following `next` from `find` meets the columns of a name, in increasing position, and ends. -/
  enumerates : ∀ identifier, ∃ positions,
    Enumerates ColumnInfo.threading r.columns (r.find identifier) positions ∧
      positions.Pairwise (· < ·) ∧ ∀ i, i ∈ positions ↔ r.Named identifier i
  links : ∀ i c p, r.columns[i]? = some c → c.next = some p →
    ∃ j, p = .at_ j ∧ i < j ∧ j < r.columns.length
  found : ∀ column i, r.findDeclaration column = some (.at_ i) ↔
    r.Declares column i ∧ ∀ j, r.Declares column j → j = i
  ambiguous : ∀ column, r.findDeclaration column = some .ambiguous ↔
    ∃ i j, i ≠ j ∧ r.Declares column i ∧ r.Declares column j

/-- The positions of a declaration, in order. -/
def declaringPositions (r : RelationInfo) (column : Column) : List Nat :=
  keyPositions ColumnInfo.declaredAddress r.columns column.address

theorem mem_declaringPositions {r : RelationInfo} {column : Column} {i : Nat} :
    i ∈ r.declaringPositions column ↔ r.Declares column i := by
  rw [declaringPositions, keyPositions, List.mem_findIdxs_iff_exists_getElem_pos]
  constructor
  · rintro ⟨hi, hkey⟩
    exact ⟨r.columns[i], List.getElem?_eq_getElem hi, of_decide_eq_true hkey⟩
  · rintro ⟨c, hc, hkey⟩
    obtain ⟨hi, rfl⟩ := List.getElem?_eq_some_iff.mp hc
    exact ⟨hi, decide_eq_true hkey⟩

theorem declaringPositions_nodup (r : RelationInfo) (column : Column) :
    (r.declaringPositions column).Nodup := List.nodup_findIdxs

/-- A list without repetition has one element exactly when all its elements are equal. -/
theorem summary_eq_at {l : List Nat} (hl : l.Nodup) {i : Nat} :
    summary l = some (.at_ i) ↔ i ∈ l ∧ ∀ j ∈ l, j = i := by
  cases l with
  | nil => simp [summary]
  | cons a l =>
    cases l with
    | nil => simp [summary, eq_comm]
    | cons b l =>
      refine iff_of_false (by simp [summary]) ?_
      rintro ⟨-, hall⟩
      have hab : a = b := (hall a (by simp)).trans (hall b (by simp)).symm
      exact (List.nodup_cons.mp hl).1 (hab ▸ List.mem_cons_self)

theorem summary_eq_ambiguous {l : List Nat} (hl : l.Nodup) :
    summary l = some .ambiguous ↔ ∃ i j, i ≠ j ∧ i ∈ l ∧ j ∈ l := by
  cases l with
  | nil => simp [summary]
  | cons a l =>
    cases l with
    | nil =>
      refine iff_of_false (by simp [summary]) ?_
      rintro ⟨i, j, hne, hi, hj⟩
      exact hne ((List.mem_singleton.mp hi).trans (List.mem_singleton.mp hj).symm)
    | cons b l =>
      refine iff_of_true rfl ⟨a, b, ?_, by simp, by simp⟩
      rintro rfl
      exact (List.nodup_cons.mp hl).1 List.mem_cons_self

/-- The columns of a relation can be asked for after every sequence of changes. -/
theorem Built.columnLaw {r : RelationInfo} (h : Built r) : r.ColumnLaw where
  enumerates identifier := by
    refine ⟨positions ColumnInfo.threading r.columns identifier 0 r.columns.length, ?_,
      positions_sorted, fun i => ?_⟩
    · have henumerates := r.linked.enumerates (k := identifier) (i := 0)
      rwa [← r.linked.head identifier] at henumerates
    · rw [mem_positions, keyAt_eq_some]
      constructor
      · rintro ⟨-, -, hnamed⟩
        exact hnamed
      · rintro ⟨c, hc, hname⟩
        obtain ⟨hi, -⟩ := List.getElem?_eq_some_iff.mp hc
        exact ⟨Nat.zero_le i, hi, c, hc, hname⟩
  links i c p hc hp := by
    have hnext : nextAt ColumnInfo.threading r.columns i = some p := by
      rw [nextAt, hc]
      exact hp
    exact r.linked.next_lt hnext
  found column i := by
    rw [findDeclaration, h.addressed column.address]
    refine (summary_eq_at (r.declaringPositions_nodup column)).trans ?_
    simp only [mem_declaringPositions]
  ambiguous column := by
    rw [findDeclaration, h.addressed column.address]
    refine (summary_eq_ambiguous (r.declaringPositions_nodup column)).trans ?_
    simp only [mem_declaringPositions]

/-- Four columns, of which the last is erased and the others are renamed to one name. -/
theorem columnLaw_reshaped :
    let column (name : String) : ColumnInfo := { variable_ := .stream 0, identifier := some name }
    let added := ((((RelationInfo.empty none "t").add (column "a")).add (column "b")).add
      (column "a")).add (column "c")
    let r := added.reshape (fun _ _ => some "a") 3
    r.ColumnLaw ∧ Enumerates ColumnInfo.threading r.columns (r.find "a") [0, 1, 2] := by
  intro column added r
  have hadded : Built added := ((((Built.empty none "t").add _).add _).add _).add _
  refine ⟨Built.columnLaw (hadded.reshape _ 3), ?_⟩
  have hfind : r.find "a" = some (.at_ 0) := by decide
  have hnext : ∀ i, i < 2 → nextAt ColumnInfo.threading r.columns i = some (.at_ (i + 1)) := by
    decide
  have hlast : nextAt ColumnInfo.threading r.columns 2 = none := by decide
  rw [hfind]
  refine .cons ?_
  rw [hnext 0 (by omega)]
  refine .cons ?_
  rw [hnext 1 (by omega)]
  refine .cons ?_
  rw [hlast]
  exact .nil

end RelationInfo

end Mizugaki.Analyzer
