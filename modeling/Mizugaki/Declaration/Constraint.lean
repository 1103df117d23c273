import Mizugaki.Control.Reordering
import Mizugaki.Declaration.Outcome

/-! The constraints of a column, in any order. A constraint is either about the nullity of
the column, and then reads and writes the draft alone, or about its default value. Two
constraints of one of these groups are accepted in one order when they are in the other,
and a constraint of one group neither reads nor writes what one of the other does: what an
accepted definition declares does not depend on the order of its constraints. -/

namespace Mizugaki.Analyzer

open Mizugaki.Ast Mizugaki.Plan Mizugaki.Control

variable {ρ : Type} {env : Environment ρ}

/-! ### What a constraint does -/

section Nullity

variable (d r : ColumnDraft) (s t : AnalyzerState ρ)

/-- The draft of a column that was said to be nullable or not. -/
def ColumnDraft.setNullity (d : ColumnDraft) (nullable : Bool) : ColumnDraft :=
  { d with sawNullity := true, prototype := { d.prototype with nullable := nullable } }

/-- The draft of a column that is the primary key. -/
def ColumnDraft.setPrimaryKey (d : ColumnDraft) : ColumnDraft :=
  { d with
    prototype := { d.prototype with nullable := false }
    primaryKey := some d.prototype.address }

theorem primaryKey_yields (constraint : KeyConstraint) :
    processColumnConstraint env d (.primaryKey constraint) s = (some r, t) ↔
      d.primaryKey = none ∧ (d.sawNullity = true → d.prototype.nullable = false) ∧
        d.setPrimaryKey = r ∧ s = t := by
  simp only [processColumnConstraint]
  cases hkey : d.primaryKey with
  | some address => simp
  | none =>
    cases hsaw : d.sawNullity <;> cases hnull : d.prototype.nullable <;>
      simp [ColumnDraft.setPrimaryKey, hsaw]

theorem null_yields :
    processColumnConstraint env d .null s = (some r, t) ↔
      d.sawNullity = false ∧ d.prototype.nullable = true ∧ d.setNullity true = r ∧ s = t := by
  simp only [processColumnConstraint]
  cases hsaw : d.sawNullity <;> cases hnull : d.prototype.nullable <;>
    simp [ColumnDraft.setNullity]

theorem notNull_yields :
    processColumnConstraint env d .notNull s = (some r, t) ↔
      d.sawNullity = false ∧ d.setNullity false = r ∧ s = t := by
  simp only [processColumnConstraint]
  cases hsaw : d.sawNullity <;> simp [ColumnDraft.setNullity]

end Nullity

/-- The draft of a column with a default value, which may be read only. -/
def ColumnDraft.setDefault (d : ColumnDraft) (value : ColumnValue) (readOnly : Bool) :
    ColumnDraft :=
  { d with prototype :=
    { d.prototype with readOnly := d.prototype.readOnly || readOnly, defaultValue := value } }

theorem requireNoDefault_yields (prototype : Column) (s t : AnalyzerState ρ) (u : Unit) :
    requireNoDefault prototype s = (some u, t) ↔ prototype.defaultValue = .nothing ∧ s = t := by
  unfold requireNoDefault
  split_ifs with h
  · simp [h]
  · simp [not_not.mp h]

/-- An identity constraint reads the type of a column, and whether it is read only. -/
theorem processIdentityColumn_frame {constraint : IdentityConstraint} {prototype column : Column}
    {s t : AnalyzerState ρ} (h : processIdentityColumn env constraint prototype s = (some column, t)) :
    ∃ sequence readOnly,
      column = { prototype with
        readOnly := prototype.readOnly || readOnly, defaultValue := .sequence sequence } ∧
      ∀ prototype' : Column, prototype'.type = prototype.type →
        processIdentityColumn env constraint prototype' s =
          (some { prototype' with
            readOnly := prototype'.readOnly || readOnly
            defaultValue := .sequence sequence }, t) := by
  unfold processIdentityColumn at h
  simp only [Check.bind_yields] at h
  obtain ⟨isInt8, u₁, hwidth, increment, u₂, hincrement, minValue, u₃, hmin, maxValue, u₄, hmax,
    initialValue, u₅, hinitial, hresult⟩ := h
  split_ifs at hresult with hrange
  · simp at hresult
  · obtain ⟨rfl, rfl⟩ := (Check.pure_yields ..).mp hresult
    refine ⟨_, _, rfl, fun prototype' htype => ?_⟩
    unfold processIdentityColumn
    simp only [Check.bind_yields]
    refine ⟨isInt8, u₁, by rw [htype, hwidth], increment, u₂, hincrement, minValue, u₃, hmin,
      maxValue, u₄, hmax, initialValue, u₅, hinitial, ?_⟩
    rw [if_neg hrange]
    rfl

/-- The constraints about the default value of a column. -/
def IsDefault : Constraint → Prop
  | .defaultClause _ => True
  | .identityColumn _ => True
  | _ => False

/-- The constraints about the nullity of a column. -/
def IsNullity : Constraint → Prop
  | .primaryKey _ => True
  | .null => True
  | .notNull => True
  | _ => False

/-- A constraint about the default value is accepted once, and writes what does not depend on the
rest of the draft. -/
theorem isDefault_frame {c : Constraint} {d r : ColumnDraft} {s t : AnalyzerState ρ}
    (h : processColumnConstraint env d c s = (some r, t)) (hc : IsDefault c) :
    d.prototype.defaultValue = .nothing ∧ ∃ value readOnly, value ≠ .nothing ∧
      r = d.setDefault value readOnly ∧
      ∀ d' : ColumnDraft, d'.prototype.type = d.prototype.type →
        d'.prototype.defaultValue = .nothing →
        processColumnConstraint env d' c s = (some (d'.setDefault value readOnly), t) := by
  cases c with
  | primaryKey constraint => cases hc
  | null => cases hc
  | notNull => cases hc
  | unsupported kind => cases hc
  | defaultClause expression =>
    simp only [processColumnConstraint, Check.bind_yields, requireNoDefault_yields,
      Check.pure_yields] at h
    obtain ⟨-, _, ⟨hnone, rfl⟩, value, u, hvalue, rfl, rfl⟩ := h
    refine ⟨hnone, value, false, ?_, by simp [ColumnDraft.setDefault], ?_⟩
    · unfold processDefaultClause at hvalue
      obtain ⟨_, _, -, hextract⟩ := (Check.bind_yields ..).mp hvalue
      exact extractColumnValue_ne_nothing env _ hextract
    · intro d' htype hnone'
      simp only [processColumnConstraint, Check.bind_yields, requireNoDefault_yields,
        Check.pure_yields]
      refine ⟨(), s, ⟨hnone', rfl⟩, value, u, ?_, by simp [ColumnDraft.setDefault], rfl⟩
      unfold processDefaultClause at hvalue ⊢
      rw [htype]
      exact hvalue
  | identityColumn constraint =>
    simp only [processColumnConstraint, Check.bind_yields, requireNoDefault_yields,
      Check.pure_yields] at h
    obtain ⟨-, _, ⟨hnone, rfl⟩, column, u, hcolumn, rfl, rfl⟩ := h
    obtain ⟨sequence, readOnly, rfl, hframe⟩ := processIdentityColumn_frame hcolumn
    refine ⟨hnone, .sequence sequence, readOnly, fun h => (by cases h), rfl, ?_⟩
    · intro d' htype hnone'
      simp only [processColumnConstraint, Check.bind_yields, requireNoDefault_yields,
        Check.pure_yields]
      exact ⟨(), s, ⟨hnone', rfl⟩, _, u, hframe d'.prototype htype, rfl, rfl⟩

/-- A constraint about the nullity neither reads nor writes the type and the default value. -/
theorem isNullity_frame {c : Constraint} (hc : IsNullity c) {d r : ColumnDraft}
    {s t : AnalyzerState ρ} (h : processColumnConstraint env d c s = (some r, t)) :
    s = t ∧ r.prototype.type = d.prototype.type ∧
      r.prototype.defaultValue = d.prototype.defaultValue := by
  cases c with
  | primaryKey constraint =>
    obtain ⟨-, -, rfl, rfl⟩ := (primaryKey_yields ..).mp h
    exact ⟨rfl, rfl, rfl⟩
  | null =>
    obtain ⟨-, -, rfl, rfl⟩ := (null_yields ..).mp h
    exact ⟨rfl, rfl, rfl⟩
  | notNull =>
    obtain ⟨-, rfl, rfl⟩ := (notNull_yields ..).mp h
    exact ⟨rfl, rfl, rfl⟩
  | defaultClause expression => cases hc
  | identityColumn constraint => cases hc
  | unsupported kind => cases hc

theorem isNullity_setDefault {c : Constraint} (hc : IsNullity c) (d r : ColumnDraft)
    (value : ColumnValue) (readOnly : Bool) (s t u : AnalyzerState ρ) :
    processColumnConstraint env (d.setDefault value readOnly) c s = (some r, t) ↔
      s = t ∧ ∃ r', processColumnConstraint env d c u = (some r', u) ∧
        r = r'.setDefault value readOnly := by
  cases c with
  | primaryKey constraint =>
    simp only [primaryKey_yields]
    constructor
    · rintro ⟨hkey, hnull, rfl, rfl⟩
      exact ⟨rfl, d.setPrimaryKey, ⟨hkey, hnull, rfl, trivial⟩, rfl⟩
    · rintro ⟨rfl, _, ⟨hkey, hnull, rfl, -⟩, rfl⟩
      exact ⟨hkey, hnull, rfl, rfl⟩
  | null =>
    simp only [null_yields]
    constructor
    · rintro ⟨hsaw, hnull, rfl, rfl⟩
      exact ⟨rfl, d.setNullity true, ⟨hsaw, hnull, rfl, trivial⟩, rfl⟩
    · rintro ⟨rfl, _, ⟨hsaw, hnull, rfl, -⟩, rfl⟩
      exact ⟨hsaw, hnull, rfl, rfl⟩
  | notNull =>
    simp only [notNull_yields]
    constructor
    · rintro ⟨hsaw, rfl, rfl⟩
      exact ⟨rfl, d.setNullity false, ⟨hsaw, rfl, trivial⟩, rfl⟩
    · rintro ⟨rfl, _, ⟨hsaw, rfl, -⟩, rfl⟩
      exact ⟨hsaw, rfl, rfl⟩
  | defaultClause expression => cases hc
  | identityColumn constraint => cases hc
  | unsupported kind => cases hc

/-! ### Two constraints in either order -/

/-- Two constraints about the nullity are accepted only as a primary key and NOT NULL. -/
theorem isNullity_exchanges {c c' : Constraint} (hc : IsNullity c)
    (hc' : IsNullity c') : Check.Exchanges (processColumnConstraint env) c c' := by
  intro d s t r h
  obtain ⟨d₁, u, h₁, h₂⟩ := (Check.bind_yields ..).mp h
  refine (Check.bind_yields ..).mpr ?_
  cases c with
  | primaryKey constraint =>
    obtain ⟨hkey, hnull, rfl, rfl⟩ := (primaryKey_yields ..).mp h₁
    cases c' with
    | primaryKey constraint' =>
      obtain ⟨hkey', -⟩ := (primaryKey_yields ..).mp h₂
      cases hkey'
    | null =>
      obtain ⟨-, hnull', -⟩ := (null_yields ..).mp h₂
      cases hnull'
    | notNull =>
      obtain ⟨hsaw, rfl, rfl⟩ := (notNull_yields ..).mp h₂
      exact ⟨d.setNullity false, s, (notNull_yields ..).mpr ⟨hsaw, rfl, rfl⟩,
        (primaryKey_yields ..).mpr ⟨hkey, fun _ => rfl, rfl, rfl⟩⟩
    | defaultClause expression => cases hc'
    | identityColumn constraint' => cases hc'
    | unsupported kind => cases hc'
  | null =>
    obtain ⟨hsaw, hnull, rfl, rfl⟩ := (null_yields ..).mp h₁
    cases c' with
    | primaryKey constraint =>
      obtain ⟨-, hnull', -⟩ := (primaryKey_yields ..).mp h₂
      cases hnull' rfl
    | null =>
      obtain ⟨hsaw', -⟩ := (null_yields ..).mp h₂
      cases hsaw'
    | notNull =>
      obtain ⟨hsaw', -⟩ := (notNull_yields ..).mp h₂
      cases hsaw'
    | defaultClause expression => cases hc'
    | identityColumn constraint' => cases hc'
    | unsupported kind => cases hc'
  | notNull =>
    obtain ⟨hsaw, rfl, rfl⟩ := (notNull_yields ..).mp h₁
    cases c' with
    | primaryKey constraint =>
      obtain ⟨hkey, -, rfl, rfl⟩ := (primaryKey_yields ..).mp h₂
      have hkeyFirst : processColumnConstraint env d (.primaryKey constraint) s =
          (some d.setPrimaryKey, s) :=
        (primaryKey_yields ..).mpr ⟨hkey, fun hsaw' => absurd (hsaw'.symm.trans hsaw) nofun,
          rfl, rfl⟩
      exact ⟨_, s, hkeyFirst, (notNull_yields ..).mpr ⟨hsaw, rfl, rfl⟩⟩
    | null =>
      obtain ⟨hsaw', -⟩ := (null_yields ..).mp h₂
      cases hsaw'
    | notNull =>
      obtain ⟨hsaw', -⟩ := (notNull_yields ..).mp h₂
      cases hsaw'
    | defaultClause expression => cases hc'
    | identityColumn constraint' => cases hc'
    | unsupported kind => cases hc'
  | defaultClause expression => cases hc
  | identityColumn constraint => cases hc
  | unsupported kind => cases hc

theorem isDefault_exchanges {c c' : Constraint} (hc : IsDefault c)
    (hc' : IsDefault c') : Check.Exchanges (processColumnConstraint env) c c' := by
  intro d s t r h
  obtain ⟨d₁, u, h₁, h₂⟩ := (Check.bind_yields ..).mp h
  obtain ⟨-, value, readOnly, hvalue, rfl, -⟩ := isDefault_frame h₁ hc
  -- the second constraint finds the value of the first one
  obtain ⟨hnone, -⟩ := isDefault_frame h₂ hc'
  exact absurd hnone hvalue

theorem isNullity_isDefault_exchanges {c c' : Constraint} (hc : IsNullity c)
    (hc' : IsDefault c') : Check.Exchanges (processColumnConstraint env) c c' := by
  intro d s t r h
  obtain ⟨d₁, u, h₁, h₂⟩ := (Check.bind_yields ..).mp h
  obtain ⟨rfl, htype, hdefault⟩ := isNullity_frame hc h₁
  obtain ⟨hnone, value, readOnly, -, rfl, hframe⟩ := isDefault_frame h₂ hc'
  refine (Check.bind_yields ..).mpr ⟨d.setDefault value readOnly, t, ?_, ?_⟩
  · exact hframe d htype.symm (hdefault.symm.trans hnone)
  · exact (isNullity_setDefault hc d _ value readOnly t t s).mpr ⟨rfl, d₁, h₁, rfl⟩

theorem isDefault_isNullity_exchanges {c c' : Constraint} (hc : IsDefault c)
    (hc' : IsNullity c') : Check.Exchanges (processColumnConstraint env) c c' := by
  intro d s t r h
  obtain ⟨d₁, u, h₁, h₂⟩ := (Check.bind_yields ..).mp h
  obtain ⟨hnone, value, readOnly, -, rfl, hframe⟩ := isDefault_frame h₁ hc
  obtain ⟨rfl, r', hr', rfl⟩ := (isNullity_setDefault hc' d _ value readOnly u t s).mp h₂
  obtain ⟨-, htype, hdefault⟩ := isNullity_frame hc' hr'
  exact (Check.bind_yields ..).mpr ⟨r', s, hr', hframe r' htype (hdefault.trans hnone)⟩

theorem unsupported_stops {d r : ColumnDraft} {kind : UnsupportedConstraintKind}
    {s t : AnalyzerState ρ} (h : processColumnConstraint env d (.unsupported kind) s = (some r, t)) :
    False := by
  simp [processColumnConstraint] at h

/-- A constraint is about one of the two, or it is not supported. -/
theorem constraint_groups (c : Constraint) :
    IsNullity c ∨ IsDefault c ∨ ∃ kind, c = .unsupported kind := by
  cases c with
  | primaryKey constraint => exact .inl trivial
  | null => exact .inl trivial
  | notNull => exact .inl trivial
  | defaultClause expression => exact .inr (.inl trivial)
  | identityColumn constraint => exact .inr (.inl trivial)
  | unsupported kind => exact .inr (.inr ⟨kind, rfl⟩)

/-- Any two constraints are accepted in one order as they are in the other. -/
theorem processColumnConstraint_exchanges (c c' : Constraint) :
    Check.Exchanges (processColumnConstraint env) c c' := by
  obtain hc | hc | ⟨kind, rfl⟩ := constraint_groups c
  · obtain hc' | hc' | ⟨kind, rfl⟩ := constraint_groups c'
    · exact isNullity_exchanges hc hc'
    · exact isNullity_isDefault_exchanges hc hc'
    · intro d s t r h
      obtain ⟨d₁, u, -, hu⟩ := (Check.bind_yields ..).mp h
      exact (unsupported_stops hu).elim
  · obtain hc' | hc' | ⟨kind, rfl⟩ := constraint_groups c'
    · exact isDefault_isNullity_exchanges hc hc'
    · exact isDefault_exchanges hc hc'
    · intro d s t r h
      obtain ⟨d₁, u, -, hu⟩ := (Check.bind_yields ..).mp h
      exact (unsupported_stops hu).elim
  · intro d s t r h
    obtain ⟨d₁, u, hu, -⟩ := (Check.bind_yields ..).mp h
    exact (unsupported_stops hu).elim

theorem processColumnConstraints_eq_fold (d : ColumnDraft) (cs : List Constraint) :
    processColumnConstraints env d cs = Check.fold (processColumnConstraint env) d cs := by
  induction cs generalizing d with
  | nil => rfl
  | cons c cs ih => simp only [processColumnConstraints, Check.fold, ih]

theorem processColumnConstraints_concat (d : ColumnDraft) (cs : List Constraint) (c : Constraint) :
    processColumnConstraints env d (cs ++ [c]) =
      processColumnConstraints env d cs >>= fun d => processColumnConstraint env d c := by
  simp only [processColumnConstraints_eq_fold, Check.fold_append, Check.fold, bind_pure]

/-- A column with its constraints in any order gets the same draft, from the same run. -/
theorem processColumnConstraints_perm {cs cs' : List Constraint} (h : cs.Perm cs')
    (d r : ColumnDraft) (s t : AnalyzerState ρ) :
    processColumnConstraints env d cs s = (some r, t) ↔
      processColumnConstraints env d cs' s = (some r, t) := by
  rw [processColumnConstraints_eq_fold, processColumnConstraints_eq_fold]
  exact Check.fold_yields_perm processColumnConstraint_exchanges h d r s t

/-! ### Table definitions -/

/-- The same element of a table definition, but for the order of the constraints of a column. -/
inductive TableElement.Reordered : TableElement → TableElement → Prop where
  | column {definition : ColumnDefinition} {constraints : List Constraint}
      (h : definition.constraints.Perm constraints) :
      TableElement.Reordered (.columnDefinition definition)
        (.columnDefinition { definition with constraints := constraints })
  | constraint (body : Constraint) :
      TableElement.Reordered (.constraintDefinition body) (.constraintDefinition body)

theorem processColumnDefinition_reordered (tableName : String) (d r : ColumnsDraft)
    {definition : ColumnDefinition} {constraints : List Constraint}
    (h : definition.constraints.Perm constraints) (s t : AnalyzerState ρ) :
    processColumnDefinition env tableName d definition s = (some r, t) ↔
      processColumnDefinition env tableName d { definition with constraints := constraints } s =
        (some r, t) := by
  unfold processColumnDefinition
  refine Check.bind_yields_congr fun type u => ?_
  dsimp only
  split_ifs
  · exact Iff.rfl
  · refine Check.bind_yields_congr fun address u => ?_
    simp only [Check.bind_yields, processColumnConstraints_perm h]

theorem processColumnDefinitions_reordered (tableName : String)
    {elements elements' : List TableElement}
    (h : List.Forall₂ TableElement.Reordered elements elements') (d r : ColumnsDraft)
    (s t : AnalyzerState ρ) :
    processColumnDefinitions env tableName d elements s = (some r, t) ↔
      processColumnDefinitions env tableName d elements' s = (some r, t) := by
  induction h generalizing d s with
  | nil => exact Iff.rfl
  | cons helement _ ih =>
    cases helement with
    | column hperm =>
      simp only [processColumnDefinitions, Check.bind_yields, ih,
        processColumnDefinition_reordered tableName d _ hperm]
    | constraint body => exact ih d s

theorem processTableConstraints_reordered {elements elements' : List TableElement}
    (h : List.Forall₂ TableElement.Reordered elements elements') (d : TableDraft) :
    processTableConstraints env d elements = processTableConstraints env d elements' := by
  induction h generalizing d with
  | nil => rfl
  | cons helement _ ih =>
    cases helement with
    | column hperm => exact ih d
    | constraint body => simp only [processTableConstraints, ih]

theorem defineTable_reordered (definition : TableDefinition) {elements : List TableElement}
    (h : List.Forall₂ TableElement.Reordered definition.elements elements)
    (r : StatementResult) (s t : AnalyzerState ρ) :
    defineTable env definition s = (some r, t) ↔
      defineTable env { definition with elements := elements } s = (some r, t) := by
  obtain ⟨name, elements', options, parameters, description⟩ := definition
  cases name with
  | qualified qualifier last => exact Iff.rfl
  | simple name =>
    simp only [defineTable, Check.bind_yields, processColumnDefinitions_reordered _ h,
      processTableConstraints_reordered h]

theorem processTableDefinition_reordered (definition : TableDefinition)
    {elements : List TableElement}
    (h : List.Forall₂ TableElement.Reordered definition.elements elements)
    (r : StatementResult) (s t : AnalyzerState ρ) :
    processTableDefinition env definition s = (some r, t) ↔
      processTableDefinition env { definition with elements := elements } s = (some r, t) := by
  unfold processTableDefinition
  dsimp only
  cases definition.parameters with
  | cons parameter parameters => exact Iff.rfl
  | nil =>
    refine Check.bind_yields_congr fun existing u => ?_
    cases existing with
    | some a => exact Iff.rfl
    | none => exact defineTable_reordered definition h r u t

/-- A CREATE TABLE statement is accepted with the constraints of its columns in any order when it
is in another, and defines the same table and primary index. -/
theorem SqlAnalyzer.process_reordered (resolution : ρ) (definition : TableDefinition)
    {elements : List TableElement}
    (h : List.Forall₂ TableElement.Reordered definition.elements elements) :
    let statement := Ast.Statement.tableDefinition definition
    let reordered := Ast.Statement.tableDefinition { definition with elements := elements }
    ((process env resolution statement).Accepted ↔ (process env resolution reordered).Accepted) ∧
      ∀ result, process env resolution statement = .statement result ↔
        process env resolution reordered = .statement result := by
  intro statement reordered
  have hrun (r : StatementResult) (s t : AnalyzerState ρ) :
      processTableDefinition env definition s = (some r, t) ↔
        processTableDefinition env { definition with elements := elements } s = (some r, t) :=
    processTableDefinition_reordered definition h r s t
  constructor
  · rw [process_accepted_iff, process_accepted_iff]
    simp only [statement, reordered, analyzeStatement, hrun]
  · intro result
    rw [process_statement_iff, process_statement_iff]
    simp only [statement, reordered, analyzeStatement, hrun]

/-- `c BIGINT PRIMARY KEY NOT NULL DEFAULT 1` and `c BIGINT DEFAULT 1 NOT NULL PRIMARY KEY`. -/
theorem SqlAnalyzer.process_default_notNull_primaryKey :
    let env := Environment.ofSchema (.ofTables [] [])
    let key : Constraint := .primaryKey ⟨[], [], []⟩
    let default_ : Constraint := .defaultClause (.literalExpression (.exactNumeric none ⟨[1], none⟩))
    let create := fun constraints => Ast.Statement.tableDefinition
      (tableOf [.columnDefinition (bigIntColumn "c" constraints)])
    (process env [] (create [key, .notNull, default_])).Accepted ∧
      (process env [] (create [default_, .notNull, key])).Accepted := by
  intro env key default_ create
  have haccepted : (process env [] (create [key, .notNull, default_])).Accepted := trivial
  have hperm : List.Perm [key, .notNull, default_] [default_, .notNull, key] :=
    (List.reverse_perm [key, .notNull, default_]).symm
  have helements : List.Forall₂ TableElement.Reordered
      [.columnDefinition (bigIntColumn "c" [key, .notNull, default_])]
      [.columnDefinition (bigIntColumn "c" [default_, .notNull, key])] :=
    .cons (.column hperm) .nil
  exact ⟨haccepted, (process_reordered [] (tableOf _) helements).1.mp haccepted⟩

end Mizugaki.Analyzer
