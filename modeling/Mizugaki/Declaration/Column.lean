import Mizugaki.Declaration.Constraint
import Mizugaki.Scoping.Engine

/-! The columns of a table under definition. Constraints write the nullity, the default value
and the read only flag of a column, nothing else of it; the columns of a draft are numbered
apart and named apart. A column that is made the primary key differs from what it would be
without that in its nullity alone, and so does the whole draft. -/

namespace Mizugaki.Analyzer

open Mizugaki.Ast Mizugaki.Plan Mizugaki.Control

variable {ρ : Type} {env : Environment ρ}

/-! ### Numbers -/

/-- From a sound state the scopes stay sound and the counter does not go back. -/
def Grows (s t : AnalyzerState ρ) : Prop := s.Sound → t.Sound ∧ s.fresh ≤ t.fresh

theorem Quiet.grows {s t : AnalyzerState ρ} (h : Quiet s t) : Grows s t :=
  fun hs => ⟨hs.of_quiet h, h.fresh⟩

instance : Numbering (Grows : AnalyzerState ρ → AnalyzerState ρ → Prop) where
  refl _ hs := ⟨hs, le_rfl⟩
  trans h k hs :=
    have ht := h hs
    have hu := k ht.1
    ⟨hu.1, ht.2.trans hu.2⟩
  report s d := Quiet.grows (Numbering.report s d)
  number s := Quiet.grows (Numbering.number s)

instance : Resolving env Grows where
  scalar s e validate := Quiet.grows (Resolving.scalar s e validate)
  column s v column := Quiet.grows (Resolving.column s v column)
  aliased s v source := Quiet.grows (Resolving.aliased s v source)
  unbind s e := Quiet.grows (Resolving.unbind s e)

/-- A scalar expression on its own, in a scope without relations. -/
theorem withScope_scalar_grows (e : ScalarExpression) (context : ValueContext) :
    Check.Keeps Grows
      (withScope .empty (analyzeScalarExpression (scalar env e) context) : Analysis ρ _) := by
  rintro s t ⟨⟨x, sawAggregate⟩, left⟩ h hs
  obtain ⟨u, hrun, -, rfl⟩ := (withScope_yields ..).mp h
  have hreads := analyzeScalarExpression_reads ((scoping env).scalar e) hrun
  have henter : (s.enter .empty).Sound := hs.enterEmpty rfl
  have hwidens := (hreads.frame henter).widens
  exact ⟨hs.leave (hreads.sound henter) hwidens, hwidens.leave.fresh⟩

theorem extractColumnValue_grows (e : Scalar) : Check.Keeps Grows (extractColumnValue env e) := by
  have hclear (e : Scalar) : Check.Keeps Grows (clearExpressionResolution env e) :=
    clearExpressionResolution_quiet env e
  have hreject (code : Code) (message : List Fragment) :
      Check.Keeps Grows (reject code message : Analysis ρ ColumnValue) :=
    reject_quiet code message
  fun_induction extractColumnValue env e with
  | case1 value type => exact (hclear _).bind fun _ => .pure _
  | case2 function arguments =>
    refine (hclear _).bind fun _ => ?_
    split_ifs
    · exact hreject ..
    · exact hreject ..
    · exact .pure _
  | case3 type policy operand ih => exact (hclear _).bind fun _ => ih
  | case4 e => exact (hclear _).bind fun _ => hreject ..

theorem extractSequenceValue_grows (e : ScalarExpression) (isInt8 : Bool) :
    Check.Keeps Grows (extractSequenceValue env e isInt8) := by
  have hreject (message : List Fragment) :
      Check.Keeps Grows (reject .invalidSequenceValue message : Analysis ρ Int) :=
    reject_quiet .invalidSequenceValue message
  refine (withScope_scalar_grows e .unspecified).bind fun r => ?_
  dsimp only
  split
  · split
    · exact hreject ..
    · split_ifs
      · exact .pure _
      · exact hreject ..
      · exact .pure _
  · exact hreject ..

theorem sequenceOption_grows (e : Option ScalarExpression) (isInt8 : Bool) (default_ : Int) :
    Check.Keeps Grows (sequenceOption env e isInt8 default_) := by
  cases e with
  | none => exact .pure _
  | some e => exact extractSequenceValue_grows e isInt8

theorem processIdentityColumn_grows (constraint : IdentityConstraint) (prototype : Column) :
    Check.Keeps Grows (processIdentityColumn env constraint prototype) := by
  have hwidth : Check.Keeps Grows (identityWidth prototype.type : Analysis ρ Bool) := by
    unfold identityWidth
    split
    · exact .pure _
    · exact .pure _
    · exact reject_quiet ..
  refine hwidth.bind fun isInt8 => ?_
  refine Check.Keeps.bind ?_ fun increment => ?_
  · refine (sequenceOption_grows _ _ _).bind fun increment => ?_
    split_ifs
    · exact reject_quiet ..
    · exact .pure _
  · refine (sequenceOption_grows _ _ _).bind fun minValue =>
      (sequenceOption_grows _ _ _).bind fun maxValue =>
        (sequenceOption_grows _ _ _).bind fun initialValue => ?_
    split_ifs
    · exact reject_quiet ..
    · exact .pure _

theorem requireNoDefault_grows (prototype : Column) :
    Check.Keeps Grows (requireNoDefault prototype : Analysis ρ Unit) := by
  unfold requireNoDefault
  split_ifs
  · exact reject_quiet ..
  · exact .pure _

theorem processColumnConstraint_grows (d : ColumnDraft) (c : Constraint) :
    Check.Keeps Grows (processColumnConstraint env d c) := by
  have hreject (code : Code) (message : List Fragment) :
      Check.Keeps Grows (reject code message : Analysis ρ ColumnDraft) :=
    reject_quiet code message
  cases c with
  | primaryKey constraint =>
    dsimp only [processColumnConstraint]
    split_ifs
    · exact hreject ..
    · exact hreject ..
    · exact .pure _
  | null =>
    dsimp only [processColumnConstraint]
    split_ifs
    · exact hreject ..
    · exact hreject ..
    · exact .pure _
  | notNull =>
    dsimp only [processColumnConstraint]
    split_ifs
    · exact hreject ..
    · exact .pure _
  | defaultClause expression =>
    refine (requireNoDefault_grows _).bind fun _ => Check.Keeps.bind ?_ fun value => .pure _
    exact (withScope_scalar_grows _ _).bind fun r => extractColumnValue_grows _
  | identityColumn constraint =>
    exact (requireNoDefault_grows _).bind fun _ =>
      (processIdentityColumn_grows constraint _).bind fun _ => .pure _
  | unsupported kind => exact hreject ..

theorem processColumnConstraints_grows (d : ColumnDraft) (cs : List Constraint) :
    Check.Keeps Grows (processColumnConstraints env d cs) := by
  induction cs generalizing d with
  | nil => exact .pure _
  | cons c cs ih => exact (processColumnConstraint_grows d c).bind fun d => ih d

/-! ### What constraints write -/

section Draft

variable {d r : ColumnDraft} {c : Constraint} {s t : AnalyzerState ρ}

/-- The draft of a column that is said to be nullable. -/
def ColumnDraft.SaysNull (d : ColumnDraft) : Prop :=
  d.sawNullity = true ∧ d.prototype.nullable = true

theorem processColumnConstraint_prototype (h : processColumnConstraint env d c s = (some r, t)) :
    r.prototype = { d.prototype with
      nullable := r.prototype.nullable
      defaultValue := r.prototype.defaultValue
      readOnly := r.prototype.readOnly } := by
  cases c with
  | primaryKey constraint =>
    obtain ⟨-, -, rfl, -⟩ := (primaryKey_yields ..).mp h
    rfl
  | null =>
    obtain ⟨-, -, rfl, -⟩ := (null_yields ..).mp h
    rfl
  | notNull =>
    obtain ⟨-, rfl, -⟩ := (notNull_yields ..).mp h
    rfl
  | defaultClause expression =>
    obtain ⟨-, value, readOnly, -, rfl, -⟩ := isDefault_frame h trivial
    rfl
  | identityColumn constraint =>
    obtain ⟨-, value, readOnly, -, rfl, -⟩ := isDefault_frame h trivial
    rfl
  | unsupported kind => exact (unsupported_stops h).elim

theorem processColumnConstraint_saysNull (h : processColumnConstraint env d c s = (some r, t)) :
    r.SaysNull ↔ d.SaysNull ∨ c = .null := by
  cases c with
  | primaryKey constraint =>
    obtain ⟨-, hnull, rfl, -⟩ := (primaryKey_yields ..).mp h
    simp only [ColumnDraft.SaysNull, ColumnDraft.setPrimaryKey]
    simpa using hnull
  | null =>
    obtain ⟨-, -, rfl, -⟩ := (null_yields ..).mp h
    simp [ColumnDraft.SaysNull, ColumnDraft.setNullity]
  | notNull =>
    obtain ⟨hsaw, rfl, -⟩ := (notNull_yields ..).mp h
    simp [ColumnDraft.SaysNull, ColumnDraft.setNullity, hsaw]
  | defaultClause expression =>
    obtain ⟨-, value, readOnly, -, rfl, -⟩ := isDefault_frame h trivial
    simp [ColumnDraft.SaysNull, ColumnDraft.setDefault]
  | identityColumn constraint =>
    obtain ⟨-, value, readOnly, -, rfl, -⟩ := isDefault_frame h trivial
    simp [ColumnDraft.SaysNull, ColumnDraft.setDefault]
  | unsupported kind => exact (unsupported_stops h).elim

/-- The constraint makes the column the primary key. -/
def Constraint.IsPrimaryKey (c : Constraint) : Prop := ∃ constraint, c = .primaryKey constraint

theorem processColumnConstraint_primaryKey (h : processColumnConstraint env d c s = (some r, t)) :
    r.primaryKey = none ↔ d.primaryKey = none ∧ ¬ Constraint.IsPrimaryKey c := by
  cases c with
  | primaryKey constraint =>
    obtain ⟨-, -, rfl, -⟩ := (primaryKey_yields ..).mp h
    simp [ColumnDraft.setPrimaryKey, Constraint.IsPrimaryKey]
  | null =>
    obtain ⟨-, -, rfl, -⟩ := (null_yields ..).mp h
    simp [ColumnDraft.setNullity, Constraint.IsPrimaryKey]
  | notNull =>
    obtain ⟨-, rfl, -⟩ := (notNull_yields ..).mp h
    simp [ColumnDraft.setNullity, Constraint.IsPrimaryKey]
  | defaultClause expression =>
    obtain ⟨-, value, readOnly, -, rfl, -⟩ := isDefault_frame h trivial
    simp [ColumnDraft.setDefault, Constraint.IsPrimaryKey]
  | identityColumn constraint =>
    obtain ⟨-, value, readOnly, -, rfl, -⟩ := isDefault_frame h trivial
    simp [ColumnDraft.setDefault, Constraint.IsPrimaryKey]
  | unsupported kind => exact (unsupported_stops h).elim

/-- The draft of a column when the primary key was met at another one. -/
def ColumnDraft.keyed (d : ColumnDraft) (address : Nat) : ColumnDraft :=
  { d with primaryKey := some address }

/-- After a primary key was met, what is accepted is accepted without it, and has no other one. -/
theorem processColumnConstraint_keyed (hd : d.primaryKey = none) (address : Nat) :
    processColumnConstraint env (d.keyed address) c s = (some r, t) ↔
      ∃ r', processColumnConstraint env d c s = (some r', t) ∧ r'.primaryKey = none ∧
        r = r'.keyed address := by
  cases c with
  | primaryKey constraint =>
    simp only [primaryKey_yields]
    constructor
    · rintro ⟨hkey, -⟩
      cases hkey
    · rintro ⟨r', ⟨-, -, rfl, -⟩, hkey, -⟩
      cases hkey
  | null =>
    simp only [null_yields]
    constructor
    · rintro ⟨hsaw, hnull, rfl, rfl⟩
      exact ⟨d.setNullity true, ⟨hsaw, hnull, rfl, rfl⟩, hd, rfl⟩
    · rintro ⟨_, ⟨hsaw, hnull, rfl, rfl⟩, -, rfl⟩
      exact ⟨hsaw, hnull, rfl, rfl⟩
  | notNull =>
    simp only [notNull_yields]
    constructor
    · rintro ⟨hsaw, rfl, rfl⟩
      exact ⟨d.setNullity false, ⟨hsaw, rfl, rfl⟩, hd, rfl⟩
    · rintro ⟨_, ⟨hsaw, rfl, rfl⟩, -, rfl⟩
      exact ⟨hsaw, rfl, rfl⟩
  | defaultClause expression =>
    constructor
    · intro h
      obtain ⟨hnone, value, readOnly, -, rfl, hframe⟩ := isDefault_frame h trivial
      exact ⟨_, hframe d rfl hnone, hd, rfl⟩
    · rintro ⟨r', h, -, rfl⟩
      obtain ⟨hnone, value, readOnly, -, rfl, hframe⟩ := isDefault_frame h trivial
      exact hframe (d.keyed address) rfl hnone
  | identityColumn constraint =>
    constructor
    · intro h
      obtain ⟨hnone, value, readOnly, -, rfl, hframe⟩ := isDefault_frame h trivial
      exact ⟨_, hframe d rfl hnone, hd, rfl⟩
    · rintro ⟨r', h, -, rfl⟩
      obtain ⟨hnone, value, readOnly, -, rfl, hframe⟩ := isDefault_frame h trivial
      exact hframe (d.keyed address) rfl hnone
  | unsupported kind =>
    exact ⟨fun h => (unsupported_stops h).elim,
      fun ⟨_, h, _⟩ => (unsupported_stops h).elim⟩

end Draft

/-! ### Lists of constraints -/

section Drafts

variable {d r : ColumnDraft} {cs : List Constraint} {s t : AnalyzerState ρ}

theorem processColumnConstraints_prototype (h : processColumnConstraints env d cs s = (some r, t)) :
    r.prototype = { d.prototype with
      nullable := r.prototype.nullable
      defaultValue := r.prototype.defaultValue
      readOnly := r.prototype.readOnly } := by
  induction cs generalizing d s with
  | nil =>
    obtain ⟨rfl, -⟩ := (Check.pure_yields ..).mp h
    rfl
  | cons c cs ih =>
    obtain ⟨d', u, hc, hrest⟩ := (Check.bind_yields ..).mp h
    rw [ih hrest, processColumnConstraint_prototype hc]

theorem processColumnConstraints_saysNull (h : processColumnConstraints env d cs s = (some r, t)) :
    r.SaysNull ↔ d.SaysNull ∨ .null ∈ cs := by
  induction cs generalizing d s with
  | nil =>
    obtain ⟨rfl, -⟩ := (Check.pure_yields ..).mp h
    simp
  | cons c cs ih =>
    obtain ⟨d', u, hc, hrest⟩ := (Check.bind_yields ..).mp h
    rw [ih hrest, processColumnConstraint_saysNull hc, List.mem_cons, or_assoc, eq_comm]

theorem processColumnConstraints_primaryKey
    (h : processColumnConstraints env d cs s = (some r, t)) :
    r.primaryKey = none ↔ d.primaryKey = none ∧ ∀ c ∈ cs, ¬ Constraint.IsPrimaryKey c := by
  induction cs generalizing d s with
  | nil =>
    obtain ⟨rfl, -⟩ := (Check.pure_yields ..).mp h
    simp
  | cons c cs ih =>
    obtain ⟨d', u, hc, hrest⟩ := (Check.bind_yields ..).mp h
    rw [ih hrest, processColumnConstraint_primaryKey hc, List.forall_mem_cons, and_assoc]

theorem processColumnConstraints_keyed (hd : d.primaryKey = none) (address : Nat) :
    processColumnConstraints env (d.keyed address) cs s = (some r, t) ↔
      ∃ r', processColumnConstraints env d cs s = (some r', t) ∧ r'.primaryKey = none ∧
        r = r'.keyed address := by
  induction cs generalizing d s with
  | nil =>
    simp only [processColumnConstraints, Check.pure_yields]
    constructor
    · rintro ⟨rfl, rfl⟩
      exact ⟨d, ⟨rfl, rfl⟩, hd, rfl⟩
    · rintro ⟨_, ⟨rfl, rfl⟩, -, rfl⟩
      exact ⟨rfl, rfl⟩
  | cons c cs ih =>
    simp only [processColumnConstraints, Check.bind_yields]
    constructor
    · rintro ⟨_, u, hc, hrest⟩
      obtain ⟨d', hc', hd', rfl⟩ := (processColumnConstraint_keyed hd address).mp hc
      obtain ⟨r', hrest', hr'⟩ := (ih hd').mp hrest
      exact ⟨r', ⟨d', u, hc', hrest'⟩, hr'⟩
    · rintro ⟨r', ⟨d', u, hc, hrest⟩, hr', rfl⟩
      have hd' := ((processColumnConstraints_primaryKey hrest).mp hr').1
      exact ⟨d'.keyed address, u,
        (processColumnConstraint_keyed hd address).mpr ⟨d', hc, hd', rfl⟩,
        (ih hd').mpr ⟨r', hrest, hr', rfl⟩⟩

/-- A primary key among the constraints of a column, against the column without it. -/
theorem processColumnConstraints_insert {before after : List Constraint} {key : KeyConstraint}
    (hd : ¬ d.SaysNull) :
    processColumnConstraints env d (before ++ .primaryKey key :: after) s = (some r, t) ↔
      ∃ r', processColumnConstraints env d (before ++ after) s = (some r', t) ∧
        r'.primaryKey = none ∧ .null ∉ before ++ after ∧ r = r'.setPrimaryKey := by
  have hperm : (before ++ .primaryKey key :: after).Perm
      ((before ++ after) ++ [.primaryKey key]) :=
    List.perm_middle.trans (List.perm_append_singleton ..).symm
  rw [processColumnConstraints_perm hperm, processColumnConstraints_concat, Check.bind_yields]
  simp only [primaryKey_yields]
  have hnull {r' : ColumnDraft} {u : AnalyzerState ρ}
      (h : processColumnConstraints env d (before ++ after) s = (some r', u)) :
      (r'.sawNullity = true → r'.prototype.nullable = false) ↔ .null ∉ before ++ after := by
    have hnull := processColumnConstraints_saysNull h
    rw [or_iff_right hd] at hnull
    rw [← hnull, ColumnDraft.SaysNull, not_and, Bool.not_eq_true]
  constructor
  · rintro ⟨r', u, hrun, hkey, hsaw, rfl, rfl⟩
    exact ⟨r', hrun, hkey, (hnull hrun).mp hsaw, rfl⟩
  · rintro ⟨r', hrun, hkey, hmem, rfl⟩
    exact ⟨r', t, hrun, hkey, (hnull hrun).mpr hmem, rfl, rfl⟩

end Drafts

end Mizugaki.Analyzer
