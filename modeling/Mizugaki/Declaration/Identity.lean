import Mizugaki.Analyzer.Definition
import Mizugaki.Literals.ExactNumeric

/-! The constraint of an identity column. Its options are integer literals in any order of the
source; the analyzer reads the increment, the bounds and the initial value, each with a default
that depends on the ones before. The sequence of an accepted constraint has the values given and
the defaults, and an accepted constraint is one whose values are in the range of the column and
in order. The literal of the least integer of eight bytes is read with an overflow. -/

namespace Mizugaki.Analyzer

open Mizugaki.Ast Mizugaki.Plan Mizugaki.Control

variable {ρ : Type} {env : Environment ρ}

/-! ### Literals -/

/-- A literal without fraction digits, under a sign. -/
structure IntegerLiteral where
  sign : Option Sign
  number : ExactNumeric
  integer : ExactNumeric.scale number = 0
  deriving DecidableEq

namespace IntegerLiteral

def expression (l : IntegerLiteral) : ScalarExpression :=
  .literalExpression (.exactNumeric l.sign l.number)

/-- The integer that a literal writes. -/
def value (l : IntegerLiteral) : Int :=
  if l.sign = some .minus then -(ExactNumeric.coefficient l.number : Int)
  else ExactNumeric.coefficient l.number

variable (env) in
/-- The decimals of the environment hold the digits of a literal. -/
def Supported (l : IntegerLiteral) : Prop :=
  ExactNumeric.digitCount l.number ≤ env.options.maxDecimalPrecision

instance (l : IntegerLiteral) : Decidable (l.Supported env) :=
  inferInstanceAs (Decidable (_ ≤ _))

theorem triple_value (l : IntegerLiteral) :
    (ExactNumeric.triple l.sign l.number).value = l.value := by
  rw [ExactNumeric.triple, Triple.of_value, value]
  by_cases hsign : l.sign = some .minus
  · rw [if_pos hsign, if_pos (decide_eq_true hsign)]
  · rw [if_neg hsign, decide_eq_false hsign]
    rfl

theorem value_cast (l : IntegerLiteral) :
    (l.value : ℚ) = ExactNumeric.signedValue l.sign l.number := by
  have h := ExactNumeric.triple_value l.sign l.number
  rw [l.integer, pow_zero, mul_one, triple_value] at h
  exact h

end IntegerLiteral

/-- A value is one of the type of a column of four or eight bytes. -/
def InRange (isInt8 : Bool) (value : Int) : Prop :=
  (sequenceBounds isInt8).1 ≤ value ∧ value ≤ (sequenceBounds isInt8).2

instance (isInt8 : Bool) (value : Int) : Decidable (InRange isInt8 value) :=
  inferInstanceAs (Decidable (_ ∧ _))

/-- The constant of an integer has four bytes only where the value fits four bytes. -/
theorem integerImmediate_cases (value : Int) :
    (integerImmediate env value).1 = .int8 value ∨
      (integerImmediate env value).1 = .int4 value ∧ InRange false value := by
  unfold integerImmediate
  simp only [Triple.softCast_iff]
  split_ifs with hsmall h1 h2 h4
  · refine .inr ⟨rfl, ?_⟩
    unfold InRange sequenceBounds
    simp only [Bool.false_eq_true, if_false]
    omega
  · refine .inr ⟨rfl, ?_⟩
    unfold InRange sequenceBounds
    simp only [Bool.false_eq_true, if_false]
    omega
  · exact .inr ⟨rfl, h4.1, Int.le_sub_one_of_lt h4.2⟩
  · exact .inl rfl
  · exact .inl rfl

theorem InRange.of_int4 {value : Int} (h : InRange false value) (isInt8 : Bool) :
    InRange isInt8 value := by
  cases isInt8 with
  | false => exact h
  | true =>
    obtain ⟨hlow, hhigh⟩ : -2 ^ 31 ≤ value ∧ value ≤ 2 ^ 31 - 1 := h
    change -2 ^ 63 ≤ value ∧ value ≤ 2 ^ 63 - 1
    omega

variable (env) in
/-- The constant of an integer literal is read as its value, and is in the range of a column that
does not check it. -/
theorem exactImmediate_integer (l : IntegerLiteral) (isInt8 : Bool) :
    integerValue (exactImmediate env l.sign l.number).1 = some l.value ∧
      (needsNoRangeCheck isInt8 (exactImmediate env l.sign l.number).1 = true →
        InRange isInt8 l.value) := by
  have hvalue := l.triple_value
  unfold exactImmediate
  dsimp only
  by_cases hinteger : (ExactNumeric.triple l.sign l.number).isInteger = true
  · have hfits := ((Triple.of_isInteger ..).mp hinteger).2
    rw [← ExactNumeric.triple, Triple.softCast_iff, hvalue] at hfits
    have hread : (ExactNumeric.triple l.sign l.number).integer = l.value := by
      rw [← hvalue]
      exact Triple.of_integer _ _ _ hinteger
    rw [if_pos hinteger, hread]
    obtain hbytes | ⟨hbytes, hrange⟩ := integerImmediate_cases l.value
    · rw [hbytes]
      refine ⟨rfl, fun hcheck => ?_⟩
      obtain rfl : isInt8 = true := hcheck
      exact ⟨hfits.1, Int.le_sub_one_of_lt hfits.2⟩
    · rw [hbytes]
      exact ⟨rfl, fun _ => hrange.of_int4 isInt8⟩
  · have hexponent : (ExactNumeric.triple l.sign l.number).exponent = 0 := by
      change -(ExactNumeric.scale l.number : Int) = 0
      rw [l.integer]
      rfl
    rw [if_neg hinteger]
    refine ⟨?_, fun hcheck => by cases hcheck⟩
    simp only [decimalImmediate, integerValue, hexponent, hvalue, le_refl, if_true, Int.toNat_zero,
      pow_zero, mul_one]

/-! ### Runs over constants -/

/-- A computation that returns a value exactly under a condition, and then changes no more than what
the expression analyzer knows. -/
structure Computes {α : Type} (m : Analysis ρ α) (accepts : Prop) (a : α) : Prop where
  run : accepts → ∀ s, ∃ resolution, m s = (some a, { s with resolution := resolution })
  accepted : ∀ {s t b}, m s = (some b, t) → accepts

namespace Computes

variable {α β : Type} {m : Analysis ρ α} {f : α → Analysis ρ β} {P Q : Prop} {a : α} {b : β}

theorem value_eq (h : Computes m P a) {s t : AnalyzerState ρ} {a' : α} (hrun : m s = (some a', t)) :
    a = a' := by
  obtain ⟨resolution, hrun'⟩ := h.run (h.accepted hrun) s
  rw [hrun'] at hrun
  exact Option.some.inj (Prod.mk.inj hrun).1

protected theorem pure (a : α) : Computes (pure a : Analysis ρ α) True a where
  run _ s := ⟨s.resolution, rfl⟩
  accepted _ := trivial

theorem reject (code : Code) (message : List Fragment) (a : α) :
    Computes (reject code message : Analysis ρ α) False a where
  run h := h.elim
  accepted h := (reject_yields ..).mp h

protected theorem bind (hm : Computes m P a) (hf : Computes (f a) Q b) :
    Computes (m >>= f) (P ∧ Q) b where
  run h s := by
    obtain ⟨resolution, hrun⟩ := hm.run h.1 s
    obtain ⟨resolution', hrun'⟩ := hf.run h.2 { s with resolution := resolution }
    exact ⟨resolution', (Check.bind_yields ..).mpr ⟨a, _, hrun, hrun'⟩⟩
  accepted h := by
    obtain ⟨a', u, hrun, hrun'⟩ := (Check.bind_yields ..).mp h
    obtain rfl := hm.value_eq hrun
    exact ⟨hm.accepted hrun, hf.accepted hrun'⟩

theorem congr (h : Computes m P a) (hiff : P ↔ Q) : Computes m Q a where
  run hQ := h.run (hiff.mpr hQ)
  accepted hrun := hiff.mp (h.accepted hrun)

/-- A check before a result. -/
theorem guarded (c : Prop) [Decidable c] (code : Code) (message : List Fragment)
    (h : Computes m Q a) :
    Computes (if c then Mizugaki.Analyzer.reject code message else m) (¬ c ∧ Q) a := by
  by_cases hc : c
  · rw [if_pos hc]
    exact (reject code message a).congr ⟨False.elim, fun h => h.1 hc⟩
  · rw [if_neg hc]
    exact h.congr (and_iff_right hc).symm

theorem withScope (scope : QueryScope) (h : Computes m P a) :
    Computes (Mizugaki.Analyzer.withScope scope m) P (a, scope) where
  run hP s := by
    obtain ⟨resolution, hrun⟩ := h.run hP (s.enter scope)
    exact ⟨resolution, (withScope_yields ..).mpr ⟨_, hrun, rfl, rfl⟩⟩
  accepted hrun := by
    obtain ⟨u, hrun, -⟩ := (withScope_yields ..).mp hrun
    exact h.accepted hrun

theorem analyzeScalarExpression {e : ScalarAction ρ} {context : ValueContext} {value : Scalar}
    (h : Computes (e context) P value) :
    Computes (Mizugaki.Analyzer.analyzeScalarExpression e context) P (value, false) where
  run hP s := by
    obtain ⟨resolution, hrun⟩ := h.run hP { s with sawAggregate := false }
    refine ⟨resolution, ?_⟩
    simp only [Mizugaki.Analyzer.analyzeScalarExpression, Check.bind_run, Check.gets, Check.modify,
      hrun]
    rfl
  accepted hrun := by
    unfold Mizugaki.Analyzer.analyzeScalarExpression at hrun
    simp only [Check.bind_yields] at hrun
    obtain ⟨_, _, -, _, _, -, _, _, hvalue, -⟩ := hrun
    exact h.accepted hvalue

end Computes

/-- The expression analyzer resolves a constant without a report, as the type that it has. -/
def Environment.ResolvesConstants (env : Environment ρ) : Prop :=
  ∀ r value type validate, ∃ u,
    env.expressionAnalyzer.resolveScalar r (.immediate value type) validate =
      (⟨[], some type⟩, u)

/-- The constant of an integer literal. -/
def IntegerLiteral.immediate (env : Environment ρ) (l : IntegerLiteral) : Scalar :=
  .immediate (exactImmediate env l.sign l.number).1 (exactImmediate env l.sign l.number).2

variable (h : env.ResolvesConstants) (l : IntegerLiteral) (isInt8 : Bool)

theorem processExactNumeric_computes :
    Computes (processExactNumeric env l.sign l.number) (l.Supported env)
      (exactImmediate env l.sign l.number) where
  run hsupported s := by
    refine ⟨s.resolution, processExactNumeric_run l.sign hsupported ?_ s⟩
    rw [l.integer]
    exact Nat.zero_le _
  accepted hrun := (processExactNumeric_yields hrun).1

include h in
theorem scalar_integer_computes :
    Computes (scalar env l.expression .unspecified) (l.Supported env) (l.immediate env) := by
  have hliteral : Computes (analyzeLiteral env (.exactNumeric l.sign l.number) {})
      (l.Supported env) (l.immediate env) :=
    ((processExactNumeric_computes l).bind (Computes.pure (l.immediate env))).congr
      (and_iff_left trivial)
  change Computes (process env (analyzeLiteral env (.exactNumeric l.sign l.number) {})) _ _
  refine (hliteral.bind (Q := True) ?_).congr (and_iff_left trivial)
  split_ifs
  · refine (Computes.bind (P := True) (a := (exactImmediate env l.sign l.number).2) ?_
      (Computes.pure (l.immediate env))).congr (and_iff_left trivial)
    exact {
      run := fun _ s => by
        obtain ⟨u, hresolve⟩ := h s.resolution (exactImmediate env l.sign l.number).1
          (exactImmediate env l.sign l.number).2 true
        refine ⟨u, ?_⟩
        simp only [resolve, Check.bind_run, Check.get, Check.modify, IntegerLiteral.immediate,
          hresolve, conclude]
        rfl
      accepted := fun _ => trivial }
  · exact Computes.pure _

include h in
theorem extractSequenceValue_computes :
    Computes (extractSequenceValue env l.expression isInt8)
      (l.Supported env ∧ InRange isInt8 l.value) l.value := by
  obtain ⟨hread, hcheck⟩ := exactImmediate_integer env l isInt8
  have hscalar := (scalar_integer_computes h l).analyzeScalarExpression.withScope .empty
  unfold extractSequenceValue
  refine hscalar.bind ?_
  dsimp only [IntegerLiteral.immediate]
  rw [hread]
  dsimp only
  by_cases hneeds : needsNoRangeCheck isInt8 (exactImmediate env l.sign l.number).1 = true
  · rw [if_pos hneeds]
    exact (Computes.pure _).congr (iff_of_true trivial (hcheck hneeds))
  · rw [if_neg hneeds]
    refine ((Computes.pure _).guarded _ _ _).congr ?_
    rw [and_true, not_or, Int.not_lt, Int.not_lt]
    exact Iff.rfl

/-! ### Options -/

/-- The options of an identity column, as literals. -/
structure IdentityOptions where
  generation : IdentityGenerationType
  initialValue : Option IntegerLiteral
  incrementValue : Option IntegerLiteral
  minValue : Option IntegerLiteral
  maxValue : Option IntegerLiteral
  cycle : Option Bool

namespace IdentityOptions

def constraint (o : IdentityOptions) : IdentityConstraint where
  generation := o.generation
  initialValue := o.initialValue.map IntegerLiteral.expression
  incrementValue := o.incrementValue.map IntegerLiteral.expression
  minValue := o.minValue.map IntegerLiteral.expression
  maxValue := o.maxValue.map IntegerLiteral.expression
  cycle := o.cycle

/-- The value of an option, or its default. -/
def valueOf (option : Option IntegerLiteral) (default_ : Int) : Int :=
  (option.map IntegerLiteral.value).getD default_

/-- The sequence that the options ask for. -/
def sequence (o : IdentityOptions) (isInt8 defaultCycle : Bool) : Sequence :=
  let increment := valueOf o.incrementValue 1
  let minValue := valueOf o.minValue (if 0 < increment then 1 else (sequenceBounds isInt8).1)
  let maxValue := valueOf o.maxValue (if 0 < increment then (sequenceBounds isInt8).2 else -1)
  { initialValue := valueOf o.initialValue (if 0 < increment then minValue else maxValue)
    incrementValue := increment
    minValue := minValue
    maxValue := maxValue
    cycle := o.cycle.getD defaultCycle }

/-- The literals of the options, in the order in which they are read. -/
def given (o : IdentityOptions) : List IntegerLiteral :=
  o.incrementValue.toList ++ o.minValue.toList ++ o.maxValue.toList ++ o.initialValue.toList

/-- The options are right: the values are in range, the increment is not zero, and the initial value
is between the bounds. -/
structure Valid (o : IdentityOptions) (isInt8 : Bool) : Prop where
  inRange : ∀ l ∈ o.given, InRange isInt8 l.value
  increment : valueOf o.incrementValue 1 ≠ 0
  min_le : (o.sequence isInt8 true).minValue ≤ (o.sequence isInt8 true).initialValue
  le_max : (o.sequence isInt8 true).initialValue ≤ (o.sequence isInt8 true).maxValue

end IdentityOptions

/-- A literal is read: it is supported and in range. -/
def IntegerLiteral.Read (env : Environment ρ) (isInt8 : Bool) (l : IntegerLiteral) : Prop :=
  l.Supported env ∧ InRange isInt8 l.value

include h in
theorem sequenceOption_computes (option : Option IntegerLiteral) (default_ : Int) :
    Computes (sequenceOption env (option.map IntegerLiteral.expression) isInt8 default_)
      (∀ l ∈ option.toList, l.Read env isInt8) (IdentityOptions.valueOf option default_) := by
  cases option with
  | none => exact (Computes.pure _).congr (iff_of_true trivial nofun)
  | some l =>
    have hread : Computes _ (l.Read env isInt8) l.value := extractSequenceValue_computes h l isInt8
    exact hread.congr List.forall_mem_singleton.symm

include h in
theorem processIdentityColumn_computes (o : IdentityOptions) {prototype : Column}
    (htype : prototype.type = if isInt8 then .int8 else .int4) :
    Computes (processIdentityColumn env o.constraint prototype)
      ((∀ l ∈ o.given, l.Supported env) ∧ o.Valid isInt8)
      { prototype with
        readOnly := prototype.readOnly || decide (o.generation = .always)
        defaultValue := .sequence (o.sequence isInt8 env.options.defaultSequenceCycle) } := by
  have hwidth : Computes (identityWidth prototype.type : Analysis ρ Bool) True isInt8 := by
    rw [htype]
    cases isInt8 with
    | false => exact Computes.pure _
    | true => exact Computes.pure _
  have hincrement : Computes (sequenceIncrement env o.constraint.incrementValue isInt8)
      ((∀ l ∈ o.incrementValue.toList, l.Read env isInt8) ∧
        ¬ IdentityOptions.valueOf o.incrementValue 1 = 0 ∧ True)
      (IdentityOptions.valueOf o.incrementValue 1) :=
    (sequenceOption_computes h isInt8 o.incrementValue 1).bind ((Computes.pure _).guarded _ _ _)
  unfold processIdentityColumn
  simp only [decide_eq_true_eq]
  refine (hwidth.bind (hincrement.bind ((sequenceOption_computes h isInt8 o.minValue _).bind
    ((sequenceOption_computes h isInt8 o.maxValue _).bind
      ((sequenceOption_computes h isInt8 o.initialValue _).bind
        ((Computes.pure _).guarded _ _ _)))))).congr ?_
  simp only [true_and, and_true, not_or, Int.not_lt]
  constructor
  · rintro ⟨⟨hincrementRead, hnonzero⟩, hmin, hmax, hinitial, hlow, hhigh⟩
    have hgiven : ∀ l ∈ o.given, l.Read env isInt8 := by
      unfold IdentityOptions.given
      simp only [List.forall_mem_append]
      exact ⟨⟨⟨hincrementRead, hmin⟩, hmax⟩, hinitial⟩
    exact ⟨fun l hl => (hgiven l hl).1, fun l hl => (hgiven l hl).2, hnonzero, hlow, hhigh⟩
  · rintro ⟨hsupported, hrange, hnonzero, hlow, hhigh⟩
    have hgiven : ∀ l ∈ o.given, l.Read env isInt8 := fun l hl => ⟨hsupported l hl, hrange l hl⟩
    unfold IdentityOptions.given at hgiven
    simp only [List.forall_mem_append] at hgiven
    obtain ⟨⟨⟨hincrementRead, hmin⟩, hmax⟩, hinitial⟩ := hgiven
    exact ⟨⟨hincrementRead, hnonzero⟩, hmin, hmax, hinitial, hlow, hhigh⟩

/-! ### The law -/

namespace IdentityOptions

theorem valueOf_inRange {isInt8 : Bool} {option : Option IntegerLiteral} {default_ : Int}
    (hgiven : ∀ l ∈ option.toList, InRange isInt8 l.value) (hdefault : InRange isInt8 default_) :
    InRange isInt8 (valueOf option default_) := by
  cases option with
  | none => exact hdefault
  | some l => exact hgiven l (List.mem_singleton_self l)

/-- The bounds and the initial value of a sequence are values of the type of its column. -/
structure Representable (isInt8 : Bool) (sequence : Sequence) : Prop where
  initialValue : InRange isInt8 sequence.initialValue
  minValue : InRange isInt8 sequence.minValue
  maxValue : InRange isInt8 sequence.maxValue
  min_le : sequence.minValue ≤ sequence.initialValue
  le_max : sequence.initialValue ≤ sequence.maxValue

theorem Valid.representable {o : IdentityOptions} {isInt8 : Bool} (hvalid : o.Valid isInt8)
    (defaultCycle : Bool) : Representable isInt8 (o.sequence isInt8 defaultCycle) := by
  have hgiven := hvalid.inRange
  unfold given at hgiven
  simp only [List.forall_mem_append] at hgiven
  obtain ⟨⟨⟨-, hmin⟩, hmax⟩, hinitial⟩ := hgiven
  have hbounds : InRange isInt8 1 ∧ InRange isInt8 (-1) ∧ InRange isInt8 (sequenceBounds isInt8).1 ∧
      InRange isInt8 (sequenceBounds isInt8).2 := by
    cases isInt8 with
    | false => decide
    | true => decide
  obtain ⟨hone, hminusOne, hleast, hgreatest⟩ := hbounds
  have hminValue : InRange isInt8 (o.sequence isInt8 defaultCycle).minValue := by
    refine valueOf_inRange hmin ?_
    split_ifs
    · exact hone
    · exact hleast
  have hmaxValue : InRange isInt8 (o.sequence isInt8 defaultCycle).maxValue := by
    refine valueOf_inRange hmax ?_
    split_ifs
    · exact hgreatest
    · exact hminusOne
  refine ⟨valueOf_inRange hinitial ?_, hminValue, hmaxValue, hvalid.min_le, hvalid.le_max⟩
  by_cases hascending : 0 < valueOf o.incrementValue 1
  · rw [if_pos hascending]
    exact hminValue
  · rw [if_neg hascending]
    exact hmaxValue

variable (env) in
/-- The literals of the options that are read: one that is not accepted, and an increment of zero,
ends the reading. -/
def evaluated (o : IdentityOptions) (isInt8 : Bool) : List IntegerLiteral :=
  let accepts (l : IntegerLiteral) := decide (l.Supported env) && decide (InRange isInt8 l.value)
  let rest := o.minValue.toList ++ o.maxValue.toList ++ o.initialValue.toList
  o.incrementValue.toList ++
    if o.incrementValue.all fun l => accepts l && l.value ≠ 0 then
      rest.takeWhile accepts ++ (rest.dropWhile accepts).head?.toList
    else []

end IdentityOptions

variable (env) in
/-- An identity constraint is accepted, without a report, exactly when its options are right; its
sequence is the one that they ask for; and no signed operation on the way overflows. -/
structure IdentityLaw (o : IdentityOptions) (isInt8 : Bool) (prototype : Column)
    (s : AnalyzerState ρ) : Prop where
  accepts_iff : (∃ column t, processIdentityColumn env o.constraint prototype s = (some column, t) ∧
    t.diagnostics = s.diagnostics) ↔ o.Valid isInt8
  sequence : ∀ column t, processIdentityColumn env o.constraint prototype s = (some column, t) →
    ∃ sequence, column.defaultValue = .sequence sequence ∧
      sequence = o.sequence isInt8 env.options.defaultSequenceCycle ∧
        IdentityOptions.Representable isInt8 sequence
  noOverflow : ∀ l ∈ o.evaluated env isInt8, l.Supported env →
    ∀ x ∈ exactNumericOperations env l.sign l.number, InInt64 x

/-- The operations on a literal overflow for the least integer of eight bytes only. -/
theorem IntegerLiteral.operations_inInt64 {l : IntegerLiteral} (hsupported : l.Supported env) :
    (∀ x ∈ exactNumericOperations env l.sign l.number, InInt64 x) ↔ l.value ≠ -2 ^ 63 := by
  have hscale : ExactNumeric.scale l.number ≤ env.options.maxDecimalPrecision := by
    rw [l.integer]
    exact Nat.zero_le _
  rw [exactNumericOperations_inInt64 hsupported hscale, ← l.value_cast, and_iff_right l.integer]
  refine not_congr ⟨fun hleast => ?_, fun hleast => ?_⟩
  · exact_mod_cast hleast
  · rw [hleast]
    norm_num

/-- The analyzer treats the constraint of an identity column as it should exactly when it does not
read the least integer of eight bytes and, for options that are right, has decimals for all their
digits. -/
theorem processIdentityColumn_iff (h : env.ResolvesConstants) (o : IdentityOptions) {isInt8 : Bool}
    {prototype : Column} (htype : prototype.type = if isInt8 then .int8 else .int4)
    (s : AnalyzerState ρ) :
    IdentityLaw env o isInt8 prototype s ↔
      (∀ l ∈ o.evaluated env isInt8, l.Supported env → l.value ≠ -2 ^ 63) ∧
        (o.Valid isInt8 → ∀ l ∈ o.given, l.Supported env) := by
  have hcomputes := processIdentityColumn_computes h isInt8 o htype
  constructor
  · rintro ⟨haccepts, -, hoverflow⟩
    refine ⟨fun l hl hsupported => ?_, fun hvalid => ?_⟩
    · exact (IntegerLiteral.operations_inInt64 hsupported).mp (hoverflow l hl hsupported)
    · obtain ⟨column, t, hrun, -⟩ := haccepts.mpr hvalid
      exact (hcomputes.accepted hrun).1
  · rintro ⟨hleast, hsupported⟩
    refine ⟨⟨?_, fun hvalid => ?_⟩, fun column t hrun => ?_, fun l hl hl' => ?_⟩
    · rintro ⟨column, t, hrun, -⟩
      exact (hcomputes.accepted hrun).2
    · obtain ⟨resolution, hrun⟩ := hcomputes.run ⟨hsupported hvalid, hvalid⟩ s
      exact ⟨_, _, hrun, rfl⟩
    · rw [← hcomputes.value_eq hrun]
      exact ⟨_, rfl, rfl, (hcomputes.accepted hrun).2.representable _⟩
    · exact (IntegerLiteral.operations_inInt64 hl').mpr (hleast l hl hl')

theorem plainEnvironment_resolves : plainEnvironment.ResolvesConstants :=
  fun _ _ _ _ => ⟨_, rfl⟩

/-- A column of an identity constraint. -/
def identityColumn (isInt8 : Bool) : Column where
  address := 0
  simpleName := "c"
  type := if isInt8 then .int8 else .int4

/-- `MINVALUE -9223372036854775808` is read with an overflow. -/
theorem processIdentityColumn_leastMinValue :
    ¬ IdentityLaw plainEnvironment
      ⟨.always, none, none, some ⟨some .minus, leastInteger, rfl⟩, none, none⟩ true
      (identityColumn true) (.initial []) := by
  intro h
  have hoverflow := h.noOverflow ⟨some .minus, leastInteger, rfl⟩ (by decide) (by decide)
  exact absurd (hoverflow (2 ^ 63) (by decide)).2 (by decide)

/-- `INCREMENT BY -2 MAXVALUE 10` on a column of four bytes. -/
theorem processIdentityColumn_descending :
    IdentityLaw plainEnvironment
      ⟨.byDefault, none, some ⟨some .minus, ⟨[2], none⟩, rfl⟩, none,
        some ⟨none, ⟨[1, 0], none⟩, rfl⟩, none⟩ false (identityColumn false) (.initial []) := by
  refine (processIdentityColumn_iff plainEnvironment_resolves _ rfl _).mpr ⟨?_, fun _ => ?_⟩
  · decide
  · decide

end Mizugaki.Analyzer
