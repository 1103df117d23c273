import Mathlib.Algebra.Order.Field.Basic
import Mathlib.Data.Rat.Cast.Order
import Mathlib.Tactic.FieldSimp
import Mathlib.Tactic.Linarith
import Mathlib.Tactic.NormNum
import Mathlib.Tactic.Ring
import Mizugaki.Analyzer.Literal
import Mizugaki.Declaration.Outcome

/-! Exact numeric literals. The parser folds a sign into the literal under it, and the analyzer
makes a constant of the words of its coefficient. The constant is always exact and of the type
that its value and its fraction digits ask for. The least integer of 64 bits comes from a negation
of itself, the only signed operation that overflows. -/

namespace Mizugaki.Analyzer

open Mizugaki.Ast Mizugaki.Plan Mizugaki.Control

variable {ρ : Type} {env : Environment ρ}

/-! ### Folding -/

/-- `sql_driver::try_fold_literal`. -/
def tryFoldLiteral : ScalarExpression → ScalarExpression
  | .unaryExpression .plus (.literalExpression (.exactNumeric none n)) =>
    .literalExpression (.exactNumeric (some .plus) n)
  | .unaryExpression .minus (.literalExpression (.exactNumeric none n)) =>
    .literalExpression (.exactNumeric (some .minus) n)
  | .unaryExpression .plus (.literalExpression (.approximateNumeric none n)) =>
    .literalExpression (.approximateNumeric (some .plus) n)
  | .unaryExpression .minus (.literalExpression (.approximateNumeric none n)) =>
    .literalExpression (.approximateNumeric (some .minus) n)
  | e => e

/-- The source of a number: a literal below parentheses and signs. -/
inductive NumericSource where
  | literal (n : ExactNumeric)
  | parenthesized (e : NumericSource)
  | plus (e : NumericSource)
  | minus (e : NumericSource)

namespace NumericSource

/-- The actions of the parser. -/
def expression : NumericSource → ScalarExpression
  | literal n => .literalExpression (.exactNumeric none n)
  | parenthesized e => e.expression
  | plus e => tryFoldLiteral (.unaryExpression .plus e.expression)
  | minus e => tryFoldLiteral (.unaryExpression .minus e.expression)

end NumericSource

/-! ### Values -/

namespace ExactNumeric

open Mizugaki.Ast (ExactNumeric)

/-- The number that digits write. -/
def digitsValue (digits : List (Fin 10)) : ℕ := digits.foldl (fun c d => 10 * c + d.val) 0

/-- The number that a literal writes. -/
def value (n : ExactNumeric) : ℚ :=
  digitsValue n.digits + digitsValue (fractionDigits n) / 10 ^ (fractionDigits n).length

theorem digitsValue_append (ds es : List (Fin 10)) :
    digitsValue (ds ++ es) = digitsValue ds * 10 ^ es.length + digitsValue es := by
  induction es using List.reverseRecOn with
  | nil => simp [digitsValue]
  | append_singleton es d ih =>
    have hstep (l : List (Fin 10)) : digitsValue (l ++ [d]) = 10 * digitsValue l + d.val := by
      simp [digitsValue, List.foldl_append]
    rw [← List.append_assoc, hstep, hstep, ih, List.length_append, List.length_singleton]
    ring

/-- The coefficient is the value with the decimal point taken out. -/
theorem value_eq (n : ExactNumeric) : value n = coefficient n / 10 ^ scale n := by
  have hcoefficient : coefficient n =
      digitsValue n.digits * 10 ^ scale n + digitsValue (fractionDigits n) :=
    digitsValue_append ..
  rw [value, hcoefficient, scale]
  push_cast
  field_simp

/-- The number that a literal writes under a sign. -/
def signedValue (sign : Option Sign) (n : ExactNumeric) : ℚ :=
  if sign = some .minus then -value n else value n

end ExactNumeric

/-- The number that a source writes. -/
def NumericSource.value : NumericSource → ℚ
  | literal n => ExactNumeric.value n
  | parenthesized e => e.value
  | plus e => e.value
  | minus e => -e.value

/-- What a sign is folded into is an unsigned literal. -/
theorem tryFoldLiteral_unary {operator_ : Ast.UnaryOperator} {operand : ScalarExpression}
    {literal : Literal}
    (h : tryFoldLiteral (.unaryExpression operator_ operand) = .literalExpression literal) :
    (∃ n, operand = .literalExpression (.exactNumeric none n) ∧
      (operator_ = .plus ∧ literal = .exactNumeric (some .plus) n ∨
        operator_ = .minus ∧ literal = .exactNumeric (some .minus) n)) ∨
      ∃ n, operand = .literalExpression (.approximateNumeric none n) := by
  unfold tryFoldLiteral at h
  split at h
  case h_1 n heq =>
    obtain ⟨rfl, rfl⟩ := ScalarExpression.unaryExpression.inj heq
    exact .inl ⟨n, rfl, .inl ⟨rfl, (ScalarExpression.literalExpression.inj h).symm⟩⟩
  case h_2 n heq =>
    obtain ⟨rfl, rfl⟩ := ScalarExpression.unaryExpression.inj heq
    exact .inl ⟨n, rfl, .inr ⟨rfl, (ScalarExpression.literalExpression.inj h).symm⟩⟩
  case h_3 n heq => exact .inr ⟨n, (ScalarExpression.unaryExpression.inj heq).2⟩
  case h_4 n heq => exact .inr ⟨n, (ScalarExpression.unaryExpression.inj heq).2⟩
  case h_5 => cases h

/-- Folding keeps the value: the literal that a source becomes writes the same number. -/
theorem NumericSource.expression_value (e : NumericSource) {literal : Literal}
    (h : e.expression = .literalExpression literal) :
    ∃ sign n, literal = .exactNumeric sign n ∧ ExactNumeric.signedValue sign n = e.value := by
  induction e generalizing literal with
  | literal n =>
    obtain rfl := ScalarExpression.literalExpression.inj h
    exact ⟨none, n, rfl, rfl⟩
  | parenthesized e ih => exact ih h
  | plus e ih =>
    obtain ⟨n, hn, hfold⟩ | ⟨n, hn⟩ := tryFoldLiteral_unary h
    · obtain ⟨sign, n', hliteral, hvalue⟩ := ih hn
      obtain ⟨rfl, rfl⟩ := Literal.exactNumeric.inj hliteral
      obtain ⟨-, rfl⟩ | ⟨hoperator, -⟩ := hfold
      · exact ⟨some .plus, n, rfl, hvalue⟩
      · cases hoperator
    · obtain ⟨sign, n', hliteral, -⟩ := ih hn
      cases hliteral
  | minus e ih =>
    obtain ⟨n, hn, hfold⟩ | ⟨n, hn⟩ := tryFoldLiteral_unary h
    · obtain ⟨sign, n', hliteral, hvalue⟩ := ih hn
      obtain ⟨rfl, rfl⟩ := Literal.exactNumeric.inj hliteral
      obtain ⟨hoperator, -⟩ | ⟨-, rfl⟩ := hfold
      · cases hoperator
      · refine ⟨some .minus, n, rfl, ?_⟩
        rw [NumericSource.value, ← hvalue]
        rfl
    · obtain ⟨sign, n', hliteral, -⟩ := ih hn
      cases hliteral

/-! ### Triples -/

namespace Triple

theorem isInteger_iff (t : Triple) : t.isInteger = true ↔
    t.exponent = 0 ∧ t.coefficientHigh = 0 ∧ (t.coefficientLow ≤ positiveMax ∨
      t.sign < 0 ∧ t.coefficientLow ≤ negativeMax) := by
  simp only [isInteger, Bool.and_eq_true, Bool.or_eq_true, decide_eq_true_eq, and_assoc]

theorem softCast_iff (bits : ℕ) (value : Int) : softCast bits value = true ↔
    -(2 ^ (bits - 1) : Int) ≤ value ∧ value < 2 ^ (bits - 1) :=
  decide_eq_true_iff

variable (negative : Bool) (coefficient scale : ℕ)

theorem of_value :
    (Triple.of negative coefficient scale).value =
      if negative then -(coefficient : Int) else coefficient := by
  have hwords : ((coefficient / 2 ^ 64 : ℕ) : Int) * 2 ^ 64 + ((coefficient % 2 ^ 64 : ℕ) : Int) =
      coefficient := by
    have h := Nat.div_add_mod' coefficient (2 ^ 64)
    exact_mod_cast h
  rw [value, of]
  simp only [hwords]
  by_cases hzero : coefficient = 0
  · simp [hzero]
  · cases negative <;> simp [hzero]

/-- A triple is one of an integer exactly when it has no fraction and fits 64 bits. -/
theorem of_isInteger : (Triple.of negative coefficient scale).isInteger = true ↔
    scale = 0 ∧ softCast 64 (Triple.of negative coefficient scale).value = true := by
  rw [isInteger_iff, softCast_iff, of_value]
  simp only [of, positiveMax, negativeMax, Int.neg_eq_zero, Int.natCast_eq_zero]
  refine and_congr_right fun _ => ?_
  by_cases hzero : coefficient = 0
  · simp [hzero]
  · cases negative with
    | false =>
      simp only [hzero, if_false, Bool.false_eq_true]
      omega
    | true =>
      simp only [hzero, if_false, if_true]
      omega

/-- The integer of a triple is its value: the negation wraps around to the least integer. -/
theorem of_integer (h : (Triple.of negative coefficient scale).isInteger = true) :
    (Triple.of negative coefficient scale).integer =
      (Triple.of negative coefficient scale).value := by
  have hinteger := ((of_isInteger ..).mp h).2
  rw [softCast_iff, of_value] at hinteger
  rw [of_value]
  simp only [integer, of, wrap64]
  by_cases hzero : coefficient = 0
  · simp [hzero]
  · cases negative with
    | false =>
      simp only [hzero, if_false, Bool.false_eq_true] at hinteger ⊢
      rw [if_neg (by decide)]
      omega
    | true =>
      simp only [hzero, if_false, if_true] at hinteger ⊢
      rw [if_pos (by decide)]
      omega

end Triple

/-! ### Constants -/

/-- The number of a constant. -/
def numberOf : ValueData → Option ℚ
  | .int4 value => some value
  | .int8 value => some value
  | .decimal coefficient exponent => some (coefficient * 10 ^ exponent)
  | _ => none

variable (env) in
/-- The type of a number: that of an integer, when it has no fraction digits and fits 64 bits, the
smallest one when the options ask for that; otherwise that of a decimal. -/
def exactNumericType (value : ℚ) (n : ExactNumeric) : TypeData :=
  let scale := ExactNumeric.scale n
  if scale = 0 ∧ -2 ^ 63 ≤ value ∧ value ≤ 2 ^ 63 - 1 then
    if env.options.preferSmallIntegerLiterals then
      if -2 ^ 7 ≤ value ∧ value ≤ 2 ^ 7 - 1 then .int1
      else if -2 ^ 15 ≤ value ∧ value ≤ 2 ^ 15 - 1 then .int2
      else if -2 ^ 31 ≤ value ∧ value ≤ 2 ^ 31 - 1 then .int4
      else .int8
    else .int8
  else
    .decimal
      (if env.options.preferSmallDecimalLiterals then some (max (ExactNumeric.digitCount n) scale)
        else none)
      (some scale)

/-- The triple of a literal. -/
def ExactNumeric.triple (sign : Option Sign) (n : ExactNumeric) : Triple :=
  .of (sign = some .minus) (ExactNumeric.coefficient n) (ExactNumeric.scale n)

variable (env) in
/-- The constant of a literal that is accepted. -/
def exactImmediate (sign : Option Sign) (n : ExactNumeric) : Immediate :=
  let triple := ExactNumeric.triple sign n
  if triple.isInteger then integerImmediate env triple.integer
  else decimalImmediate env triple (ExactNumeric.digitCount n) (ExactNumeric.scale n)

/-- No value that the decimals of an environment hold is out of their normal range. -/
theorem reportNotNormal_run {n : ExactNumeric}
    (hscale : ExactNumeric.scale n ≤ env.options.maxDecimalPrecision) (s : AnalyzerState ρ) :
    reportNotNormal n s = (some (), s) := by
  have hmax : env.options.maxDecimalPrecision ≤ decimalMaxPrecision :=
    env.options.maxDecimalPrecision_bounds.2
  have hdigits : 1 ≤ ExactNumeric.digitCount n := Nat.le_max_left ..
  unfold reportNotNormal
  rw [if_neg]
  · rfl
  · rintro ⟨hnonzero, hnormal⟩
    refine decide_eq_false_iff_not.mp hnormal ⟨hnonzero, ?_⟩
    omega

theorem processExactNumeric_run (sign : Option Sign) {n : ExactNumeric}
    (hdigits : ExactNumeric.digitCount n ≤ env.options.maxDecimalPrecision)
    (hscale : ExactNumeric.scale n ≤ env.options.maxDecimalPrecision) (s : AnalyzerState ρ) :
    processExactNumeric env sign n s = (some (exactImmediate env sign n), s) := by
  unfold processExactNumeric exactImmediate ExactNumeric.triple
  dsimp only
  rw [if_neg (not_or.mpr ⟨Nat.not_lt.mpr hdigits, Nat.not_lt.mpr hscale⟩), Check.bind_yields]
  refine ⟨(), s, reportNotNormal_run hscale s, ?_⟩
  split_ifs
  · rfl
  · rfl

theorem processExactNumeric_yields {sign : Option Sign} {n : ExactNumeric} {r : Immediate}
    {s t : AnalyzerState ρ} (h : processExactNumeric env sign n s = (some r, t)) :
    ExactNumeric.digitCount n ≤ env.options.maxDecimalPrecision ∧
      ExactNumeric.scale n ≤ env.options.maxDecimalPrecision := by
  unfold processExactNumeric at h
  dsimp only at h
  by_cases hprecision : env.options.maxDecimalPrecision < ExactNumeric.digitCount n ∨
      env.options.maxDecimalPrecision < ExactNumeric.scale n
  · rw [if_pos hprecision, reject_yields] at h
    exact h.elim
  · obtain ⟨hdigits, hscale⟩ := not_or.mp hprecision
    exact ⟨Nat.not_lt.mp hdigits, Nat.not_lt.mp hscale⟩

/-- The value of the triple is that of the literal with the decimal point taken out. -/
theorem ExactNumeric.triple_value (sign : Option Sign) (n : ExactNumeric) :
    ((triple sign n).value : ℚ) = signedValue sign n * 10 ^ scale n := by
  rw [triple, Triple.of_value, signedValue, value_eq]
  by_cases hsign : sign = some .minus
  · simp only [hsign, decide_true, if_true]
    push_cast
    field_simp
  · simp only [hsign, decide_false, if_false, Bool.false_eq_true]
    push_cast
    field_simp

theorem softCast_rat (bits : ℕ) (value : Int) : softCast bits value = true ↔
    -2 ^ (bits - 1) ≤ (value : ℚ) ∧ (value : ℚ) ≤ 2 ^ (bits - 1) - 1 := by
  rw [Triple.softCast_iff]
  refine and_congr ?_ ?_
  · constructor
    · intro h
      exact_mod_cast h
    · intro h
      exact_mod_cast h
  · rw [← Int.le_sub_one_iff]
    constructor
    · intro h
      exact_mod_cast h
    · intro h
      exact_mod_cast h

/-- The constant of a literal is its value, of the type for it. -/
theorem exactImmediate_eq (sign : Option Sign) (n : ExactNumeric) :
    numberOf (exactImmediate env sign n).1 = some (ExactNumeric.signedValue sign n) ∧
      (exactImmediate env sign n).2 =
        exactNumericType env (ExactNumeric.signedValue sign n) n := by
  have hvalue := ExactNumeric.triple_value sign n
  have hrange : (ExactNumeric.triple sign n).isInteger = true ↔ ExactNumeric.scale n = 0 ∧
      -2 ^ 63 ≤ ExactNumeric.signedValue sign n ∧ ExactNumeric.signedValue sign n ≤ 2 ^ 63 - 1 := by
    rw [ExactNumeric.triple, Triple.of_isInteger, softCast_rat]
    refine and_congr_right fun hscale => ?_
    rw [← ExactNumeric.triple, hvalue, hscale, pow_zero, mul_one]
  unfold exactImmediate exactNumericType
  dsimp only
  by_cases hinteger : (ExactNumeric.triple sign n).isInteger = true
  · have hscale := (hrange.mp hinteger).1
    rw [hscale, pow_zero, mul_one] at hvalue
    rw [if_pos hinteger, if_pos (hrange.mp hinteger), ExactNumeric.triple,
      Triple.of_integer _ _ _ hinteger, ← ExactNumeric.triple, ← hvalue]
    unfold integerImmediate
    simp only [softCast_rat]
    split_ifs <;> exact ⟨rfl, rfl⟩
  · rw [if_neg hinteger, if_neg (mt hrange.mpr hinteger)]
    refine ⟨?_, rfl⟩
    have hexponent : (ExactNumeric.triple sign n).exponent = -(ExactNumeric.scale n : Int) := rfl
    simp only [decimalImmediate, numberOf, hexponent, hvalue, zpow_neg, zpow_natCast]
    rw [mul_inv_cancel_right₀ (by positivity)]

/-! ### Overflow -/

/-- A value of 64 bits. -/
def InInt64 (x : Int) : Prop := -2 ^ 63 ≤ x ∧ x < 2 ^ 63

variable (env) in
/-- The exact results of the signed operations on the way to the constant of an accepted literal:
the bound of the exponent, the negation of the integer or that of the exponent, and the number of
digits from the adjusted exponent. -/
def exactNumericOperations (sign : Option Sign) (n : ExactNumeric) : List Int :=
  let triple := ExactNumeric.triple sign n
  let constant : List Int :=
    if triple.isInteger then
      if triple.sign < 0 then [-wrap64 triple.coefficientLow] else []
    else if env.options.preferSmallDecimalLiterals then
      [-triple.exponent, (ExactNumeric.digitCount n - 1 : Int) + 1]
    else [-triple.exponent]
  [-(env.options.maxDecimalPrecision : Int)] ++ constant

/-- The negation of the integer of a triple overflows for the least integer only. -/
theorem Triple.negation_inInt64 {coefficient scale : ℕ} {negative : Bool}
    (h : (Triple.of negative coefficient scale).isInteger = true)
    (hsign : (Triple.of negative coefficient scale).sign < 0) :
    InInt64 (-wrap64 (Triple.of negative coefficient scale).coefficientLow) ↔
      (Triple.of negative coefficient scale).value ≠ -2 ^ 63 := by
  obtain ⟨-, hfits⟩ := (Triple.of_isInteger ..).mp h
  rw [softCast_iff, of_value] at hfits
  rw [of_value]
  simp only [of] at hsign ⊢
  cases negative with
  | false =>
    by_cases hzero : coefficient = 0
    · rw [if_pos hzero] at hsign
      exact absurd hsign (by decide)
    · rw [if_neg hzero] at hsign
      exact absurd hsign (by decide)
  | true =>
    simp only [InInt64, wrap64, if_true] at hfits ⊢
    omega

/-- A triple that is not negative has no negative value. -/
theorem Triple.of_value_nonneg {coefficient scale : ℕ} {negative : Bool}
    (hsign : ¬ (Triple.of negative coefficient scale).sign < 0) :
    0 ≤ (Triple.of negative coefficient scale).value := by
  rw [of_value]
  simp only [of] at hsign
  cases negative with
  | false =>
    rw [if_neg (by decide)]
    omega
  | true =>
    by_cases hzero : coefficient = 0
    · rw [hzero]
      decide
    · rw [if_neg hzero] at hsign
      exact absurd (by decide) hsign

/-- The only operation that overflows is the negation of the least integer. -/
theorem exactNumericOperations_inInt64 {sign : Option Sign} {n : ExactNumeric}
    (hdigits : ExactNumeric.digitCount n ≤ env.options.maxDecimalPrecision)
    (hscale : ExactNumeric.scale n ≤ env.options.maxDecimalPrecision) :
    (∀ x ∈ exactNumericOperations env sign n, InInt64 x) ↔
      ¬ (ExactNumeric.scale n = 0 ∧ ExactNumeric.signedValue sign n = -2 ^ 63) := by
  have hmax : env.options.maxDecimalPrecision ≤ 999999999999999999 :=
    env.options.maxDecimalPrecision_bounds.2
  have hbound : InInt64 (-(env.options.maxDecimalPrecision : Int)) := by
    unfold InInt64
    omega
  have hvalue := ExactNumeric.triple_value sign n
  unfold exactNumericOperations
  dsimp only
  rw [List.singleton_append, List.forall_mem_cons, and_iff_right hbound]
  by_cases hinteger : (ExactNumeric.triple sign n).isInteger = true
  · obtain ⟨hzero, -⟩ := (Triple.of_isInteger ..).mp hinteger
    rw [hzero, pow_zero, mul_one] at hvalue
    have hleast : (ExactNumeric.triple sign n).value = -2 ^ 63 ↔
        ExactNumeric.signedValue sign n = -2 ^ 63 := by
      rw [← hvalue]
      constructor
      · intro h
        rw [h]
        norm_num
      · intro h
        exact_mod_cast h
    rw [if_pos hinteger, hzero, ← hleast]
    by_cases hsign : (ExactNumeric.triple sign n).sign < 0
    · rw [if_pos hsign, List.forall_mem_singleton, eq_self_iff_true, true_and]
      exact Triple.negation_inInt64 hinteger hsign
    · have hnonneg : 0 ≤ (ExactNumeric.triple sign n).value := Triple.of_value_nonneg hsign
      rw [if_neg hsign]
      refine iff_of_true (fun x hx => nomatch hx) ?_
      rintro ⟨-, hleast⟩
      omega
  · have hnotLeast : ¬ (ExactNumeric.scale n = 0 ∧ ExactNumeric.signedValue sign n = -2 ^ 63) := by
      rintro ⟨hzero, hleast⟩
      refine hinteger ((Triple.of_isInteger ..).mpr ⟨hzero, (softCast_rat ..).mpr ?_⟩)
      rw [← ExactNumeric.triple, hvalue, hzero, hleast]
      norm_num
    have hexponent : (ExactNumeric.triple sign n).exponent = -(ExactNumeric.scale n : Int) := rfl
    have hnegated : InInt64 (-(ExactNumeric.triple sign n).exponent) := by
      rw [hexponent]
      unfold InInt64
      omega
    have hcount : InInt64 ((ExactNumeric.digitCount n - 1 : Int) + 1) := by
      unfold InInt64
      omega
    rw [if_neg hinteger]
    refine iff_of_true ?_ hnotLeast
    split_ifs
    · exact List.forall_mem_cons.mpr ⟨hnegated, List.forall_mem_singleton.mpr hcount⟩
    · exact List.forall_mem_singleton.mpr hnegated

variable (env) in
/-- The constant of a source that is folded into a literal is its value, of the type for it, and
no signed operation on the way overflows. -/
def AnalyzesNumber (e : NumericSource) (context : ScalarValueContext) (s : AnalyzerState ρ) :
    Prop :=
  ∀ sign n, e.expression = .literalExpression (.exactNumeric sign n) →
    ∀ r t, processLiteral env context (.exactNumeric sign n) s = (some r, t) →
      numberOf r.1 = some e.value ∧ r.2 = exactNumericType env e.value n ∧
        ∀ x ∈ exactNumericOperations env sign n, InInt64 x

/-- A number is analyzed as it should be exactly when it is not the least integer of 64 bits, or is
rejected for its precision. -/
theorem processLiteral_exactNumeric_iff (e : NumericSource) (context : ScalarValueContext)
    (s : AnalyzerState ρ) :
    AnalyzesNumber env e context s ↔
      ∀ sign n, e.expression = .literalExpression (.exactNumeric sign n) →
        ExactNumeric.digitCount n ≤ env.options.maxDecimalPrecision →
          ExactNumeric.scale n ≤ env.options.maxDecimalPrecision →
            ¬ (ExactNumeric.scale n = 0 ∧ e.value = -2 ^ 63) := by
  have hvalue {sign n} (he : e.expression = .literalExpression (.exactNumeric sign n)) :
      ExactNumeric.signedValue sign n = e.value := by
    obtain ⟨sign', n', hliteral, hvalue⟩ := e.expression_value he
    obtain ⟨rfl, rfl⟩ := Literal.exactNumeric.inj hliteral
    exact hvalue
  constructor
  · intro h sign n he hdigits hscale
    obtain ⟨-, -, hoperations⟩ :=
      h sign n he _ s (processExactNumeric_run sign hdigits hscale s)
    rw [← hvalue he]
    exact (exactNumericOperations_inInt64 hdigits hscale).mp hoperations
  · intro h sign n he r t hrun
    obtain ⟨hdigits, hscale⟩ := processExactNumeric_yields hrun
    obtain ⟨rfl, -⟩ : exactImmediate env sign n = r ∧ s = t := by
      have hresult := hrun.symm.trans (processExactNumeric_run sign hdigits hscale s)
      simpa only [Prod.mk.injEq, Option.some.injEq, eq_comm] using hresult
    have hleast := h sign n he hdigits hscale
    rw [← hvalue he] at hleast ⊢
    refine ⟨(exactImmediate_eq sign n).1, (exactImmediate_eq sign n).2, ?_⟩
    exact (exactNumericOperations_inInt64 hdigits hscale).mpr hleast

/-- An environment with the default options and no table. -/
def plainEnvironment : Environment Types := .ofSchema (.ofTables [] [])

/-- The digits of the least integer. -/
def leastInteger : ExactNumeric :=
  .ofDigits [9, 2, 2, 3, 3, 7, 2, 0, 3, 6, 8, 5, 4, 7, 7, 5, 8, 0, 8]

/-- The negation overflows for `-(9223372036854775808)`. -/
theorem processLiteral_leastInteger :
    ¬ AnalyzesNumber plainEnvironment (.minus (.parenthesized (.literal leastInteger))) {}
      (.initial []) := by
  intro h
  have hdigits : ExactNumeric.digitCount leastInteger ≤
    plainEnvironment.options.maxDecimalPrecision := by decide
  obtain ⟨-, -, hoperations⟩ := h (some .minus) leastInteger rfl _ _
    (processExactNumeric_run (some .minus) hdigits (Nat.zero_le _) (.initial []))
  have hmem : (2 ^ 63 : Int) ∈
      exactNumericOperations plainEnvironment (some .minus) leastInteger := by
    decide
  exact absurd (hoperations _ hmem).2 (by decide)

end Mizugaki.Analyzer
