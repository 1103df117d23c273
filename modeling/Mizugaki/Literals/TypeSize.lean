import Mizugaki.Analyzer.Type
import Mizugaki.Literals.ExactNumeric

/-! Sizes of data types. The parser reads a size with `strtoull` and takes a size that overflows
for zero; the asterisk stands for the largest size. So the largest size is taken for an asterisk,
and one beyond it for zero, unless the analysis of the type reports either. -/

namespace Mizugaki.Syntax

open Mizugaki.Ast

/-! ### Reading a size -/

/-- A size as it is written: its digits, or `*`. -/
inductive SizeText where
  | digits (digits : List (Fin 10))
  | flexible

/-- The number that the digits of a size write. -/
abbrev sizeValue (digits : List (Fin 10)) : Nat := Analyzer.ExactNumeric.digitsValue digits

/-- `std::strtoull` of digits: the number, and whether `errno` is `ERANGE`. -/
def strtoull (digits : List (Fin 10)) : Nat × Bool :=
  if sizeValue digits < 2 ^ 64 then (sizeValue digits, false) else (2 ^ 64 - 1, true)

/-- `sql_driver::to_size`. -/
def toSize (digits : List (Fin 10)) : Nat :=
  if (strtoull digits).2 then 0 else (strtoull digits).1

/-- The sizes of `size_maybe_flexible`. -/
def SizeText.toSize : SizeText → Nat
  | digits ds => Syntax.toSize ds
  | flexible => flexibleSize

/-! ### Types -/

/-- The types that take a size, as they are written. -/
inductive SizedType where
  | character (length : Option (List (Fin 10)))
  | characterVarying (length : Option SizeText)
  | binary (length : Option (List (Fin 10)))
  | binaryVarying (length : Option SizeText)
  | decimal
  | decimalOf (precision : SizeText) (scale : Option SizeText)
  | integer (precision : List (Fin 10))
  | float_ (precision : List (Fin 10))
  | array (element : SizedType) (length : Option SizeText)

/-- The types that the rules of `data_type_system` and `data_type_composite` make. -/
def SizedType.node : SizedType → TypeNode
  | character length => .characterString false (length.map toSize)
  | characterVarying length => .characterString true (length.map SizeText.toSize)
  | binary length => .octetString false (length.map toSize)
  | binaryVarying length => .octetString true (length.map SizeText.toSize)
  | decimal => .decimal none none
  | decimalOf precision scale => .decimal (some precision.toSize) (scale.map SizeText.toSize)
  | integer precision => .binaryNumeric .binaryInteger (some (toSize precision))
  | float_ precision => .binaryNumeric .binaryFloat (some (toSize precision))
  | array _ _ => .unsupported .collection

/-- The digits of a size, when it has some. -/
def SizeText.sizes : SizeText → List (List (Fin 10))
  | digits ds => [ds]
  | flexible => []

/-- The sizes that are written in a type. -/
def SizedType.sizes : SizedType → List (List (Fin 10))
  | character length => length.toList
  | characterVarying length => length.toList.flatMap SizeText.sizes
  | binary length => length.toList
  | binaryVarying length => length.toList.flatMap SizeText.sizes
  | decimal => []
  | decimalOf precision scale => precision.sizes ++ scale.toList.flatMap SizeText.sizes
  | integer precision => [precision]
  | float_ precision => [precision]
  | array element length => element.sizes ++ length.toList.flatMap SizeText.sizes

/-! ### What becomes of a size -/

section

variable {ds : List (Fin 10)}

theorem toSize_of_lt (h : sizeValue ds < 2 ^ 64) : toSize ds = sizeValue ds := by
  have hread : strtoull ds = (sizeValue ds, false) := if_pos h
  rw [toSize, hread]
  rfl

theorem toSize_of_ge (h : 2 ^ 64 ≤ sizeValue ds) : toSize ds = 0 := by
  have hread : strtoull ds = (2 ^ 64 - 1, true) := if_neg (Nat.not_lt.mpr h)
  rw [toSize, hread]
  rfl

/-- The largest size is the one of the asterisk. -/
theorem toSize_eq_flexibleSize : toSize ds = flexibleSize ↔ sizeValue ds = 2 ^ 64 - 1 := by
  unfold flexibleSize
  by_cases h : sizeValue ds < 2 ^ 64
  · rw [toSize_of_lt h]
  · rw [toSize_of_ge (Nat.not_lt.mp h)]
    omega

/-- A size is kept when it is recorded as its number, and not taken for an asterisk. -/
def Kept (ds : List (Fin 10)) : Prop := toSize ds = sizeValue ds ∧ toSize ds ≠ flexibleSize

theorem kept_iff : Kept ds ↔ sizeValue ds < 2 ^ 64 - 1 := by
  unfold Kept
  rw [Ne, toSize_eq_flexibleSize]
  by_cases h : sizeValue ds < 2 ^ 64
  · rw [toSize_of_lt h]
    omega
  · rw [toSize_of_ge (Nat.not_lt.mp h)]
    omega

end

end Mizugaki.Syntax

namespace Mizugaki.Analyzer

open Mizugaki.Ast Mizugaki.Plan Mizugaki.Control Mizugaki.Syntax

variable {ρ : Type} {env : Environment ρ}

/-- A run that reports an error and returns nothing. -/
def ReportsAt {α : Type} (m : Analysis ρ α) (s : AnalyzerState ρ) : Prop :=
  ∃ d, m s = (none, { s with diagnostics := s.diagnostics ++ [d] })

section

variable {α β : Type} {s : AnalyzerState ρ}

theorem reject_reportsAt (code : Code) (message : List Fragment) :
    ReportsAt (reject code message : Analysis ρ α) s := ⟨⟨code, message⟩, rfl⟩

theorem pure_not_reportsAt (a : α) : ¬ ReportsAt (pure a : Analysis ρ α) s := by
  rintro ⟨d, hd⟩
  cases hd

theorem ite_reportsAt {c : Prop} [Decidable c] {code : Code} {message : List Fragment}
    {m : Analysis ρ α} :
    ReportsAt (if c then reject code message else m) s ↔ c ∨ ReportsAt m s := by
  by_cases h : c
  · rw [if_pos h]
    exact iff_of_true (reject_reportsAt code message) (.inl h)
  · rw [if_neg h, or_iff_right h]

theorem map_reportsAt {m : Analysis ρ α} {f : α → β} :
    ReportsAt (do let a ← m; return f a) s ↔ ReportsAt m s := by
  unfold ReportsAt
  rw [Check.bind_run]
  rcases m s with ⟨_ | a, t⟩
  · simp
  · simp [Check.pure_run]

end

/-! ### The analysis of sizes -/

section

variable {s : AnalyzerState ρ}

theorem analyzeStringLength_reportsAt {kind : String} {varying : Bool} {n : Nat} :
    ReportsAt (analyzeStringLength kind varying (some n) : Analysis ρ (Option Nat)) s ↔
      n = 0 ∨ n = flexibleSize ∧ varying = false := by
  have hflexible : flexibleSize ≠ 0 := by decide
  unfold analyzeStringLength
  dsimp only
  by_cases h : n = flexibleSize
  · subst h
    rw [if_pos rfl]
    cases varying with
    | true => simpa [hflexible] using pure_not_reportsAt _
    | false => simpa using reject_reportsAt _ _
  · rw [if_neg h, ite_reportsAt, or_iff_left (pure_not_reportsAt _), or_iff_left]
    exact fun hflex => h hflex.1

theorem analyzeBinaryNumericType_reportsAt (kind : BinaryNumericKind) :
    ReportsAt (analyzeBinaryNumericType env kind (some 0)) s ∧
      ¬ ReportsAt (analyzeBinaryNumericType env kind (some flexibleSize)) s := by
  constructor
  · cases kind with
    | binaryInteger => exact reject_reportsAt _ _
    | binaryFloat => exact reject_reportsAt _ _
  · cases kind with
    | binaryInteger => exact pure_not_reportsAt _
    | binaryFloat => exact pure_not_reportsAt _

theorem analyzeDecimalType_reportsAt {p : Nat} {q : Option Nat} :
    ReportsAt (analyzeDecimalType env (some p) q) s ↔
      openSize p = some 0 ∨ (openSize p).any (env.options.maxDecimalPrecision < ·) = true ∨
        (q.elim (some 0) openSize).any
          ((openSize p).getD env.options.maxDecimalPrecision < ·) = true := by
  unfold analyzeDecimalType
  cases q with
  | none =>
    dsimp only
    rw [ite_reportsAt, ite_reportsAt, ite_reportsAt, or_iff_left (pure_not_reportsAt _)]
    rfl
  | some q =>
    dsimp only
    rw [ite_reportsAt, ite_reportsAt, ite_reportsAt, or_iff_left (pure_not_reportsAt _)]
    rfl

end

/-! ### The sizes of a type -/

/-- The sizes that the analysis of a type reports, of those that are not kept: all of a type that is
never varying, and of the others what is taken for zero, unless it is a scale. A scale is compared
with the precision, as long as that is not taken for an asterisk, and with the largest precision
otherwise. -/
def OutOfRange (o : Options) : SizedType → Prop
  | .character _ => True
  | .characterVarying length => ∀ ds, length = some (.digits ds) → 2 ^ 64 ≤ sizeValue ds
  | .binary _ => True
  | .binaryVarying length => ∀ ds, length = some (.digits ds) → 2 ^ 64 ≤ sizeValue ds
  | .decimal => False
  | .decimalOf precision scale =>
    (∃ ds, precision = .digits ds ∧ sizeValue ds ≠ 2 ^ 64 - 1 ∧
      (sizeValue ds = 0 ∨ o.maxDecimalPrecision < sizeValue ds)) ∨
    ∃ ds, scale = some (.digits ds) ∧ o.maxDecimalPrecision < sizeValue ds ∧
      sizeValue ds < 2 ^ 64 - 1
  | .integer precision => 2 ^ 64 ≤ sizeValue precision
  | .float_ precision => 2 ^ 64 ≤ sizeValue precision
  | .array _ _ => True

/-- How the analyzer reads a precision or scale of a decimal type. -/
theorem openSize_digits (ds : List (Fin 10)) :
    openSize (toSize ds) =
      if sizeValue ds < 2 ^ 64 - 1 then some (sizeValue ds)
      else if sizeValue ds = 2 ^ 64 - 1 then none else some 0 := by
  unfold openSize
  by_cases hflexible : sizeValue ds = 2 ^ 64 - 1
  · rw [if_pos (toSize_eq_flexibleSize.mpr hflexible), if_neg (by omega), if_pos hflexible]
  · rw [if_neg fun h => hflexible (toSize_eq_flexibleSize.mp h), if_neg hflexible]
    by_cases hlt : sizeValue ds < 2 ^ 64 - 1
    · rw [if_pos hlt, toSize_of_lt (by omega)]
    · rw [if_neg hlt, toSize_of_ge (by omega)]

theorem openSize_flexible : openSize flexibleSize = none := if_pos rfl

theorem analyzeStringLength_sized {kind : String} {varying : Bool} {ds : List (Fin 10)}
    (h : ¬ sizeValue ds < 2 ^ 64 - 1) {s : AnalyzerState ρ} :
    ReportsAt (analyzeStringLength kind varying (some (toSize ds)) : Analysis ρ (Option Nat)) s ↔
      (varying = true → 2 ^ 64 ≤ sizeValue ds) := by
  rw [analyzeStringLength_reportsAt, toSize_eq_flexibleSize]
  by_cases hge : 2 ^ 64 ≤ sizeValue ds
  · exact iff_of_true (.inl (toSize_of_ge hge)) fun _ => hge
  · have heq : sizeValue ds = 2 ^ 64 - 1 := by omega
    rw [toSize_of_lt (by omega), heq]
    cases varying with
    | true => simp
    | false => simp

/-- The length of a type that is not varying is reported whenever it is not kept. -/
theorem analyzeFixedLength_sized {kind : String} {length : Option (List (Fin 10))}
    (h : ¬ ∀ ds ∈ length.toList, sizeValue ds < 2 ^ 64 - 1) {s : AnalyzerState ρ} :
    ReportsAt (analyzeStringLength kind false (length.map toSize) : Analysis ρ (Option Nat)) s := by
  cases length with
  | none => exact absurd (List.forall_mem_nil _) h
  | some ds =>
    rw [Option.toList_some, List.forall_mem_singleton] at h
    refine (analyzeStringLength_sized h).mpr fun hvarying => ?_
    exact absurd hvarying Bool.false_ne_true

theorem analyzeVaryingLength_sized {kind : String} {length : Option SizeText}
    (h : ¬ ∀ ds ∈ length.toList.flatMap SizeText.sizes, sizeValue ds < 2 ^ 64 - 1)
    {s : AnalyzerState ρ} :
    ReportsAt (analyzeStringLength kind true (length.map SizeText.toSize) :
        Analysis ρ (Option Nat)) s ↔
      ∀ ds, length = some (.digits ds) → 2 ^ 64 ≤ sizeValue ds := by
  cases length with
  | none => exact absurd (List.forall_mem_nil _) h
  | some size =>
    rw [Option.toList_some, List.flatMap_singleton] at h
    cases size with
    | flexible => exact absurd (List.forall_mem_nil _) h
    | digits ds =>
      rw [SizeText.sizes, List.forall_mem_singleton] at h
      refine (analyzeStringLength_sized h).trans ?_
      simp

theorem analyzeBinaryNumericType_sized (kind : BinaryNumericKind) {ds : List (Fin 10)}
    (h : ¬ sizeValue ds < 2 ^ 64 - 1) {s : AnalyzerState ρ} :
    ReportsAt (analyzeBinaryNumericType env kind (some (toSize ds))) s ↔
      2 ^ 64 ≤ sizeValue ds := by
  obtain ⟨hzero, hflexible⟩ := @analyzeBinaryNumericType_reportsAt ρ env s kind
  by_cases hge : 2 ^ 64 ≤ sizeValue ds
  · rw [toSize_of_ge hge]
    exact iff_of_true hzero hge
  · have heq : toSize ds = flexibleSize := toSize_eq_flexibleSize.mpr (by omega)
    rw [heq]
    exact iff_of_false hflexible hge

/-- A decimal type with sizes that are not all kept. -/
theorem analyzeDecimalType_sized {precision : SizeText} {scale : Option SizeText}
    (h : ¬ ∀ ds ∈ (SizedType.decimalOf precision scale).sizes, sizeValue ds < 2 ^ 64 - 1)
    {s : AnalyzerState ρ} :
    ReportsAt (analyzeDecimalType env (some precision.toSize) (scale.map SizeText.toSize)) s ↔
      OutOfRange env.options (.decimalOf precision scale) := by
  have hmax := env.options.maxDecimalPrecision_bounds
  unfold decimalMaxPrecision at hmax
  rw [analyzeDecimalType_reportsAt]
  unfold OutOfRange
  generalize env.options.maxDecimalPrecision = m at hmax ⊢
  cases precision with
  | flexible =>
    cases scale with
    | none => exact absurd (List.forall_mem_nil _) h
    | some scale =>
      cases scale with
      | flexible => exact absurd (List.forall_mem_nil _) h
      | digits es =>
        have hes : ¬ sizeValue es < 2 ^ 64 - 1 := by simpa [SizedType.sizes, SizeText.sizes] using h
        simp only [SizeText.toSize, Option.map_some, Option.elim_some, openSize_flexible,
          openSize_digits, if_neg hes]
        by_cases heq : sizeValue es = 2 ^ 64 - 1
        · simp [heq]
        · rw [if_neg heq]
          simp
          omega
  | digits ds =>
    cases scale with
    | none =>
      have hds : ¬ sizeValue ds < 2 ^ 64 - 1 := by simpa [SizedType.sizes, SizeText.sizes] using h
      simp only [SizeText.toSize, Option.map_none, Option.elim_none, openSize_digits, if_neg hds]
      by_cases heq : sizeValue ds = 2 ^ 64 - 1
      · simp [heq]
      · rw [if_neg heq]
        simp
        omega
    | some scale =>
      cases scale with
      | flexible =>
        have hds : ¬ sizeValue ds < 2 ^ 64 - 1 := by simpa [SizedType.sizes, SizeText.sizes] using h
        simp only [SizeText.toSize, Option.map_some, Option.elim_some, openSize_flexible,
          openSize_digits, if_neg hds]
        by_cases heq : sizeValue ds = 2 ^ 64 - 1
        · simp [heq]
        · rw [if_neg heq]
          simp
          omega
      | digits es =>
        have hsizes : 2 ^ 64 - 1 ≤ sizeValue ds ∨ 2 ^ 64 - 1 ≤ sizeValue es := by
          simp [SizedType.sizes, SizeText.sizes] at h
          omega
        simp only [SizeText.toSize, Option.map_some, Option.elim_some, openSize_digits]
        by_cases hds : sizeValue ds < 2 ^ 64 - 1
        · -- the scale is not kept, and then no scale is too large
          have hes : ¬ sizeValue es < 2 ^ 64 - 1 := by omega
          rw [if_pos hds, if_neg hes]
          by_cases heq : sizeValue es = 2 ^ 64 - 1
          · simp [heq]
            omega
          · rw [if_neg heq]
            simp
            omega
        · rw [if_neg hds]
          by_cases heq : sizeValue ds = 2 ^ 64 - 1
          · rw [if_pos heq]
            by_cases hes : sizeValue es < 2 ^ 64 - 1
            · rw [if_pos hes]
              simp [heq]
              omega
            · rw [if_neg hes]
              by_cases hes' : sizeValue es = 2 ^ 64 - 1
              · simp [heq, hes']
              · rw [if_neg hes']
                simp [heq]
                omega
          · rw [if_neg heq]
            simp
            omega

/-- A type with a size that is not kept is reported exactly when the size is out of range. -/
theorem analyzeType_reportsAt {w : SizedType} (h : ¬ ∀ ds ∈ w.sizes, sizeValue ds < 2 ^ 64 - 1)
    (s : AnalyzerState ρ) : ReportsAt (analyzeType env w.node) s ↔ OutOfRange env.options w := by
  have hmax := env.options.maxDecimalPrecision_bounds
  unfold decimalMaxPrecision at hmax
  cases w with
  | character length =>
    rw [SizedType.node, analyzeType, map_reportsAt]
    exact iff_of_true (analyzeFixedLength_sized h) trivial
  | characterVarying length =>
    rw [SizedType.node, analyzeType, map_reportsAt]
    exact analyzeVaryingLength_sized h
  | binary length =>
    rw [SizedType.node, analyzeType, map_reportsAt]
    exact iff_of_true (analyzeFixedLength_sized h) trivial
  | binaryVarying length =>
    rw [SizedType.node, analyzeType, map_reportsAt]
    exact analyzeVaryingLength_sized h
  | decimal => exact absurd (List.forall_mem_nil _) h
  | decimalOf precision scale =>
    exact analyzeDecimalType_sized h
  | integer precision =>
    rw [SizedType.sizes, List.forall_mem_singleton] at h
    exact analyzeBinaryNumericType_sized .binaryInteger h
  | float_ precision =>
    rw [SizedType.sizes, List.forall_mem_singleton] at h
    exact analyzeBinaryNumericType_sized .binaryFloat h
  | array element length => exact iff_of_true (reject_reportsAt _ _) trivial

/-! ### The types with the sizes as they are written -/

/-- What a type records of a size: its number, or nothing for the asterisk. -/
def sizeAsWritten : SizeText → Option Nat
  | .digits ds => some (sizeValue ds)
  | .flexible => none

/-- The first of some types that holds a precision. -/
def firstHolding (precision : Nat) (types : List (TypeData × Nat)) : Option TypeData :=
  (types.find? fun t => precision ≤ t.2).map Prod.fst

/-- The integer and the float types, with what they hold. -/
def binaryNumericTypes (o : Options) : BinaryNumericKind → List (TypeData × Nat)
  | .binaryInteger =>
    [(.int1, o.maxBinaryInteger1Precision), (.int2, o.maxBinaryInteger2Precision),
      (.int4, o.maxBinaryInteger4Precision), (.int8, o.maxBinaryInteger8Precision)]
  | .binaryFloat => [(.float4, o.maxBinaryFloat4Precision), (.float8, o.maxBinaryFloat8Precision)]

/-- The type that is meant by what is written, where there is one. -/
def typeAsWritten (o : Options) : SizedType → Option TypeData
  | .character length => some (.character false (some (length.elim 1 sizeValue)))
  | .characterVarying length => some (.character true (length.bind sizeAsWritten))
  | .binary length => some (.octet false (some (length.elim 1 sizeValue)))
  | .binaryVarying length => some (.octet true (length.bind sizeAsWritten))
  | .decimal => some (.decimal o.defaultDecimalPrecision (some 0))
  | .decimalOf precision scale =>
    some (.decimal (sizeAsWritten precision) (scale.elim (some 0) sizeAsWritten))
  | .integer precision =>
    firstHolding (sizeValue precision) (binaryNumericTypes o .binaryInteger)
  | .float_ precision => firstHolding (sizeValue precision) (binaryNumericTypes o .binaryFloat)
  | .array _ _ => none

/-- The sizes of a type are kept: each is recorded as its number, and the type that the analysis
returns is the one with these numbers. -/
structure SizesKept (env : Environment ρ) (w : SizedType) (s : AnalyzerState ρ) : Prop where
  recorded : ∀ ds ∈ w.sizes, Kept ds
  returned : ∃ type, typeAsWritten env.options w = some type ∧
    analyzeType env w.node s = (some type, s)

theorem openSize_toSize (size : SizeText) (h : ∀ ds ∈ size.sizes, sizeValue ds < 2 ^ 64 - 1) :
    openSize size.toSize = sizeAsWritten size := by
  cases size with
  | flexible => exact openSize_flexible
  | digits ds =>
    have hlt : sizeValue ds < 2 ^ 64 - 1 := h ds List.mem_cons_self
    exact (openSize_digits ds).trans (if_pos hlt)

section

variable {s : AnalyzerState ρ}

theorem analyzeStringLength_returns {kind : String} {varying : Bool} {ds : List (Fin 10)}
    (h : sizeValue ds < 2 ^ 64 - 1) :
    ReportsAt (analyzeStringLength kind varying (some (toSize ds)) : Analysis ρ (Option Nat)) s ∨
      analyzeStringLength kind varying (some (toSize ds)) s = (some (some (sizeValue ds)), s) := by
  have hflexible : toSize ds ≠ flexibleSize := by
    rw [Ne, toSize_eq_flexibleSize]
    omega
  unfold analyzeStringLength
  dsimp only
  rw [if_neg hflexible, toSize_of_lt (by omega)]
  by_cases hzero : sizeValue ds = 0
  · rw [if_pos hzero]
    exact .inl (reject_reportsAt _ _)
  · rw [if_neg hzero]
    exact .inr rfl

theorem analyzeFixedLength_returns {kind : String} {length : Option (List (Fin 10))}
    (h : ∀ ds ∈ length.toList, sizeValue ds < 2 ^ 64 - 1) :
    ReportsAt (analyzeStringLength kind false (length.map toSize) : Analysis ρ (Option Nat)) s ∨
      analyzeStringLength kind false (length.map toSize) s =
        (some (some (length.elim 1 sizeValue)), s) := by
  cases length with
  | none => exact .inr rfl
  | some ds => exact analyzeStringLength_returns (h ds List.mem_cons_self)

theorem analyzeVaryingLength_returns {kind : String} {length : Option SizeText}
    (h : ∀ ds ∈ length.toList.flatMap SizeText.sizes, sizeValue ds < 2 ^ 64 - 1) :
    ReportsAt (analyzeStringLength kind true (length.map SizeText.toSize) :
        Analysis ρ (Option Nat)) s ∨
      analyzeStringLength kind true (length.map SizeText.toSize) s =
        (some (length.bind sizeAsWritten), s) := by
  cases length with
  | none => exact .inr rfl
  | some size =>
    rw [Option.toList_some, List.flatMap_singleton] at h
    cases size with
    | flexible => exact .inr rfl
    | digits ds => exact analyzeStringLength_returns (h ds List.mem_cons_self)

theorem map_returns {α β : Type} {m : Analysis ρ α} {f : α → β} {a : α}
    (h : ReportsAt m s ∨ m s = (some a, s)) :
    ReportsAt (do let a ← m; return f a) s ∨ (do let a ← m; return f a) s = (some (f a), s) := by
  refine h.imp map_reportsAt.mpr fun h => ?_
  rw [Check.bind_run, h]
  rfl

/-- A check before a result that is reported or returned. -/
theorem ite_returns {α : Type} {c : Prop} [Decidable c] {code : Code} {message : List Fragment}
    {m : Analysis ρ α} {a : α} (h : ReportsAt m s ∨ m s = (some a, s)) :
    ReportsAt (if c then reject code message else m) s ∨
      (if c then reject code message else m) s = (some a, s) := by
  by_cases hc : c
  · rw [if_pos hc]
    exact .inl (reject_reportsAt code message)
  · rwa [if_neg hc]

theorem analyzeDecimalType_returns {precision : SizeText} {scale : Option SizeText}
    (h : ∀ ds ∈ (SizedType.decimalOf precision scale).sizes, sizeValue ds < 2 ^ 64 - 1) :
    ReportsAt (analyzeDecimalType env (some precision.toSize) (scale.map SizeText.toSize)) s ∨
      analyzeDecimalType env (some precision.toSize) (scale.map SizeText.toSize) s =
        (some (.decimal (sizeAsWritten precision) (scale.elim (some 0) sizeAsWritten)), s) := by
  obtain ⟨hprecision, hscale⟩ := List.forall_mem_append.mp h
  rw [← openSize_toSize precision hprecision]
  cases scale with
  | none => exact ite_returns (ite_returns (ite_returns (.inr rfl)))
  | some size =>
    rw [Option.toList_some, List.flatMap_singleton] at hscale
    rw [Option.elim_some, ← openSize_toSize size hscale]
    exact ite_returns (ite_returns (ite_returns (.inr rfl)))

/-- A type that is returned when it holds a precision, before the others. -/
theorem holding_returns {n k : Nat} {type : TypeData} {types : List (TypeData × Nat)}
    {m : Analysis ρ TypeData}
    (h : ReportsAt m s ∨ ∃ t, firstHolding n types = some t ∧ m s = (some t, s)) :
    ReportsAt (if n ≤ k then pure type else m) s ∨
      ∃ t, firstHolding n ((type, k) :: types) = some t ∧
        (if n ≤ k then pure type else m) s = (some t, s) := by
  by_cases hle : n ≤ k
  · rw [if_pos hle]
    exact .inr ⟨type, by simp [firstHolding, hle], rfl⟩
  · have hrest : firstHolding n ((type, k) :: types) = firstHolding n types := by
      simp [firstHolding, hle]
    rwa [if_neg hle, hrest]

theorem analyzeBinaryNumericType_returns {kind : BinaryNumericKind} {ds : List (Fin 10)}
    (h : sizeValue ds < 2 ^ 64 - 1) :
    ReportsAt (analyzeBinaryNumericType env kind (some (toSize ds))) s ∨
      ∃ type, firstHolding (sizeValue ds) (binaryNumericTypes env.options kind) = some type ∧
        analyzeBinaryNumericType env kind (some (toSize ds)) s = (some type, s) := by
  have hsize : (some (toSize ds)).bind openSize = some (sizeValue ds) :=
    (openSize_digits ds).trans (if_pos h)
  unfold analyzeBinaryNumericType
  rw [hsize]
  generalize sizeValue ds = n
  by_cases hzero : n = 0
  · subst hzero
    cases kind with
    | binaryInteger => exact .inl (reject_reportsAt _ _)
    | binaryFloat => exact .inl (reject_reportsAt _ _)
  · have hreject {message : List Fragment} :
        ReportsAt (reject .invalidTypeLength message : Analysis ρ TypeData) s ∨
          ∃ t, firstHolding n [] = some t ∧
            (reject .invalidTypeLength message : Analysis ρ TypeData) s = (some t, s) :=
      .inl (reject_reportsAt _ _)
    cases kind with
    | binaryInteger =>
      dsimp only
      rw [if_neg hzero]
      exact holding_returns (holding_returns (holding_returns (holding_returns hreject)))
    | binaryFloat =>
      dsimp only
      rw [if_neg hzero]
      exact holding_returns (holding_returns hreject)

end

/-- A type whose sizes are below the largest one is reported or returned as it is written. -/
theorem analyzeType_returns {w : SizedType} (h : ∀ ds ∈ w.sizes, sizeValue ds < 2 ^ 64 - 1)
    (s : AnalyzerState ρ) : ReportsAt (analyzeType env w.node) s ∨
      ∃ type, typeAsWritten env.options w = some type ∧
        analyzeType env w.node s = (some type, s) := by
  cases w with
  | character length =>
    exact (map_returns (analyzeFixedLength_returns h)).imp_right fun hrun => ⟨_, rfl, hrun⟩
  | characterVarying length =>
    exact (map_returns (analyzeVaryingLength_returns h)).imp_right fun hrun => ⟨_, rfl, hrun⟩
  | binary length =>
    exact (map_returns (analyzeFixedLength_returns h)).imp_right fun hrun => ⟨_, rfl, hrun⟩
  | binaryVarying length =>
    exact (map_returns (analyzeVaryingLength_returns h)).imp_right fun hrun => ⟨_, rfl, hrun⟩
  | decimal =>
    have hrun : ReportsAt (analyzeDecimalType env none none) s ∨
        analyzeDecimalType env none none s =
          (some (.decimal env.options.defaultDecimalPrecision (some 0)), s) :=
      ite_returns (ite_returns (ite_returns (.inr rfl)))
    exact hrun.imp_right fun hrun => ⟨_, rfl, hrun⟩
  | decimalOf precision scale =>
    exact (analyzeDecimalType_returns h).imp_right fun hrun => ⟨_, rfl, hrun⟩
  | integer precision =>
    exact analyzeBinaryNumericType_returns (h precision List.mem_cons_self)
  | float_ precision =>
    exact analyzeBinaryNumericType_returns (h precision List.mem_cons_self)
  | array element length => exact .inl (reject_reportsAt _ _)

/-- Every size of a type is kept or the type is reported, exactly when the sizes are below the largest
one or out of range. -/
theorem typeSize_kept_iff (w : SizedType) (s : AnalyzerState ρ) :
    (ReportsAt (analyzeType env w.node) s ∨ SizesKept env w s) ↔
      (∀ ds ∈ w.sizes, sizeValue ds < 2 ^ 64 - 1) ∨ OutOfRange env.options w := by
  by_cases h : ∀ ds ∈ w.sizes, sizeValue ds < 2 ^ 64 - 1
  · refine iff_of_true ?_ (.inl h)
    exact (analyzeType_returns h s).imp_right fun hreturned =>
      ⟨fun ds hds => kept_iff.mpr (h ds hds), hreturned⟩
  · rw [or_iff_right h, or_iff_left fun hkept =>
      h fun ds hds => kept_iff.mp (hkept.recorded ds hds)]
    exact analyzeType_reportsAt h s

/-- `VARCHAR(18446744073709551615)` is taken for `VARCHAR(*)`, and the scale of
`DECIMAL(9, 18446744073709551616)` for zero. -/
theorem typeSize_misread :
    let env := Environment.ofSchema (.ofTables [] [])
    let digits (ds : List Nat) := (ExactNumeric.ofDigits ds).digits
    let largest := digits [1, 8, 4, 4, 6, 7, 4, 4, 0, 7, 3, 7, 0, 9, 5, 5, 1, 6, 1, 5]
    let larger := digits [1, 8, 4, 4, 6, 7, 4, 4, 0, 7, 3, 7, 0, 9, 5, 5, 1, 6, 1, 6]
    let varying := SizedType.characterVarying (some (.digits largest))
    let scaled := SizedType.decimalOf (.digits (digits [9])) (some (.digits larger))
    sizeValue largest = 2 ^ 64 - 1 ∧ sizeValue larger = 2 ^ 64 ∧
      analyzeType env varying.node (.initial []) = (some (.character true none), .initial []) ∧
      analyzeType env scaled.node (.initial []) = (some (.decimal (some 9) (some 0)), .initial []) ∧
      ∀ w ∈ [varying, scaled],
        ¬ (ReportsAt (analyzeType env w.node) (.initial []) ∨ SizesKept env w (.initial [])) := by
  intro env digits largest larger varying scaled
  have hvarying : analyzeType env varying.node (.initial [])
      = (some (.character true none), .initial []) := rfl
  have hscaled : analyzeType env scaled.node (.initial [])
      = (some (.decimal (some 9) (some 0)), .initial []) := rfl
  have hlargest : sizeValue largest = 2 ^ 64 - 1 := by decide
  have hlarger : sizeValue larger = 2 ^ 64 := by decide
  refine ⟨hlargest, hlarger, hvarying, hscaled, List.forall_mem_cons.mpr ⟨?_,
    List.forall_mem_singleton.mpr ?_⟩⟩
  · rintro (⟨d, hd⟩ | hkept)
    · rw [hvarying] at hd
      cases hd
    · have hlt := kept_iff.mp (hkept.recorded largest (by simp [varying, SizedType.sizes, SizeText.sizes]))
      omega
  · rintro (⟨d, hd⟩ | hkept)
    · rw [hscaled] at hd
      cases hd
    · have hlt := kept_iff.mp (hkept.recorded larger (by simp [scaled, SizedType.sizes, SizeText.sizes]))
      omega

end Mizugaki.Analyzer
