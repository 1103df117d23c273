import Mizugaki.Analyzer.Context

/-! Types of the syntax tree. Lengths, precisions and scales are checked against the
options; a length that stands for `*` leaves the length of a varying type open. -/

namespace Mizugaki.Analyzer

open Mizugaki.Ast Mizugaki.Plan

variable {ρ : Type} (env : Environment ρ)

/-- `type::simple`. -/
def analyzeSimpleType : SimpleTypeKind → TypeData
  | .unknown => .unknown
  | .tinyInteger => .int1
  | .smallInteger => .int2
  | .integer => .int4
  | .bigInteger => .int8
  | .float_ => .float4
  | .real => .float4
  | .doublePrecision => .float8
  | .boolean => .boolean
  | .date => .date
  | .binaryLargeObject => .blob
  | .characterLargeObject => .clob

/-- The length of a character, bit or octet string type; `kind` is how its message calls it. -/
def analyzeStringLength (kind : String) (varying : Bool) (length : Option Nat) :
    Analysis ρ (Option Nat) :=
  match length with
  | some n =>
    if n = flexibleSize then
      if varying then return none
      else reject .flexibleLengthIsNotSupported
        [.text "flexible length is not supported in char type"]
    else if n = 0 then reject .invalidTypeLength [.text (kind ++ " type must not be empty")]
    else return some n
  | none => return if varying then none else some 1

/-- A precision or scale, where `*` stands for an open one. -/
def openSize (n : Nat) : Option Nat := if n = flexibleSize then none else some n

/-- `type::decimal`. -/
def analyzeDecimalType (precision scale : Option Nat) : Analysis ρ TypeData :=
  let maxPrecision := env.options.maxDecimalPrecision
  let p := match precision with
    | some n => openSize n
    | none => env.options.defaultDecimalPrecision
  let q := match scale with
    | some n => openSize n
    | none => some 0
  if p = some 0 then
    reject .invalidTypeLength [.text "decimal type precision must not be zero"]
  else if p.any (maxPrecision < ·) then
    reject .invalidTypeLength [.text "too large decimal precision: ", .size (p.getD 0),
      .text " (max precision is ", .size maxPrecision, .text ")"]
  else if q.any (p.getD maxPrecision < ·) then
    reject .invalidNumericScale [.text "too large scale value: ", .size (q.getD 0)]
  else return .decimal p q

/-- `type::binary_numeric`: the smallest type that holds the precision. -/
def analyzeBinaryNumericType (kind : BinaryNumericKind) (precision : Option Nat) :
    Analysis ρ TypeData :=
  let o := env.options
  match kind, precision.bind openSize with
  | .binaryInteger, none => return .int8
  | .binaryInteger, some n =>
    if n = 0 then reject .invalidTypeLength [.text "integer type precision must not be zero"]
    else if n ≤ o.maxBinaryInteger1Precision then return .int1
    else if n ≤ o.maxBinaryInteger2Precision then return .int2
    else if n ≤ o.maxBinaryInteger4Precision then return .int4
    else if n ≤ o.maxBinaryInteger8Precision then return .int8
    else reject .invalidTypeLength [.text "too large integer precision: ", .size n,
      .text " (max precision is ", .size o.maxBinaryInteger8Precision, .text ")"]
  | .binaryFloat, none => return .float8
  | .binaryFloat, some n =>
    if n = 0 then reject .invalidTypeLength [.text "float type precision must not be zero"]
    else if n ≤ o.maxBinaryFloat4Precision then return .float4
    else if n ≤ o.maxBinaryFloat8Precision then return .float8
    else reject .invalidTypeLength [.text "too large float precision: ", .size n,
      .text " (max precision is ", .size o.maxBinaryFloat8Precision, .text ")"]

/-- `analyze_type`. -/
def analyzeType : TypeNode → Analysis ρ TypeData
  | .simple kind => return analyzeSimpleType kind
  | .characterString varying length => do
    return .character varying (← analyzeStringLength "character" varying length)
  | .bitString varying length => do
    return .bit varying (← analyzeStringLength "bit" varying length)
  | .octetString varying length => do
    return .octet varying (← analyzeStringLength "binary" varying length)
  | .decimal precision scale => analyzeDecimalType env precision scale
  | .binaryNumeric kind precision => analyzeBinaryNumericType env kind precision
  | .datetime .time hasTimeZone => return .timeOfDay (hasTimeZone == some true)
  | .datetime .timestamp hasTimeZone => return .timePoint (hasTimeZone == some true)
  | .userDefined name =>
    reject .unsupportedFeature [.text "user defined type is not supported: ", .name name]
  | .unsupported _ => reject .unsupportedFeature [.text "unsupported type: ", .node]

end Mizugaki.Analyzer
