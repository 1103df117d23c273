import Mizugaki.Analyzer.Context

/-! Literals. An exact numeric literal becomes an integer or a decimal immediate, a
quoted string is decoded from its quotes. In a context of a known type an immediate
of another type is cast to it, when the options ask for that. -/

namespace Mizugaki.Analyzer

open Mizugaki.Ast Mizugaki.Plan

/-- `scalar_value_context`: the type expected of a value, and the value of `DEFAULT`. -/
structure ScalarValueContext where
  type : Option TypeData := none
  defaultValue : Option ValueData := none
  deriving DecidableEq, Repr

/-- `value_context`; `row_value_context` is the list of a row. -/
inductive ValueContext where
  | unspecified
  | scalar (context : ScalarValueContext)
  | row (elements : List ScalarValueContext)
  deriving DecidableEq, Repr

/-- `value_context::find`. -/
def ValueContext.find : ValueContext → Nat → ScalarValueContext
  | .unspecified, _ => {}
  | .scalar context, 0 => context
  | .scalar _, _ + 1 => {}
  | .row elements, position => elements.getD position {}

/-- A literal as analyzed: the value and the type of an immediate. -/
abbrev Immediate := ValueData × TypeData

variable {ρ : Type} (env : Environment ρ)

/-! ### Exact numbers -/

namespace ExactNumeric

open Mizugaki.Ast (ExactNumeric)

def fractionDigits (n : ExactNumeric) : List (Fin 10) := n.fraction.getD []

/-- The number without its decimal point. -/
def coefficient (n : ExactNumeric) : Nat :=
  (n.digits ++ fractionDigits n).foldl (fun c d => 10 * c + d.val) 0

/-- The digits after the decimal point. -/
def scale (n : ExactNumeric) : Nat := (fractionDigits n).length

/-- The number of decimal digits of the coefficient; zero has one. -/
def digitCount (n : ExactNumeric) : Nat :=
  max 1 ((n.digits ++ fractionDigits n).dropWhile (· = 0)).length

/-- `Decimal::isnormal`: the adjusted exponent is not below the least one of a context. -/
def isNormal (n : ExactNumeric) : Bool :=
  decide (coefficient n ≠ 0 ∧ scale n + 1 ≤ decimalMaxPrecision + digitCount n)

end ExactNumeric

/-- `takatori::decimal::triple`: the sign, the words of the coefficient and the exponent. -/
structure Triple where
  sign : Int
  coefficientHigh : Nat
  coefficientLow : Nat
  exponent : Int

namespace Triple

/-- The triple of a decimal. -/
def of (negative : Bool) (coefficient scale : Nat) : Triple where
  sign := if coefficient = 0 then 0 else if negative then -1 else 1
  coefficientHigh := coefficient / 2 ^ 64
  coefficientLow := coefficient % 2 ^ 64
  exponent := -scale

/-- The decimal without its exponent. -/
def value (t : Triple) : Int := t.sign * (t.coefficientHigh * 2 ^ 64 + t.coefficientLow)

end Triple

/-- The integer of 64 bits that a conversion makes of a value. -/
def wrap64 (value : Int) : Int := (value + 2 ^ 63) % 2 ^ 64 - 2 ^ 63

namespace Triple

def positiveMax : Nat := 2 ^ 63 - 1

def negativeMax : Nat := 2 ^ 63

/-- The triple is one of an integer of 64 bits. -/
def isInteger (t : Triple) : Bool :=
  decide (t.exponent = 0) && decide (t.coefficientHigh = 0) &&
    (decide (t.coefficientLow ≤ positiveMax) ||
      (decide (t.sign < 0) && decide (t.coefficientLow ≤ negativeMax)))

/-- The integer of a triple: the conversion of the coefficient, negated under a negative sign. -/
def integer (t : Triple) : Int :=
  let integer := wrap64 t.coefficientLow
  if t.sign < 0 then wrap64 (-integer) else integer

end Triple

/-- `engine::soft_cast`: the value is in the range of a type. -/
def softCast (bits : Nat) (value : Int) : Bool :=
  decide (-(2 ^ (bits - 1) : Int) ≤ value ∧ value < 2 ^ (bits - 1))

/-- The report about a value out of the normal range: the literal is used all the same. -/
def reportNotNormal (n : ExactNumeric) : Analysis ρ Unit :=
  if ExactNumeric.coefficient n ≠ 0 ∧ ExactNumeric.isNormal n = false then
    report .unsupportedDecimalValue [.text "invalid decimal value '", .node, .text "' "]
  else return ()

/-- The immediate of an integer, of the smallest type for it when the options ask for that. -/
def integerImmediate (value : Int) : Immediate :=
  if env.options.preferSmallIntegerLiterals then
    if softCast 8 value then (.int4 value, .int1)
    else if softCast 16 value then (.int4 value, .int2)
    else if softCast 32 value then (.int4 value, .int4)
    else (.int8 value, .int8)
  else (.int8 value, .int8)

/-- The immediate of a decimal, with its precision when the options ask for that. -/
def decimalImmediate (t : Triple) (digits scale : Nat) : Immediate :=
  let precision := if env.options.preferSmallDecimalLiterals then some (max digits scale) else none
  (.decimal t.value t.exponent, .decimal precision (some scale))

/-- `engine::process_exact_numeric`. -/
def processExactNumeric (sign : Option Sign) (n : ExactNumeric) : Analysis ρ Immediate :=
  let maxPrecision := env.options.maxDecimalPrecision
  let digits := ExactNumeric.digitCount n
  let scale := ExactNumeric.scale n
  if maxPrecision < digits ∨ maxPrecision < scale then
    reject .unsupportedDecimalValue
      [.text "invalid decimal value '", .node, .text "' (inexact value by rounding)"]
  else do
    reportNotNormal n
    let triple := Triple.of (sign = some .minus) (ExactNumeric.coefficient n) scale
    if triple.isInteger then return integerImmediate env triple.integer
    else return decimalImmediate env triple digits scale

/-! ### Approximate numbers -/

/-- The bits of a double with its sign changed. -/
def negateDouble (bits : Nat) : Nat := if bits < 2 ^ 63 then bits + 2 ^ 63 else bits - 2 ^ 63

/-- `engine::process_approximate_numeric`. -/
def processApproximateNumeric (sign : Option Sign) (unsignedValue : List Char) :
    Analysis ρ Immediate :=
  match env.parsers.stod unsignedValue with
  | .value bits index =>
    if index ≠ unsignedValue.length then
      reject .invalidNumericScale [.text "invalid numeric value: ", .chars unsignedValue]
    else
      return (.float8 (if sign = some .minus then negateDouble bits else bits), .float8)
  | .invalidArgument =>
    reject .invalidNumericScale [.text "invalid numeric value: ", .chars unsignedValue]
  | .outOfRange =>
    reject .unsupportedApproximateNumber
      [.text "out of range numeric value :", .chars unsignedValue]

/-! ### Strings -/

def quote : Char := '\''

/-- The characters between the quotes of a quoted string. -/
def unquote : List Char → Option (List Char)
  | [] => none
  | c :: rest =>
    if c = quote ∧ rest.getLast? = some quote then some rest.dropLast else none

/-- Count the characters of a string body, where a quote is written twice. -/
def countBody : List Char → Option Nat
  | [] => some 0
  | [c] => if c = quote then none else some 1
  | c :: c' :: rest =>
    if c = quote then
      if c' = quote then (countBody rest).map (· + 1) else none
    else (countBody (c' :: rest)).map (· + 1)

def rejectQuotedString {α : Type} (q : List Char) : Analysis ρ α :=
  reject .malformedQuotedString [.text "invalid quoted string \"", .chars q, .text "\""]

/-- `engine::count_characters`. -/
def countCharacters (q : List Char) : Analysis ρ Nat :=
  match (unquote q).bind countBody with
  | some n => return n
  | none => rejectQuotedString q

/-- The characters of a string body: after a quote the next character is skipped. -/
def decodeBody : List Char → List Char
  | [] => []
  | [c] => [c]
  | c :: c' :: rest => if c = quote then c :: decodeBody rest else c :: decodeBody (c' :: rest)

/-- `engine::append_quoted_string_unchecked`. -/
def appendQuotedStringUnchecked (q : List Char) : List Char := decodeBody q.tail.dropLast

/-- Run a counter over the parts of a string literal and add up. -/
def countParts (count : List Char → Analysis ρ Nat) : List (List Char) → Analysis ρ Nat
  | [] => return 0
  | q :: qs => do
    let n ← count q
    let m ← countParts count qs
    return n + m

/-- `engine::process_character_string`. -/
def processCharacterString (parts : List (List Char)) : Analysis ρ Immediate := do
  let nchars ← countParts countCharacters parts
  let size := if env.options.preferSmallCharacterLiterals then some nchars else none
  return (.character (parts.flatMap appendQuotedStringUnchecked), .character true size)

def isHexDigit (c : Char) : Bool :=
  ('0' ≤ c && c ≤ '9') || ('A' ≤ c && c ≤ 'F') || ('a' ≤ c && c ≤ 'f')

/-- `engine::count_hex_digits`. -/
def countHexDigits (q : List Char) : Analysis ρ Nat :=
  match unquote q with
  | none => rejectQuotedString q
  | some body =>
    let digits := body.filter (· ≠ ' ')
    if ! digits.all isHexDigit then
      reject .malformedQuotedString
        [.text "unexpected character in hex string \"", .chars q, .text "\""]
    else if digits.length % 2 ≠ 0 then
      reject .malformedQuotedString [.text "odd-digit hex string \"", .chars q, .text "\""]
    else return digits.length / 2

/-- `engine::append_quoted_hex_digits_unchecked`, over the parts of a literal. -/
def appendQuotedHexDigitsUnchecked : List (List Char) → Analysis ρ (List Char)
  | [] => return []
  | q :: qs =>
    match env.parsers.parseOctet q.tail.dropLast with
    | .ok octets => do
      let rest ← appendQuotedHexDigitsUnchecked qs
      return octets ++ rest
    | .error e =>
      reject .malformedQuotedString
        [.text "invalid hex string (", .text e, .text "): ", .chars q]

/-- `engine::process_binary_string`. -/
def processBinaryString (parts : List (List Char)) : Analysis ρ Immediate := do
  let nchars ← countParts countHexDigits parts
  let buffer ← appendQuotedHexDigitsUnchecked env parts
  return (.octet buffer, .octet true (some nchars))

/-! ### Dates and times -/

def rejectDatetime {α : Type} (kind : String) (contents : List Char) (reason : String) :
    Analysis ρ α :=
  reject .unsupportedStringValue
    [.text ("invalid " ++ kind ++ " literal: "), .chars contents, .text (" (" ++ reason ++ ")")]

/-- The zone offset of a datetime, or else that of the system, in nanoseconds. -/
def zoneOffset (offset : Option (Bool × Nat × Nat)) : Int :=
  let minutes : Int :=
    match offset with
    | some (plus, hour, minute) => if plus then 60 * hour + minute else -(60 * hour + minute)
    | none => env.options.systemZoneOffset
  minutes * 60000000000

/-- `engine::process_timestamp`. -/
def processTimestamp (contents : List Char) (withTimeZone : Bool) : Analysis ρ Immediate :=
  match env.parsers.parseDatetime contents with
  | .error e => rejectDatetime "datetime" contents e
  | .ok info =>
    if ! withTimeZone && info.offset.isSome then
      rejectDatetime "datetime" contents "unexpected zone offset"
    else
      let ts := if withTimeZone then info.timePoint - zoneOffset env info.offset else info.timePoint
      return (.timePoint ts, .timePoint withTimeZone)

/-- `literal::datetime`. -/
def processDatetime (kind : DatetimeKind) (quoted : List Char) : Analysis ρ Immediate :=
  match unquote quoted with
  | none =>
    reject .malformedQuotedString [.text "invalid quoted string \"", .chars quoted, .text "\"",
      .text " for ", .node, .text " literal"]
  | some contents =>
    match kind with
    | .date =>
      match env.parsers.parseDate contents with
      | .ok value => return (.date value, .date)
      | .error e => rejectDatetime "date" contents e
    | .time =>
      match env.parsers.parseTime contents with
      | .ok value => return (.timeOfDay value, .timeOfDay false)
      | .error e => rejectDatetime "time" contents e
    | .timestamp => processTimestamp env contents false
    | .timestampWithTimeZone => processTimestamp env contents true
    | .timeWithTimeZone =>
      reject .unsupportedFeature [.text "unsupported temporal literal kind: ", .node]

/-! ### All literals -/

/-- `engine::operator()`, over the kinds of literals. -/
def processLiteral (context : ScalarValueContext) : Literal → Analysis ρ Immediate
  | .boolean .unknown => return (.unknown, .boolean)
  | .boolean .true_ => return (.boolean true, .boolean)
  | .boolean .false_ => return (.boolean false, .boolean)
  | .exactNumeric sign n => processExactNumeric env sign n
  | .approximateNumeric sign n => processApproximateNumeric env sign n
  | .string .characterString value concatenations =>
    processCharacterString env (value :: concatenations)
  | .string .hexString value concatenations => processBinaryString env (value :: concatenations)
  | .string .bitString _ _ =>
    reject .unsupportedFeature [.text "unsupported character string literal kind: ", .node]
  | .datetime kind value => processDatetime env kind value
  | .null =>
    match context.type with
    | some t => return (.unknown, t)
    | none =>
      if env.options.allowContextIndependentNull then return (.unknown, .unknown)
      else reject .missingContextOfNull [.text "cannot use 'NULL' here"]
  | .default_ =>
    match context.type, context.defaultValue with
    | some t, some v => return (v, t)
    | _, _ => reject .missingContextOfDefaultValue [.text "cannot use 'DEFAULT' here"]
  | .interval _ | .empty =>
    reject .unsupportedFeature [.text "unsupported literal kind: ", .node]

/-- `analyze_literal`. -/
def analyzeLiteral (literal : Literal) (context : ScalarValueContext) : Analysis ρ Scalar := do
  let (value, type) ← processLiteral env context literal
  match context.type with
  | some t =>
    if env.options.castLiteralsInContext = true ∧ t ≠ type then
      return .cast t .error (.immediate value type)
    else return .immediate value type
  | none => return .immediate value type

end Mizugaki.Analyzer
