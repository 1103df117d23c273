import Mathlib.Algebra.Ring.Int.Defs
import Mathlib.Algebra.Ring.Nat

/-! Names, literals and types of the syntax tree. Source regions are left out
throughout: no analysis branches on them. -/

namespace Mizugaki.Ast

inductive IdentifierKind where
  | regular | delimited
  deriving DecidableEq, Repr

/-- `name::simple`. -/
structure SimpleName where
  identifier : String
  identifierKind : IdentifierKind
  deriving DecidableEq, Repr

/-- `name::name`: a simple name, or a qualifier followed by a last name. -/
inductive Name where
  | simple (last : SimpleName)
  | qualified (qualifier : Name) (last : SimpleName)
  deriving DecidableEq, Repr

namespace Name

def lastName : Name → SimpleName
  | simple last => last
  | qualified _ last => last

end Name

/-! ### Literals -/

inductive Sign where
  | plus | minus
  deriving DecidableEq, Repr

inductive BooleanKind where
  | true_ | false_ | unknown
  deriving DecidableEq, Repr

inductive StringKind where
  | characterString | bitString | hexString
  deriving DecidableEq, Repr

inductive DatetimeKind where
  | date | time | timeWithTimeZone | timestamp | timestampWithTimeZone
  deriving DecidableEq, Repr

/-- The unsigned value of an exact numeric literal, as the scanner admits it:
digits, most significant first, with an optional fraction part. -/
structure ExactNumeric where
  digits : List (Fin 10)
  fraction : Option (List (Fin 10))
  deriving DecidableEq, Repr

/-- A literal without fraction, by its decimal digits. -/
def ExactNumeric.ofDigits (digits : List Nat) : ExactNumeric :=
  ⟨digits.map fun d => ⟨d % 10, Nat.mod_lt d (Nat.succ_pos 9)⟩, none⟩

/-- `literal::literal`. A `char` of a string body is a `Char` below 256. -/
inductive Literal where
  | boolean (value : BooleanKind)
  | exactNumeric (sign : Option Sign) (unsignedValue : ExactNumeric)
  | approximateNumeric (sign : Option Sign) (unsignedValue : List Char)
  | string (kind : StringKind) (value : List Char) (concatenations : List (List Char))
  | datetime (kind : DatetimeKind) (value : List Char)
  | interval (value : List Char)
  | null
  | empty
  | default_
  deriving DecidableEq, Repr

/-! ### Types -/

/-- The size that stands for `*`: `static_cast<std::size_t>(-1)`. -/
def flexibleSize : Nat := 2 ^ 64 - 1

inductive SimpleTypeKind where
  | unknown | characterLargeObject | binaryLargeObject | tinyInteger | smallInteger | integer
  | bigInteger | float_ | real | doublePrecision | boolean | date
  deriving DecidableEq, Repr

inductive BinaryNumericKind where
  | binaryInteger | binaryFloat
  deriving DecidableEq, Repr

inductive DatetimeTypeKind where
  | time | timestamp
  deriving DecidableEq, Repr

/-- The type kinds that have no analysis. -/
inductive UnsupportedTypeKind where
  | interval | row | collection
  deriving DecidableEq, Repr

/-- `type::type`. -/
inductive TypeNode where
  | simple (kind : SimpleTypeKind)
  | characterString (varying : Bool) (length : Option Nat)
  | bitString (varying : Bool) (length : Option Nat)
  | octetString (varying : Bool) (length : Option Nat)
  | decimal (precision scale : Option Nat)
  | binaryNumeric (kind : BinaryNumericKind) (precision : Option Nat)
  | datetime (kind : DatetimeTypeKind) (hasTimeZone : Option Bool)
  | userDefined (name : Name)
  | unsupported (kind : UnsupportedTypeKind)
  deriving DecidableEq, Repr

end Mizugaki.Ast
