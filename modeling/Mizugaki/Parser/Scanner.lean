import Mizugaki.Data.Lexer
import Mizugaki.Parser.Token

/-! The rules of the scanner outside comments, in their order. The scanner reads bytes, so a
character is a byte throughout, and does not distinguish the case of letters. -/

namespace Mizugaki.Parser

open Mizugaki.Data.Lexer RegularExpression

/-! ### Identifiers in the driver -/

namespace SqlDriver

/-- `check_regular_identifier`. -/
def checkRegularIdentifier : List Char → Bool
  | c :: c' :: _ => c != '_' || c' != '_'
  | _ => true

/-- `check_delimited_identifier`. -/
def checkDelimitedIdentifier : List Char → Bool
  | _ :: c :: c' :: _ => c != '_' || c' != '_'
  | _ => true

/-- The loop of `parse_delimited_identifier`, with whether it ends after an escape. -/
def decodeDelimited (result : List Char) (sawEscape : Bool) : List Char → List Char × Bool
  | [] => (result, sawEscape)
  | c :: rest =>
    if sawEscape then decodeDelimited (result ++ [c]) false rest
    else if c = '"' then decodeDelimited result true rest
    else decodeDelimited (result ++ [c]) false rest

/-- `parse_delimited_identifier`, of the text between the delimiters. -/
def parseDelimitedIdentifier (str : List Char) : List Char × Bool :=
  decodeDelimited [] false (str.drop 1).dropLast

end SqlDriver

/-! ### Patterns -/

/-- The characters of a document. -/
def bytes : List Char := (List.range 256).map Char.ofNat

/-- The characters that have a property. -/
def charClass (p : Char → Bool) : RegularExpression Char := oneOf (bytes.filter p)

/-- A text, whatever the case of its letters. -/
def text (s : String) : RegularExpression Char :=
  sequence (s.toList.map fun c => bytes.filter fun b => b.toUpper == c.toUpper)

def isSpace (c : Char) : Bool := c == ' ' || ('\t' ≤ c && c ≤ '\r')

def isIdentifierStart (c : Char) : Bool := c.isAlpha || c == '_'

def isIdentifierPart (c : Char) : Bool := c.isAlpha || c.isDigit || c == '_'

def isNondoublequoteCharacter (c : Char) : Bool :=
  c != '"' && !(c.toNat ≤ 0x1F) && c.toNat != 0x7F

def isNonquoteCharacter (c : Char) : Bool := c != '\''

namespace Pattern

def space : RegularExpression Char := some_ (charClass isSpace)

def identifier : RegularExpression Char :=
  charClass isIdentifierStart * star (charClass isIdentifierPart)

def doubleQuote : RegularExpression Char := text "\""

def doublequoteSymbol : RegularExpression Char := doubleQuote * doubleQuote

def delimitedIdentifierPart : RegularExpression Char :=
  charClass isNondoublequoteCharacter + doublequoteSymbol

def delimitedIdentifier : RegularExpression Char :=
  doubleQuote * (some_ delimitedIdentifierPart * doubleQuote)

def quote : RegularExpression Char := text "'"

def quoteSymbol : RegularExpression Char := quote * quote

def characterRepresentation : RegularExpression Char :=
  charClass isNonquoteCharacter + quoteSymbol

def characterStringLiteral : RegularExpression Char :=
  quote * (star characterRepresentation * quote)

def hexStringLiteral : RegularExpression Char := text "X" * characterStringLiteral

def sign : RegularExpression Char := charClass fun c => c == '+' || c == '-'

def unsignedInteger : RegularExpression Char := some_ (charClass Char.isDigit)

def signedInteger : RegularExpression Char := optional sign * unsignedInteger

def decimal : RegularExpression Char := unsignedInteger * (text "." * unsignedInteger)

def mantissa : RegularExpression Char := unsignedInteger + decimal

def approximateNumericLiteral : RegularExpression Char :=
  mantissa * (text "E" * signedInteger)

def unionJoin : RegularExpression Char := text "UNION" * (space * text "JOIN")

def outerApply : RegularExpression Char := text "OUTER" * (space * text "APPLY")

def dotAsterisk : RegularExpression Char := text "." * (star (charClass isSpace) * text "*")

def hostParameterName : RegularExpression Char := text ":" * identifier

def inRange (low high : Nat) : RegularExpression Char :=
  charClass fun c => low ≤ c.toNat && c.toNat ≤ high

/-- `UTF8_CHAR`. -/
def utf8Char : RegularExpression Char :=
  let continuation := inRange 0x80 0xBF
  inRange 0x00 0x7F + (inRange 0xC2 0xDF * continuation +
    (inRange 0xE0 0xEF * (continuation * continuation) +
      inRange 0xF0 0xF4 * (continuation * (continuation * continuation))))

end Pattern

/-! ### Rules -/

/-- A token, with the text of those that carry it. -/
structure Token where
  kind : TokenKind
  image : Option (List Char) := none
  deriving DecidableEq, Repr

/-- What a rule does with its match. -/
inductive Action where
  | skip
  | enterBracketedComment
  | enterSimpleComment
  | emit (token : Token)
  | emitPlaceholder (token : Token)
  deriving DecidableEq, Repr

abbrev ScannerRule := Rule Char Action

/-- A rule that emits a token with the text of its match. -/
def imageRule (pattern : RegularExpression Char) (kind : TokenKind) : ScannerRule :=
  ⟨pattern, fun w => .emit ⟨kind, some w⟩⟩

/-- A rule that emits a token alone. -/
def plainRule (pattern : RegularExpression Char) (kind : TokenKind) : ScannerRule :=
  ⟨pattern, fun _ => .emit ⟨kind, none⟩⟩

def TextRule.rule (r : TextRule) : ScannerRule :=
  ⟨Parser.text r.text, fun w =>
    let token : Token := ⟨r.kind, if r.image then some w else none⟩
    if r.placeholder then .emitPlaceholder token else .emit token⟩

/-- The rules of white space, comments and phrases. -/
def phraseRules : List ScannerRule := [
  ⟨Pattern.space, fun _ => .skip⟩,
  ⟨text "/*", fun _ => .enterBracketedComment⟩,
  ⟨text "--", fun _ => .enterSimpleComment⟩,
  plainRule Pattern.unionJoin .unionJoin,
  plainRule Pattern.outerApply .outerApply,
  plainRule Pattern.dotAsterisk .dotAsterisk]

def textRules : List TextRule := operatorRules ++ keywordRules

def identifierRule : ScannerRule :=
  ⟨Pattern.identifier, fun w =>
    if !SqlDriver.checkRegularIdentifier w then .emit ⟨.regularIdentifierRestricted, none⟩
    else .emit ⟨.regularIdentifier, some w⟩⟩

def delimitedIdentifierRule : ScannerRule :=
  ⟨Pattern.delimitedIdentifier, fun w =>
    if !SqlDriver.checkDelimitedIdentifier w then .emit ⟨.delimitedIdentifierRestricted, none⟩
    else .emit ⟨.delimitedIdentifier, some w⟩⟩

/-- The rules of parameters, literals and errors. -/
def literalRules : List ScannerRule := [
  imageRule Pattern.hostParameterName .hostParameterName,
  imageRule Pattern.unsignedInteger .unsignedInteger,
  imageRule Pattern.decimal .exactNumericLiteral,
  imageRule Pattern.approximateNumericLiteral .approximateNumericLiteral,
  imageRule Pattern.characterStringLiteral .characterStringLiteral,
  imageRule Pattern.hexStringLiteral .hexStringLiteral,
  plainRule Pattern.utf8Char .error,
  plainRule (charClass fun _ => true) .error]

def rules : List ScannerRule :=
  phraseRules ++ (textRules.map TextRule.rule ++
    (identifierRule :: delimitedIdentifierRule :: literalRules))

/-- The next match outside a comment, and what is done with it; at the end there is none. -/
def scan (input : List Char) : Option (List Char × Action) :=
  (longest rules input).map fun found => (found.1, found.2.action found.1)

/-! ### Matches -/

variable {c : Char} {w : List Char} {p : Char → Bool} {s : String}

/-- The letters of a word in one case. -/
def foldCase (w : List Char) : List Char := w.map Char.toUpper

theorem mem_bytes : c ∈ bytes ↔ c.toNat < 256 := by
  rw [bytes, List.mem_map]
  constructor
  · rintro ⟨n, hn, rfl⟩
    have hbytes : ∀ n ∈ List.range 256, (Char.ofNat n).toNat < 256 := by decide +kernel
    exact hbytes n hn
  · intro h
    exact ⟨c.toNat, List.mem_range.mpr h, Char.ofNat_toNat c⟩

/-- What is computed of each byte. -/
theorem forall_byte (h : bytes.all p = true) (hc : c.toNat < 256) : p c = true :=
  List.all_eq_true.mp h c (mem_bytes.mpr hc)

theorem mem_charClass :
    w ∈ (charClass p).matches' ↔ ∃ c, c.toNat < 256 ∧ p c ∧ w = [c] := by
  rw [charClass, mem_oneOf]
  constructor
  · rintro ⟨c, hc, rfl⟩
    obtain ⟨hbyte, hp⟩ := List.mem_filter.mp hc
    exact ⟨c, mem_bytes.mp hbyte, hp, rfl⟩
  · rintro ⟨c, hbyte, hp, rfl⟩
    exact ⟨c, List.mem_filter.mpr ⟨mem_bytes.mpr hbyte, hp⟩, rfl⟩

theorem mem_star_charClass :
    w ∈ (star (charClass p)).matches' ↔ ∀ c ∈ w, c.toNat < 256 ∧ p c := by
  rw [charClass, mem_star_oneOf]
  refine forall₂_congr fun c _ => ?_
  rw [List.mem_filter, mem_bytes]

theorem mem_text :
    w ∈ (text s).matches' ↔
      (∀ c ∈ w, c.toNat < 256) ∧ foldCase w = foldCase s.toList := by
  rw [text, mem_sequence, foldCase, foldCase]
  generalize s.toList = chars
  induction chars generalizing w with
  | nil =>
    rw [List.map_nil, List.forall₂_nil_right_iff, List.map_nil, List.map_eq_nil_iff]
    constructor
    · rintro rfl
      exact ⟨fun c hc => (by cases hc), rfl⟩
    · exact And.right
  | cons c' chars ih =>
    rw [List.map_cons, List.forall₂_cons_right_iff]
    cases w with
    | nil => simp
    | cons c w =>
      constructor
      · rintro ⟨_, _, hc, hw, heq⟩
        obtain ⟨rfl, rfl⟩ := List.cons.inj heq
        obtain ⟨hbyte, hupper⟩ := List.mem_filter.mp hc
        obtain ⟨hbytes, hfold⟩ := ih.mp hw
        refine ⟨List.forall_mem_cons.mpr ⟨mem_bytes.mp hbyte, hbytes⟩, ?_⟩
        rw [List.map_cons, List.map_cons, hfold, beq_iff_eq.mp hupper]
      · rintro ⟨hbytes, hfold⟩
        obtain ⟨hbyte, hbytes⟩ := List.forall_mem_cons.mp hbytes
        obtain ⟨hupper, hfold⟩ := List.cons.inj hfold
        exact ⟨c, w, List.mem_filter.mpr ⟨mem_bytes.mpr hbyte, beq_iff_eq.mpr hupper⟩,
          ih.mpr ⟨hbytes, hfold⟩, rfl⟩

/-- Restricted identifiers start with two underscores. -/
theorem checkRegularIdentifier_eq :
    SqlDriver.checkRegularIdentifier w = !(['_', '_'].isPrefixOf w) := by
  cases w with
  | nil => rfl
  | cons c w =>
    cases w with
    | nil => simp [SqlDriver.checkRegularIdentifier, List.isPrefixOf]
    | cons c' w =>
      simp only [SqlDriver.checkRegularIdentifier, List.isPrefixOf, Bool.and_true, Bool.not_and]
      rw [Bool.beq_comm, Bool.beq_comm (a := '_')]
      rfl

theorem startsIn_text {kind : Char → Prop} (h : ∃ c cs, s.toList = c :: cs ∧
    ∀ b ∈ bytes, b.toUpper = c.toUpper → kind b) : StartsIn kind (text s) := by
  obtain ⟨c, cs, hs, hkind⟩ := h
  intro w hw
  obtain ⟨hbytes, hfold⟩ := mem_text.mp hw
  rw [hs] at hfold
  cases w with
  | nil => cases hfold
  | cons b w =>
    exact ⟨b, w, rfl, hkind b (mem_bytes.mpr (hbytes b List.mem_cons_self)) (List.cons.inj hfold).1⟩

theorem startsIn_charClass {kind : Char → Prop} (h : ∀ b, p b → kind b) :
    StartsIn kind (charClass p) :=
  StartsIn.oneOf fun c hc => h c (List.mem_filter.mp hc).2

end Mizugaki.Parser
