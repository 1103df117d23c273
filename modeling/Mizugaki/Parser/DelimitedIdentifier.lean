import Mizugaki.Data.Doubling
import Mizugaki.Parser.Scanner

/-! Delimited identifiers. What the rule of delimited identifiers matches are the names with each
double quote doubled, between double quotes; the driver reads the name back, and looks for a
restricted name before it does. -/

namespace Mizugaki.Parser

open Mizugaki.Data.Doubling Mizugaki.Data.Lexer RegularExpression

variable {name rest w result : List Char} {c : Char} {s : String} {p : Char → Bool}

/-- The delimiter of identifiers. -/
def delimiter : Char := '"'

/-- A name as it is written. -/
def writeDelimited (name : List Char) : List Char :=
  delimiter :: (double delimiter name ++ [delimiter])

/-- A character of the names that can be written. -/
def IsWritable (c : Char) : Prop := c.toNat < 256 ∧ (c = delimiter ∨ isNondoublequoteCharacter c)

/-! ### The driver -/

theorem decodeDelimited_double :
    SqlDriver.decodeDelimited result false (double delimiter name) = (result ++ name, false) := by
  induction name generalizing result with
  | nil => simp [double, SqlDriver.decodeDelimited]
  | cons c cs ih =>
    rw [double]
    by_cases hc : c = delimiter
    · rw [if_pos hc, SqlDriver.decodeDelimited, if_neg Bool.false_ne_true,
        if_pos (show delimiter = '"' from rfl), SqlDriver.decodeDelimited, if_pos rfl, ih, hc,
        List.append_assoc]
      rfl
    · rw [if_neg hc, SqlDriver.decodeDelimited, if_neg Bool.false_ne_true,
        if_neg (show ¬ c = '"' from hc), ih, List.append_assoc]
      rfl

theorem parseDelimitedIdentifier_write :
    SqlDriver.parseDelimitedIdentifier (writeDelimited name) = (name, false) := by
  have hbody : ((writeDelimited name).drop 1).dropLast = double delimiter name :=
    List.dropLast_concat
  rw [SqlDriver.parseDelimitedIdentifier, hbody, decodeDelimited_double]
  rfl

theorem checkDelimitedIdentifier_cons :
    SqlDriver.checkDelimitedIdentifier (c :: rest) = SqlDriver.checkRegularIdentifier rest := by
  cases rest with
  | nil => rfl
  | cons a rest => cases rest <;> rfl

/-- The characters after the delimiter are underscores exactly if those of the name are. -/
theorem checkDelimitedIdentifier_write :
    SqlDriver.checkDelimitedIdentifier (writeDelimited name) = !(['_', '_'].isPrefixOf name) := by
  rw [writeDelimited, checkDelimitedIdentifier_cons, checkRegularIdentifier_eq,
    isPrefixOf_double (by decide)]

/-! ### The pattern -/

theorem mem_doubleQuote : w ∈ Pattern.doubleQuote.matches' ↔ w = [delimiter] := by
  rw [Pattern.doubleQuote, mem_text]
  constructor
  · rintro ⟨hbytes, hfold⟩
    obtain ⟨c, rfl, hc⟩ := List.map_eq_singleton_iff.mp hfold
    have hall : (bytes.all fun c => c.toUpper != '"' || c == '"') = true := by decide +kernel
    have hbyte := forall_byte hall (hbytes c List.mem_cons_self)
    have hupper : c.toUpper = '"' := hc
    rw [hupper] at hbyte
    exact congrArg ([·]) (beq_iff_eq.mp hbyte)
  · rintro rfl
    exact ⟨List.forall_mem_singleton.mpr (by decide), rfl⟩

theorem mem_delimitedIdentifierPart : w ∈ Pattern.delimitedIdentifierPart.matches' ↔
    ∃ c, IsWritable c ∧ w = double delimiter [c] := by
  rw [Pattern.delimitedIdentifierPart, mem_add, mem_charClass, Pattern.doublequoteSymbol, mem_mul]
  constructor
  · rintro (⟨c, hbyte, hc, rfl⟩ | ⟨u, hu, v, hv, rfl⟩)
    · have hne : c ≠ delimiter := by
        rintro rfl
        exact absurd hc (by decide)
      exact ⟨c, ⟨hbyte, .inr hc⟩, by rw [double, if_neg hne, double]⟩
    · rw [mem_doubleQuote.mp hu, mem_doubleQuote.mp hv]
      exact ⟨delimiter, ⟨by decide, .inl rfl⟩, rfl⟩
  · rintro ⟨c, ⟨hbyte, hc⟩, rfl⟩
    by_cases hne : c = delimiter
    · right
      rw [hne]
      exact ⟨_, mem_doubleQuote.mpr rfl, _, mem_doubleQuote.mpr rfl, rfl⟩
    · left
      exact ⟨c, hbyte, hc.resolve_left hne, by rw [double, if_neg hne, double]⟩

theorem double_eq_flatten :
    double delimiter name = (name.map fun c => double delimiter [c]).flatten := by
  induction name with
  | nil => rfl
  | cons c cs ih =>
    rw [List.map_cons, List.flatten_cons, ← ih, double, double]
    by_cases hc : c = delimiter
    · rw [if_pos hc, if_pos hc]
      rfl
    · rw [if_neg hc, if_neg hc]
      rfl

/-- What the rule of delimited identifiers matches. -/
theorem mem_delimitedIdentifier : w ∈ Pattern.delimitedIdentifier.matches' ↔
    ∃ name, name ≠ [] ∧ (∀ c ∈ name, IsWritable c) ∧ w = writeDelimited name := by
  rw [Pattern.delimitedIdentifier, mem_mul]
  constructor
  · rintro ⟨u, hu, v, hv, rfl⟩
    obtain ⟨body, hbody, last, hlast, rfl⟩ := mem_mul.mp hv
    obtain ⟨parts, hne, rfl, hparts⟩ := mem_some.mp hbody
    rw [mem_doubleQuote.mp hu, mem_doubleQuote.mp hlast]
    have hname : ∃ name : List Char, (∀ c ∈ name, IsWritable c) ∧
        parts = name.map fun c => double delimiter [c] := by
      clear hne hu hv hbody hlast
      induction parts with
      | nil => exact ⟨[], by simp, rfl⟩
      | cons part parts ih =>
        obtain ⟨c, hc, hpart⟩ := mem_delimitedIdentifierPart.mp (hparts part List.mem_cons_self)
        obtain ⟨name, hname, hparts⟩ := ih fun part hp => hparts part (List.mem_cons_of_mem _ hp)
        exact ⟨c :: name, List.forall_mem_cons.mpr ⟨hc, hname⟩, by rw [hpart, hparts]; rfl⟩
    obtain ⟨name, hname, rfl⟩ := hname
    refine ⟨name, fun hnil => hne (by rw [hnil]; rfl), hname, ?_⟩
    rw [writeDelimited, double_eq_flatten]
    rfl
  · rintro ⟨name, hne, hname, rfl⟩
    refine ⟨[delimiter], mem_doubleQuote.mpr rfl, double delimiter name ++ [delimiter], ?_, rfl⟩
    refine mem_mul.mpr ⟨_, mem_some.mpr ⟨name.map fun c => double delimiter [c], ?_, ?_, ?_⟩,
      [delimiter], mem_doubleQuote.mpr rfl, rfl⟩
    · exact mt List.map_eq_nil_iff.mp hne
    · exact double_eq_flatten
    · intro part hpart
      obtain ⟨c, hc, rfl⟩ := List.mem_map.mp hpart
      exact mem_delimitedIdentifierPart.mpr ⟨c, hname c hc, rfl⟩

/-! ### The scanner -/

/-- Patterns whose matches do not begin with a double quote. -/
abbrev StartsPlain (p : RegularExpression Char) : Prop := StartsIn (· ≠ delimiter) p

theorem startsPlain_text (h : (s.toList.head?.any fun c => c.toUpper != delimiter) = true) :
    StartsPlain (text s) := by
  obtain ⟨c, hc, hupper⟩ := (Option.any_eq_true _ _).mp h
  obtain ⟨cs, hs⟩ := List.head?_eq_some_iff.mp hc
  refine startsIn_text ⟨c, cs, hs, fun b _ hb hdelimiter => ?_⟩
  rw [hdelimiter] at hb
  rw [← hb] at hupper
  exact absurd hupper (by decide)

theorem startsPlain_charClass (h : p delimiter = false) : StartsPlain (charClass p) := by
  refine startsIn_charClass fun b hb hdelimiter => ?_
  rw [hdelimiter, h] at hb
  cases hb

theorem startsPlain_digits : StartsPlain Pattern.unsignedInteger :=
  (startsPlain_charClass (by decide)).mul

theorem phraseRules_plain : ∀ rule ∈ phraseRules, StartsPlain rule.pattern := by
  intro rule hrule
  simp only [phraseRules, List.mem_cons, List.not_mem_nil, or_false] at hrule
  rcases hrule with rfl | rfl | rfl | rfl | rfl | rfl
  · exact (startsPlain_charClass (by decide)).mul
  · exact startsPlain_text (by decide)
  · exact startsPlain_text (by decide)
  · exact (startsPlain_text (by decide)).mul
  · exact (startsPlain_text (by decide)).mul
  · exact (startsPlain_text (by decide)).mul

theorem textRules_plain : ∀ r ∈ textRules, StartsPlain r.rule.pattern := by
  have hall : ∀ r ∈ textRules,
      (r.text.toList.head?.any fun c => c.toUpper != delimiter) = true := by
    decide +kernel
  exact fun r hr => startsPlain_text (hall r hr)

theorem identifierRule_plain : StartsPlain identifierRule.pattern :=
  (startsPlain_charClass (by decide)).mul

/-- The rules of errors match a double quote, and alone; the rules of literals do not. -/
theorem literalRules_not_mem (hrest : rest ≠ []) :
    ∀ rule ∈ literalRules, delimiter :: rest ∉ rule.pattern.matches' := by
  have hsingle : ∀ p : Char → Bool, delimiter :: rest ∉ (charClass p).matches' := by
    intro p hmem
    obtain ⟨c, -, -, heq⟩ := mem_charClass.mp hmem
    exact hrest (List.cons.inj heq).2
  intro rule hrule
  simp only [literalRules, List.mem_cons, List.not_mem_nil, or_false] at hrule
  rcases hrule with rfl | rfl | rfl | rfl | rfl | rfl | rfl | rfl
  · exact StartsIn.not_mem (startsPlain_text (by decide)).mul (fun h => h rfl)
  · exact StartsIn.not_mem startsPlain_digits (fun h => h rfl)
  · exact StartsIn.not_mem startsPlain_digits.mul (fun h => h rfl)
  · exact StartsIn.not_mem (StartsIn.mul (startsPlain_digits.add startsPlain_digits.mul))
      (fun h => h rfl)
  · exact StartsIn.not_mem (startsPlain_text (by decide)).mul (fun h => h rfl)
  · exact StartsIn.not_mem (startsPlain_text (by decide)).mul (fun h => h rfl)
  · have hlead : ∀ low high, 0x80 ≤ low → StartsPlain (Pattern.inRange low high) := by
      intro low high hlow
      refine startsPlain_charClass (Bool.and_eq_false_iff.mpr (.inl (decide_eq_false fun h => ?_)))
      exact absurd (hlow.trans h) (by decide)
    intro hmem
    rcases mem_add.mp hmem with hmem | hmem
    · exact hsingle _ hmem
    · refine StartsIn.not_mem (StartsIn.add (hlead _ _ ?_).mul
        (StartsIn.add (hlead _ _ ?_).mul (hlead _ _ ?_).mul)) (fun h => h rfl) hmem <;> decide
  · exact hsingle _

/-- Of the rules only that of delimited identifiers matches more than a double quote. -/
theorem firstRule_delimiter (hrest : rest ≠ []) :
    firstRule rules (delimiter :: rest) =
      if delimitedIdentifierRule.pattern.rmatch (delimiter :: rest) then
        some delimitedIdentifierRule
      else none := by
  have hplain : ∀ {p : RegularExpression Char}, StartsPlain p → delimiter :: rest ∉ p.matches' :=
    fun h => h.not_mem fun h => h rfl
  have htext : ∀ rule ∈ textRules.map TextRule.rule, delimiter :: rest ∉ rule.pattern.matches' := by
    intro rule hrule
    obtain ⟨r, hr, rfl⟩ := List.mem_map.mp hrule
    exact hplain (textRules_plain r hr)
  rw [rules, firstRule_append fun rule hrule => hplain (phraseRules_plain rule hrule),
    firstRule_append htext, ← List.singleton_append, firstRule_append]
  · by_cases h : delimitedIdentifierRule.pattern.rmatch (delimiter :: rest)
    · rw [if_pos h]
      exact firstRule_cons ((rmatch_iff_matches' _ _).mp h)
    · rw [if_neg h, ← List.singleton_append, firstRule_append]
      · exact firstRule_eq_none.mpr (literalRules_not_mem hrest)
      · intro rule hrule
        rw [List.mem_singleton.mp hrule, ← rmatch_iff_matches']
        exact h
  · intro rule hrule
    rw [List.mem_singleton.mp hrule]
    exact hplain identifierRule_plain

theorem writeDelimited_tail_ne_nil : double delimiter name ++ [delimiter] ≠ [] := by simp

/-- A written name is scanned whole, unless a double quote comes next. -/
theorem longest_writeDelimited (hname : name ≠ []) (hchars : ∀ c ∈ name, IsWritable c)
    (hrest : rest.head? ≠ some delimiter) :
    longest rules (writeDelimited name ++ rest) =
      some (writeDelimited name, delimitedIdentifierRule) := by
  refine longest_append (by simp [writeDelimited]) ?_ fun u v hu hsplit => ?_
  · rw [writeDelimited, firstRule_delimiter writeDelimited_tail_ne_nil, if_pos]
    exact (rmatch_iff_matches' _ _).mpr (mem_delimitedIdentifier.mpr ⟨name, hname, hchars, rfl⟩)
  · have hhead : u.head? ≠ some delimiter := by
      rw [hsplit, List.head?_append_of_ne_nil u hu] at hrest
      exact hrest
    have hnot : writeDelimited name ++ u ∉ Pattern.delimitedIdentifier.matches' := by
      intro hmem
      obtain ⟨name', -, -, heq⟩ := mem_delimitedIdentifier.mp hmem
      have htail : double delimiter name ++ [delimiter] ++ u =
          double delimiter name' ++ [delimiter] := (List.cons.inj heq).2
      rw [List.append_assoc, List.singleton_append] at htail
      exact hhead (head?_of_double_append htail hu)
    have hcons : writeDelimited name ++ u =
        delimiter :: (double delimiter name ++ [delimiter] ++ u) := rfl
    rw [hcons, firstRule_delimiter (by simp), if_neg]
    rw [rmatch_iff_matches']
    exact hnot

/-- A name that is written is scanned as one delimited identifier, restricted or not, and read back;
what the rule of delimited identifiers matches is read without a pending escape and is the name that
is read, as it is written; the check rejects it exactly if that name starts with two underscores. -/
theorem delimitedIdentifier_read :
    (∀ name rest, name ≠ [] → (∀ c ∈ name, IsWritable c) → rest.head? ≠ some delimiter →
      scan (writeDelimited name ++ rest) = some (writeDelimited name,
          if ['_', '_'].isPrefixOf name then .emit ⟨.delimitedIdentifierRestricted, none⟩
          else .emit ⟨.delimitedIdentifier, some (writeDelimited name)⟩) ∧
        SqlDriver.parseDelimitedIdentifier (writeDelimited name) = (name, false)) ∧
    ∀ w ∈ Pattern.delimitedIdentifier.matches',
      (SqlDriver.parseDelimitedIdentifier w).2 = false ∧
        writeDelimited (SqlDriver.parseDelimitedIdentifier w).1 = w ∧
        (SqlDriver.checkDelimitedIdentifier w = false ↔
          ['_', '_'] <+: (SqlDriver.parseDelimitedIdentifier w).1) := by
  constructor
  · intro name rest hname hchars hrest
    refine ⟨?_, parseDelimitedIdentifier_write⟩
    have haction : delimitedIdentifierRule.action (writeDelimited name) =
        if ['_', '_'].isPrefixOf name then .emit ⟨.delimitedIdentifierRestricted, none⟩
        else .emit ⟨.delimitedIdentifier, some (writeDelimited name)⟩ := by
      show (if !SqlDriver.checkDelimitedIdentifier (writeDelimited name) then _ else _) = _
      rw [checkDelimitedIdentifier_write, Bool.not_not]
    rw [scan, longest_writeDelimited hname hchars hrest, Option.map_some, haction]
  · intro w hw
    obtain ⟨name, hname, hchars, rfl⟩ := mem_delimitedIdentifier.mp hw
    rw [parseDelimitedIdentifier_write]
    refine ⟨rfl, rfl, ?_⟩
    rw [checkDelimitedIdentifier_write, Bool.not_eq_false', List.isPrefixOf_iff_prefix]

/-- The name `a"b` before a comma. -/
theorem delimitedIdentifier_read_quote :
    scan "\"a\"\"b\",".toList =
        some ("\"a\"\"b\"".toList, .emit ⟨.delimitedIdentifier, some "\"a\"\"b\"".toList⟩) ∧
      SqlDriver.parseDelimitedIdentifier "\"a\"\"b\"".toList = ("a\"b".toList, false) :=
  delimitedIdentifier_read.1 "a\"b".toList [','] (by decide)
    (by simp [IsWritable, isNondoublequoteCharacter, delimiter]) (by decide)

end Mizugaki.Parser
