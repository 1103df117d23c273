import Mizugaki.Ast.Expression
import Mizugaki.Data.BitSet
import Mizugaki.Parser.Scanner

/-! Keywords. A word in the form of an identifier is scanned by the rule of the keyword that it
spells, and else as an identifier. The rules of two set functions emit the tokens of two others. -/

namespace Mizugaki.Parser

open Mizugaki.Ast Mizugaki.Data Mizugaki.Data.Lexer

variable {w input : List Char} {c : Char} {s : String} {T : TokenKind} {r r' : TextRule}
  {action : Action} {token : Token} {rest : List Token} {e : ScalarExpression}

/-! ### Words -/

/-- A letter or underscore, then letters, digits and underscores. -/
def isIdentifier : List Char → Bool
  | [] => false
  | c :: rest => isIdentifierStart c && rest.all isIdentifierPart

/-- A keyword is a token with an alias in the form of an identifier. -/
def TokenKind.IsKeyword (T : TokenKind) : Prop :=
  ∃ s, T.alias_ = some s ∧ isIdentifier s.toList

/-- A word is the alias of a token, whatever the case of its letters. -/
def TokenKind.Spells (T : TokenKind) (w : List Char) : Prop :=
  ∃ s, T.alias_ = some s ∧ foldCase s.toList = foldCase w

/-! ### Set functions in the grammar -/

/-- `to_string_view` of a set function kind. -/
def toStringView : BuiltinSetFunctionKind → String
  | .avg => "avg" | .max => "max" | .min => "min" | .sum => "sum" | .every => "every"
  | .any => "any" | .some_ => "some" | .count => "count" | .bitAnd => "bit_and"
  | .bitOr => "bit_or" | .boolAnd => "bool_and" | .boolOr => "bool_or"

/-- `computational_operation_except_count`. -/
inductive ComputationalOperationExceptCount : TokenKind → BuiltinSetFunctionKind → Prop
  | avg : ComputationalOperationExceptCount .avg .avg
  | max : ComputationalOperationExceptCount .max .max
  | min : ComputationalOperationExceptCount .min .min
  | sum : ComputationalOperationExceptCount .sum .sum
  | every : ComputationalOperationExceptCount .every .every
  | bitAnd : ComputationalOperationExceptCount .bitAnd .bitAnd
  | bitOr : ComputationalOperationExceptCount .bitOr .bitOr
  | boolAnd : ComputationalOperationExceptCount .boolAnd .boolAnd
  | boolOr : ComputationalOperationExceptCount .boolOr .boolOr

/-- `set_quantifier_opt`. -/
inductive SetQuantifierOpt : List Token → Option SetQuantifier → Prop
  | empty : SetQuantifierOpt [] none
  | all : SetQuantifierOpt [⟨.all, none⟩] (some .all)
  | distinct : SetQuantifierOpt [⟨.distinct, none⟩] (some .distinct)

/-- The derivations of a value expression, which are left open. -/
abbrev ValueExpression := List Token → ScalarExpression → Prop

variable (valueExpression : ValueExpression)

/-- `system_set_function_invocation`. -/
inductive SystemSetFunctionInvocation : List Token → ScalarExpression → Prop
  | countAll : SystemSetFunctionInvocation
      [⟨.count, none⟩, ⟨.leftParen, none⟩, ⟨.asterisk, none⟩, ⟨.rightParen, none⟩]
      (.builtinSetFunctionInvocation .count none [])
  | count {qs es : List Token} {q : Option SetQuantifier} {e : ScalarExpression} :
      SetQuantifierOpt qs q → valueExpression es e →
      SystemSetFunctionInvocation
        (⟨.count, none⟩ :: ⟨.leftParen, none⟩ :: (qs ++ (es ++ [⟨.rightParen, none⟩])))
        (.builtinSetFunctionInvocation .count q [e])
  | computational {T : TokenKind} {kind : BuiltinSetFunctionKind} {qs es : List Token}
      {q : Option SetQuantifier} {e : ScalarExpression} :
      ComputationalOperationExceptCount T kind → SetQuantifierOpt qs q → valueExpression es e →
      SystemSetFunctionInvocation
        (⟨T, none⟩ :: ⟨.leftParen, none⟩ :: (qs ++ (es ++ [⟨.rightParen, none⟩])))
        (.builtinSetFunctionInvocation kind q [e])

/-- What a word is scanned as: the keyword that it spells, and else an identifier; the set function
that it begins is of its name. -/
structure ScannedAsSpelled (w : List Char) (action : Action) : Prop where
  keyword : ∀ T : TokenKind, T.IsKeyword → ((∃ image, action = .emit ⟨T, image⟩) ↔ T.Spells w)
  identifier : (∀ T : TokenKind, T.IsKeyword → ¬ T.Spells w) →
    action =
      if ['_', '_'].isPrefixOf w then .emit ⟨.regularIdentifierRestricted, none⟩
      else .emit ⟨.regularIdentifier, some w⟩
  setFunction : ∀ token rest e, action = .emit token →
    SystemSetFunctionInvocation valueExpression (token :: rest) e →
      ∃ kind q arguments, e = .builtinSetFunctionInvocation kind q arguments ∧
        foldCase (toStringView kind).toList = foldCase w

/-! ### The rules of texts -/

/-- A text as a number. -/
def textCode (w : List Char) : Nat := w.foldl (fun n c => 256 * n + c.toNat) 0

/-- A rule whose token is declared with its text. -/
def TextRule.agrees (r : TextRule) : Bool := r.kind.alias_ == some r.text

/-- The rules whose tokens are declared with other texts. -/
def crossed (s : String) : Bool := s == "BIT_AND" || s == "BIT_OR"

/-- The texts of the rules differ, even modulo a number, and all but two are aliases. -/
theorem textRules_checked :
    (BitSet.distinctFrom 0 (textRules.map fun r => textCode (foldCase r.text.toList) % 7086) &&
      textRules.all fun r => r.agrees || crossed r.text) = true := by
  decide +kernel

/-- The tokens without a rule of their own among the texts. -/
def unspelled : List TokenKind :=
  [.doubleQuote, .dotAsterisk, .unionJoin, .outerApply, .regularIdentifier, .delimitedIdentifier,
    .regularIdentifierRestricted, .delimitedIdentifierRestricted, .unsignedInteger,
    .exactNumericLiteral, .approximateNumericLiteral, .characterStringLiteral, .hexStringLiteral,
    .hostParameterName, .error, .unclosedBlockComment, .endOfFile, .bitAnd, .bitOr]

theorem tokens_checked :
    ((List.range 331).all fun n =>
      (BitSet.ofList ((textRules.filter TextRule.agrees).map (·.kind.ctorIdx))).testBit n ||
        unspelled.contains (TokenKind.ofNat n)) = true := by
  decide +kernel

/-! ### Characters of identifiers -/

theorem isIdentifierPart_of_start (h : isIdentifierStart c) : isIdentifierPart c := by
  simp only [isIdentifierStart, isIdentifierPart, Bool.or_eq_true] at h ⊢
  rcases h with h | h
  · exact .inl (.inl h)
  · exact .inr h

theorem toNat_lt_of_part (h : isIdentifierPart c) : c.toNat < 256 := by
  rw [isIdentifierPart, Bool.or_eq_true, Bool.or_eq_true, beq_iff_eq] at h
  rcases h with (h | h) | rfl
  · rcases Bool.or_eq_true_iff.mp h with h | h
    · exact lt_of_le_of_lt (of_decide_eq_true h).2 (by decide)
    · exact lt_of_le_of_lt (of_decide_eq_true (Bool.and_eq_true_iff.mp h).2) (by decide)
  · exact lt_of_le_of_lt (of_decide_eq_true (Bool.and_eq_true_iff.mp h).2) (by decide)
  · decide

theorem part_of_isIdentifier (h : isIdentifier w) (hc : c ∈ w) : isIdentifierPart c := by
  cases w with
  | nil => cases hc
  | cons c' rest =>
    obtain ⟨hstart, hrest⟩ := Bool.and_eq_true_iff.mp h
    rcases List.mem_cons.mp hc with rfl | hc
    · exact isIdentifierPart_of_start hstart
    · exact List.all_eq_true.mp hrest c hc

theorem toUpper_of_le (h : 256 ≤ c.toNat) : c.toUpper = c := by
  refine dif_neg fun hc => ?_
  have hle : c.toNat ≤ 'z'.toNat := hc.2
  exact absurd (h.trans hle) (by decide)

/-- Whether a character is one of an identifier does not depend on its case. -/
theorem isIdentifierStart_toUpper :
    isIdentifierStart c.toUpper = isIdentifierStart c ∧
      isIdentifierPart c.toUpper = isIdentifierPart c := by
  by_cases h : c.toNat < 256
  · have hall : (bytes.all fun c => isIdentifierStart c.toUpper == isIdentifierStart c &&
        isIdentifierPart c.toUpper == isIdentifierPart c) = true := by
      decide +kernel
    obtain ⟨hstart, hpart⟩ := Bool.and_eq_true_iff.mp (forall_byte hall h)
    exact ⟨beq_iff_eq.mp hstart, beq_iff_eq.mp hpart⟩
  · rw [toUpper_of_le (not_lt.mp h)]
    exact ⟨rfl, rfl⟩

theorem isIdentifier_foldCase : isIdentifier (foldCase w) = isIdentifier w := by
  cases w with
  | nil => rfl
  | cons c rest =>
    have hrest : (rest.map Char.toUpper).all isIdentifierPart = rest.all isIdentifierPart := by
      rw [List.all_map]
      exact congrArg (rest.all ·) (funext fun c => isIdentifierStart_toUpper.2)
    show (isIdentifierStart c.toUpper && (rest.map Char.toUpper).all isIdentifierPart) = _
    rw [isIdentifierStart_toUpper.1, hrest, isIdentifier]

theorem mem_identifier : w ∈ Pattern.identifier.matches' ↔ isIdentifier w := by
  rw [Pattern.identifier, mem_mul]
  constructor
  · rintro ⟨u, hu, v, hv, rfl⟩
    obtain ⟨c, -, hc, rfl⟩ := mem_charClass.mp hu
    rw [mem_star_charClass] at hv
    exact Bool.and_eq_true_iff.mpr ⟨hc, List.all_eq_true.mpr fun c hc => (hv c hc).2⟩
  · intro h
    cases w with
    | nil => cases h
    | cons c rest =>
      obtain ⟨hstart, hrest⟩ := Bool.and_eq_true_iff.mp h
      have hlt := toNat_lt_of_part (isIdentifierPart_of_start hstart)
      refine ⟨[c], mem_charClass.mpr ⟨c, hlt, hstart, rfl⟩, rest, ?_, rfl⟩
      refine mem_star_charClass.mpr fun c hc => ?_
      have hpart := List.all_eq_true.mp hrest c hc
      exact ⟨toNat_lt_of_part hpart, hpart⟩

/-! ### The rule of a word -/

theorem isSpace_of_mem_space (h : w ∈ Pattern.space.matches') : ∃ c ∈ w, isSpace c := by
  obtain ⟨parts, hne, rfl, hparts⟩ := mem_some.mp h
  cases parts with
  | nil => exact absurd rfl hne
  | cons part parts =>
    obtain ⟨c, -, hc, rfl⟩ := mem_charClass.mp (hparts part List.mem_cons_self)
    exact ⟨c, by simp, hc⟩

/-- A phrase has a character that no identifier has. -/
theorem phraseRules_identifier (h : isIdentifier w) :
    ∀ rule ∈ phraseRules, w ∉ rule.pattern.matches' := by
  have htext : ∀ s : String, isIdentifier s.toList = false → w ∉ (text s).matches' := by
    intro s hs hmem
    rw [← isIdentifier_foldCase, ← (mem_text.mp hmem).2, isIdentifier_foldCase] at hs
    rw [h] at hs
    cases hs
  have hspace : ∀ c ∈ w, ¬ isSpace c := by
    intro c hc
    have hall : (bytes.all fun c => !(isIdentifierPart c && isSpace c)) = true := by
      decide +kernel
    have hpart := part_of_isIdentifier h hc
    have hboth := forall_byte hall (toNat_lt_of_part hpart)
    rw [hpart, Bool.true_and, Bool.not_eq_true'] at hboth
    rw [hboth]
    exact Bool.false_ne_true
  have hphrase : ∀ p q : RegularExpression Char, w ∉ (p * (Pattern.space * q)).matches' := by
    intro p q hmem
    obtain ⟨u, hu, rest, hrest, rfl⟩ := mem_mul.mp hmem
    obtain ⟨spaces, hspaces, v, hv, rfl⟩ := mem_mul.mp hrest
    obtain ⟨c, hc, hisSpace⟩ := isSpace_of_mem_space hspaces
    exact hspace c (by simp [hc]) hisSpace
  intro rule hrule
  simp only [phraseRules, List.mem_cons, List.not_mem_nil, or_false] at hrule
  rcases hrule with rfl | rfl | rfl | rfl | rfl | rfl
  · intro hmem
    obtain ⟨c, hc, hisSpace⟩ := isSpace_of_mem_space hmem
    exact hspace c hc hisSpace
  · exact htext "/*" (by decide)
  · exact htext "--" (by decide)
  · exact hphrase _ _
  · exact hphrase _ _
  · intro hmem
    obtain ⟨u, hu, v, hv, rfl⟩ := mem_mul.mp hmem
    obtain ⟨-, hfold⟩ := mem_text.mp hu
    obtain ⟨c, rfl, hc⟩ := List.map_eq_singleton_iff.mp hfold
    have hpart := part_of_isIdentifier h (List.mem_append_left v List.mem_cons_self)
    rw [← isIdentifierStart_toUpper.2, hc] at hpart
    cases hpart

/-- A word is matched by the first text that it spells, and else by the rule of identifiers. -/
theorem firstRule_word (h : isIdentifier w) :
    firstRule rules w =
      match textRules.find? fun r => foldCase r.text.toList == foldCase w with
      | some r => some r.rule
      | none => some identifierRule := by
  have hbyte : ∀ c ∈ w, c.toNat < 256 := fun c hc => toNat_lt_of_part (part_of_isIdentifier h hc)
  have hmatch : ∀ r : TextRule,
      r.rule.pattern.rmatch w = (foldCase r.text.toList == foldCase w) := by
    intro r
    rw [Bool.eq_iff_iff, RegularExpression.rmatch_iff_matches', beq_iff_eq]
    constructor
    · exact fun hmem => (mem_text.mp hmem).2.symm
    · exact fun heq => mem_text.mpr ⟨hbyte, heq.symm⟩
  rw [rules, firstRule_append (phraseRules_identifier h), firstRule, List.find?_append,
    List.find?_map, Function.comp_def]
  simp only [hmatch]
  cases textRules.find? fun r => foldCase r.text.toList == foldCase w with
  | some r => rfl
  | none => exact firstRule_cons (mem_identifier.mpr h)

/-- Rules with one text are one rule. -/
theorem textRules_inj (hr : r ∈ textRules) (hr' : r' ∈ textRules)
    (h : foldCase r.text.toList = foldCase r'.text.toList) : r = r' := by
  have hnodup := BitSet.nodup_of_distinct (Bool.and_eq_true_iff.mp textRules_checked).1
  exact List.inj_on_of_nodup_map hnodup hr hr' (by rw [h])

theorem textRules_agree (hr : r ∈ textRules) :
    r.kind.alias_ = some r.text ∨ crossed r.text := by
  have hall := List.all_eq_true.mp (Bool.and_eq_true_iff.mp textRules_checked).2 r hr
  rw [Bool.or_eq_true] at hall
  exact hall.imp_left beq_iff_eq.mp

theorem exists_textRule (T : TokenKind) :
    (∃ r ∈ textRules, r.kind = T ∧ T.alias_ = some r.text) ∨ T ∈ unspelled := by
  have hall := List.all_eq_true.mp tokens_checked T.ctorIdx
    (List.mem_range.mpr (by cases T <;> decide))
  rw [TokenKind.ofNat_ctorIdx, Bool.or_eq_true, BitSet.testBit_ofList, decide_eq_true_eq,
    List.contains_iff_mem] at hall
  refine hall.imp_left fun hmem => ?_
  obtain ⟨r, hr, hindex⟩ := List.mem_map.mp hmem
  obtain ⟨hr, hagrees⟩ := List.mem_filter.mp hr
  have hkind : r.kind = T := by
    rw [← TokenKind.ofNat_ctorIdx r.kind, hindex, TokenKind.ofNat_ctorIdx]
  refine ⟨r, hr, hkind, ?_⟩
  rw [← hkind]
  exact beq_iff_eq.mp hagrees

/-! ### What a word is scanned as -/

variable {valueExpression}

theorem scan_some (h : scan input = some (w, action)) :
    ∃ rule, firstRule rules w = some rule ∧ action = rule.action w := by
  obtain ⟨⟨w', rule⟩, hlongest, heq⟩ := Option.map_eq_some_iff.mp h
  obtain ⟨rfl, rfl⟩ := Prod.mk.inj heq
  exact ⟨rule, (longest_some hlongest).2.2, rfl⟩

/-- The set function of a token has the name of the token. -/
theorem systemSetFunction_name
    (h : SystemSetFunctionInvocation valueExpression (token :: rest) e) :
    ∃ kind q arguments s, e = .builtinSetFunctionInvocation kind q arguments ∧
      token.kind.alias_ = some s ∧
      foldCase (toStringView kind).toList = foldCase s.toList := by
  cases h with
  | countAll => exact ⟨_, _, _, "COUNT", rfl, rfl, by decide⟩
  | count hq he => exact ⟨_, _, _, "COUNT", rfl, rfl, by decide⟩
  | computational hT hq he =>
    cases hT
    · exact ⟨_, _, _, "AVG", rfl, rfl, by decide⟩
    · exact ⟨_, _, _, "MAX", rfl, rfl, by decide⟩
    · exact ⟨_, _, _, "MIN", rfl, rfl, by decide⟩
    · exact ⟨_, _, _, "SUM", rfl, rfl, by decide⟩
    · exact ⟨_, _, _, "EVERY", rfl, rfl, by decide⟩
    · exact ⟨_, _, _, "BIT_AND", rfl, rfl, by decide⟩
    · exact ⟨_, _, _, "BIT_OR", rfl, rfl, by decide⟩
    · exact ⟨_, _, _, "BOOL_AND", rfl, rfl, by decide⟩
    · exact ⟨_, _, _, "BOOL_OR", rfl, rfl, by decide⟩

/-- The rule of a keyword that a word spells; but for two keywords there is one. -/
theorem exists_textRule_of_spells (hT : T.IsKeyword) (hspells : T.Spells w)
    (hand : foldCase w ≠ foldCase "BIT_AND".toList)
    (hor : foldCase w ≠ foldCase "BIT_OR".toList) :
    ∃ r ∈ textRules, r.kind = T ∧ foldCase r.text.toList = foldCase w := by
  obtain ⟨s, hs, hfold⟩ := hspells
  rcases exists_textRule T with ⟨r, hr, hkind, halias⟩ | hunspelled
  · rw [hs] at halias
    rw [Option.some.inj halias] at hfold
    exact ⟨r, hr, hkind, hfold⟩
  · obtain ⟨s', hs', hidentifier⟩ := hT
    have hsome : ∀ T ∈ unspelled, T.alias_ = some "BIT_AND" ∨ T.alias_ = some "BIT_OR" ∨
        T.alias_.all fun s => !isIdentifier s.toList := by decide +kernel
    rcases hsome T hunspelled with h | h | h
    · rw [hs] at h
      exact absurd hfold.symm (Option.some.inj h ▸ hand)
    · rw [hs] at h
      exact absurd hfold.symm (Option.some.inj h ▸ hor)
    · rw [hs'] at h
      simp [hidentifier] at h

theorem not_isKeyword_identifier : ¬ TokenKind.regularIdentifier.IsKeyword ∧
    ¬ TokenKind.regularIdentifierRestricted.IsKeyword := by
  constructor
  · rintro ⟨s, hs, hidentifier⟩
    rw [← Option.some.inj hs] at hidentifier
    exact absurd hidentifier (by decide)
  · rintro ⟨s, hs, -⟩
    cases hs

theorem identifierRule_action :
    identifierRule.action w =
      if ['_', '_'].isPrefixOf w then .emit ⟨.regularIdentifierRestricted, none⟩
      else .emit ⟨.regularIdentifier, some w⟩ := by
  show (if !SqlDriver.checkRegularIdentifier w then _ else _) = _
  rw [checkRegularIdentifier_eq, Bool.not_not]

/-- Only one rule marks a placeholder, and its text is no word. -/
theorem textRule_action (hr : r ∈ textRules) (hw : isIdentifier w)
    (hfold : foldCase r.text.toList = foldCase w) :
    ∃ image, r.rule.action w = .emit ⟨r.kind, image⟩ := by
  have hall : ∀ r ∈ textRules, r.placeholder = true → r.text = "?" := by decide +kernel
  have hplaceholder : ¬ r.placeholder = true := by
    intro h
    rw [← isIdentifier_foldCase, ← hfold, hall r hr h] at hw
    exact absurd hw (by decide)
  exact ⟨_, if_neg hplaceholder⟩

/-- A word that spells neither of two set functions is scanned as it is spelled. -/
theorem scannedAsSpelled (hscan : scan input = some (w, action)) (hw : isIdentifier w)
    (hand : foldCase w ≠ foldCase "BIT_AND".toList)
    (hor : foldCase w ≠ foldCase "BIT_OR".toList) :
    ScannedAsSpelled valueExpression w action := by
  obtain ⟨rule, hrule, rfl⟩ := scan_some hscan
  rw [firstRule_word hw] at hrule
  cases hfind : textRules.find? fun r => foldCase r.text.toList == foldCase w with
  | some r =>
    rw [hfind] at hrule
    obtain rfl := Option.some.inj hrule
    have hr := List.mem_of_find?_eq_some hfind
    have hfold : foldCase r.text.toList = foldCase w :=
      beq_iff_eq.mp (@List.find?_some _ (fun r : TextRule => foldCase r.text.toList == foldCase w)
        _ _ hfind)
    have halias : r.kind.alias_ = some r.text := by
      refine (textRules_agree hr).resolve_right fun hcrossed => ?_
      rcases Bool.or_eq_true_iff.mp hcrossed with h | h
      · rw [beq_iff_eq.mp h] at hfold
        exact hand hfold.symm
      · rw [beq_iff_eq.mp h] at hfold
        exact hor hfold.symm
    have hkeyword : r.kind.IsKeyword := by
      refine ⟨r.text, halias, ?_⟩
      rw [← isIdentifier_foldCase, hfold, isIdentifier_foldCase]
      exact hw
    obtain ⟨image, haction⟩ := textRule_action hr hw hfold
    refine ⟨fun T hT => ⟨?_, fun hspells => ?_⟩, fun hnone => ?_, fun token rest e hemit he => ?_⟩
    · rintro ⟨image', heq⟩
      rw [haction] at heq
      have hkind : r.kind = T := congrArg Token.kind (Action.emit.inj heq)
      exact ⟨r.text, hkind ▸ halias, hfold⟩
    · obtain ⟨r', hr', hkind, hfold'⟩ := exists_textRule_of_spells hT hspells hand hor
      obtain rfl := textRules_inj hr hr' (hfold.trans hfold'.symm)
      exact ⟨image, hkind ▸ haction⟩
    · exact absurd ⟨r.text, halias, hfold⟩ (hnone r.kind hkeyword)
    · rw [haction] at hemit
      have hkind : r.kind = token.kind := congrArg Token.kind (Action.emit.inj hemit)
      obtain ⟨kind, q, arguments, s, rfl, hs, hname⟩ := systemSetFunction_name he
      rw [← hkind, halias] at hs
      exact ⟨kind, q, arguments, rfl, hname.trans (Option.some.inj hs ▸ hfold)⟩
  | none =>
    rw [hfind] at hrule
    obtain rfl := Option.some.inj hrule
    have hnone : ∀ T : TokenKind, T.IsKeyword → ¬ T.Spells w := by
      intro T hT hspells
      obtain ⟨r, hr, -, hfold⟩ := exists_textRule_of_spells hT hspells hand hor
      exact List.find?_eq_none.mp hfind r hr (beq_iff_eq.mpr hfold)
    have hemits : ∀ token, identifierRule.action w = .emit token →
        token.kind = .regularIdentifierRestricted ∨ token.kind = .regularIdentifier := by
      intro token h
      rw [identifierRule_action] at h
      split at h
      · exact .inl (congrArg Token.kind (Action.emit.inj h)).symm
      · exact .inr (congrArg Token.kind (Action.emit.inj h)).symm
    refine ⟨fun T hT => ⟨?_, fun hspells => absurd hspells (hnone T hT)⟩,
      fun _ => identifierRule_action, fun token rest e hemit he => ?_⟩
    · rintro ⟨image, h⟩
      rcases hemits _ h with rfl | rfl
      · exact absurd hT not_isKeyword_identifier.2
      · exact absurd hT not_isKeyword_identifier.1
    · exfalso
      cases he with
      | countAll => rcases hemits _ hemit with h | h <;> cases h
      | count _ _ => rcases hemits _ hemit with h | h <;> cases h
      | computational hT _ _ =>
        cases hT <;> rcases hemits _ hemit with h | h <;> cases h

/-- A word with the text of a rule is scanned as the token of that rule. -/
theorem action_of_textRule (hscan : scan input = some (w, action)) (hw : isIdentifier w)
    (hr : r ∈ textRules) (hfold : foldCase r.text.toList = foldCase w) :
    ∃ image, action = .emit ⟨r.kind, image⟩ := by
  obtain ⟨rule, hrule, rfl⟩ := scan_some hscan
  rw [firstRule_word hw] at hrule
  cases hfind : textRules.find? fun r => foldCase r.text.toList == foldCase w with
  | none => exact absurd (beq_iff_eq.mpr hfold) (List.find?_eq_none.mp hfind r hr)
  | some r' =>
    rw [hfind] at hrule
    obtain rfl := Option.some.inj hrule
    have hfold' : foldCase r'.text.toList = foldCase w :=
      beq_iff_eq.mp (@List.find?_some _ (fun r : TextRule => foldCase r.text.toList == foldCase w)
        _ _ hfind)
    obtain rfl := textRules_inj hr (List.mem_of_find?_eq_some hfind) (hfold.trans hfold'.symm)
    exact textRule_action hr hw hfold

/-- A word alone is scanned whole. -/
theorem scan_word (hw : isIdentifier w) : ∃ action, scan w = some (w, action) := by
  have hne : w ≠ [] := by
    rintro rfl
    cases hw
  obtain ⟨rule, hrule⟩ : ∃ rule, firstRule rules w = some rule := by
    rw [firstRule_word hw]
    cases textRules.find? fun r => foldCase r.text.toList == foldCase w with
    | some r => exact ⟨_, rfl⟩
    | none => exact ⟨_, rfl⟩
  have hlongest : longest rules (w ++ []) = some (w, rule) :=
    longest_append hne hrule fun u v hu h => absurd (List.append_eq_nil_iff.mp h.symm).1 hu
  rw [List.append_nil] at hlongest
  exact ⟨rule.action w, by rw [scan, hlongest, Option.map_some]⟩

/-- The rule of a word whose token is declared with another word. -/
theorem spelled_of_textRule (hscan : scan input = some (w, action)) (hw : isIdentifier w)
    (h : ScannedAsSpelled valueExpression w action) (hr : r ∈ textRules)
    (hkeyword : r.kind.IsKeyword) (hfold : foldCase r.text.toList = foldCase w) :
    r.kind.Spells r.text.toList := by
  obtain ⟨s, hs, hspells⟩ := (h.keyword r.kind hkeyword).mp (action_of_textRule hscan hw hr hfold)
  exact ⟨s, hs, hspells.trans hfold.symm⟩

theorem crossed_rules :
    (∃ r ∈ textRules, r.text = "BIT_AND" ∧ r.kind = .boolAnd) ∧
      ∃ r ∈ textRules, r.text = "BIT_OR" ∧ r.kind = .boolOr := by
  decide +kernel

/-- A word in the form of an identifier is scanned as it is spelled, in all inputs, exactly if it
is neither `BIT_AND` nor `BIT_OR`. -/
theorem word_scannedAsSpelled_iff (valueExpression : ValueExpression) (input w : List Char)
    (action : Action) (hscan : scan input = some (w, action)) (hw : isIdentifier w) :
    ScannedAsSpelled valueExpression w action ↔
      foldCase w ≠ foldCase "BIT_AND".toList ∧ foldCase w ≠ foldCase "BIT_OR".toList := by
  constructor
  · intro h
    constructor
    · intro hfold
      obtain ⟨r, hr, htext, hkind⟩ := crossed_rules.1
      rw [← htext] at hfold
      have hspells := spelled_of_textRule hscan hw h hr ⟨"BOOL_AND", by rw [hkind]; rfl, by decide⟩
        hfold.symm
      rw [hkind, htext] at hspells
      obtain ⟨s, hs, hfold⟩ := hspells
      rw [← Option.some.inj hs] at hfold
      exact absurd hfold (by decide)
    · intro hfold
      obtain ⟨r, hr, htext, hkind⟩ := crossed_rules.2
      rw [← htext] at hfold
      have hspells := spelled_of_textRule hscan hw h hr ⟨"BOOL_OR", by rw [hkind]; rfl, by decide⟩
        hfold.symm
      rw [hkind, htext] at hspells
      obtain ⟨s, hs, hfold⟩ := hspells
      rw [← Option.some.inj hs] at hfold
      exact absurd hfold (by decide)
  · rintro ⟨hand, hor⟩
    exact scannedAsSpelled hscan hw hand hor

/-- `Avg` is scanned as the keyword that it spells. -/
theorem word_scannedAsSpelled_avg :
    ∃ action, scan "Avg".toList = some ("Avg".toList, action) ∧
      ScannedAsSpelled (fun _ _ => False) "Avg".toList action := by
  obtain ⟨action, hscan⟩ := @scan_word "Avg".toList (by decide)
  exact ⟨action, hscan,
    (word_scannedAsSpelled_iff _ _ _ _ hscan (by decide)).mpr ⟨by decide, by decide⟩⟩

/-- `BIT_AND` is scanned as the token of another set function. -/
theorem word_misscanned :
    ∃ action, scan "BIT_AND".toList = some ("BIT_AND".toList, action) ∧
      (∃ image, action = .emit ⟨.boolAnd, image⟩) ∧
      ¬ ScannedAsSpelled (fun _ _ => False) "BIT_AND".toList action := by
  obtain ⟨action, hscan⟩ := @scan_word "BIT_AND".toList (by decide)
  obtain ⟨r, hr, htext, hkind⟩ := crossed_rules.1
  have haction := action_of_textRule hscan (by decide) hr (by rw [htext])
  rw [hkind] at haction
  refine ⟨action, hscan, haction, fun h => ?_⟩
  obtain ⟨s, hs, hfold⟩ := (h.keyword .boolAnd ⟨"BOOL_AND", rfl, by decide⟩).mp haction
  rw [← Option.some.inj hs] at hfold
  exact absurd hfold (by decide)

end Mizugaki.Parser
