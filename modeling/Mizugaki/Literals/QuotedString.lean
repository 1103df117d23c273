import Mizugaki.Analyzer.Literal
import Mizugaki.Data.Doubling
import Mizugaki.Declaration.Outcome

/-! String literals. Each part of a literal is counted before any is decoded, by a loop of its own;
a count succeeds exactly on what decodes, and is its length. A character literal has the length of
its value when the option asks for it. A hexadecimal literal has it always, so the option for
binary literals has no effect. -/

namespace Mizugaki.Analyzer

open Mizugaki.Ast Mizugaki.Plan Mizugaki.Control Mizugaki.Data.Doubling

variable {ρ : Type} {env : Environment ρ}

/-! ### Quotes -/

/-- A quoted string is a quote, a body and a quote. -/
theorem unquote_eq_some_iff {q body : List Char} :
    unquote q = some body ↔ q = quote :: (body ++ [quote]) := by
  cases q with
  | nil => simp [unquote]
  | cons c rest =>
    rw [unquote]
    constructor
    · intro h
      obtain ⟨⟨rfl, hlast⟩, hbody⟩ := Option.ite_none_right_eq_some.mp h
      obtain rfl := Option.some.inj hbody
      rw [List.dropLast_append_getLast? quote hlast]
    · intro h
      obtain ⟨rfl, rfl⟩ := List.cons.inj h
      simp

/-- A body that is counted is read as a text of that length. -/
theorem countBody_eq (body : List Char) :
    countBody body = (undouble quote body).map List.length := by
  induction body using countBody.induct with
  | case1 => rfl
  | case2 => rfl
  | case3 c hc => simp [countBody, undouble, hc]
  | case4 rest ih =>
    rw [countBody, undouble, if_pos rfl, if_pos rfl, if_pos rfl, if_pos rfl, ih]
    cases undouble quote rest <;> rfl
  | case5 c' rest hc' =>
    rw [countBody, undouble, if_pos rfl, if_neg hc', if_pos rfl, if_neg hc', Option.map_none]
  | case6 c c' rest hc ih =>
    rw [countBody, undouble, if_neg hc, if_neg hc, ih]
    cases undouble quote (c' :: rest) <;> rfl

/-- A body that is read as a text is decoded to it. -/
theorem decodeBody_eq {body text : List Char} (h : undouble quote body = some text) :
    decodeBody body = text := by
  induction body using undouble.induct quote generalizing text with
  | case1 => exact Option.some.inj h
  | case2 => simp [undouble] at h
  | case3 c hc =>
    rw [undouble, if_neg hc] at h
    exact Option.some.inj h
  | case4 rest ih =>
    rw [undouble, if_pos rfl, if_pos rfl] at h
    obtain ⟨text', htext, rfl⟩ := Option.map_eq_some_iff.mp h
    rw [decodeBody, if_pos rfl, ih htext]
  | case5 c' rest hc' =>
    rw [undouble, if_pos rfl, if_neg hc'] at h
    cases h
  | case6 c c' rest hc ih =>
    rw [undouble_cons_of_ne hc] at h
    obtain ⟨text', htext, rfl⟩ := Option.map_eq_some_iff.mp h
    rw [decodeBody, if_neg hc, ih htext]

/-! ### Parts of a literal -/

/-- A part of a character literal: a text between quotes, with the quotes in it doubled. -/
def IsQuoted (text q : List Char) : Prop := q = quote :: (double quote text ++ [quote])

/-- The value of a hexadecimal digit. -/
def hexValue (c : Char) : Option Nat :=
  if '0' ≤ c ∧ c ≤ '9' then some (c.toNat - '0'.toNat)
  else if 'A' ≤ c ∧ c ≤ 'F' then some (c.toNat - 'A'.toNat + 10)
  else if 'a' ≤ c ∧ c ≤ 'f' then some (c.toNat - 'a'.toNat + 10)
  else none

/-- The octets of pairs of hexadecimal digits. -/
def hexOctets : List Char → Option (List Char)
  | [] => some []
  | [_] => none
  | high :: low :: rest => do
    let h ← hexValue high
    let l ← hexValue low
    let octets ← hexOctets rest
    return Char.ofNat (16 * h + l) :: octets

/-- A part of a hexadecimal literal: pairs of digits between quotes, without regard to blanks. -/
def IsHexQuoted (octets q : List Char) : Prop :=
  ∃ body, q = quote :: (body ++ [quote]) ∧ hexOctets (body.filter (· ≠ ' ')) = some octets

theorem hexValue_isSome (c : Char) : (hexValue c).isSome = isHexDigit c := by
  unfold hexValue isHexDigit
  split_ifs with h₁ h₂ h₃ <;> simp_all

theorem hexOctets_length {digits octets : List Char} (h : hexOctets digits = some octets) :
    digits.length = 2 * octets.length := by
  induction digits using hexOctets.induct generalizing octets with
  | case1 =>
    obtain rfl := Option.some.inj h
    rfl
  | case2 => cases h
  | case3 high low rest ih =>
    simp only [hexOctets, Option.bind_eq_bind, Option.bind_eq_some_iff, Option.pure_def,
      Option.some.injEq] at h
    obtain ⟨x, -, y, -, octets', hrest, rfl⟩ := h
    rw [List.length_cons, List.length_cons, List.length_cons, ih hrest]
    omega

/-- What has octets is an even number of hexadecimal digits. -/
theorem hexOctets_isSome (digits : List Char) :
    (hexOctets digits).isSome = true ↔ digits.all isHexDigit = true ∧ digits.length % 2 = 0 := by
  induction digits using hexOctets.induct with
  | case1 => simp [hexOctets]
  | case2 c => simp [hexOctets]
  | case3 high low rest ih =>
    have hlength : (high :: low :: rest).length % 2 = rest.length % 2 := by
      rw [List.length_cons, List.length_cons]
      omega
    rw [hlength, List.all_cons, List.all_cons, ← hexValue_isSome, ← hexValue_isSome, hexOctets]
    cases hexValue high with
    | none => simp
    | some x =>
      cases hexValue low with
      | none => simp
      | some y =>
        simp only [Option.isSome_some, Bool.true_and]
        rw [← ih]
        cases hexOctets rest <;> rfl

/-! ### Counts -/

theorem countCharacters_yields (q : List Char) (n : Nat) (s t : AnalyzerState ρ) :
    countCharacters q s = (some n, t) ↔ ∃ text, IsQuoted text q ∧ text.length = n ∧ s = t := by
  have hread : (unquote q).bind countBody = some n ↔ ∃ text, IsQuoted text q ∧ text.length = n := by
    rw [Option.bind_eq_some_iff]
    simp only [unquote_eq_some_iff, countBody_eq, Option.map_eq_some_iff, undouble_eq_some_iff]
    constructor
    · rintro ⟨body, rfl, text, rfl, rfl⟩
      exact ⟨text, rfl, rfl⟩
    · rintro ⟨text, htext, rfl⟩
      exact ⟨_, htext, text, rfl, rfl⟩
  unfold countCharacters
  cases hcount : (unquote q).bind countBody with
  | none =>
    rw [hcount] at hread
    dsimp only
    rw [rejectQuotedString, reject_yields, false_iff]
    rintro ⟨text, htext, hlength, -⟩
    cases hread.mpr ⟨text, htext, hlength⟩
  | some m =>
    rw [hcount, Option.some.injEq] at hread
    dsimp only
    rw [Check.pure_yields, hread]
    constructor
    · rintro ⟨⟨text, htext, hlength⟩, rfl⟩
      exact ⟨text, htext, hlength, rfl⟩
    · rintro ⟨text, htext, hlength, rfl⟩
      exact ⟨⟨text, htext, hlength⟩, rfl⟩

theorem countHexDigits_yields (q : List Char) (n : Nat) (s t : AnalyzerState ρ) :
    countHexDigits q s = (some n, t) ↔
      ∃ octets, IsHexQuoted octets q ∧ octets.length = n ∧ s = t := by
  unfold countHexDigits
  cases hbody : unquote q with
  | none =>
    dsimp only
    rw [rejectQuotedString, reject_yields, false_iff]
    rintro ⟨octets, ⟨body, hq, -⟩, -⟩
    rw [unquote_eq_some_iff.mpr hq] at hbody
    cases hbody
  | some body =>
    have hsame {body' : List Char} (hq : q = quote :: (body' ++ [quote])) : body' = body := by
      rw [unquote_eq_some_iff.mpr hq] at hbody
      exact Option.some.inj hbody
    dsimp only
    by_cases hall : (body.filter (· ≠ ' ')).all isHexDigit = true
    · by_cases heven : (body.filter (· ≠ ' ')).length % 2 = 0
      · obtain ⟨octets, hoctets⟩ :=
          Option.isSome_iff_exists.mp ((hexOctets_isSome _).mpr ⟨hall, heven⟩)
        have hlength := hexOctets_length hoctets
        have hhalf : (body.filter (· ≠ ' ')).length / 2 = octets.length := by omega
        simp only [hall, heven, Bool.not_true, Bool.false_eq_true, if_false, ne_eq,
          not_true_eq_false, Check.pure_yields, hhalf]
        constructor
        · rintro ⟨rfl, rfl⟩
          exact ⟨octets, ⟨body, unquote_eq_some_iff.mp hbody, hoctets⟩, rfl, rfl⟩
        · rintro ⟨octets', ⟨body', hq, hoctets'⟩, rfl, rfl⟩
          rw [hsame hq, hoctets] at hoctets'
          rw [Option.some.inj hoctets']
          exact ⟨rfl, rfl⟩
      · simp only [hall, heven, Bool.not_true, Bool.false_eq_true, if_false, ne_eq,
          not_false_eq_true, if_true, reject_yields, false_iff]
        rintro ⟨octets, ⟨body', hq, hoctets⟩, -⟩
        rw [hsame hq] at hoctets
        exact heven ((hexOctets_isSome _).mp (Option.isSome_of_eq_some hoctets)).2
    · simp only [hall, Bool.not_false, if_true, reject_yields, false_iff]
      rintro ⟨octets, ⟨body', hq, hoctets⟩, -⟩
      rw [hsame hq] at hoctets
      exact hall ((hexOctets_isSome _).mp (Option.isSome_of_eq_some hoctets)).1

/-- Counting all parts succeeds when each part has a value, with the length of the values. -/
theorem countParts_yields {count : List Char → Analysis ρ Nat} {IsValue : List Char → List Char → Prop}
    (hcount : ∀ q n s t, count q s = (some n, t) ↔ ∃ v, IsValue v q ∧ v.length = n ∧ s = t)
    (parts : List (List Char)) (n : Nat) (s t : AnalyzerState ρ) :
    countParts count parts s = (some n, t) ↔
      ∃ values, List.Forall₂ IsValue values parts ∧ values.flatten.length = n ∧ s = t := by
  induction parts generalizing n s t with
  | nil =>
    simp only [countParts, Check.pure_yields, List.forall₂_nil_right_iff]
    constructor
    · rintro ⟨rfl, rfl⟩
      exact ⟨[], rfl, rfl, rfl⟩
    · rintro ⟨_, rfl, rfl, rfl⟩
      exact ⟨rfl, rfl⟩
  | cons q qs ih =>
    simp only [countParts, Check.bind_yields, Check.pure_yields, hcount, ih]
    constructor
    · rintro ⟨_, _, ⟨v, hv, rfl, rfl⟩, _, _, ⟨values, hvalues, rfl, rfl⟩, rfl, rfl⟩
      exact ⟨v :: values, .cons hv hvalues, by simp, rfl⟩
    · rintro ⟨_, hvalues, rfl, rfl⟩
      obtain ⟨v, values, hv, hrest, rfl⟩ := List.forall₂_cons_right_iff.mp hvalues
      exact ⟨_, s, ⟨v, hv, rfl, rfl⟩, _, s, ⟨values, hrest, rfl, rfl⟩, by simp, rfl⟩

/-! ### Character literals -/

/-- A part that is a quoted text is decoded to the text. -/
theorem IsQuoted.decode {text q : List Char} (h : IsQuoted text q) :
    appendQuotedStringUnchecked q = text := by
  rw [appendQuotedStringUnchecked, h, List.tail_cons, List.dropLast_concat]
  exact decodeBody_eq (undouble_double text)

/-- A character literal is accepted exactly when each part is a quoted text. Its value is that of all
texts together, and its length is the number of bytes when the option asks for it. -/
theorem processCharacterString_yields (parts : List (List Char)) (r : Immediate)
    (s t : AnalyzerState ρ) :
    processCharacterString env parts s = (some r, t) ↔
      ∃ texts, List.Forall₂ IsQuoted texts parts ∧
        (.character texts.flatten, .character true
          (if env.options.preferSmallCharacterLiterals then some texts.flatten.length else none)) = r ∧
        s = t := by
  have hdecode {texts : List (List Char)} (h : List.Forall₂ IsQuoted texts parts) :
      parts.flatMap appendQuotedStringUnchecked = texts.flatten := by
    induction h with
    | nil => rfl
    | cons htext _ ih => rw [List.flatMap_cons, List.flatten_cons, htext.decode, ih]
  simp only [processCharacterString, Check.bind_yields, Check.pure_yields,
    countParts_yields countCharacters_yields]
  constructor
  · rintro ⟨_, _, ⟨texts, htexts, rfl, rfl⟩, rfl, rfl⟩
    rw [hdecode htexts]
    exact ⟨texts, htexts, rfl, rfl⟩
  · rintro ⟨texts, htexts, rfl, rfl⟩
    rw [hdecode htexts]
    exact ⟨_, s, ⟨texts, htexts, rfl, rfl⟩, rfl, rfl⟩

/-! ### Hexadecimal literals -/

/-- A parser of octets that decodes pairs of hexadecimal digits without regard to blanks. -/
def DecodesHexPairs (parseOctet : List Char → Except String (List Char)) : Prop :=
  ∀ body octets, hexOctets (body.filter (· ≠ ' ')) = some octets → parseOctet body = .ok octets

theorem appendQuotedHexDigitsUnchecked_run (hparse : DecodesHexPairs env.parsers.parseOctet)
    {octets parts : List (List Char)} (h : List.Forall₂ IsHexQuoted octets parts)
    (s : AnalyzerState ρ) :
    appendQuotedHexDigitsUnchecked env parts s = (some octets.flatten, s) := by
  induction h with
  | nil => rfl
  | cons hquoted _ ih =>
    obtain ⟨body, rfl, hbody⟩ := hquoted
    rw [appendQuotedHexDigitsUnchecked, List.tail_cons, List.dropLast_concat, hparse body _ hbody]
    dsimp only
    rw [Check.bind_run, ih]
    rfl

/-- A hexadecimal literal is accepted exactly when each part is quoted pairs of digits. Its value is
that of all octets together, and its length is always their number. -/
theorem processBinaryString_yields (hparse : DecodesHexPairs env.parsers.parseOctet)
    (parts : List (List Char)) (r : Immediate) (s t : AnalyzerState ρ) :
    processBinaryString env parts s = (some r, t) ↔
      ∃ octets, List.Forall₂ IsHexQuoted octets parts ∧
        (.octet octets.flatten, .octet true (some octets.flatten.length)) = r ∧ s = t := by
  simp only [processBinaryString, Check.bind_yields, Check.pure_yields,
    countParts_yields countHexDigits_yields]
  constructor
  · rintro ⟨_, _, ⟨octets, hoctets, rfl, rfl⟩, buffer, u, hbuffer, rfl, rfl⟩
    rw [appendQuotedHexDigitsUnchecked_run hparse hoctets] at hbuffer
    cases hbuffer
    exact ⟨octets, hoctets, rfl, rfl⟩
  · rintro ⟨octets, hoctets, rfl, rfl⟩
    exact ⟨_, s, ⟨octets, hoctets, rfl, rfl⟩, _, s,
      appendQuotedHexDigitsUnchecked_run hparse hoctets s, rfl, rfl⟩

/-! ### All string literals -/

/-- A string literal is analyzed as its kind asks. A character literal is accepted exactly when each
part is a quoted text, a hexadecimal one only when each part is quoted pairs of digits; the value
is that of the parts together, and the type has its length exactly when the option of the kind is
set. -/
def AnalyzesString (env : Environment ρ) (context : ScalarValueContext) (kind : StringKind)
    (value : List Char) (concatenations : List (List Char)) (s : AnalyzerState ρ) : Prop :=
  ∀ (r : Immediate) (t : AnalyzerState ρ),
    let run := processLiteral env context (.string kind value concatenations) s
    match kind with
    | .characterString =>
      run = (some r, t) ↔ ∃ texts, List.Forall₂ IsQuoted texts (value :: concatenations) ∧
        (.character texts.flatten, .character true
          (if env.options.preferSmallCharacterLiterals then some texts.flatten.length else none)) = r ∧
        s = t
    | .hexString =>
      run = (some r, t) → ∃ octets, List.Forall₂ IsHexQuoted octets (value :: concatenations) ∧
        (.octet octets.flatten, .octet true
          (if env.options.preferSmallBinaryLiterals then some octets.flatten.length else none)) = r
    | .bitString => run ≠ (some r, t)

/-- A string literal is analyzed as its kind asks exactly when it is no hexadecimal literal, or is
rejected, or the option for binary literals is set. -/
theorem processLiteral_string_iff (hparse : DecodesHexPairs env.parsers.parseOctet)
    (context : ScalarValueContext) (kind : StringKind) (value : List Char)
    (concatenations : List (List Char)) (s : AnalyzerState ρ) :
    AnalyzesString env context kind value concatenations s ↔
      (kind = .hexString →
        (∃ octets, List.Forall₂ IsHexQuoted octets (value :: concatenations)) →
          env.options.preferSmallBinaryLiterals = true) := by
  cases kind with
  | bitString =>
    refine iff_of_true (fun r t h => ?_) nofun
    exact (reject_yields ..).mp h
  | characterString =>
    exact iff_of_true (fun r t => processCharacterString_yields (value :: concatenations) r s t) nofun
  | hexString =>
    constructor
    · intro hlaw _ hparts
      obtain ⟨octets, hoctets⟩ := hparts
      have hrun := (processBinaryString_yields hparse (value :: concatenations) _ s s).mpr
        ⟨octets, hoctets, rfl, rfl⟩
      obtain ⟨octets', -, hresult⟩ := hlaw _ _ hrun
      have htype := congrArg Prod.snd hresult
      by_contra hoption
      rw [if_neg hoption] at htype
      cases htype
    · intro hoption r t run hrun
      obtain ⟨octets, hoctets, rfl, -⟩ :=
        (processBinaryString_yields hparse (value :: concatenations) r s t).mp hrun
      refine ⟨octets, hoctets, ?_⟩
      rw [if_pos (hoption rfl ⟨octets, hoctets⟩)]

/-- An environment whose parser of octets decodes pairs of hexadecimal digits. -/
def hexEnvironment : Environment Types :=
  let env := Environment.ofSchema (.ofTables [] [])
  { env with parsers := { env.parsers with
    parseOctet := fun body => match hexOctets (body.filter (· ≠ ' ')) with
      | some octets => .ok octets
      | none => .error "invalid octets" } }

theorem hexEnvironment_decodes : DecodesHexPairs hexEnvironment.parsers.parseOctet := by
  intro body octets h
  simp only [hexEnvironment, h]

/-- `X'00'` has the type of one octet, although the option is not set. -/
theorem processLiteral_hexString :
    hexEnvironment.options.preferSmallBinaryLiterals = false ∧
      ¬ AnalyzesString hexEnvironment {} .hexString "'00'".toList [] (.initial []) := by
  refine ⟨rfl, fun h => ?_⟩
  have hrun : processLiteral hexEnvironment {} (.string .hexString "'00'".toList []) (.initial []) =
      (some (.octet [Char.ofNat 0], .octet true (some 1)), .initial []) := rfl
  obtain ⟨octets, -, hresult⟩ := h _ _ hrun
  cases congrArg Prod.snd hresult

/-- `'it''s' ' x'` is analyzed as it should be, and so is `X'0a' '1F'` when the option is set. -/
theorem processLiteral_strings :
    let env := { hexEnvironment with
      options := { hexEnvironment.options with preferSmallBinaryLiterals := true } }
    AnalyzesString hexEnvironment {} .characterString "'it''s'".toList ["' x'".toList] (.initial []) ∧
      AnalyzesString env {} .hexString "'0a'".toList ["'1F'".toList] (.initial []) ∧
      processLiteral env {} (.string .hexString "'0a'".toList ["'1F'".toList]) (.initial []) =
        (some (.octet [Char.ofNat 10, Char.ofNat 31], .octet true (some 2)), .initial []) := by
  intro env
  have hdecodes : DecodesHexPairs env.parsers.parseOctet := hexEnvironment_decodes
  refine ⟨?_, ?_, rfl⟩
  · exact (processLiteral_string_iff hexEnvironment_decodes {} .characterString "'it''s'".toList
      ["' x'".toList] (.initial [])).mpr nofun
  · exact (processLiteral_string_iff hdecodes {} .hexString "'0a'".toList ["'1F'".toList]
      (.initial [])).mpr fun _ _ => rfl

end Mizugaki.Analyzer
