import Mathlib.Computability.RegularExpressions

/-! Scanning by regular expressions. Of the rules that match a prefix of the input the one with the
longest match is taken, and the first of these. -/

namespace Mizugaki.Data.Lexer

open RegularExpression

variable {α β : Type}

/-! ### Patterns -/

/-- A character of a class. -/
def oneOf (cs : List α) : RegularExpression α := cs.foldr (fun c p => char c + p) 0

/-- A character of each of some classes, in order. -/
def sequence (classes : List (List α)) : RegularExpression α :=
  classes.foldr (fun cs p => oneOf cs * p) 1

/-- A pattern, once or more. -/
def some_ (p : RegularExpression α) : RegularExpression α := p * star p

/-- A pattern or nothing. -/
def optional (p : RegularExpression α) : RegularExpression α := 1 + p

variable {a : α} {cs w : List α} {classes : List (List α)} {p q : RegularExpression α}

theorem mem_one : w ∈ (1 : RegularExpression α).matches' ↔ w = [] := Language.mem_one w

theorem mem_char : w ∈ (char a).matches' ↔ w = [a] := Iff.rfl

theorem mem_add : w ∈ (p + q).matches' ↔ w ∈ p.matches' ∨ w ∈ q.matches' := Iff.rfl

theorem mem_mul : w ∈ (p * q).matches' ↔ ∃ u ∈ p.matches', ∃ v ∈ q.matches', u ++ v = w :=
  Language.mem_mul

theorem mem_star : w ∈ (star p).matches' ↔ ∃ parts : List (List α),
    w = parts.flatten ∧ ∀ part ∈ parts, part ∈ p.matches' :=
  Language.mem_kstar

@[simp] theorem mem_oneOf : w ∈ (oneOf cs).matches' ↔ ∃ c ∈ cs, w = [c] := by
  induction cs with
  | nil => simp [oneOf]
  | cons c cs ih =>
    rw [oneOf, List.foldr_cons, mem_add, mem_char, ← oneOf, ih]
    simp

theorem mem_sequence :
    w ∈ (sequence classes).matches' ↔ List.Forall₂ (fun c cs => c ∈ cs) w classes := by
  induction classes generalizing w with
  | nil => rw [sequence, List.foldr_nil, mem_one, List.forall₂_nil_right_iff]
  | cons cs classes ih =>
    rw [sequence, List.foldr_cons, mem_mul, ← sequence, List.forall₂_cons_right_iff]
    constructor
    · rintro ⟨u, hu, v, hv, rfl⟩
      obtain ⟨c, hc, rfl⟩ := mem_oneOf.mp hu
      exact ⟨c, v, hc, ih.mp hv, rfl⟩
    · rintro ⟨c, v, hc, hv, rfl⟩
      exact ⟨[c], mem_oneOf.mpr ⟨c, hc, rfl⟩, v, ih.mpr hv, rfl⟩

theorem mem_star_oneOf : w ∈ (star (oneOf cs)).matches' ↔ ∀ c ∈ w, c ∈ cs := by
  rw [mem_star]
  constructor
  · rintro ⟨parts, rfl, hparts⟩ c hc
    obtain ⟨part, hpart, hc⟩ := List.mem_flatten.mp hc
    obtain ⟨c', hc', rfl⟩ := mem_oneOf.mp (hparts part hpart)
    rwa [List.mem_singleton.mp hc]
  · intro h
    refine ⟨w.map ([·]), ?_, ?_⟩
    · exact (List.flatMap_singleton' w).symm
    · intro part hpart
      obtain ⟨c, hc, rfl⟩ := List.mem_map.mp hpart
      exact mem_oneOf.mpr ⟨c, h c hc, rfl⟩

theorem mem_some : w ∈ (some_ p).matches' ↔ ∃ parts : List (List α),
    parts ≠ [] ∧ w = parts.flatten ∧ ∀ part ∈ parts, part ∈ p.matches' := by
  rw [some_, mem_mul]
  constructor
  · rintro ⟨u, hu, v, hv, rfl⟩
    obtain ⟨parts, rfl, hparts⟩ := mem_star.mp hv
    refine ⟨u :: parts, by simp, rfl, ?_⟩
    rintro part (_ | ⟨_, hpart⟩)
    · exact hu
    · exact hparts part hpart
  · rintro ⟨parts, hne, rfl, hparts⟩
    cases parts with
    | nil => exact absurd rfl hne
    | cons u parts =>
      refine ⟨u, hparts u List.mem_cons_self, parts.flatten, mem_star.mpr ⟨parts, rfl, ?_⟩, rfl⟩
      exact fun part hpart => hparts part (List.mem_cons_of_mem _ hpart)

/-- All matches of a pattern begin with characters of a kind. -/
def StartsIn (kind : α → Prop) (p : RegularExpression α) : Prop :=
  ∀ w ∈ p.matches', ∃ c rest, w = c :: rest ∧ kind c

variable {kind : α → Prop}

theorem StartsIn.oneOf (h : ∀ c ∈ cs, kind c) : StartsIn kind (oneOf cs) := by
  intro w hw
  obtain ⟨c, hc, rfl⟩ := mem_oneOf.mp hw
  exact ⟨c, [], rfl, h c hc⟩

theorem StartsIn.mul (h : StartsIn kind p) : StartsIn kind (p * q) := by
  intro w hw
  obtain ⟨u, hu, v, hv, rfl⟩ := mem_mul.mp hw
  obtain ⟨c, rest, rfl, hc⟩ := h u hu
  exact ⟨c, rest ++ v, rfl, hc⟩

theorem StartsIn.add (hp : StartsIn kind p) (hq : StartsIn kind q) : StartsIn kind (p + q) := by
  intro w hw
  rcases mem_add.mp hw with hw | hw
  · exact hp w hw
  · exact hq w hw

theorem StartsIn.not_mem {rest : List α} (h : StartsIn kind p) (ha : ¬ kind a) :
    a :: rest ∉ p.matches' := by
  intro hmem
  obtain ⟨c, rest', heq, hc⟩ := h _ hmem
  rw [(List.cons.inj heq).1] at ha
  exact ha hc

/-! ### Rules -/

/-- A pattern with what is done with its matches. -/
structure Rule (α β : Type) where
  pattern : RegularExpression α
  action : List α → β

variable [DecidableEq α] {rules before after : List (Rule α β)} {rule : Rule α β}
  {input rest : List α} {n : Nat}

/-- The first rule that matches all of a text. -/
def firstRule (rules : List (Rule α β)) (w : List α) : Option (Rule α β) :=
  rules.find? fun rule => rule.pattern.rmatch w

/-- The longest match that is not longer than a length, and not empty. -/
def longestUpTo (rules : List (Rule α β)) (input : List α) : Nat → Option (List α × Rule α β)
  | 0 => none
  | n + 1 =>
    match firstRule rules (input.take (n + 1)) with
    | some rule => some (input.take (n + 1), rule)
    | none => longestUpTo rules input n

/-- The longest match of the rules at the start of an input. -/
def longest (rules : List (Rule α β)) (input : List α) : Option (List α × Rule α β) :=
  longestUpTo rules input input.length

theorem firstRule_append (h : ∀ rule ∈ before, w ∉ rule.pattern.matches') :
    firstRule (before ++ after) w = firstRule after w := by
  rw [firstRule, List.find?_append, List.find?_eq_none.mpr, Option.none_or, firstRule]
  intro rule hrule
  rw [rmatch_iff_matches']
  exact h rule hrule

theorem firstRule_cons (h : w ∈ rule.pattern.matches') :
    firstRule (rule :: after) w = some rule :=
  List.find?_cons_of_pos ((rmatch_iff_matches' _ _).mpr h)

theorem firstRule_eq_none : firstRule rules w = none ↔
    ∀ rule ∈ rules, w ∉ rule.pattern.matches' := by
  rw [firstRule, List.find?_eq_none]
  exact forall₂_congr fun rule _ => by rw [rmatch_iff_matches']

theorem longestUpTo_some (hn : n ≤ input.length) (h : longestUpTo rules input n = some (w, rule)) :
    w ≠ [] ∧ w <+: input ∧ firstRule rules w = some rule := by
  induction n with
  | zero => cases h
  | succ n ih =>
    rw [longestUpTo] at h
    cases hrule : firstRule rules (input.take (n + 1)) with
    | none =>
      rw [hrule] at h
      exact ih (by omega) h
    | some found =>
      rw [hrule] at h
      obtain ⟨rfl, rfl⟩ := Prod.mk.inj (Option.some.inj h)
      refine ⟨?_, List.take_prefix _ _, hrule⟩
      intro hnil
      have hlength := congrArg List.length hnil
      rw [List.length_take, List.length_nil] at hlength
      omega

/-- What is scanned is a match at the start of the input, by the first rule that has it. -/
theorem longest_some (h : longest rules input = some (w, rule)) :
    w ≠ [] ∧ w <+: input ∧ firstRule rules w = some rule := longestUpTo_some (le_refl _) h

/-- A match that no rule can make longer is scanned. -/
theorem longest_append (hw : w ≠ []) (hfirst : firstRule rules w = some rule)
    (hlonger : ∀ u v, u ≠ [] → rest = u ++ v → firstRule rules (w ++ u) = none) :
    longest rules (w ++ rest) = some (w, rule) := by
  suffices ∀ k ≤ rest.length, longestUpTo rules (w ++ rest) (w.length + k) = some (w, rule) by
    rw [longest, List.length_append]
    exact this rest.length (le_refl _)
  intro k hk
  induction k with
  | zero =>
    obtain ⟨n, hn⟩ : ∃ n, w.length = n + 1 :=
      Nat.exists_eq_succ_of_ne_zero (mt List.length_eq_zero_iff.mp hw)
    have htake : (w ++ rest).take (n + 1) = w := by rw [← hn, List.take_left]
    rw [Nat.add_zero, hn, longestUpTo, htake, hfirst]
  | succ k ih =>
    have htake : (w ++ rest).take (w.length + (k + 1)) = w ++ rest.take (k + 1) :=
      List.take_length_add_append _
    have hnone : firstRule rules (w ++ rest.take (k + 1)) = none := by
      refine hlonger (rest.take (k + 1)) (rest.drop (k + 1)) ?_ (List.take_append_drop _ _).symm
      intro hnil
      have hlength := congrArg List.length hnil
      rw [List.length_take, List.length_nil] at hlength
      omega
    rw [← Nat.add_assoc, longestUpTo, Nat.add_assoc, htake, hnone]
    exact ih (by omega)

end Mizugaki.Data.Lexer
