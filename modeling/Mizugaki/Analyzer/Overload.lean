import Mizugaki.Analyzer.Statement
import Mizugaki.Data.Tournament

/-! Overload resolution is one pass over the candidates that compares each of them with the most
specific one so far, and gives up at the first two that do not compare. What it returns is the
most specific candidate, but it may give up before it gets there. -/

namespace Mizugaki.Analyzer

open Mizugaki.Plan Mizugaki.Control Mizugaki.Data.Tournament

variable {ρ δ : Type} (env : Environment ρ) (o : Overload δ) (s : AnalyzerState ρ)

/-- The parameters of a candidate are applicable to those of another one. -/
def moreSpecific (a b : δ) : Bool := isApplicable env (o.parameterTypes a) (o.parameterTypes b)

/-- The parameters of a candidate are applicable to those of every other one, and not the other
way. -/
def MostSpecific (c : δ) (candidates : List δ) : Prop := Champion (moreSpecific env o) c candidates

/-- Resolution of a list of candidates returns one of them. -/
def Selects (left : δ) (rest : List δ) (c : δ) : Prop :=
  resolveOverload env o left rest s = (some c, s)

/-- Resolution of a list of candidates reports that they are ambiguous. -/
def ReportsAmbiguous (left : δ) (rest : List δ) : Prop :=
  ∃ message, resolveOverload env o left rest s =
    (none, { s with diagnostics := s.diagnostics ++ [⟨.functionAmbiguous, message⟩] })

/-- Resolution returns the unique most specific candidate, and reports ambiguity when there is
none. -/
structure FindsMostSpecific (left : δ) (rest : List δ) : Prop where
  selects : ∀ c, Selects env o s left rest c ↔ MostSpecific env o c (left :: rest)
  ambiguous : (∀ c, ¬ MostSpecific env o c (left :: rest)) → ReportsAmbiguous env o s left rest

/-- Resolution returns the same candidate in every order. -/
def OrderIndependent (left : δ) (rest : List δ) : Prop :=
  ∀ left' rest', (left' :: rest').Perm (left :: rest) →
    ∀ c, Selects env o s left' rest' c ↔ Selects env o s left rest c

/-- Parameters that convert to others convert to whatever these convert to. -/
def TransitiveConversion : Prop :=
  ∀ a b c, env.isParameterApplicationConvertible a b = true →
    env.isParameterApplicationConvertible b c = true →
    env.isParameterApplicationConvertible a c = true

variable {env o s} {left c : δ} {rest : List δ}

theorem isApplicable_trans (htrans : TransitiveConversion env) {as bs cs : List TypeData}
    (hab : isApplicable env as bs = true) (hbc : isApplicable env bs cs = true) :
    isApplicable env as cs = true := by
  induction as generalizing bs cs with
  | nil =>
    cases bs with
    | nil => exact hbc
    | cons b bs => cases hab
  | cons a as ih =>
    cases bs with
    | nil => cases hab
    | cons b bs =>
      cases cs with
      | nil => cases hbc
      | cons c cs =>
        simp only [isApplicable, Bool.and_eq_true] at hab hbc ⊢
        exact ⟨htrans a b c hab.1 hbc.1, ih hab.2 hbc.2⟩

/-- Resolution is the tournament of the candidates. -/
theorem resolveOverload_winner (left : δ) (rest : List δ) :
    (∃ c, winner (moreSpecific env o) left rest = some c ∧ Selects env o s left rest c) ∨
      (winner (moreSpecific env o) left rest = none ∧ ReportsAmbiguous env o s left rest) := by
  induction rest generalizing left with
  | nil => exact .inl ⟨left, rfl, rfl⟩
  | cons right rest ih =>
    by_cases h : moreSpecific env o left right = moreSpecific env o right left
    · have hstep : ∃ message,
          resolveOverload env o left (right :: rest) = reject .functionAmbiguous message := by
        rw [resolveOverload]
        exact ⟨_, if_pos h⟩
      obtain ⟨message, hstep⟩ := hstep
      refine .inr ⟨if_pos h, message, ?_⟩
      rw [hstep]
      rfl
    · have hstep : ∀ t, resolveOverload env o left (right :: rest) t =
          resolveOverload env o (if moreSpecific env o right left then right else left) rest t := by
        intro t
        rw [resolveOverload]
        exact congrFun (if_neg h) t
      unfold Selects ReportsAmbiguous
      rw [winner, if_neg h, hstep]
      exact ih _

theorem selects_iff :
    Selects env o s left rest c ↔ winner (moreSpecific env o) left rest = some c := by
  unfold Selects
  obtain ⟨d, hd, hselects⟩ | ⟨hnone, message, hreports⟩ := resolveOverload_winner left rest
  · rw [hselects, hd]
    simp
  · rw [hreports, hnone]
    simp

/-- Resolution finds the most specific candidate exactly when every initial part of the
candidates has one, if all of them have; its result does not depend on the order exactly when of every
two candidates one is more specific, if there is a most specific one. -/
theorem resolveOverload_finds_iff (htrans : TransitiveConversion env) (o : Overload δ)
    (s : AnalyzerState ρ) (left : δ) (rest : List δ) :
    (FindsMostSpecific env o s left rest ↔
      ∀ c, MostSpecific env o c (left :: rest) →
        ∀ part, part <+: rest → ∃ d, MostSpecific env o d (left :: part)) ∧
    (OrderIndependent env o s left rest ↔
      ∀ c, MostSpecific env o c (left :: rest) →
        (left :: rest).Pairwise fun a b => moreSpecific env o a b ≠ moreSpecific env o b a) := by
  have hr : ∀ a b c, moreSpecific env o a b = true → moreSpecific env o b c = true →
      moreSpecific env o a c = true := fun a b c hab hbc => isApplicable_trans htrans hab hbc
  constructor
  · refine Iff.trans ?_ (winner_iff_champion_iff hr)
    constructor
    · intro h c
      exact selects_iff.symm.trans (h.selects c)
    · intro h
      refine ⟨fun c => selects_iff.trans (h c), fun hnone => ?_⟩
      obtain ⟨d, hd, -⟩ | ⟨-, hreports⟩ := resolveOverload_winner left rest
      · exact absurd ((h d).mp hd) (hnone d)
      · exact hreports
  · refine Iff.trans ?_ (winnerOf_perm_iff hr)
    constructor
    · intro h l hl
      cases l with
      | nil => cases hl.nil_eq
      | cons left' rest' =>
        refine Option.ext fun c => ?_
        exact selects_iff.symm.trans ((h left' rest' hl c).trans selects_iff)
    · intro h left' rest' hl c
      refine selects_iff.trans (Iff.trans ?_ selects_iff.symm)
      have hsame := h (left' :: rest') hl
      rw [winnerOf, winnerOf] at hsame
      rw [hsame]

/-! ### A candidate that comes too late -/

/-- Parameters convert to wider integers. -/
def wideningEnvironment : Environment Types :=
  { Environment.ofSchema (.ofTables [] []) with
    isParameterApplicationConvertible := fun a b => a = b ∨ (a = .int4 ∧ b = .int8) }

theorem wideningEnvironment_trans : TransitiveConversion wideningEnvironment := by
  intro a b c hab hbc
  simp only [wideningEnvironment, decide_eq_true_eq] at hab hbc ⊢
  obtain rfl | ⟨rfl, rfl⟩ := hab
  · exact hbc
  · obtain rfl | ⟨hb, -⟩ := hbc
    · exact .inr ⟨rfl, rfl⟩
    · cases hb

/-- A scalar function of two parameters. -/
def binaryFunction (definitionId : Nat) (left right : TypeData) : FunctionDecl where
  definitionId := definitionId
  name := "f"
  returnType := .int4
  parameterTypes := [left, right]
  scalarFunction := true
  tableValuedFunction := false

/-- `f(INT, INT)` is more specific than `f(INT, BIGINT)` and `f(BIGINT, INT)`, but these two are found
ambiguous when they come first. -/
theorem resolveOverload_misses :
    let rest := [binaryFunction 1 .int8 .int4, binaryFunction 2 .int4 .int4]
    (∀ a, wideningEnvironment.isParameterApplicationConvertible a a = true) ∧
      TransitiveConversion wideningEnvironment ∧
      ∀ s, ¬ FindsMostSpecific wideningEnvironment functionOverload s
          (binaryFunction 0 .int4 .int8) rest ∧
        ¬ OrderIndependent wideningEnvironment functionOverload s
          (binaryFunction 0 .int4 .int8) rest := by
  intro rest
  refine ⟨fun a => ?_, wideningEnvironment_trans, fun s => ?_⟩
  · simp [wideningEnvironment]
  · have hmost : MostSpecific wideningEnvironment functionOverload (binaryFunction 2 .int4 .int4)
        (binaryFunction 0 .int4 .int8 :: rest) := by
      refine ⟨[binaryFunction 0 .int4 .int8, binaryFunction 1 .int8 .int4], by decide, ?_⟩
      unfold Beats
      decide
    have hmissed : (resolveOverload wideningEnvironment functionOverload
        (binaryFunction 0 .int4 .int8) rest s).1 = none := rfl
    have hnot : ¬ Selects wideningEnvironment functionOverload s (binaryFunction 0 .int4 .int8) rest
        (binaryFunction 2 .int4 .int4) := by
      intro h
      rw [h] at hmissed
      cases hmissed
    refine ⟨fun h => hnot ((h.selects _).mpr hmost), fun h => hnot ?_⟩
    have hfound : Selects wideningEnvironment functionOverload s (binaryFunction 2 .int4 .int4)
        [binaryFunction 0 .int4 .int8, binaryFunction 1 .int8 .int4]
        (binaryFunction 2 .int4 .int4) := rfl
    exact (h _ _ (by decide) _).mp hfound

/-- The most specific candidate is found where it comes first. -/
theorem resolveOverload_finds_widening :
    FindsMostSpecific wideningEnvironment functionOverload (.initial [])
      (binaryFunction 2 .int4 .int4) [binaryFunction 0 .int4 .int8] := by
  refine (resolveOverload_finds_iff wideningEnvironment_trans functionOverload _ _ _).1.mpr ?_
  intro c hc part hpart
  cases part with
  | nil => exact ⟨_, champion_singleton _⟩
  | cons p ps =>
    obtain ⟨rfl, hps⟩ := List.cons_prefix_cons.mp hpart
    rw [List.prefix_nil.mp hps]
    exact ⟨c, hc⟩

end Mizugaki.Analyzer
