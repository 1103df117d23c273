import Mathlib.Data.List.Forall2
import Mizugaki.Analyzer.Quiet

/-! Names that are captured. The analysis of a variable name changes the scopes in one way
only: correlation scopes get more parameters. -/

namespace Mizugaki.Analyzer

open Mizugaki.Ast Mizugaki.Plan Mizugaki.Control

variable {ρ : Type} (env : Environment ρ)

namespace QueryScope

/-- A scope with more parameters. -/
def Captures (scope later : QueryScope) : Prop :=
  ∃ ps, later = { scope with parameters := scope.parameters ++ ps }

namespace Captures

variable {scope later last : QueryScope}

theorem refl (scope : QueryScope) : scope.Captures scope :=
  ⟨[], by rw [List.append_nil]⟩

theorem trans (h : scope.Captures later) (k : later.Captures last) : scope.Captures last := by
  obtain ⟨ps, rfl⟩ := h
  obtain ⟨qs, rfl⟩ := k
  exact ⟨ps ++ qs, by rw [List.append_assoc]⟩

theorem push (scope : QueryScope) (free parameter : Variable) :
    scope.Captures (scope.pushParameter free parameter) :=
  ⟨[(free, parameter)], rfl⟩

theorem relations (h : scope.Captures later) : later.relations = scope.relations := by
  obtain ⟨ps, rfl⟩ := h
  rfl

theorem nameMap (h : scope.Captures later) : later.nameMap = scope.nameMap := by
  obtain ⟨ps, rfl⟩ := h
  rfl

theorem referenceMap (h : scope.Captures later) : later.referenceMap = scope.referenceMap := by
  obtain ⟨ps, rfl⟩ := h
  rfl

theorem queryMap (h : scope.Captures later) : later.queryMap = scope.queryMap := by
  obtain ⟨ps, rfl⟩ := h
  rfl

theorem features (h : scope.Captures later) : later.features = scope.features := by
  obtain ⟨ps, rfl⟩ := h
  rfl

theorem parameters (h : scope.Captures later) :
    ∃ ps, later.parameters = scope.parameters ++ ps := by
  obtain ⟨ps, rfl⟩ := h
  exact ⟨ps, rfl⟩

end Captures

end QueryScope

/-- A chain of scopes with more parameters. -/
abbrev Captured : List QueryScope → List QueryScope → Prop := List.Forall₂ QueryScope.Captures

namespace Captured

theorem refl : ∀ scopes : List QueryScope, Captured scopes scopes
  | [] => .nil
  | scope :: scopes => .cons (.refl scope) (refl scopes)

theorem trans : ∀ {scopes later last : List QueryScope}, Captured scopes later →
    Captured later last → Captured scopes last
  | _, _, _, .nil, .nil => .nil
  | _, _, _, .cons h hs, .cons k ks => .cons (h.trans k) (trans hs ks)

/-- Every later scope comes of an earlier one. -/
theorem exists_of_mem : ∀ {scopes later : List QueryScope}, Captured scopes later →
    ∀ {scope : QueryScope}, scope ∈ later → ∃ earlier ∈ scopes, earlier.Captures scope
  | _, _, .cons h hs, _, hmem => by
    obtain rfl | hmem := List.mem_cons.mp hmem
    · exact ⟨_, List.mem_cons_self, h⟩
    · obtain ⟨earlier, hearlier, hcaptures⟩ := exists_of_mem hs hmem
      exact ⟨earlier, List.mem_cons_of_mem _ hearlier, hcaptures⟩

theorem modify (free parameter : Variable) :
    ∀ (position : Nat) (scopes : List QueryScope),
      Captured scopes (scopes.modify position (·.pushParameter free parameter))
  | _, [] => by
    rw [List.modify_nil]
    exact .nil
  | 0, scope :: scopes => .cons (.push scope free parameter) (refl scopes)
  | position + 1, scope :: scopes => .cons (.refl scope) (modify free parameter position scopes)

end Captured

/-- Between two states only parameters were added to scopes, and the counter did not go back. -/
structure Capturing (s t : AnalyzerState ρ) : Prop where
  scopes : Captured s.scopes t.scopes
  sawAggregate : t.sawAggregate = s.sawAggregate
  fresh : s.fresh ≤ t.fresh

instance : Check.Frame (Capturing : AnalyzerState ρ → AnalyzerState ρ → Prop) where
  refl s := ⟨.refl s.scopes, rfl, le_rfl⟩
  trans h k :=
    ⟨h.scopes.trans k.scopes, k.sawAggregate.trans h.sawAggregate, h.fresh.trans k.fresh⟩

theorem Quiet.capturing {s t : AnalyzerState ρ} (h : Quiet s t) : Capturing s t :=
  ⟨h.scopes ▸ .refl s.scopes, h.sawAggregate, h.fresh⟩

@[grind ←] theorem Check.Keeps.capturing {α : Type} {m : Analysis ρ α} (h : IsQuiet m) :
    Check.Keeps Capturing m :=
  fun _ _ _ hm => (h hm).capturing

theorem addParameter_capturing (position : Nat) (free : Variable) :
    Check.Keeps Capturing (addParameter position free : Analysis ρ Variable) := by
  refine Check.Keeps.bind (.gets _) fun scopes => ?_
  cases scopes[position]?.bind (·.findParameter free) with
  | some parameter => exact .pure _
  | none =>
    refine Check.Keeps.bind (Check.Keeps.capturing frameVariable_quiet) fun parameter => ?_
    refine Check.Keeps.bind (.modify fun s => ?_) fun _ => .pure _
    exact ⟨.modify free parameter position s.scopes, rfl, le_rfl⟩

theorem addParameters_capturing (found current : Variable) (positions : List Nat) :
    Check.Keeps Capturing (addParameters env found current positions) := by
  induction positions generalizing current with
  | nil => exact .pure _
  | cons position positions ih =>
    refine (addParameter_capturing position current).bind fun parameter => ?_
    exact (Check.Keeps.capturing (resolveAsAlias_quiet env parameter found)).bind fun _ => ih parameter

/-- How a variable name is resolved: a variable of the innermost scope, or without a scope, is
referred to as it is; one of an ancestor that is exposed is handed down through the correlation
scopes between, of which there is one. -/
theorem analyzeVariableName_cases {name : Name} {s t : AnalyzerState ρ} {e : Scalar}
    (h : analyzeVariableName env name s = (some e, t)) :
    ∃ found depth u v, findSymbol env s.scopes name variableTargets true s
        = (some (.variable found depth), u) ∧ e = .variableReference v ∧
      ((∀ d, depth ≠ some (d + 1)) ∧ v = found ∧ t = u ∨
      ∃ d, depth = some (d + 1) ∧ s.scopes[d + 1]?.any (·.features.expose) = true ∧
        correlationScopes (s.scopes.take (d + 1)) 0 [] ≠ [] ∧
        addParameters env found found (correlationScopes (s.scopes.take (d + 1)) 0 []).reverse u
          = (some v, t)) := by
  simp only [analyzeVariableName, Check.bind_yields, Check.gets_yields] at h
  obtain ⟨_, _, ⟨rfl, rfl⟩, found, u, hfound, h⟩ := h
  obtain ⟨v, depth, rfl⟩ : ∃ v depth, found = .variable v depth := by
    cases found <;> first | exact ⟨_, _, rfl⟩ | cases h
  cases depth with
  | none =>
    obtain ⟨rfl, rfl⟩ := (Check.pure_yields ..).mp h
    exact ⟨_, _, _, _, hfound, rfl, .inl ⟨fun _ hd => (by cases hd), rfl, rfl⟩⟩
  | some depth =>
    cases depth with
    | zero =>
      obtain ⟨rfl, rfl⟩ := (Check.pure_yields ..).mp h
      exact ⟨_, _, _, _, hfound, rfl, .inl ⟨fun _ hd => (by cases hd), rfl, rfl⟩⟩
    | succ depth =>
      dsimp only at h
      split_ifs at h with hexposed
      · rcases hpositions : (correlationScopes (s.scopes.take (depth + 1)) 0 []).reverse
          with _ | ⟨position, positions⟩
        · rw [hpositions] at h
          cases h
        · simp only [hpositions, Check.bind_yields, Check.pure_yields] at h
          obtain ⟨parameter, w, hadd, rfl, rfl⟩ := h
          have hne : correlationScopes (s.scopes.take (depth + 1)) 0 [] ≠ [] := fun hnil => by
            rw [hnil] at hpositions
            cases hpositions
          exact ⟨_, _, _, _, hfound, rfl, .inr ⟨depth, rfl, hexposed, hne, hpositions ▸ hadd⟩⟩
      · cases h

/-- A variable name becomes a reference, and is at most captured. -/
theorem analyzeVariableName_yields {name : Name} {s t : AnalyzerState ρ} {e : Scalar}
    (h : analyzeVariableName env name s = (some e, t)) :
    (∃ v, e = .variableReference v) ∧ Capturing s t := by
  obtain ⟨found, depth, u, v, hfound, rfl, hcases⟩ := analyzeVariableName_cases env h
  have hquiet : Quiet _ _ := findSymbol_quiet env s.scopes name variableTargets true hfound
  have hsearch := hquiet.capturing
  obtain ⟨-, -, rfl⟩ | ⟨d, -, -, -, hadd⟩ := hcases
  · exact ⟨⟨v, rfl⟩, hsearch⟩
  · exact ⟨⟨v, rfl⟩, Check.Frame.trans hsearch (addParameters_capturing env _ _ _ hadd)⟩

end Mizugaki.Analyzer
