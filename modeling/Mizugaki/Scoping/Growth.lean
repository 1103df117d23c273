import Mizugaki.Ast.Induction
import Mizugaki.Scoping.Engine

/-! The relations of a FROM clause. A table expression puts relations of its own behind those of the
current scope; the relations that were there stay as they are. -/

namespace Mizugaki.Analyzer

open Mizugaki.Ast Mizugaki.Plan Mizugaki.Control

variable {ρ : Type} {env : Environment ρ}

/-- Between two states the current scope got relations, whose columns are among others. -/
def Appends (s t : AnalyzerState ρ) (vs : List Variable) : Prop :=
  ∃ added, t.scope.relations = s.scope.relations ++ added ∧
    added.flatMap RelationInfo.variables ⊆ vs

theorem Extends.relations {s t : AnalyzerState ρ} (h : Extends s t) :
    t.scope.relations = s.scope.relations :=
  QueryScope.Captures.relations h.scopes.headD

theorem Quiet.relations {s t : AnalyzerState ρ} (h : Quiet s t) :
    t.scope.relations = s.scope.relations := h.extends.relations

namespace Appends

variable {s t u : AnalyzerState ρ} {vs ws : List Variable}

theorem of_extends (h : Extends s t) : Appends s t [] :=
  ⟨[], by rw [h.relations, List.append_nil], List.nil_subset _⟩

theorem trans (h : Appends s t vs) (k : Appends t u ws) : Appends s u (vs ++ ws) := by
  obtain ⟨first, hfirst, hvs⟩ := h
  obtain ⟨second, hsecond, hws⟩ := k
  refine ⟨first ++ second, by rw [hsecond, hfirst, List.append_assoc], ?_⟩
  rw [List.flatMap_append]
  exact List.append_subset.mpr
    ⟨List.subset_append_of_subset_left _ hvs, List.subset_append_of_subset_right _ hws⟩

theorem mono (h : Appends s t vs) (hvs : vs ⊆ ws) : Appends s t ws := by
  obtain ⟨added, hadded, hvariables⟩ := h
  exact ⟨added, hadded, List.Subset.trans hvariables hvs⟩

end Appends

/-- The join of what its operands append. -/
theorem Appends.join {s u v t : AnalyzerState ρ} {ls rs : List Variable} (hl : Appends s u ls)
    (hr : Appends u v rs)
    (htake : t.scope.relations.take u.scope.relations.length =
      v.scope.relations.take u.scope.relations.length)
    (hdrop : (t.scope.relations.drop u.scope.relations.length).flatMap RelationInfo.variables =
      (v.scope.relations.drop u.scope.relations.length).flatMap RelationInfo.variables) :
    Appends s t (ls ++ rs) := by
  obtain ⟨first, hfirst, hls⟩ := hl
  obtain ⟨second, hsecond, hrs⟩ := hr
  rw [hsecond, List.take_left] at htake
  rw [hsecond, List.drop_left] at hdrop
  have hsplit := List.take_append_drop u.scope.relations.length t.scope.relations
  rw [htake] at hsplit
  refine ⟨first ++ t.scope.relations.drop u.scope.relations.length, ?_, ?_⟩
  · rw [← List.append_assoc, ← hfirst, hsplit]
  · rw [List.flatMap_append, hdrop]
    exact List.append_subset.mpr
      ⟨List.subset_append_of_subset_left _ hls, List.subset_append_of_subset_right _ hrs⟩

end Mizugaki.Analyzer
