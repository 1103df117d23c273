import Mizugaki.Analyzer.NameResolution
import Mizugaki.Scoping.Growth

/-! Joins that merge columns. A column of a USING clause is the only exported one of its name on
either side; the right one is hidden, so that the name means the left one from then on. -/

namespace Mizugaki.Analyzer

open Mizugaki.Ast Mizugaki.Plan Mizugaki.Control Mizugaki.Data.Chain

variable {ρ : Type} {env : Environment ρ}

/-- The exported columns of a name in relations. -/
def exportedIn (identifier : String) (relations : List RelationInfo) : List ColumnInfo :=
  relations.flatMap fun r => r.exportedNamed identifier

/-- A condition of which one part equates two columns. -/
inductive Requires (l r : Variable) : Scalar → Prop
  | term : Requires l r (.compare .equal (.variableReference l) (.variableReference r))
  | left {e e' : Scalar} (h : Requires l r e) : Requires l r (.binary .conditionalAnd e e')
  | right {e e' : Scalar} (h : Requires l r e') : Requires l r (.binary .conditionalAnd e e')

variable (env) in
/-- What a USING clause does to the relations on both sides of a join: each name had one exported
column on either side, which are equated, and the right one is no longer exported. -/
structure Merges (pivot : Nat) (names : List SimpleName) (s t : AnalyzerState ρ) (e : Scalar) :
    Prop where
  left : t.scope.relations.take pivot = s.scope.relations.take pivot
  merged : ∀ name ∈ names, ∃ l r,
    (exportedIn (identifierOf env name .variable)
        (s.scope.relations.take pivot)).map ColumnInfo.variable_ = [l] ∧
      (exportedIn (identifierOf env name .variable)
        (s.scope.relations.drop pivot)).map ColumnInfo.variable_ = [r] ∧
      exportedIn (identifierOf env name .variable) (t.scope.relations.drop pivot) = [] ∧
      Requires l r e
  others : ∀ id, id ∉ names.map (identifierOf env · .variable) →
    exportedIn id (t.scope.relations.drop pivot) = exportedIn id (s.scope.relations.drop pivot)

/-- A name that is merged later has its right column until then. -/
theorem Merges.cons {pivot : Nat} {name : SimpleName} {names : List SimpleName}
    {s u t : AnalyzerState ρ} {e e' : Scalar} (h : Merges env pivot [name] s u e)
    (k : Merges env pivot names u t e') (hrequires : ∀ l r, Requires l r e → Requires l r e') :
    Merges env pivot (name :: names) s t e' where
  left := k.left.trans h.left
  merged := by
    obtain ⟨l, r, hl, hr, hhidden, he⟩ := h.merged name (List.mem_singleton_self _)
    refine List.forall_mem_cons.mpr ⟨⟨l, r, hl, hr, ?_, hrequires l r he⟩, fun name' hname' => ?_⟩
    · by_cases hmem : identifierOf env name .variable ∈ names.map (identifierOf env · .variable)
      · obtain ⟨name', hname', hid⟩ := List.mem_map.mp hmem
        obtain ⟨_, _, _, _, hhidden', _⟩ := k.merged name' hname'
        rwa [hid] at hhidden'
      · rw [k.others _ hmem, hhidden]
    · obtain ⟨l', r', hl', hr', hhidden', he'⟩ := k.merged name' hname'
      have hne : identifierOf env name' .variable ∉ [name].map (identifierOf env · .variable) := by
        rw [List.map_singleton, List.mem_singleton]
        intro hid
        rw [hid, hhidden] at hr'
        cases hr'
      exact ⟨l', r', h.left ▸ hl', h.others _ hne ▸ hr', hhidden', he'⟩
  others id hid := by
    rw [List.map_cons, List.mem_cons, not_or] at hid
    rw [k.others id hid.2, h.others id (by simpa using hid.1)]

end Mizugaki.Analyzer
