import Mathlib.Data.List.Nodup
import Mizugaki.Analyzer.Capture
import Mizugaki.Analyzer.Found
import Mizugaki.Plan.Subquery

/-! Chains of scopes in which every variable that is handed down comes from the scope above. What
can be read in a scope are the columns of its relations and the parameters of the nearest
correlation scope around it; an independent scope shuts everything out. -/

namespace Mizugaki.Plan

/-- What a graph reads it defines, or gets by a parameter, and what it hands to a graph nested in
it too; what it takes of a graph gets other columns. It gets columns, its parameters differ, and no
variable is handed to it twice. -/
structure Graph.Contained (parameters : List (Variable × Variable)) (g : Graph) : Prop where
  reads : ∀ op ∈ g.operators, ∀ v ∈ op.reads, v.isColumn = true →
    v ∈ g.defines ∨ v ∈ parameters.map Prod.snd
  hands : ∀ op ∈ g.operators, ∀ node ∈ op.nested, ∀ p ∈ node.parameters,
    p.1 ∈ g.defines ∨ p.1 ∈ parameters.map Prod.snd
  separate : ∀ op ∈ g.operators, op.Separate
  taken : ∀ p ∈ parameters, p.1.isColumn = true
  destinations : (parameters.map Prod.snd).Nodup
  sources : (parameters.map Prod.fst).Nodup

/-- A nested graph is contained, and so are all graphs nested in it. -/
def SubqueryNode.Closed (n : SubqueryNode) : Prop :=
  n.graph.Hereditary Graph.Contained n.parameters

/-- A graph that takes `inputs` from around it, whose columns are streams that are numbered before
the counter reaches `n`. -/
structure Graph.Scoped (inputs : List Variable) (n : Nat) (g : Graph) : Prop where
  reads : ∀ op ∈ g.operators, ∀ v ∈ op.reads, v.isColumn = true → v ∈ g.defines ∨ v ∈ inputs
  nested : ∀ op ∈ g.operators, ∀ node ∈ op.nested, node.Closed
  separate : ∀ op ∈ g.operators, op.Separate
  defines : ∀ v ∈ g.defines, v.isStream = true ∧ v.Below n

namespace Graph.Scoped

variable {inputs inputs' : List Variable} {n m : Nat} {g : Graph}

theorem mono (h : g.Scoped inputs n) (hinputs : inputs ⊆ inputs') (hnm : n ≤ m) :
    g.Scoped inputs' m where
  reads op hop v hv hc := (h.reads op hop v hv hc).imp_right fun hv => hinputs hv
  nested := h.nested
  separate := h.separate
  defines v hv := ⟨(h.defines v hv).1, (h.defines v hv).2.mono hnm⟩

/-- A graph that takes nothing but its parameters from around it is closed. -/
theorem closed {parameters : List (Variable × Variable)}
    (h : g.Scoped (parameters.map Prod.snd) n) (ht : ∀ p ∈ parameters, p.1.isColumn = true)
    (hd : (parameters.map Prod.snd).Nodup) (hs : (parameters.map Prod.fst).Nodup) :
    (SubqueryNode.mk g parameters).Closed := by
  refine .intro ⟨h.reads, fun op hop node hnode p hp => ?_, h.separate, ht, hd, hs⟩ h.nested
  exact h.reads op hop p.1 (op.reads_of_nested hnode hp) ((h.nested op hop node hnode).here.taken p hp)

end Graph.Scoped

end Mizugaki.Plan

namespace Mizugaki.Analyzer

open Mizugaki.Ast Mizugaki.Plan Mizugaki.Control

variable {ρ : Type}

/-! ### What can be read -/

/-- The parameters that can be read in a chain of scopes: those of the nearest correlation scope,
unless an independent scope comes before it. -/
def own : List QueryScope → List Variable
  | [] => []
  | scope :: parents =>
    if scope.features.independent then []
    else if scope.features.correlation then scope.parameters.map Prod.snd
    else own parents

/-- A column of the innermost scope, or a parameter that can be read there. -/
def Visible (scopes : List QueryScope) (v : Variable) : Prop :=
  v ∈ (scopes.headD .empty).variables ∨ v ∈ own scopes

/-- What an expression may mention before the counter reaches `n`: what is visible, external
variables and local ones that are already numbered. -/
def Legible (scopes : List QueryScope) (n : Nat) (v : Variable) : Prop :=
  Visible scopes v ∨ (∃ x, v = .external x) ∨ ∃ k < n, v = .localVariable k

theorem own_of_plain {scope : QueryScope} {parents : List QueryScope}
    (hi : scope.features.independent = false) (hc : scope.features.correlation = false) :
    own (scope :: parents) = own parents := by
  simp [own, hi, hc]

theorem own_of_correlation {scope : QueryScope} {parents : List QueryScope}
    (hi : scope.features.independent = false) (hc : scope.features.correlation = true) :
    own (scope :: parents) = scope.parameters.map Prod.snd := by
  simp [own, hi, hc]

theorem own_of_independent {scope : QueryScope} {parents : List QueryScope}
    (hi : scope.features.independent = true) : own (scope :: parents) = [] := by
  simp [own, hi]

namespace QueryScope.Captures

variable {scope later : QueryScope}

theorem columns (h : scope.Captures later) : later.variables = scope.variables := by
  rw [QueryScope.variables, QueryScope.variables, h.relations]

theorem destinations (h : scope.Captures later) :
    scope.parameters.map Prod.snd ⊆ later.parameters.map Prod.snd := by
  obtain ⟨ps, hps⟩ := h.parameters
  rw [hps, List.map_append]
  exact List.subset_append_left _ _

end QueryScope.Captures

namespace Captured

variable {scopes later : List QueryScope}

theorem own : ∀ {scopes later : List QueryScope}, Captured scopes later →
    own scopes ⊆ own later
  | _, _, .nil => fun _ h => h
  | scope :: _, later :: _, .cons h hs => by
    have hfeatures := h.features
    cases hi : scope.features.independent with
    | true =>
      rw [own_of_independent hi]
      exact List.nil_subset _
    | false =>
      cases hc : scope.features.correlation with
      | true =>
        rw [own_of_correlation hi hc,
          own_of_correlation (hfeatures ▸ hi) (hfeatures ▸ hc)]
        exact h.destinations
      | false =>
        rw [own_of_plain hi hc, own_of_plain (hfeatures ▸ hi) (hfeatures ▸ hc)]
        exact own hs

theorem headD (h : Captured scopes later) :
    (scopes.headD .empty).Captures (later.headD .empty) := by
  cases h with
  | nil => exact .refl _
  | cons h _ => exact h

theorem visible (h : Captured scopes later) {v : Variable} (hv : Visible scopes v) :
    Visible later v :=
  hv.imp (fun hv => h.headD.columns ▸ hv) fun hv => h.own hv

theorem legible (h : Captured scopes later) {n m : Nat} (hnm : n ≤ m) {v : Variable}
    (hv : Legible scopes n v) : Legible later m v := by
  obtain hv | hx | ⟨k, hk, rfl⟩ := hv
  · exact .inl (h.visible hv)
  · exact .inr (.inl hx)
  · exact .inr (.inr ⟨k, by omega, rfl⟩)

end Captured

/-! ### Sound chains -/

/-- A query that can be referred to by name takes nothing from around it. -/
structure QueryInfo.Sound (n : Nat) (q : QueryInfo) : Prop where
  closed : (SubqueryNode.mk q.queryGraph []).Closed
  outputs : q.outputColumns ⊆ q.queryGraph.defines
  below : ∀ v ∈ q.queryGraph.defines, v.Below n

/-- A scope that is sound among its parents: its columns are streams, its parameters stand for what
can be read around it, each for one variable, and it exposes the scope above it only to a
correlation scope. -/
structure QueryScope.Sound (n : Nat) (parents : List QueryScope) (scope : QueryScope) : Prop where
  columns : ∀ v ∈ scope.variables, v.isStream = true ∧ v.Below n
  visible : ∀ p ∈ scope.parameters, Visible parents p.1
  frames : ∀ p ∈ scope.parameters, p.2.isFrame = true ∧ p.2.Below n
  destinations : (scope.parameters.map Prod.snd).Nodup
  sources : (scope.parameters.map Prod.fst).Nodup
  queries : ∀ name q, scope.queryMap name = some q → q.Sound n
  exposed : (parents.headD .empty).features.expose = true → scope.features.correlation = true

/-- All scopes of a chain are sound. -/
def SoundChain (n : Nat) : List QueryScope → Prop
  | [] => True
  | scope :: parents => scope.Sound n parents ∧ SoundChain n parents

/-- The state of an analysis: the chain is sound, and the innermost scope is not exposed. -/
structure AnalyzerState.Sound (s : AnalyzerState ρ) : Prop where
  chain : SoundChain s.fresh s.scopes
  hidden : s.scope.features.expose = false

theorem QueryInfo.Sound.mono {n m : Nat} {q : QueryInfo} (h : q.Sound n) (hnm : n ≤ m) :
    q.Sound m :=
  { h with below := fun v hv => (h.below v hv).mono hnm }

theorem QueryScope.Sound.mono {n m : Nat} {parents later : List QueryScope} {scope : QueryScope}
    (h : scope.Sound n parents) (hnm : n ≤ m) (hlater : Captured parents later) :
    scope.Sound m later where
  columns v hv := ⟨(h.columns v hv).1, (h.columns v hv).2.mono hnm⟩
  visible p hp := hlater.visible (h.visible p hp)
  frames p hp := ⟨(h.frames p hp).1, (h.frames p hp).2.mono hnm⟩
  destinations := h.destinations
  sources := h.sources
  queries name q hq := (h.queries name q hq).mono hnm
  exposed he := h.exposed (hlater.headD.features ▸ he)

theorem SoundChain.mono {n m : Nat} (hnm : n ≤ m) :
    ∀ {scopes : List QueryScope}, SoundChain n scopes → SoundChain m scopes
  | [], _ => trivial
  | _ :: parents, h => ⟨h.1.mono hnm (.refl parents), SoundChain.mono hnm h.2⟩

theorem SoundChain.drop {n : Nat} : ∀ (k : Nat) {scopes : List QueryScope}, SoundChain n scopes →
    SoundChain n (scopes.drop k)
  | 0, _, h => h
  | _ + 1, [], _ => trivial
  | k + 1, _ :: _, h => SoundChain.drop k h.2

theorem SoundChain.mem {n : Nat} : ∀ {scopes : List QueryScope}, SoundChain n scopes →
    ∀ {scope : QueryScope}, scope ∈ scopes → ∃ parents, scope.Sound n parents
  | _ :: _, h, _, hmem => by
    obtain rfl | hmem := List.mem_cons.mp hmem
    · exact ⟨_, h.1⟩
    · exact SoundChain.mem h.2 hmem

/-- What can be read in a sound chain is a column. -/
theorem SoundChain.isColumn {n : Nat} {scopes : List QueryScope} (h : SoundChain n scopes)
    {v : Variable} (hv : Visible scopes v) : v.isColumn = true := by
  have hstream : ∀ v : Variable, v.isStream = true → v.isColumn = true := fun v hv => by
    rw [Variable.isColumn, hv, Bool.true_or]
  have hframe : ∀ v : Variable, v.isFrame = true → v.isColumn = true := fun v hv => by
    rw [Variable.isColumn, hv, Bool.or_true]
  obtain hv | hv := hv
  · cases scopes with
    | nil => cases hv
    | cons scope parents => exact hstream v (h.1.columns v hv).1
  · induction scopes with
    | nil => cases hv
    | cons scope parents ih =>
      rw [own] at hv
      split_ifs at hv with hi hc
      · cases hv
      · obtain ⟨p, hp, rfl⟩ := List.mem_map.mp hv
        exact hframe p.2 (h.1.frames p hp).1
      · exact ih h.2 hv

/-! ### Handing a variable down -/

/-- A chain of scopes with a new parameter in one of them. -/
theorem captured_push (inner : List QueryScope) (scope : QueryScope) (outer : List QueryScope)
    (free parameter : Variable) :
    Captured (inner ++ scope :: outer) (inner ++ scope.pushParameter free parameter :: outer) := by
  induction inner with
  | nil => exact .cons (.push scope free parameter) (Captured.refl outer)
  | cons first inner ih => exact .cons (.refl first) ih

/-- A new parameter of a correlation scope, for what can be read around the scope. -/
theorem QueryScope.Sound.push {n : Nat} {parents : List QueryScope} {scope : QueryScope}
    (h : scope.Sound n parents) {free : Variable} (hfree : Visible parents free)
    (hnew : scope.findParameter free = none) :
    (scope.pushParameter free (.frame n)).Sound (n + 1) parents where
  columns v hv := ⟨(h.columns v hv).1, (h.columns v hv).2.mono (Nat.le_succ n)⟩
  visible p hp := by
    obtain hp | hp := List.mem_append.mp hp
    · exact h.visible p hp
    · rw [List.mem_singleton.mp hp]
      exact hfree
  frames p hp := by
    obtain hp | hp := List.mem_append.mp hp
    · exact ⟨(h.frames p hp).1, (h.frames p hp).2.mono (Nat.le_succ n)⟩
    · rw [List.mem_singleton.mp hp]
      exact ⟨rfl, Nat.lt_succ_self n⟩
  destinations := by
    change (List.map Prod.snd (scope.parameters ++ [(free, .frame n)])).Nodup
    rw [List.map_append, List.nodup_append]
    refine ⟨h.destinations, List.nodup_singleton _, ?_⟩
    intro v hv w hw
    obtain ⟨p, hp, rfl⟩ := List.mem_map.mp hv
    rw [List.mem_singleton.mp hw]
    intro heq
    have hbelow := (h.frames p hp).2
    rw [heq] at hbelow
    exact absurd hbelow (Nat.lt_irrefl n)
  sources := by
    change (List.map Prod.fst (scope.parameters ++ [(free, .frame n)])).Nodup
    rw [List.map_append, List.nodup_append]
    refine ⟨h.sources, List.nodup_singleton _, ?_⟩
    intro v hv w hw
    obtain ⟨p, hp, rfl⟩ := List.mem_map.mp hv
    rw [List.mem_singleton.mp hw]
    intro heq
    have hfound := List.find?_eq_none.mp (Option.map_eq_none_iff.mp hnew) p hp
    exact hfound (by simpa using heq)
  queries name q hq := (h.queries name q hq).mono (Nat.le_succ n)
  exposed := h.exposed

theorem SoundChain.push {n : Nat} : ∀ {inner : List QueryScope} {scope : QueryScope}
    {outer : List QueryScope}, SoundChain n (inner ++ scope :: outer) → ∀ {free : Variable},
    Visible outer free → scope.findParameter free = none →
    SoundChain (n + 1) (inner ++ scope.pushParameter free (.frame n) :: outer)
  | [], _, _, h, _, hfree, hnew => ⟨h.1.push hfree hnew, SoundChain.mono (Nat.le_succ n) h.2⟩
  | _ :: inner, scope, outer, h, free, hfree, hnew =>
    ⟨h.1.mono (Nat.le_succ n) (captured_push inner scope outer free (.frame n)),
      SoundChain.push (show SoundChain n (inner ++ scope :: outer) from h.2) hfree hnew⟩

end Mizugaki.Analyzer
