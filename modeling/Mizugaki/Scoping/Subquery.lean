import Mizugaki.Scoping.Expression

/-! Subqueries in sound chains. The scope that holds a subquery is exposed while the query is
analyzed, under a correlation scope of its own; afterwards it is hidden again, and what the
correlation scope collected are the parameters of the subquery. -/

namespace Mizugaki.Analyzer

open Mizugaki.Ast Mizugaki.Plan Mizugaki.Control

variable {ρ : Type} {env : Environment ρ}

/-! ### Scopes that grow -/

/-- A scope that got more columns, and more parameters. -/
structure QueryScope.Widens (scope later : QueryScope) : Prop where
  features : later.features = scope.features
  parameters : scope.parameters <+: later.parameters
  columns : scope.variables ⊆ later.variables

/-- A chain whose innermost scope got more columns, and all scopes more parameters. -/
inductive Widened : List QueryScope → List QueryScope → Prop
  | nil : Widened [] []
  | cons {scope later : QueryScope} {parents parents' : List QueryScope} :
    scope.Widens later → Captured parents parents' → Widened (scope :: parents) (later :: parents')

/-- Between two states the innermost scope got more columns. -/
structure Widens (s t : AnalyzerState ρ) : Prop where
  scopes : Widened s.scopes t.scopes
  fresh : s.fresh ≤ t.fresh

theorem QueryScope.Captures.widens {scope later : QueryScope} (h : scope.Captures later) :
    scope.Widens later where
  features := h.features
  parameters := by
    obtain ⟨ps, hps⟩ := h.parameters
    exact ⟨ps, hps.symm⟩
  columns := h.columns ▸ List.Subset.refl _

theorem QueryScope.Widens.trans {scope later last : QueryScope} (h : scope.Widens later)
    (k : later.Widens last) : scope.Widens last where
  features := k.features.trans h.features
  parameters := h.parameters.trans k.parameters
  columns := List.Subset.trans h.columns k.columns

theorem Captured.widened {scopes later : List QueryScope} (h : Captured scopes later) :
    Widened scopes later := by
  cases h with
  | nil => exact .nil
  | cons h hs => exact .cons h.widens hs

theorem Widened.trans {scopes later last : List QueryScope} (h : Widened scopes later)
    (k : Widened later last) : Widened scopes last := by
  cases h with
  | nil => exact k
  | cons h hs =>
    cases k with
    | cons k ks => exact .cons (h.trans k) (hs.trans ks)

theorem Widened.own {scopes later : List QueryScope} (h : Widened scopes later) :
    own scopes ⊆ own later := by
  cases h with
  | nil => exact List.Subset.refl _
  | @cons scope next parents parents' h hs =>
    have hfeatures := h.features
    cases hi : scope.features.independent with
    | true =>
      rw [own_of_independent hi]
      exact List.nil_subset _
    | false =>
      cases hc : scope.features.correlation with
      | true =>
        rw [own_of_correlation hi hc, own_of_correlation (hfeatures ▸ hi) (hfeatures ▸ hc)]
        exact List.map_subset _ h.parameters.subset
      | false =>
        rw [own_of_plain hi hc, own_of_plain (hfeatures ▸ hi) (hfeatures ▸ hc)]
        exact hs.own

theorem Widened.columns {scopes later : List QueryScope} (h : Widened scopes later) :
    (scopes.headD .empty).variables ⊆ (later.headD .empty).variables := by
  cases h with
  | nil => exact List.Subset.refl _
  | cons h _ => exact h.columns

theorem Widened.visible {scopes later : List QueryScope} (h : Widened scopes later) {v : Variable}
    (hv : Visible scopes v) : Visible later v :=
  hv.imp (fun hv => h.columns hv) fun hv => h.own hv

theorem Scoped.widen {scopes later : List QueryScope} {n m : Nat} {e : Scalar}
    (h : Scoped scopes n e) (hlater : Widened scopes later) (hnm : n ≤ m) : Scoped later m e := by
  refine ⟨h.1.mono fun v hv => ?_, fun node hnode =>
    ⟨(h.2 node hnode).1, fun p hp => hlater.visible ((h.2 node hnode).2 p hp)⟩⟩
  obtain hv | hx | ⟨k, hk, rfl⟩ := hv
  · exact .inl (hlater.visible hv)
  · exact .inr (.inl hx)
  · exact legible_local (by omega)

namespace Widens

variable {s t u : AnalyzerState ρ}

theorem trans (h : Widens s t) (k : Widens t u) : Widens s u :=
  ⟨h.scopes.trans k.scopes, h.fresh.trans k.fresh⟩

theorem columns (h : Widens s t) : s.scope.variables ⊆ t.scope.variables := h.scopes.columns

/-- Leaving the scope in which the run widened the chain. -/
theorem leave {scope : QueryScope} (h : Widens (s.enter scope) t) : Extends s t.leave := by
  obtain ⟨hscopes, hfresh⟩ := h
  refine ⟨?_, hfresh⟩
  rw [AnalyzerState.leave]
  generalize t.scopes = later at hscopes
  cases hscopes with
  | cons _ hs => exact hs

end Widens

theorem Extends.widens {s t : AnalyzerState ρ} (h : Extends s t) : Widens s t :=
  ⟨h.scopes.widened, h.fresh⟩

/-! ### Queries -/

/-- The result of a query is a graph that takes only the parameters of the nearest correlation
scope, and its columns are columns of the graph. -/
structure Answers (s t : AnalyzerState ρ) (r : QueryResult) : Prop where
  sound : t.Sound
  widens : Widens s t
  graph : r.output.Scoped (own t.scopes) t.fresh
  columns : r.relation.variables ⊆ r.output.defines

/-- An analysis of a query that answers from every sound state; to continue a scope it has to be
without relations. -/
def QueryScoped (q : QueryAction ρ) : Prop :=
  ∀ context continueScope ⦃s t r⦄, q context continueScope s = (some r, t) → s.Sound →
    (continueScope = true → s.scope.relations = []) → Answers s t r

/-! ### Exposing a scope -/

section

variable {scope : QueryScope} {f : ScopeFeatures}

@[simp] theorem setFeatures_variables : (scope.setFeatures f).variables = scope.variables := rfl

theorem own_setFeatures (hi : f.independent = scope.features.independent)
    (hc : f.correlation = scope.features.correlation) (parents : List QueryScope) :
    own (scope.setFeatures f :: parents) = own (scope :: parents) := by
  simp only [own, QueryScope.setFeatures, hi, hc]

theorem QueryScope.Sound.setFeatures {n : Nat} {parents : List QueryScope}
    (h : scope.Sound n parents) (hc : f.correlation = scope.features.correlation) :
    (scope.setFeatures f).Sound n parents :=
  { h with exposed := fun he => hc.trans (h.exposed he) }

end

/-- The scope as it was before, with the parameters it got while its features were others. -/
theorem QueryScope.Captures.restore {scope later : QueryScope} {f : ScopeFeatures}
    (h : (scope.setFeatures f).Captures later) :
    scope.Captures (later.setFeatures scope.features) := by
  obtain ⟨ps, rfl⟩ := h
  exact ⟨ps, rfl⟩

theorem empty_sound {n : Nat} {parents : List QueryScope} {f : ScopeFeatures}
    (h : (parents.headD .empty).features.expose = true → f.correlation = true) :
    (QueryScope.empty f).Sound n parents where
  columns _ hv := nomatch hv
  visible _ hp := nomatch hp
  frames _ hp := nomatch hp
  destinations := List.nodup_nil
  sources := List.nodup_nil
  queries _ _ hq := nomatch hq
  exposed := h

/-- A sound scope to enter. -/
theorem AnalyzerState.Sound.enter {s : AnalyzerState ρ} {f : ScopeFeatures}
    (hs : SoundChain s.fresh s.scopes) (hf : f.expose = false)
    (hexposed : s.scope.features.expose = true → f.correlation = true) :
    (s.enter (.empty f)).Sound where
  chain := ⟨empty_sound hexposed, hs⟩
  hidden := hf

/-- Leaving a scope under which the state is sound. -/
theorem AnalyzerState.Sound.leave {s t : AnalyzerState ρ} (hs : s.Sound) {scope : QueryScope}
    (ht : t.Sound) (h : Widens (s.enter scope) t) : t.leave.Sound where
  chain := by
    have hchain := ht.chain
    rw [AnalyzerState.leave]
    cases hscopes : t.scopes with
    | nil => exact trivial
    | cons later parents =>
      rw [hscopes] at hchain
      exact hchain.2
  hidden := h.leave.hidden hs.hidden

/-- What a query takes that ran in a scope between. -/
theorem Answers.leave {s t : AnalyzerState ρ} {r : QueryResult} {f : ScopeFeatures}
    (h : Answers (s.enter (.empty f)) t r) (hi : f.independent = false)
    (hc : f.correlation = false) : r.output.Scoped (own t.leave.scopes) t.leave.fresh := by
  have hscopes := h.widens.scopes
  have hgraph := h.graph
  rw [AnalyzerState.leave]
  cases ht : t.scopes with
  | nil =>
    rw [ht] at hscopes
    cases hscopes
  | cons last parents =>
    rw [ht] at hscopes hgraph
    cases hscopes with
    | cons hwidens _ =>
      have hfeatures := hwidens.features
      rwa [own_of_plain (by rw [hfeatures]; exact hi) (by rw [hfeatures]; exact hc)] at hgraph

/-- Running a query under a new scope without features. -/
theorem QueryScoped.nested {q : QueryAction ρ} (h : QueryScoped q) {context : List ScalarValueContext}
    {s t : AnalyzerState ρ} {r : QueryResult} {f : ScopeFeatures}
    (hrun : q context false (s.enter (.empty f)) = (some r, t)) (hs : s.Sound)
    (hf : f.expose = false) :
    t.leave.Sound ∧ Extends s t.leave ∧ Answers (s.enter (.empty f)) t r := by
  have hexposed : s.scope.features.expose = true → f.correlation = true := fun he => by
    rw [hs.hidden] at he
    cases he
  have hanswers := h context false hrun (.enter hs.chain hf hexposed) (fun hc => by cases hc)
  exact ⟨hs.leave hanswers.sound hanswers.widens, hanswers.widens.leave, hanswers⟩

/-- The scope that holds a subquery, exposed. -/
def AnalyzerState.exposing (s : AnalyzerState ρ) : AnalyzerState ρ :=
  { s with scopes := s.scopes.modify 0 (·.setFeatures { s.scope.features with expose := true }) }

/-- A run of a subquery: the query was analyzed under a correlation scope. -/
theorem analyzeSubquery_yields {query : QueryAction ρ} {s t : AnalyzerState ρ}
    {result : QueryResult} {parameters : List (Variable × Variable)}
    (h : analyzeSubquery query s = (some (result, parameters), t)) :
    ∃ u, query [] false (s.exposing.enter (.empty { correlation := true })) = (some result, u) ∧
      parameters = u.scope.parameters ∧
      t = { u with scopes := u.scopes.tail.modify 0 (·.setFeatures s.scope.features) } := by
  simp only [analyzeSubquery, modifyScope, Check.bind_yields, Check.map_yields, currentScope_yields,
    Check.modify_yields, Check.pure_yields, Prod.mk.injEq] at h
  obtain ⟨_, _, ⟨_, ⟨rfl, rfl⟩, rfl⟩, -, _, rfl, ⟨r, left⟩, v, hwith, -, _, rfl, ⟨rfl, rfl⟩,
    rfl⟩ := h
  obtain ⟨u, hquery, rfl, rfl⟩ := (withScope_yields ..).mp hwith
  exact ⟨u, hquery, rfl, rfl⟩

/-- What a subquery becomes: a closed graph that takes what is visible in the scope that holds it,
which is left as it was but for its parameters. -/
theorem analyzeSubquery_scoped {query : QueryAction ρ} (h : QueryScoped query)
    {s t : AnalyzerState ρ} {result : QueryResult} {parameters : List (Variable × Variable)}
    (hrun : analyzeSubquery query s = (some (result, parameters), t)) (hs : s.Sound) :
    t.Sound ∧ Extends s t ∧ NodeScoped t.scopes ⟨result.output, parameters⟩ ∧
      result.relation.variables ⊆ result.output.defines := by
  obtain ⟨u, hquery, rfl, rfl⟩ := analyzeSubquery_yields hrun
  have hexposing : SoundChain s.fresh s.exposing.scopes := by
    have hchain := hs.chain
    cases hscopes : s.scopes with
    | nil => simp [AnalyzerState.exposing, hscopes, SoundChain]
    | cons scope parents =>
      rw [hscopes] at hchain
      simp only [AnalyzerState.exposing, hscopes, List.modify_zero_cons, AnalyzerState.scope,
        List.headD_cons]
      exact ⟨hchain.1.setFeatures rfl, hchain.2⟩
  have hanswers := h [] false hquery (.enter hexposing rfl fun _ => rfl) (fun hc => by cases hc)
  obtain ⟨hsound, ⟨hscopes, hfresh⟩, hgraph, hcolumns⟩ := hanswers
  have hchain := hsound.chain
  have hhidden := hs.hidden
  rw [AnalyzerState.enter] at hscopes
  cases hu : u.scopes with
  | nil =>
    rw [hu] at hscopes
    cases hscopes
  | cons last parents =>
    rw [hu] at hscopes hchain hgraph
    have hlast : u.scope = last := by rw [AnalyzerState.scope, hu]; rfl
    cases hscopes with
    | cons hwidens hparents =>
      have hfeatures := hwidens.features
      rw [own_of_correlation (by rw [hfeatures]; rfl) (by rw [hfeatures]; rfl)] at hgraph
      have hclosed := hgraph.closed (fun p hp => hchain.2.isColumn (hchain.1.visible p hp))
        hchain.1.destinations hchain.1.sources
      rw [hlast, List.tail_cons]
      cases hscopes : s.scopes with
      | nil =>
        simp only [AnalyzerState.exposing, hscopes, List.modify_nil] at hparents
        cases hparents
        exact ⟨⟨trivial, rfl⟩, ⟨by rw [hscopes]; exact .nil, hfresh⟩,
          ⟨hclosed, hchain.1.visible⟩, hcolumns⟩
      | cons scope rest =>
        simp only [AnalyzerState.exposing, AnalyzerState.scope, hscopes, List.modify_zero_cons,
          List.headD_cons] at hparents hhidden ⊢
        cases hparents with
        | @cons _ later _ rest' hlater hrest =>
          have hflags := hlater.features
          have hcaptures := hlater.restore
          refine ⟨⟨⟨hchain.2.1.setFeatures ?_, hchain.2.2⟩, hhidden⟩,
            ⟨by rw [hscopes]; exact .cons hcaptures hrest, hfresh⟩, ⟨hclosed, fun p hp => ?_⟩,
            hcolumns⟩
          · rw [hflags]
            rfl
          · refine (hchain.1.visible p hp).imp id fun hown => ?_
            change p.1 ∈ own (later.setFeatures scope.features :: rest')
            rw [own_setFeatures (by rw [hflags]; rfl) (by rw [hflags]; rfl)]
            exact hown

/-! ### Scalar expressions with subqueries -/

theorem analyzeSubquery_reads {query : QueryAction ρ} (h : QueryScoped query)
    {s t : AnalyzerState ρ} {result : QueryResult} {parameters : List (Variable × Variable)}
    (hrun : analyzeSubquery query s = (some (result, parameters), t)) :
    Reads s t [.exists_ result.output parameters] where
  sound hs := (analyzeSubquery_scoped h hrun hs).1
  frame hs := (analyzeSubquery_scoped h hrun hs).2.1
  expressions hs e he := by
    obtain ⟨-, -, hnode, -⟩ := analyzeSubquery_scoped h hrun hs
    rw [List.mem_singleton.mp he]
    exact scoped_exists.mpr hnode

theorem processSubquery_scoped {query : QueryAction ρ} (h : QueryScoped query)
    (contextKind : ExpressionContextKind) :
    ScalarScoped fun _ => processSubquery query contextKind := by
  intro context s t e hrun
  cases contextKind with
  | row => cases hrun
  | scalar =>
    simp only [processSubquery, Check.bind_yields, Check.pure_yields] at hrun
    obtain ⟨⟨result, parameters⟩, u, hquery, v, w, hcolumn, rfl, rfl⟩ := hrun
    have hall := (analyzeSubquery_reads h hquery).trans_quiet (singleColumn_quiet _ hcolumn)
    exact hall.build fun hes => by simpa using hes

theorem quantifiedCompare_scoped {left : ScalarAction ρ} {right : QueryAction ρ}
    (hl : ScalarScoped left) (hr : QueryScoped right) (op : Plan.ComparisonOperator)
    (quantifier : Plan.Quantifier) :
    ScalarScoped fun _ => quantifiedCompare op quantifier left right := by
  intro context s t e hrun
  simp only [quantifiedCompare, Check.bind_yields, Check.pure_yields] at hrun
  obtain ⟨l, u₁, hleft, ⟨result, parameters⟩, u₂, hquery, v, u₃, hcolumn, rfl, rfl⟩ := hrun
  have hall := ((hl _ hleft).trans (analyzeSubquery_reads hr hquery)).trans_quiet
    (singleColumn_quiet _ hcolumn)
  exact hall.build fun hes => by simpa using hes

theorem processInValues_scoped {left : ScalarAction ρ} {values : List (ScalarAction ρ)}
    (hl : ScalarScoped left) (hv : ∀ a ∈ values, ScalarScoped a) (isNot : Bool) :
    ScalarScoped fun _ => processInValues left isNot values := by
  intro context s t e hrun
  cases values with
  | nil => cases hrun
  | cons first rest =>
    obtain ⟨hfirst, hrest⟩ := List.forall_mem_cons.mp hv
    simp only [processInValues, Check.bind_yields, Check.pure_yields] at hrun
    obtain ⟨l, u₁, hleft, e, u₂, he, es, u₃, hes, v, u₄, hlocal, rfl, rfl⟩ := hrun
    have hall := (hl _ hleft).trans ((hfirst _ he).trans (analyzeAll_scoped hrest hes))
    refine (hall.localVariable hlocal).build fun hes => ?_
    simp only [List.forall_mem_cons, List.forall_mem_append, scoped_variableReference] at hes
    obtain ⟨hv, ⟨hl, -⟩, ⟨he, -⟩, hes⟩ := hes
    simp [hv, hl, scoped_compareAny hv he hes]

theorem processIn_scoped {left : ScalarAction ρ} {values : Option (List (ScalarAction ρ))}
    {right : QueryAction ρ} (hl : ScalarScoped left)
    (hv : ∀ vs ∈ values, ∀ a ∈ vs, ScalarScoped a) (hr : QueryScoped right) (isNot : Bool) :
    ScalarScoped fun _ => processIn left isNot values right := by
  cases values with
  | some values => exact processInValues_scoped hl (hv values rfl) isNot
  | none =>
    cases isNot with
    | true => exact quantifiedCompare_scoped hl hr .notEqual .all
    | false => exact quantifiedCompare_scoped hl hr .equal .any

theorem processTablePredicate_scoped {operand : QueryAction ρ} (h : QueryScoped operand)
    (op : TableOperator) : ScalarScoped fun _ => processTablePredicate op operand := by
  intro context s t e hrun
  cases op with
  | unique => cases hrun
  | exists_ =>
    simp only [processTablePredicate, Check.bind_yields, Check.pure_yields] at hrun
    obtain ⟨⟨result, parameters⟩, u, hquery, rfl, rfl⟩ := hrun
    exact analyzeSubquery_reads h hquery

end Mizugaki.Analyzer
