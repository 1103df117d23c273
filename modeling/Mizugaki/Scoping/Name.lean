import Mizugaki.Scoping.Chain

/-! The names of variables in sound chains. A variable of an outer scope is handed down through
the correlation scopes between, from the outermost one to the innermost one, each of which
gets a parameter for the parameter of the one before. -/

namespace Mizugaki.Analyzer

open Mizugaki.Ast Mizugaki.Plan Mizugaki.Control

variable {ρ : Type} (env : Environment ρ)

/-- Between two states scopes got more parameters only, and the counter did not go back. -/
structure Extends (s t : AnalyzerState ρ) : Prop where
  scopes : Captured s.scopes t.scopes
  fresh : s.fresh ≤ t.fresh

instance : Check.Frame (Extends : AnalyzerState ρ → AnalyzerState ρ → Prop) where
  refl s := ⟨.refl s.scopes, le_rfl⟩
  trans h k := ⟨h.scopes.trans k.scopes, h.fresh.trans k.fresh⟩

namespace Extends

variable {s t u : AnalyzerState ρ}

theorem refl (s : AnalyzerState ρ) : Extends s s := Check.Frame.refl s

theorem trans (h : Extends s t) (k : Extends t u) : Extends s u := Check.Frame.trans h k

theorem legible (h : Extends s t) {v : Variable} (hv : Legible s.scopes s.fresh v) :
    Legible t.scopes t.fresh v :=
  h.scopes.legible h.fresh hv

end Extends

theorem Capturing.extends {s t : AnalyzerState ρ} (h : Capturing s t) : Extends s t :=
  ⟨h.scopes, h.fresh⟩

theorem Quiet.extends {s t : AnalyzerState ρ} (h : Quiet s t) : Extends s t := h.capturing.extends

theorem AnalyzerState.Sound.of_quiet {s t : AnalyzerState ρ} (hs : s.Sound) (h : Quiet s t) :
    t.Sound where
  chain := by
    rw [h.scopes]
    exact hs.chain.mono h.fresh
  hidden := by
    rw [AnalyzerState.scope, h.scopes]
    exact hs.hidden

/-- The innermost scope stays hidden while scopes get more parameters. -/
theorem Extends.hidden {s t : AnalyzerState ρ} (h : Extends s t)
    (hs : s.scope.features.expose = false) : t.scope.features.expose = false := by
  rw [AnalyzerState.scope, h.scopes.headD.features]
  exact hs

/-! ### Positions of correlation scopes -/

/-- The positions of the correlation scopes of a chain that starts at a position. -/
def correlationsFrom : Nat → List QueryScope → List Nat
  | _, [] => []
  | i, scope :: parents =>
    if scope.features.correlation then i :: correlationsFrom (i + 1) parents
    else correlationsFrom (i + 1) parents

theorem correlationsFrom_concat (i : Nat) (inner : List QueryScope) (scope : QueryScope) :
    correlationsFrom i (inner ++ [scope]) = correlationsFrom i inner ++
      if scope.features.correlation then [i + inner.length] else [] := by
  induction inner generalizing i with
  | nil => cases hc : scope.features.correlation <;> simp [correlationsFrom, hc]
  | cons first inner ih =>
    have hposition : i + 1 + inner.length = i + (inner.length + 1) := by omega
    rw [List.cons_append, correlationsFrom, correlationsFrom, ih, hposition, List.length_cons]
    split <;> rfl

/-- Without an independent scope the correlation scopes are found in order. -/
theorem correlationScopes_eq {inner : List QueryScope}
    (h : ∀ scope ∈ inner, scope.features.independent = false) (i : Nat) (acc : List Nat) :
    correlationScopes inner i acc = acc ++ correlationsFrom i inner := by
  induction inner generalizing i acc with
  | nil => simp [correlationScopes, correlationsFrom]
  | cons first inner ih =>
    rw [correlationScopes, correlationsFrom, h first List.mem_cons_self]
    have hrest := ih fun scope hscope => h scope (List.mem_cons_of_mem _ hscope)
    cases hc : first.features.correlation with
    | true => simp [hrest]
    | false => simp [hrest]

/-- An independent scope hides every correlation scope around it. -/
theorem correlationScopes_independent {inner : List QueryScope} {scope : QueryScope}
    (hscope : scope ∈ inner) (h : scope.features.independent = true) (i : Nat) (acc : List Nat) :
    correlationScopes inner i acc = [] := by
  induction inner generalizing i acc with
  | nil => cases hscope
  | cons first inner ih =>
    rw [correlationScopes]
    split_ifs with hi hc
    · rfl
    · obtain rfl | hscope := List.mem_cons.mp hscope
      · exact absurd h hi
      · exact ih hscope ..
    · obtain rfl | hscope := List.mem_cons.mp hscope
      · exact absurd h hi
      · exact ih hscope ..

theorem independent_of_correlationScopes {inner : List QueryScope} {i : Nat} {acc : List Nat}
    (h : correlationScopes inner i acc ≠ []) :
    ∀ scope ∈ inner, scope.features.independent = false := by
  intro scope hscope
  by_contra hi
  exact h (correlationScopes_independent hscope (by simpa using hi) i acc)

/-! ### Parameters -/

/-- The parameter of a scope for a variable: the one it has, or else a fresh one. -/
theorem addParameter_yields {inner outer : List QueryScope} {scope : QueryScope}
    {free v : Variable} {s t : AnalyzerState ρ} (hs : s.scopes = inner ++ scope :: outer)
    (h : addParameter inner.length free s = (some v, t)) :
    (scope.findParameter free = some v ∧ t = s) ∨
    (scope.findParameter free = none ∧ v = .frame s.fresh ∧
      t = { s with
        fresh := s.fresh + 1
        scopes := inner ++ scope.pushParameter free (.frame s.fresh) :: outer }) := by
  have hscope : s.scopes[inner.length]? = some scope := by rw [hs]; simp
  simp only [addParameter, Check.bind_yields, Check.gets_yields] at h
  obtain ⟨_, _, ⟨rfl, rfl⟩, h⟩ := h
  rw [hscope, Option.bind_some] at h
  cases hfound : scope.findParameter free with
  | some parameter =>
    rw [hfound] at h
    obtain ⟨rfl, rfl⟩ := (Check.pure_yields ..).mp h
    exact .inl ⟨rfl, rfl⟩
  | none =>
    simp only [hfound, frameVariable, freshNumber, Check.bind_yields, Check.map_yields,
      Check.get_yields, Check.modify_yields, Check.pure_yields] at h
    obtain ⟨_, _, ⟨_, ⟨_, _, ⟨rfl, rfl⟩, -, _, rfl, rfl, rfl⟩, rfl⟩, -, _, rfl, rfl, rfl⟩ := h
    refine .inr ⟨rfl, rfl, ?_⟩
    have hmodify : s.scopes.modify inner.length (·.pushParameter free (.frame s.fresh))
        = inner ++ scope.pushParameter free (.frame s.fresh) :: outer := by
      rw [hs]
      clear hscope hs
      induction inner with
      | nil => rfl
      | cons first inner ih => rw [List.cons_append, List.length_cons, List.modify_succ_cons, ih]; rfl
    rw [hmodify]

theorem findParameter_mem {scope : QueryScope} {free v : Variable}
    (h : scope.findParameter free = some v) : (free, v) ∈ scope.parameters := by
  obtain ⟨p, hp, rfl⟩ := Option.map_eq_some_iff.mp h
  have hfree : p.1 = free := by simpa using List.find?_some hp
  rw [← hfree]
  exact List.mem_of_find?_eq_some hp

/-- One step of handing a variable down: a correlation scope gets a parameter for what can be
read around it. -/
theorem addParameter_sound {inner outer : List QueryScope} {scope : QueryScope}
    {free v : Variable} {s t : AnalyzerState ρ} (hs : s.scopes = inner ++ scope :: outer)
    (hsound : SoundChain s.fresh s.scopes) (hfree : Visible outer free)
    (h : addParameter inner.length free s = (some v, t)) :
    ∃ later, t.scopes = inner ++ later :: outer ∧ scope.Captures later ∧
      v ∈ later.parameters.map Prod.snd ∧ SoundChain t.fresh t.scopes := by
  obtain ⟨hfound, rfl⟩ | ⟨hnew, rfl, rfl⟩ := addParameter_yields hs h
  · exact ⟨scope, hs, .refl scope, List.mem_map_of_mem (findParameter_mem hfound), hsound⟩
  · rw [hs] at hsound
    refine ⟨_, rfl, .push .., ?_, hsound.push hfree hnew⟩
    exact List.mem_map_of_mem (List.mem_append_right _ List.mem_cons_self)

/-- A variable that is handed down becomes one that can be read. -/
theorem addParameters_sound (found : Variable) (inner : List QueryScope) :
    ∀ {outer : List QueryScope} {current v : Variable} {s t : AnalyzerState ρ},
      s.scopes = inner ++ outer → SoundChain s.fresh s.scopes →
      (∀ scope ∈ inner, scope.features.independent = false) →
      (current ∈ own outer ∨ Visible outer current ∧
        ∃ first last, inner = first ++ [last] ∧ last.features.correlation = true) →
      addParameters env found current (correlationsFrom 0 inner).reverse s = (some v, t) →
      v ∈ own t.scopes ∧ SoundChain t.fresh t.scopes := by
  induction inner using List.reverseRecOn with
  | nil =>
    intro outer current v s t hs hsound _ hcurrent h
    obtain ⟨rfl, rfl⟩ := (Check.pure_yields ..).mp h
    obtain hown | ⟨-, first, last, hnil, -⟩ := hcurrent
    · exact ⟨by rw [hs]; exact hown, hsound⟩
    · simp at hnil
  | append_singleton inner scope ih =>
    intro outer current v s t hs hsound hindependent hcurrent h
    have hi : scope.features.independent = false := hindependent scope (by simp)
    have hinner : ∀ sc ∈ inner, sc.features.independent = false :=
      fun sc hsc => hindependent sc (List.mem_append_left _ hsc)
    rw [List.append_assoc, List.singleton_append] at hs
    rw [correlationsFrom_concat, List.reverse_append, Nat.zero_add] at h
    cases hc : scope.features.correlation with
    | false =>
      rw [hc] at h
      refine ih hs hsound hinner (.inl ?_) h
      rw [own_of_plain hi hc]
      obtain hown | ⟨-, first, last, hlast, hlastc⟩ := hcurrent
      · exact hown
      · -- the scope is the innermost one above, which is a correlation scope
        obtain ⟨-, rfl⟩ := List.concat_inj.mp (by simpa using hlast)
        rw [hc] at hlastc
        cases hlastc
    | true =>
      simp only [hc, if_true, List.reverse_singleton, List.singleton_append, addParameters,
        Check.bind_yields] at h
      obtain ⟨parameter, u, hadd, _, w, halias, hrest⟩ := h
      have hvisible : Visible outer current := hcurrent.elim .inr And.left
      obtain ⟨later, hu, hlater, hparameter, hsoundu⟩ :=
        addParameter_sound hs hsound hvisible hadd
      have hquiet : Quiet _ _ := resolveAsAlias_quiet env parameter found halias
      have hfeatures := hlater.features
      refine ih (hquiet.scopes.trans hu) ?_ hinner (.inl ?_) hrest
      · rw [hquiet.scopes]
        exact hsoundu.mono hquiet.fresh
      · rwa [own_of_correlation (hfeatures ▸ hi) (hfeatures ▸ hc)]

/-! ### Variable names -/

/-- A variable name becomes a reference to what is visible, or to an external variable. -/
theorem analyzeVariableName_scoped {name : Name} {s t : AnalyzerState ρ} {e : Scalar}
    (hs : s.Sound) (h : analyzeVariableName env name s = (some e, t)) :
    t.Sound ∧ Extends s t ∧ ∃ v, e = .variableReference v ∧
      (Visible t.scopes v ∨ ∃ x, v = .external x) := by
  have hextends := (analyzeVariableName_yields env h).2.extends
  obtain ⟨found, depth, u, v, hfound, rfl, hcases⟩ := analyzeVariableName_cases env h
  have hsourced := findSymbol_sourced _ _ _ hfound
  have hquiet : Quiet _ _ := findSymbol_quiet env s.scopes name variableTargets true hfound
  have hu := hs.of_quiet hquiet
  obtain ⟨hdepth, rfl, rfl⟩ | ⟨d, rfl, hexposed, hne, hadd⟩ := hcases
  · refine ⟨hu, hextends, _, rfl, ?_⟩
    rw [hquiet.scopes]
    match depth with
    | none =>
      -- a column of the innermost scope, found through its schema, or an external variable
      exact hsourced.imp_left .inl
    | some 0 =>
      obtain ⟨scope, hscope, hv⟩ := hsourced
      refine .inl (.inl ?_)
      rw [List.headD_eq_head?_getD, List.head?_eq_getElem?, hscope]
      exact hv
    | some (d + 1) => exact absurd rfl (hdepth d)
  · have hindependent := independent_of_correlationScopes hne
    rw [correlationScopes_eq hindependent, List.nil_append] at hadd
    obtain ⟨scope, hscope, hv⟩ := hsourced
    rw [hscope] at hexposed
    have hsplit := List.take_append_drop (d + 1) s.scopes
    have hlt : d + 1 < s.scopes.length := (List.getElem?_eq_some_iff.mp hscope).1
    have hhead : (s.scopes.drop (d + 1)).headD .empty = scope := by
      rw [List.headD_eq_head?_getD, List.head?_drop, hscope]
      rfl
    -- the scope that is exposed lies right above a correlation scope
    have hlast : s.scopes.take (d + 1) = s.scopes.take d ++ [s.scopes[d]] :=
      List.take_succ_eq_append_getElem (by omega)
    have hcorrelation : s.scopes[d].features.correlation = true := by
      have hchain := hs.chain.drop d
      rw [List.drop_eq_getElem_cons (by omega)] at hchain
      exact hchain.1.exposed (by rw [hhead]; exact hexposed)
    obtain ⟨hown, hchain⟩ := addParameters_sound env found (s.scopes.take (d + 1))
      (hquiet.scopes.trans hsplit.symm) hu.chain hindependent
      (.inr ⟨.inl (by rw [hhead]; exact hv), _, _, hlast, hcorrelation⟩) hadd
    exact ⟨⟨hchain, hextends.hidden hs.hidden⟩, hextends, _, rfl, .inl (.inr hown)⟩

end Mizugaki.Analyzer
