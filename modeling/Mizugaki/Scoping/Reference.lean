import Mizugaki.Scoping.Engine

/-! References to variables by name. What a name designates does not depend on the parameters of
the scopes, so the parameters that a name needed once are found when it is resolved again. Under
an independent scope no name leads to a column beyond that scope. -/

namespace Mizugaki.Analyzer

open Mizugaki.Ast Mizugaki.Plan Mizugaki.Control

variable {ρ : Type} {env : Environment ρ}

/-! ### Searches read relations and queries only -/

namespace Captured

variable {scopes later : List QueryScope}

theorem findVariableInQuery (h : Captured scopes later) (name : SimpleName) (k : Nat) :
    findVariableInQuery env name later k = findVariableInQuery env name scopes k := by
  induction h generalizing k with
  | nil => rfl
  | cons h _ ih =>
    unfold Analyzer.findVariableInQuery
    rw [h.relations, ih]

theorem findRelationInfoInQuery (h : Captured scopes later) (name : SimpleName) (k : Nat) :
    findRelationInfoInQuery env name later k = findRelationInfoInQuery env name scopes k := by
  induction h generalizing k with
  | nil => rfl
  | cons h _ ih =>
    unfold Analyzer.findRelationInfoInQuery QueryScope.find
    rw [h.relations, h.nameMap, ih]

theorem findQueryInQuery (h : Captured scopes later) (name : SimpleName) :
    findQueryInQuery env name later = findQueryInQuery env name scopes := by
  induction h with
  | nil => rfl
  | cons h _ ih =>
    unfold Analyzer.findQueryInQuery QueryScope.findQuery
    rw [h.queryMap, ih]

theorem findRelationInfoInSchema (h : Captured scopes later) (schema : Schema) (name : SimpleName) :
    findRelationInfoInSchema env later schema name
      = findRelationInfoInSchema env scopes schema name := by
  cases h with
  | nil => rfl
  | cons h _ =>
    unfold Analyzer.findRelationInfoInSchema QueryScope.findDeclaration
    cases schema.findRelation (identifierOf env name .relation) with
    | none => rfl
    | some decl =>
      dsimp only
      rw [h.relations, h.referenceMap]

theorem findDeclared (h : Captured scopes later) (name : SimpleName) (targets : List SymbolKind) :
    findDeclared env later name targets = findDeclared env scopes name targets := by
  unfold Analyzer.findDeclared
  rw [h.findQueryInQuery]

theorem findSymbol (h : Captured scopes later) (name : Name) (targets : List SymbolKind)
    (reportNotFound : Bool) : findSymbol env later name targets reportNotFound
      = findSymbol env scopes name targets reportNotFound := by
  induction name generalizing targets with
  | simple last =>
    unfold Analyzer.findSymbol findSymbolPrimary
    rw [h.findRelationInfoInQuery, h.findVariableInQuery, h.findDeclared]
  | qualified q last ih =>
    have hqualified : ∀ qualifier, findSymbolQualified env later qualifier (.qualified q last)
        targets reportNotFound = findSymbolQualified env scopes qualifier (.qualified q last)
        targets reportNotFound := by
      intro qualifier
      unfold findSymbolQualified findSymbolInSchema
      simp only [h.findRelationInfoInSchema]
    unfold Analyzer.findSymbol
    simp only [ih, hqualified]

end Captured

/-! ### Searches read no state -/

section

variable {scopes : List QueryScope}

theorem report_steady {α : Type} (code : Code) (message : List Fragment) (a : α) :
    Check.Steady (do report code message; return a : Analysis ρ α) :=
  (Check.Steady.modify _).bind fun _ => .pure a

theorem concludeNotFound_steady (name : Name) (targets : List SymbolKind) (reportNotFound : Bool) :
    Check.Steady (concludeNotFound name targets reportNotFound : Analysis ρ SymbolInfo) := by
  unfold concludeNotFound
  split
  · refine Check.Steady.bind ?_ fun _ => .pure _
    unfold reportSymbolNotFound
    dsimp only
    split <;> try exact .modify _
    split <;> try exact .modify _
    split <;> exact .modify _
  · exact .pure _

theorem searchFor_steady {α : Type} (kind : SymbolKind) (targets : List SymbolKind)
    {search : Analysis ρ (FindSymbolResult α)} (h : Check.Steady search) :
    Check.Steady (searchFor kind targets search) := by
  unfold searchFor
  split
  · exact h
  · exact .pure _

theorem findVariableInQuery_steady (name : SimpleName) (k : Nat) :
    Check.Steady (findVariableInQuery env name scopes k) := by
  induction scopes generalizing k with
  | nil => exact .pure _
  | cons scope parents ih =>
    unfold findVariableInQuery
    split
    · exact report_steady _ _ _
    · exact .pure _
    · exact ih _

theorem findColumnInRelation_steady (r : RelationInfo) (name : SimpleName) :
    Check.Steady (findColumnInRelation env r name) := by
  unfold findColumnInRelation
  split
  · exact report_steady _ _ _
  · exact .pure _
  · exact .pure _

theorem findRelationInfoInQuery_steady (name : SimpleName) (k : Nat) :
    Check.Steady (findRelationInfoInQuery env name scopes k) := by
  induction scopes generalizing k with
  | nil => exact .pure _
  | cons scope parents ih =>
    unfold findRelationInfoInQuery
    split
    · exact report_steady _ _ _
    · split <;> exact .pure _
    · exact ih _

theorem findRelationInfoInSchema_steady (schema : Schema) (name : SimpleName) :
    Check.Steady (findRelationInfoInSchema env scopes schema name) := by
  unfold findRelationInfoInSchema
  split
  · split
    · split <;> exact .pure _
    · exact report_steady _ _ _
    · exact .pure _
  · exact .pure _

theorem findSymbolInSchema_steady (schema : Schema) (name : SimpleName)
    (targets : List SymbolKind) : Check.Steady (findSymbolInSchema env scopes schema name targets) := by
  unfold findSymbolInSchema
  dsimp only
  split
  · exact .pure _
  · refine (searchFor_steady _ _ (findRelationInfoInSchema_steady schema name)).bind fun r => ?_
    cases r <;> exact .pure _

theorem findSymbolPrimary_steady (name : SimpleName) (targets : List SymbolKind)
    (reportNotFound : Bool) :
    Check.Steady (findSymbolPrimary env scopes name targets reportNotFound) := by
  refine (searchFor_steady _ _ (findRelationInfoInQuery_steady name 0)).bind fun r => ?_
  cases r with
  | absent =>
    refine (searchFor_steady _ _ (findVariableInQuery_steady name 0)).bind fun v => ?_
    cases v with
    | absent =>
      dsimp only
      split
      · exact .pure _
      · exact concludeNotFound_steady _ _ _
    | _ => exact .pure _
  | _ => exact .pure _

theorem findSymbolQualified_steady (qualifier : SymbolInfo) (name : Name)
    (targets : List SymbolKind) (reportNotFound : Bool) :
    Check.Steady (findSymbolQualified env scopes qualifier name targets reportNotFound) := by
  unfold findSymbolQualified
  cases qualifier with
  | «variable» v scope =>
    dsimp only
    split
    · exact report_steady _ _ _
    · exact concludeNotFound_steady _ _ _
  | relation r scope =>
    dsimp only
    split
    · refine (findColumnInRelation_steady r name.lastName).bind fun v => ?_
      cases v with
      | absent => exact concludeNotFound_steady _ _ _
      | _ => exact .pure _
    · exact concludeNotFound_steady _ _ _
  | schema s =>
    refine (findSymbolInSchema_steady s name.lastName _).bind fun found => ?_
    cases found with
    | notFound => exact concludeNotFound_steady _ _ _
    | _ => exact .pure _
  | catalog c =>
    dsimp only
    split
    · split
      · exact .pure _
      · exact concludeNotFound_steady _ _ _
    · exact concludeNotFound_steady _ _ _
  | _ => exact concludeNotFound_steady _ _ _

theorem findSymbol_steady (name : Name) (targets : List SymbolKind) (reportNotFound : Bool) :
    Check.Steady (findSymbol env scopes name targets reportNotFound) := by
  induction name generalizing targets with
  | simple last => exact findSymbolPrimary_steady _ _ _
  | qualified q last ih =>
    refine (ih _).bind fun qualifier => ?_
    cases qualifier with
    | sawError => exact .pure _
    | notFound => exact .pure _
    | _ => exact findSymbolQualified_steady _ _ _ _

end

/-! ### Parameters that are found again -/

namespace Captured

variable {scopes later : List QueryScope}

theorem correlationScopes (h : Captured scopes later) (n i : Nat) (acc : List Nat) :
    correlationScopes (later.take n) i acc = correlationScopes (scopes.take n) i acc := by
  induction h generalizing n i acc with
  | nil => rfl
  | cons h _ ih =>
    cases n with
    | zero => rfl
    | succ n =>
      rw [List.take_succ_cons, List.take_succ_cons]
      unfold Analyzer.correlationScopes
      rw [h.features, ih, ih]

theorem exposes (h : Captured scopes later) (d : Nat) :
    later[d]?.any (·.features.expose) = scopes[d]?.any (·.features.expose) := by
  induction h generalizing d with
  | nil => rfl
  | cons h _ ih =>
    cases d with
    | zero => simp only [List.getElem?_cons_zero, Option.any_some, h.features]
    | succ d => simpa only [List.getElem?_cons_succ] using ih d

theorem getElem? (h : Captured scopes later) {d : Nat} {scope : QueryScope}
    (hd : scopes[d]? = some scope) : ∃ last, later[d]? = some last ∧ scope.Captures last := by
  induction h generalizing d with
  | nil => cases hd
  | cons h _ ih =>
    cases d with
    | zero =>
      obtain rfl := Option.some.inj hd
      exact ⟨_, rfl, h⟩
    | succ d => exact ih hd

end Captured

theorem QueryScope.Captures.findParameter {scope later : QueryScope} (h : scope.Captures later)
    {free v : Variable} (hv : scope.findParameter free = some v) :
    later.findParameter free = some v := by
  obtain ⟨ps, hps⟩ := h.parameters
  obtain ⟨p, hp, rfl⟩ := Option.map_eq_some_iff.mp hv
  rw [QueryScope.findParameter, hps, List.find?_append, hp]
  rfl

theorem correlationScopes_lt {scopes : List QueryScope} {i : Nat} {acc : List Nat} :
    ∀ position ∈ correlationScopes scopes i acc, position ∈ acc ∨ position < i + scopes.length := by
  induction scopes generalizing i acc with
  | nil => exact fun position h => .inl h
  | cons scope parents ih =>
    intro position h
    have hlength : i + (scope :: parents).length = i + 1 + parents.length := by
      rw [List.length_cons]
      omega
    rw [hlength]
    rw [correlationScopes] at h
    split_ifs at h with hi hc
    · cases h
    · obtain hacc | hlt := ih position h
      · obtain hacc | hlast := List.mem_append.mp hacc
        · exact .inl hacc
        · have hposition := List.mem_singleton.mp hlast
          exact .inr (by omega)
      · exact .inr hlt
    · exact ih position h

/-- A parameter that was asked for can be found from then on. -/
theorem addParameter_finds {position : Nat} {free v : Variable} {s t : AnalyzerState ρ}
    (hposition : position < s.scopes.length) (h : addParameter position free s = (some v, t)) :
    ∃ scope, t.scopes[position]? = some scope ∧ scope.findParameter free = some v := by
  have hlength : (s.scopes.take position).length = position := List.length_take_of_le hposition.le
  have hsplit : s.scopes = s.scopes.take position ++ s.scopes[position] :: s.scopes.drop (position + 1) := by
    rw [← List.drop_eq_getElem_cons, List.take_append_drop]
  rw [← hlength] at h
  obtain ⟨hfound, rfl⟩ | ⟨hnew, rfl, rfl⟩ := addParameter_yields hsplit h
  · exact ⟨_, List.getElem?_eq_getElem hposition, hfound⟩
  · refine ⟨s.scopes[position].pushParameter free (.frame s.fresh), ?_, ?_⟩
    · rw [List.getElem?_append_right hlength.le, hlength, Nat.sub_self]
      rfl
    · have hnone := Option.map_eq_none_iff.mp hnew
      rw [QueryScope.findParameter, QueryScope.pushParameter, List.find?_append, hnone]
      simp

theorem addParameter_again {position : Nat} {free v : Variable} {scope : QueryScope}
    {u : AnalyzerState ρ} (hscope : u.scopes[position]? = some scope)
    (hfound : scope.findParameter free = some v) : addParameter position free u = (some v, u) := by
  simp only [addParameter, Check.bind_yields, Check.gets_yields]
  refine ⟨u.scopes, u, ⟨rfl, rfl⟩, ?_⟩
  rw [hscope, Option.bind_some, hfound]
  rfl

/-- Handing a variable down again finds the same parameters, and changes no scope. -/
theorem addParameters_again (found : Variable) (positions : List Nat) {current v : Variable}
    {s t u : AnalyzerState ρ} (hpositions : ∀ position ∈ positions, position < s.scopes.length)
    (h : addParameters env found current positions s = (some v, t))
    (hu : Captured t.scopes u.scopes) :
    ∃ u', addParameters env found current positions u = (some v, u') ∧
      u'.scopes = u.scopes ∧ u'.fresh = u.fresh := by
  induction positions generalizing current s u with
  | nil =>
    obtain ⟨rfl, -⟩ := (Check.pure_yields ..).mp h
    exact ⟨u, rfl, rfl, rfl⟩
  | cons position positions ih =>
    simp only [addParameters, Check.bind_yields] at h ⊢
    obtain ⟨parameter, s₁, hadd, _, s₂, halias, hrest⟩ := h
    obtain ⟨hposition, hpositions⟩ := List.forall_mem_cons.mp hpositions
    have hadded := addParameter_capturing _ _ hadd
    have hquiet : Quiet _ _ := resolveAsAlias_quiet env parameter found halias
    have hlater := addParameters_capturing env _ _ _ hrest
    -- the parameter is still in its scope in the later state
    obtain ⟨scope, hscope, hfound⟩ := addParameter_finds hposition hadd
    have hcaptured : Captured s₁.scopes u.scopes := by
      rw [← hquiet.scopes]
      exact hlater.scopes.trans hu
    obtain ⟨last, hlast, hcaptures⟩ := hcaptured.getElem? hscope
    have hagain := addParameter_again hlast (hcaptures.findParameter hfound)
    have halias' : ∃ u₁, resolveAsAlias env parameter found u = (some (), u₁) := ⟨_, rfl⟩
    obtain ⟨u₁, halias'⟩ := halias'
    have hsame : Quiet _ _ := resolveAsAlias_quiet env parameter found halias'
    have hlength : s₂.scopes.length = s.scopes.length := by
      rw [hquiet.scopes]
      exact hadded.scopes.length_eq.symm
    obtain ⟨u', hrest', hscopes, hfresh⟩ := ih (fun p hp => hlength ▸ hpositions p hp) hrest
      (show Captured t.scopes u₁.scopes by rw [hsame.scopes]; exact hu)
    refine ⟨u', ⟨parameter, u, hagain, (), u₁, halias', hrest'⟩, hscopes.trans hsame.scopes, ?_⟩
    rw [hfresh]
    unfold resolveAsAlias at halias'
    rw [← (Check.modify_yields ..).mp halias']
    dsimp only
    split_ifs <;> rfl

theorem correlationScopes_take_lt {scopes : List QueryScope} {d : Nat} :
    ∀ position ∈ (correlationScopes (scopes.take d) 0 []).reverse,
      position < d ∧ position < scopes.length := by
  intro position hposition
  obtain hnil | hlt := correlationScopes_lt position (List.mem_reverse.mp hposition)
  · cases hnil
  · have hlength := List.length_take (i := d) (l := scopes)
    omega

/-- A name that is resolved again, after whatever else was captured, is the same reference, and no
scope is changed. -/
theorem analyzeVariableName_again {name : Name} {s t u : AnalyzerState ρ} {e : Scalar}
    (h : analyzeVariableName env name s = (some e, t)) (hu : Captured t.scopes u.scopes) :
    ∃ u', analyzeVariableName env name u = (some e, u') ∧ u'.scopes = u.scopes := by
  have hcaptured := (analyzeVariableName_yields env h).2.scopes.trans hu
  obtain ⟨found, depth, s₁, v, hfound, rfl, hcases⟩ := analyzeVariableName_cases env h
  have hquiet : Quiet _ _ := findSymbol_quiet env s.scopes name variableTargets true hfound
  obtain ⟨u₁, hagain⟩ := (findSymbol_steady name variableTargets true).yields hfound u
  rw [← hcaptured.findSymbol] at hagain
  have hsame : Quiet _ _ := findSymbol_quiet env u.scopes name variableTargets true hagain
  simp only [analyzeVariableName, Check.bind_yields, Check.gets_yields]
  obtain ⟨hdepth, rfl, rfl⟩ | ⟨d, rfl, hexposed, hne, hadd⟩ := hcases
  · refine ⟨u₁, ⟨u.scopes, u, ⟨rfl, rfl⟩, _, u₁, hagain, ?_⟩, hsame.scopes⟩
    cases depth with
    | none => rfl
    | some depth =>
      cases depth with
      | zero => rfl
      | succ d => exact absurd rfl (hdepth d)
  · have hpositions : ∀ position ∈ (correlationScopes (s.scopes.take (d + 1)) 0 []).reverse,
        position < s₁.scopes.length := by
      intro position hposition
      rw [hquiet.scopes]
      exact (correlationScopes_take_lt position hposition).2
    obtain ⟨u', hrest, hscopes, -⟩ := addParameters_again found _ hpositions hadd
      (show Captured t.scopes u₁.scopes by rw [hsame.scopes]; exact hu)
    refine ⟨u', ⟨u.scopes, u, ⟨rfl, rfl⟩, _, u₁, hagain, ?_⟩, hscopes.trans hsame.scopes⟩
    dsimp only
    rw [hcaptured.exposes, hexposed, if_pos rfl, hcaptured.correlationScopes]
    cases hreverse : (correlationScopes (s.scopes.take (d + 1)) 0 []).reverse with
    | nil => exact absurd (List.reverse_eq_nil_iff.mp hreverse) hne
    | cons position positions =>
      rw [hreverse] at hrest
      simp only [Check.bind_yields, Check.pure_yields]
      exact ⟨v, u', hrest, rfl, rfl⟩

/-! ### References under an independent scope -/

theorem addParameters_drop (found : Variable) (positions : List Nat) {n : Nat}
    {current v : Variable} {s t : AnalyzerState ρ} (hpositions : ∀ position ∈ positions, position < n)
    (h : addParameters env found current positions s = (some v, t)) :
    t.scopes.drop n = s.scopes.drop n := by
  induction positions generalizing current s with
  | nil =>
    obtain ⟨-, rfl⟩ := (Check.pure_yields ..).mp h
    rfl
  | cons position positions ih =>
    simp only [addParameters, Check.bind_yields] at h
    obtain ⟨parameter, s₁, hadd, _, s₂, halias, hrest⟩ := h
    obtain ⟨hposition, hpositions⟩ := List.forall_mem_cons.mp hpositions
    have hquiet : Quiet _ _ := resolveAsAlias_quiet env parameter found halias
    rw [ih hpositions hrest, hquiet.scopes]
    simp only [addParameter, Check.bind_yields, Check.gets_yields] at hadd
    obtain ⟨_, _, ⟨rfl, rfl⟩, hadd⟩ := hadd
    cases hfound : s.scopes[position]?.bind (·.findParameter current) with
    | some found =>
      rw [hfound] at hadd
      obtain ⟨-, rfl⟩ := (Check.pure_yields ..).mp hadd
      rfl
    | none =>
      simp only [hfound, Check.bind_yields, Check.modify_yields, Check.pure_yields] at hadd
      obtain ⟨w, s₃, hframe, -, _, rfl, -, rfl⟩ := hadd
      have hsame : Quiet _ _ := frameVariable_quiet hframe
      change (s₃.scopes.modify position _).drop n = _
      rw [List.drop_modify_of_lt _ _ _ _ hposition, hsame.scopes]

/-- A variable that a name refers to is found in the independent scope or below it, and what lies
above it is left as it is. -/
theorem analyzeVariableName_independent {name : Name} {s t : AnalyzerState ρ} {e : Scalar}
    (h : analyzeVariableName env name s = (some e, t)) {inner outer : List QueryScope}
    {scope : QueryScope} (hs : s.scopes = inner ++ scope :: outer)
    (hi : scope.features.independent = true) :
    (∀ found d, (designate env s.scopes name s).1 = some (.variable found (some d)) →
      d ≤ inner.length) ∧ t.scopes.drop (inner.length + 1) = outer := by
  obtain ⟨found, depth, u, v, hfound, rfl, hcases⟩ := analyzeVariableName_cases env h
  have hquiet : Quiet _ _ := findSymbol_quiet env s.scopes name variableTargets true hfound
  have houter : s.scopes.drop (inner.length + 1) = outer := by
    rw [hs, List.drop_append]
    simp
  rw [designate, hfound]
  obtain ⟨hdepth, rfl, rfl⟩ | ⟨d, rfl, hexposed, hne, hadd⟩ := hcases
  · refine ⟨fun found d hd => ?_, by rw [hquiet.scopes, houter]⟩
    cases hd
    cases d with
    | zero => exact Nat.zero_le _
    | succ d => exact absurd rfl (hdepth d)
  · have hd : d + 1 ≤ inner.length := by
      by_contra hlt
      -- the scopes up to the found one contain the independent one
      have hmem : scope ∈ s.scopes.take (d + 1) := by
        rw [hs, List.take_append, List.take_cons (by omega)]
        exact List.mem_append_right _ List.mem_cons_self
      exact hne (correlationScopes_independent hmem hi 0 [])
    refine ⟨fun found d' hd' => by cases hd'; exact hd, ?_⟩
    have hpositions : ∀ position ∈ (correlationScopes (s.scopes.take (d + 1)) 0 []).reverse,
        position < inner.length + 1 := by
      intro position hposition
      have hlt := (correlationScopes_take_lt position hposition).1
      omega
    rw [addParameters_drop found _ hpositions hadd, hquiet.scopes, houter]

/-! ### Subqueries of any nesting -/

theorem initial_sound (resolution : ρ) : (AnalyzerState.initial resolution).Sound :=
  ⟨trivial, rfl⟩

/-- The graph of a whole query takes nothing from around it. -/
theorem analyzeQueryExpression_closed {q : QueryExpression} {context : List ScalarValueContext}
    {resolution : ρ} {result : QueryResult} {t : AnalyzerState ρ}
    (h : analyzeQueryExpression env q context (.initial resolution) = (some result, t)) :
    (SubqueryNode.mk result.output []).Closed := by
  have hanswers := (scoping env).queryExpression q context false h (initial_sound resolution)
    fun hc => by cases hc
  have hscopes := hanswers.widens.scopes
  have hgraph := hanswers.graph
  have hnil : t.scopes = [] := by
    generalize t.scopes = later at hscopes
    cases hscopes
    rfl
  rw [hnil] at hgraph
  exact Graph.Scoped.closed hgraph (fun _ hp => nomatch hp) .nil .nil

/-- Subqueries of any nesting. What an expression hands to its subqueries is visible where it
stands, and the graphs of subqueries, queries and common tables read only what they define or take;
a name that is resolved again is the same reference in the same scopes; and under an independent
scope a name leads to nothing beyond it. -/
theorem subqueries_closed (env : Environment ρ) :
    (∀ (e : ScalarExpression) (context : ValueContext) (s t : AnalyzerState ρ) (x : Scalar),
      scalar env e context s = (some x, t) → s.Sound →
        t.Sound ∧ Captured s.scopes t.scopes ∧
          ∀ node ∈ x.subqueries, node.Closed ∧ ∀ p ∈ node.parameters, Visible t.scopes p.1) ∧
    (∀ (q : QueryExpression) (context : List ScalarValueContext) (s t : AnalyzerState ρ)
      (result : QueryResult), query env q context false s = (some result, t) → s.Sound →
        t.Sound ∧ result.output.Scoped (own t.scopes) t.fresh) ∧
    (∀ (q : QueryExpression) (context : List ScalarValueContext) (resolution : ρ)
      (t : AnalyzerState ρ) (result : QueryResult),
      analyzeQueryExpression env q context (.initial resolution) = (some result, t) →
        (SubqueryNode.mk result.output []).Closed) ∧
    (∀ s : AnalyzerState ρ, s.Sound → ∀ scope ∈ s.scopes,
      (scope.parameters.map Prod.fst).Nodup ∧ (scope.parameters.map Prod.snd).Nodup ∧
        ∀ name q, scope.queryMap name = some q → (SubqueryNode.mk q.queryGraph []).Closed) ∧
    (∀ (name : Name) (s t u : AnalyzerState ρ) (e : Scalar),
      analyzeVariableName env name s = (some e, t) → Captured t.scopes u.scopes →
        ∃ u', analyzeVariableName env name u = (some e, u') ∧ u'.scopes = u.scopes) ∧
    (∀ (name : Name) (s t : AnalyzerState ρ) (e : Scalar) (inner outer : List QueryScope)
      (scope : QueryScope), analyzeVariableName env name s = (some e, t) →
        s.scopes = inner ++ scope :: outer → scope.features.independent = true →
        (∀ found d, (designate env s.scopes name s).1 = some (.variable found (some d)) →
          d ≤ inner.length) ∧ t.scopes.drop (inner.length + 1) = outer) := by
  refine ⟨fun e context s t x h hs => ?_, fun q context s t result h hs => ?_,
    fun q context resolution t result => analyzeQueryExpression_closed, fun s hs scope hscope => ?_,
    fun name s t u e => analyzeVariableName_again,
    fun name s t e inner outer scope h hs hi => analyzeVariableName_independent h hs hi⟩
  · have hreads := (scoping env).scalar e context h
    exact ⟨hreads.sound hs, (hreads.frame hs).scopes,
      (hreads.expressions hs x List.mem_cons_self).2⟩
  · have hanswers := (scoping env).queryExpression q context false h hs fun hc => by cases hc
    exact ⟨hanswers.sound, hanswers.graph⟩
  · obtain ⟨parents, hsound⟩ := hs.chain.mem hscope
    exact ⟨hsound.sources, hsound.destinations, fun name q hq => (hsound.queries name q hq).closed⟩

/-- A table of one column. -/
def singleTable : Table where
  address := 0
  simpleName := "t"
  columns := [{ address := 1, simpleName := "c", type := .int4 }]
  primaryIndex :=
    some { address := 2, tableAddress := 0, tableName := "t", simpleName := "", keys := [],
           primary := true }

/-- `SELECT * FROM t AS correlation WHERE condition`. -/
def selectWhere (correlation : String) (condition : ScalarExpression) : QueryExpression :=
  .query none [.selectAsterisk none]
    [.tableReference false (.simple ⟨"t", .delimited⟩) (some ⟨⟨correlation, .delimited⟩, []⟩)]
    (some condition) none none [] none

/-- A query whose innermost subquery compares `u.c` and `w.c`, two levels apart. -/
def nestedExists : QueryExpression :=
  let column (correlation : String) : ScalarExpression :=
    .variableReference (.qualified (.simple ⟨correlation, .delimited⟩) ⟨"c", .delimited⟩)
  selectWhere "u" (.tablePredicate .exists_ (selectWhere "v" (.tablePredicate .exists_
    (selectWhere "w" (.comparisonPredicate (column "u") .equals (column "w"))))))

/-- The column of the outermost query is handed down through both subqueries. -/
theorem subqueries_closed_nested :
    let env := Environment.ofSchema (.ofTables [singleTable] [])
    let run := analyzeQueryExpression env nestedExists [] (.initial [])
    let nodes := fun result : QueryResult => result.output.nodes
    run.1.map (fun r => (nodes r).map SubqueryNode.parameters) = some [[(.stream 0, .frame 3)]] ∧
    run.1.map (fun r => ((nodes r).flatMap fun n => n.graph.nodes).map
      SubqueryNode.parameters) = some [[(.frame 3, .frame 4)]] ∧
    ∀ result ∈ run.1, (SubqueryNode.mk result.output []).Closed := by
  intro env run nodes
  refine ⟨by decide +kernel, by decide +kernel, fun result h => ?_⟩
  have hrun : run = (some result, run.2) := by rw [← Option.mem_def.mp h]
  exact (subqueries_closed env).2.2.1 nestedExists [] [] run.2 result hrun

end Mizugaki.Analyzer
