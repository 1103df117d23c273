import Mizugaki.Analyzer.Name

/-! What a search of symbols finds in the query scopes: a variable is a column of a relation
of its scope, a relation is in its scope, and a query is one that was entered in a scope. -/

namespace Mizugaki.Analyzer

open Mizugaki.Ast Mizugaki.Plan Mizugaki.Control Mizugaki.Data.Chain

variable {ρ : Type} {env : Environment ρ}

/-- The variables of the columns of a relation. -/
def RelationInfo.variables (r : RelationInfo) : List Variable := r.columns.map ColumnInfo.variable_

/-- The variables of the columns of a scope. -/
def QueryScope.variables (s : QueryScope) : List Variable := s.relations.flatMap RelationInfo.variables

theorem QueryScope.mem_variables {s : QueryScope} {r : RelationInfo} (hr : r ∈ s.relations)
    {v : Variable} (hv : v ∈ r.variables) : v ∈ s.variables :=
  List.mem_flatMap.mpr ⟨r, hr, hv⟩

/-- A symbol comes from the scopes it is found in. -/
def SymbolInfo.Sourced (scopes : List QueryScope) : SymbolInfo → Prop
  | .variable v (some d) => ∃ scope, scopes[d]? = some scope ∧ v ∈ scope.variables
  | .variable v none => v ∈ (scopes.headD .empty).variables ∨ ∃ x, v = .external x
  | .relation r (some d) => ∃ scope, scopes[d]? = some scope ∧ r ∈ scope.relations
  | .relation r none => r ∈ (scopes.headD .empty).relations
  | .query q => ∃ scope ∈ scopes, ∃ name, scope.queryMap name = some q
  | _ => True

/-- A found value has a property. -/
def FindSymbolResult.Sourced {α : Type} (P : α → Prop) : FindSymbolResult α → Prop
  | .found a => P a
  | _ => True

variable {scopes : List QueryScope}

theorem searchFor_sourced {α : Type} {P : α → Prop} {kind : SymbolKind} {targets : List SymbolKind}
    {search : Analysis ρ (FindSymbolResult α)} (h : Check.Returns (FindSymbolResult.Sourced P) search) :
    Check.Returns (FindSymbolResult.Sourced P) (searchFor kind targets search) := by
  unfold searchFor
  split_ifs
  · exact h
  · exact .pure trivial

/-- Searching a chain keeps what was found, or finds a column of the relation. -/
theorem searchChain_mem {r : RelationInfo} {found : Option Variable} {l : List Position}
    {v : Variable} (h : r.searchChain found l = some (some v)) : found = some v ∨ v ∈ r.variables := by
  induction l generalizing found with
  | nil => exact .inl (Option.some.inj h)
  | cons position rest ih =>
    cases position with
    | ambiguous => cases h
    | at_ i =>
      rw [RelationInfo.searchChain] at h
      cases hi : r.columns[i]? with
      | none =>
        rw [hi] at h
        exact ih h
      | some c =>
        simp only [hi] at h
        split_ifs at h
        · cases found with
          | some w => cases h
          | none =>
            obtain hc | hv := ih h
            · exact .inr (Option.some.inj hc ▸ List.mem_map_of_mem (List.mem_of_getElem? hi))
            · exact .inr hv
        · exact ih h

theorem searchRelations_mem {identifier : String} {found : Option Variable}
    {rs : List RelationInfo} {v : Variable}
    (h : QueryScope.searchRelations identifier found rs = some (some v)) :
    found = some v ∨ ∃ r ∈ rs, v ∈ r.variables := by
  induction rs generalizing found with
  | nil => exact .inl (Option.some.inj h)
  | cons r rs ih =>
    rw [QueryScope.searchRelations] at h
    cases hr : r.searchChain found (r.chain identifier) with
    | none =>
      rw [hr] at h
      cases h
    | some next =>
      rw [hr] at h
      obtain hnext | ⟨r', hr', hv⟩ := ih h
      · rw [hnext] at hr
        exact (searchChain_mem hr).imp_right fun hv => ⟨r, List.mem_cons_self, hv⟩
      · exact .inr ⟨r', List.mem_cons_of_mem _ hr', hv⟩

theorem findVariableInQuery_sourced (name : SimpleName) (k : Nat) :
    Check.Returns (FindSymbolResult.Sourced fun p : Variable × Nat =>
      ∃ d scope, p.2 = k + d ∧ scopes[d]? = some scope ∧ p.1 ∈ scope.variables)
      (findVariableInQuery env name scopes k) := by
  induction scopes generalizing k with
  | nil => exact .pure trivial
  | cons scope parents ih =>
    unfold findVariableInQuery
    rcases hsearch : QueryScope.searchRelations (identifierOf env name .variable) none scope.relations
      with _ | _ | v
    · exact .after fun _ => .pure trivial
    · refine (ih (k + 1)).imp fun r hr => ?_
      cases r with
      | found p =>
        obtain ⟨d, scope', hd, hscope, hv⟩ := hr
        exact ⟨d + 1, scope', by omega, hscope, hv⟩
      | _ => trivial
    · obtain hnone | ⟨r, hr, hv⟩ := searchRelations_mem hsearch
      · cases hnone
      · exact .pure ⟨0, scope, rfl, rfl, QueryScope.mem_variables hr hv⟩

theorem findRelationInfoInQuery_sourced (name : SimpleName) (k : Nat) :
    Check.Returns (FindSymbolResult.Sourced fun p : RelationInfo × Nat =>
      ∃ d scope, p.2 = k + d ∧ scopes[d]? = some scope ∧ p.1 ∈ scope.relations)
      (findRelationInfoInQuery env name scopes k) := by
  induction scopes generalizing k with
  | nil => exact .pure trivial
  | cons scope parents ih =>
    unfold findRelationInfoInQuery
    rcases scope.find (identifierOf env name .relation) with _ | i | _
    · refine (ih (k + 1)).imp fun r hr => ?_
      cases r with
      | found p =>
        obtain ⟨d, scope', hd, hscope, hr⟩ := hr
        exact ⟨d + 1, scope', by omega, hscope, hr⟩
      | _ => trivial
    · dsimp only
      cases hi : scope.relations[i]? with
      | none => exact .pure trivial
      | some r => exact .pure ⟨0, scope, rfl, rfl, List.mem_of_getElem? hi⟩
    · exact .after fun _ => .pure trivial

theorem findColumnInRelation_sourced (r : RelationInfo) (name : SimpleName) :
    Check.Returns (FindSymbolResult.Sourced (· ∈ r.variables)) (findColumnInRelation env r name) := by
  unfold findColumnInRelation
  rcases hsearch : r.searchChain none (r.chain (identifierOf env name .variable)) with _ | _ | v
  · exact .after fun _ => .pure trivial
  · exact .pure trivial
  · exact .pure ((searchChain_mem hsearch).resolve_left (by simp))

theorem findRelationInfoInSchema_sourced (schema : Schema) (name : SimpleName) :
    Check.Returns (FindSymbolResult.Sourced (· ∈ (scopes.headD .empty).relations))
      (findRelationInfoInSchema env scopes schema name) := by
  unfold findRelationInfoInSchema
  cases schema.findRelation (identifierOf env name .relation) with
  | none => exact .pure trivial
  | some decl =>
    cases scopes with
    | nil => exact .pure trivial
    | cons scope parents =>
      dsimp only
      rcases scope.findDeclaration decl with _ | i | _
      · exact .pure trivial
      · dsimp only
        cases hi : scope.relations[i]? with
        | none => exact .pure trivial
        | some r => exact .pure (List.mem_of_getElem? hi)
      · exact .after fun _ => .pure trivial

theorem findQueryInQuery_sourced {name : SimpleName} {q : QueryInfo}
    (h : findQueryInQuery env name scopes = some q) :
    ∃ scope ∈ scopes, ∃ identifier, scope.queryMap identifier = some q := by
  induction scopes with
  | nil => cases h
  | cons scope parents ih =>
    rw [findQueryInQuery] at h
    cases hq : scope.findQuery (identifierOf env name .relation) with
    | some found =>
      rw [hq] at h
      exact ⟨scope, List.mem_cons_self, _, hq.trans h⟩
    | none =>
      rw [hq] at h
      obtain ⟨scope', hscope, found⟩ := ih h
      exact ⟨scope', List.mem_cons_of_mem _ hscope, found⟩

/-- A search result that is one of several. -/
theorem firstTarget_sourced {targets : List SymbolKind}
    {searches : List (SymbolKind × Option SymbolInfo)} {found : SymbolInfo}
    (hall : ∀ search ∈ searches, ∀ x ∈ search.2, x.Sourced scopes)
    (h : firstTarget targets searches = some found) : found.Sourced scopes := by
  obtain ⟨⟨kind, result⟩, hmem, hresult⟩ := List.exists_of_findSome?_eq_some h
  dsimp only at hresult
  split_ifs at hresult
  exact hall _ hmem found hresult

/-- What a search maps to has a property that all it can map to have. -/
theorem sourced_of_map {α : Type} {f : α → SymbolInfo} {o : Option α}
    (h : ∀ a ∈ o, (f a).Sourced scopes) : ∀ x ∈ o.map f, x.Sourced scopes := by
  intro x hx
  obtain ⟨a, ha, rfl⟩ := Option.map_eq_some_iff.mp hx
  exact h a ha

theorem findDeclared_sourced {name : SimpleName} {targets : List SymbolKind} {found : SymbolInfo}
    (h : findDeclared env scopes name targets = some found) : found.Sourced scopes := by
  refine firstTarget_sourced (fun search hsearch => ?_) h
  simp only [List.mem_cons, List.not_mem_nil, or_false] at hsearch
  obtain rfl | rfl | rfl | rfl | rfl | rfl | rfl := hsearch
  · exact sourced_of_map fun p _ => .inr ⟨p.2, rfl⟩
  · exact sourced_of_map fun q hq => findQueryInQuery_sourced hq
  all_goals exact sourced_of_map fun _ _ => trivial

theorem concludeNotFound_sourced (name : Name) (targets : List SymbolKind) (b : Bool) :
    Check.Returns (SymbolInfo.Sourced scopes) (concludeNotFound name targets b : Analysis ρ _) := by
  unfold concludeNotFound
  split_ifs
  · exact .after fun _ => .pure trivial
  · exact .pure trivial

theorem findSymbolPrimary_sourced (name : SimpleName) (targets : List SymbolKind) (b : Bool) :
    Check.Returns (SymbolInfo.Sourced scopes) (findSymbolPrimary env scopes name targets b) := by
  refine (searchFor_sourced (findRelationInfoInQuery_sourced name 0)).bind fun r hr => ?_
  cases r with
  | error => exact .pure trivial
  | found p =>
    obtain ⟨d, scope, hd, hscope, hr⟩ := hr
    rw [Nat.zero_add] at hd
    exact .pure ⟨scope, hd ▸ hscope, hr⟩
  | absent =>
    refine (searchFor_sourced (findVariableInQuery_sourced name 0)).bind fun v hv => ?_
    cases v with
    | error => exact .pure trivial
    | found p =>
      obtain ⟨d, scope, hd, hscope, hv⟩ := hv
      rw [Nat.zero_add] at hd
      exact .pure ⟨scope, hd ▸ hscope, hv⟩
    | absent =>
      dsimp only
      cases hdeclared : findDeclared env scopes name targets with
      | none => exact concludeNotFound_sourced ..
      | some found => exact .pure (findDeclared_sourced hdeclared)

theorem findSymbolInSchema_sourced (schema : Schema) (name : SimpleName)
    (targets : List SymbolKind) :
    Check.Returns (SymbolInfo.Sourced scopes) (findSymbolInSchema env scopes schema name targets) := by
  unfold findSymbolInSchema
  dsimp only
  cases (if SymbolKind.schemaVariable ∈ targets then
    schema.findVariable (identifierOf env name .variable) else none) with
  | some v => exact .pure (.inr ⟨v, rfl⟩)
  | none =>
    refine (searchFor_sourced (findRelationInfoInSchema_sourced schema name)).bind fun r hr => ?_
    cases r with
    | error => exact .pure trivial
    | found r => exact .pure hr
    | absent =>
      refine .pure ?_
      generalize hfirst : firstTarget targets _ = first
      cases first with
      | none => trivial
      | some found =>
        refine firstTarget_sourced (fun search hsearch => ?_) hfirst
        simp only [List.mem_cons, List.not_mem_nil, or_false] at hsearch
        obtain rfl | rfl | rfl := hsearch
        all_goals exact sourced_of_map fun _ _ => trivial

/-- A column is found in the scope of its relation. -/
theorem findSymbolQualified_sourced {qualifier : SymbolInfo} (hq : qualifier.Sourced scopes)
    (name : Name) (targets : List SymbolKind) (b : Bool) :
    Check.Returns (SymbolInfo.Sourced scopes)
      (findSymbolQualified env scopes qualifier name targets b) := by
  unfold findSymbolQualified
  cases qualifier with
  | «variable» v scope =>
    dsimp only
    split_ifs
    · exact .after fun _ => .pure trivial
    · exact concludeNotFound_sourced ..
  | relation r scope =>
    dsimp only
    split_ifs
    · refine (findColumnInRelation_sourced r name.lastName).bind fun v hv => ?_
      cases v with
      | error => exact .pure trivial
      | absent => exact concludeNotFound_sourced ..
      | found v =>
        cases scope with
        | none => exact .pure (.inl (QueryScope.mem_variables hq hv))
        | some d =>
          obtain ⟨scope, hscope, hr⟩ := hq
          exact .pure ⟨scope, hscope, QueryScope.mem_variables hr hv⟩
    · exact concludeNotFound_sourced ..
  | schema s =>
    refine (findSymbolInSchema_sourced s name.lastName _).bind fun found hfound => ?_
    cases found with
    | notFound => exact concludeNotFound_sourced ..
    | _ => exact .pure hfound
  | catalog c =>
    dsimp only
    split_ifs
    · cases c.findSchema (identifierOf env name.lastName .schema) with
      | none => exact concludeNotFound_sourced ..
      | some s => exact .pure trivial
    · exact concludeNotFound_sourced ..
  | _ => exact concludeNotFound_sourced ..

theorem findSymbol_sourced (name : Name) (targets : List SymbolKind) (b : Bool) :
    Check.Returns (SymbolInfo.Sourced scopes) (findSymbol env scopes name targets b) := by
  induction name generalizing targets with
  | simple last => exact findSymbolPrimary_sourced ..
  | qualified q last ih =>
    unfold findSymbol
    refine (ih _).bind fun qualifier hqualifier => ?_
    cases qualifier with
    | sawError => exact .pure trivial
    | notFound => exact .pure trivial
    | _ => exact findSymbolQualified_sourced hqualifier ..

/-- A query that a name refers to was entered in a scope. -/
theorem analyzeRelationName_query {name : Name} {q : QueryInfo} {s t : AnalyzerState ρ}
    (h : analyzeRelationName env name s = (some (.query q), t)) :
    ∃ scope ∈ s.scopes, ∃ identifier, scope.queryMap identifier = some q := by
  simp only [analyzeRelationName, Check.bind_yields, Check.gets_yields] at h
  obtain ⟨_, _, ⟨rfl, rfl⟩, found, u, hfound, h⟩ := h
  have hsourced := findSymbol_sourced _ _ _ hfound
  cases found with
  | query q' =>
    obtain ⟨hq, -⟩ := (Check.pure_yields ..).mp h
    cases hq
    exact hsourced
  | relationDecl r => cases r <;> cases h
  | _ => cases h

/-- A relation that a name refers to is in the current scope. -/
theorem analyzeRelationInfoName_mem {name : Name} {r : RelationInfo} {s t : AnalyzerState ρ}
    (h : analyzeRelationInfoName env name s = (some r, t)) : r ∈ s.scope.relations := by
  simp only [analyzeRelationInfoName, Check.bind_yields, Check.gets_yields] at h
  obtain ⟨_, _, ⟨rfl, rfl⟩, found, u, hfound, h⟩ := h
  have hsourced := findSymbol_sourced _ _ _ hfound
  cases found with
  | relation r' scope =>
    cases scope with
    | none =>
      obtain ⟨rfl, -⟩ := (Check.pure_yields ..).mp h
      exact hsourced
    | some d =>
      cases d with
      | succ d => cases h
      | zero =>
        obtain ⟨rfl, -⟩ := (Check.pure_yields ..).mp h
        obtain ⟨scope, hscope, hr⟩ := hsourced
        have hhead : s.scope = scope := by
          rw [AnalyzerState.scope, List.headD_eq_head?_getD, List.head?_eq_getElem?, hscope]
          rfl
        rwa [hhead]
  | _ => cases h

end Mizugaki.Analyzer
