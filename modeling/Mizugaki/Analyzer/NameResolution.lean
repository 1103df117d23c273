import Mizugaki.Analyzer.Name

/-! What a name designates in a chain of query scopes. An unqualified name is decided
by the innermost scope that exports a column of that name, a qualified one by the
innermost scope that holds a relation of the qualifier's name; both are ambiguous
exactly when that scope says so. -/

namespace Mizugaki.Analyzer

open Mizugaki.Ast Mizugaki.Plan Mizugaki.Control Mizugaki.Data.Chain Mizugaki.Data.UniqueMap

/-- The scope at distance `d` is the innermost one with a property. -/
def Innermost (P : QueryScope → Prop) (scopes : List QueryScope) (d : Nat) (scope : QueryScope) :
    Prop :=
  scopes[d]? = some scope ∧ P scope ∧ ∀ e < d, ∀ inner, scopes[e]? = some inner → ¬ P inner

theorem Innermost.unique {P : QueryScope → Prop} {scopes : List QueryScope} {d d' : Nat}
    {scope scope' : QueryScope} (h : Innermost P scopes d scope)
    (h' : Innermost P scopes d' scope') : d = d' ∧ scope = scope' := by
  obtain ⟨hat, hP, hinner⟩ := h
  obtain ⟨hat', hP', hinner'⟩ := h'
  rcases Nat.lt_trichotomy d d' with hlt | rfl | hlt
  · exact absurd hP (hinner' d hlt scope hat)
  · exact ⟨rfl, Option.some.inj (hat.symm.trans hat')⟩
  · exact absurd hP' (hinner d' hlt scope' hat')

theorem innermost_zero {P : QueryScope → Prop} {scope : QueryScope} {parents : List QueryScope}
    (h : P scope) : Innermost P (scope :: parents) 0 scope :=
  ⟨rfl, h, fun _ he => absurd he (Nat.not_lt_zero _)⟩

theorem innermost_succ {P : QueryScope → Prop} {scope found : QueryScope}
    {parents : List QueryScope} {d : Nat} (h : ¬ P scope) (hd : Innermost P parents d found) :
    Innermost P (scope :: parents) (d + 1) found := by
  refine ⟨hd.1, hd.2.1, fun e he inner hinner => ?_⟩
  rcases e with _ | e
  · obtain rfl := Option.some.inj hinner
    exact h
  · exact hd.2.2 e (by omega) inner hinner

/-- Either no scope of a chain has a property, or there is an innermost one. -/
theorem innermost_or_none (P : QueryScope → Prop) (scopes : List QueryScope) :
    (∀ scope ∈ scopes, ¬ P scope) ∨ ∃ d scope, Innermost P scopes d scope := by
  induction scopes with
  | nil => exact .inl fun _ h => absurd h (List.not_mem_nil)
  | cons scope parents ih =>
    by_cases h : P scope
    · exact .inr ⟨0, scope, innermost_zero h⟩
    · rcases ih with hnone | ⟨d, found, hd⟩
      · exact .inl (List.forall_mem_cons.mpr ⟨h, hnone⟩)
      · exact .inr ⟨d + 1, found, innermost_succ h hd⟩

theorem Innermost.mem {P : QueryScope → Prop} {scopes : List QueryScope} {d : Nat}
    {scope : QueryScope} (h : Innermost P scopes d scope) : scope ∈ scopes :=
  List.mem_of_getElem? h.1

/-! ### One scope -/

namespace RelationInfo

theorem atMostOne_bind {α : Type} (l l' : List α) :
    ((atMostOne l).bind fun found => atMostOne (found.toList ++ l')) = atMostOne (l ++ l') := by
  rcases l with _ | ⟨a, _ | ⟨b, l⟩⟩ <;> rfl

end RelationInfo

namespace QueryScope

/-- Searching the relations of a scope finds its exported columns of the name. -/
theorem searchRelations_eq (identifier : String) (found : Option Variable)
    (rs : List RelationInfo) :
    searchRelations identifier found rs
      = RelationInfo.atMostOne
          (found.toList ++ (rs.flatMap (·.exportedNamed identifier)).map ColumnInfo.variable_) := by
  induction rs generalizing found with
  | nil => rcases found with _ | v <;> rfl
  | cons r rs ih =>
    have hbind := RelationInfo.atMostOne_bind
      (found.toList ++ (r.exportedNamed identifier).map ColumnInfo.variable_)
      ((rs.flatMap (·.exportedNamed identifier)).map ColumnInfo.variable_)
    rw [searchRelations, r.searchChain_chain, List.flatMap_cons, List.map_append,
      ← List.append_assoc, ← hbind]
    rcases RelationInfo.atMostOne
      (found.toList ++ (r.exportedNamed identifier).map ColumnInfo.variable_) with _ | found
    · rfl
    · exact ih found

theorem searchRelations_scope (s : QueryScope) (identifier : String) :
    searchRelations identifier none s.relations
      = RelationInfo.atMostOne ((s.exportedNamed identifier).map ColumnInfo.variable_) := by
  rw [searchRelations_eq]
  rfl

/-- What `find` tells about the relations of a name. -/
theorem find_spec (s : QueryScope) (identifier : String) :
    match s.find identifier with
    | none => s.named identifier = []
    | some (.at_ i) => ∃ r, s.relations[i]? = some r ∧ s.named identifier = [r]
    | some .ambiguous => 2 ≤ (s.named identifier).length :=
  s.names.lookup identifier

end QueryScope

/-! ### The chain -/

variable {ρ : Type} (env : Environment ρ)

/-- The state after one more report. -/
def AnalyzerState.reported (s : AnalyzerState ρ) (code : Code) (message : List Fragment) :
    AnalyzerState ρ :=
  { s with diagnostics := s.diagnostics ++ [⟨code, message⟩] }

def columnAmbiguousMessage (name : SimpleName) : List Fragment :=
  [.text "column '", .name (.simple name), .text "' is ambiguous"]

def relationAmbiguousMessage (name : SimpleName) : List Fragment :=
  [.text "relation '", .name (.simple name), .text "' is ambiguous"]

/-- A scope decides an unqualified name: it exports a column of the name. -/
def Exports (identifier : String) (scope : QueryScope) : Prop :=
  scope.exportedNamed identifier ≠ []

/-- A scope decides a qualifier: it holds a relation of the name. -/
def Holds (identifier : String) (scope : QueryScope) : Prop := scope.named identifier ≠ []

variable {env} {scopes : List QueryScope} {name : SimpleName} {d k : Nat} {scope : QueryScope}
  {s : AnalyzerState ρ}

theorem findVariableInQuery_none
    (h : ∀ scope ∈ scopes, ¬ Exports (identifierOf env name .variable) scope) :
    findVariableInQuery env name scopes k s = (some .absent, s) := by
  induction scopes generalizing k with
  | nil => rfl
  | cons scope parents ih =>
    obtain ⟨hscope, hparents⟩ := List.forall_mem_cons.mp h
    have hnil : scope.exportedNamed (identifierOf env name .variable) = [] := not_not.mp hscope
    rw [findVariableInQuery, QueryScope.searchRelations_scope, hnil]
    exact ih hparents

/-- The innermost scope that exports the name decides: with one column it is found, with more the
name is reported ambiguous. -/
theorem findVariableInQuery_innermost
    (h : Innermost (Exports (identifierOf env name .variable)) scopes d scope) :
    findVariableInQuery env name scopes k s =
      match scope.exportedNamed (identifierOf env name .variable) with
      | [c] => (some (.found (c.variable_, k + d)), s)
      | _ => (some .error, s.reported .columnAmbiguous (columnAmbiguousMessage name)) := by
  induction scopes generalizing k d with
  | nil => exact absurd h.mem List.not_mem_nil
  | cons current parents ih =>
    rw [findVariableInQuery, QueryScope.searchRelations_scope]
    rcases d with _ | d
    · obtain rfl : current = scope := Option.some.inj h.1
      have hne : current.exportedNamed (identifierOf env name .variable) ≠ [] := h.2.1
      rcases hcols : current.exportedNamed (identifierOf env name .variable)
        with _ | ⟨c, _ | ⟨c', cs⟩⟩
      · exact absurd hcols hne
      · rfl
      · rfl
    · have hnil : current.exportedNamed (identifierOf env name .variable) = [] :=
        not_not.mp (h.2.2 0 (Nat.succ_pos d) current rfl)
      have htail : Innermost (Exports (identifierOf env name .variable)) parents d scope :=
        ⟨h.1, h.2.1, fun e he inner hinner => h.2.2 (e + 1) (by omega) inner hinner⟩
      have hdepth : k + 1 + d = k + (d + 1) := by omega
      rw [hnil, ← hdepth]
      exact ih htail

theorem findRelationInfoInQuery_none
    (h : ∀ scope ∈ scopes, ¬ Holds (identifierOf env name .relation) scope) :
    findRelationInfoInQuery env name scopes k s = (some .absent, s) := by
  induction scopes generalizing k with
  | nil => rfl
  | cons scope parents ih =>
    obtain ⟨hscope, hparents⟩ := List.forall_mem_cons.mp h
    have hnil : scope.named (identifierOf env name .relation) = [] := not_not.mp hscope
    have hspec := scope.find_spec (identifierOf env name .relation)
    rw [findRelationInfoInQuery]
    rcases hfind : scope.find (identifierOf env name .relation) with _ | ⟨i⟩ | _
    · exact ih hparents
    · rw [hfind] at hspec
      obtain ⟨r, -, hr⟩ := hspec
      rw [hnil] at hr
      exact absurd hr (by simp)
    · rw [hfind] at hspec
      simp [hnil] at hspec

/-- The innermost scope that holds the qualifier decides. -/
theorem findRelationInfoInQuery_innermost
    (h : Innermost (Holds (identifierOf env name .relation)) scopes d scope) :
    findRelationInfoInQuery env name scopes k s =
      match scope.named (identifierOf env name .relation) with
      | [r] => (some (.found (r, k + d)), s)
      | _ => (some .error, s.reported .relationAmbiguous (relationAmbiguousMessage name)) := by
  induction scopes generalizing k d with
  | nil => exact absurd h.mem List.not_mem_nil
  | cons current parents ih =>
    have hspec := current.find_spec (identifierOf env name .relation)
    rw [findRelationInfoInQuery]
    rcases d with _ | d
    · obtain rfl : current = scope := Option.some.inj h.1
      have hne : current.named (identifierOf env name .relation) ≠ [] := h.2.1
      rcases hfind : current.find (identifierOf env name .relation) with _ | ⟨i⟩ | _
      · rw [hfind] at hspec
        exact absurd hspec hne
      · rw [hfind] at hspec
        obtain ⟨r, hi, hr⟩ := hspec
        simp only [hi, hr]
        rfl
      · rw [hfind] at hspec
        rcases hnamed : current.named (identifierOf env name .relation)
          with _ | ⟨r, _ | ⟨r', rs⟩⟩
        · exact absurd hnamed hne
        · simp [hnamed] at hspec
        · rfl
    · have hnil : current.named (identifierOf env name .relation) = [] :=
        not_not.mp (h.2.2 0 (Nat.succ_pos d) current rfl)
      have htail : Innermost (Holds (identifierOf env name .relation)) parents d scope :=
        ⟨h.1, h.2.1, fun e he inner hinner => h.2.2 (e + 1) (by omega) inner hinner⟩
      rcases hfind : current.find (identifierOf env name .relation) with _ | ⟨i⟩ | _
      · have hdepth : k + 1 + d = k + (d + 1) := by omega
        rw [← hdepth]
        exact ih htail
      · rw [hfind] at hspec
        obtain ⟨r, -, hr⟩ := hspec
        rw [hnil] at hr
        exact absurd hr (by simp)
      · rw [hfind] at hspec
        simp [hnil] at hspec

/-! ### Unqualified names -/

/-- What is declared outside the query is never a column of it. -/
theorem findDeclared_variable {name : SimpleName} {v : Variable} {scope : Option Nat}
    (h : findDeclared env scopes name variableTargets = some (.variable v scope)) :
    scope = none := by
  have hkinds : ∀ k ∈ [SymbolKind.queryDecl, .relationDecl, .tableDecl, .indexDecl, .schemaDecl,
      .catalogDecl], k ∉ variableTargets := by decide
  have hschema : SymbolKind.schemaVariable ∈ variableTargets := by decide
  simp only [List.forall_mem_cons] at hkinds
  obtain ⟨h₁, h₂, h₃, h₄, h₅, h₆, -⟩ := hkinds
  simp only [findDeclared, firstTarget, List.findSome?_cons, if_pos hschema, if_neg h₁, if_neg h₂, if_neg h₃,
    if_neg h₄, if_neg h₅, if_neg h₆, List.findSome?_nil] at h
  rcases hfound : findInSearchPath env fun s => s.findVariable (identifierOf env name .variable)
    with _ | p
  · simp [hfound] at h
  · simp only [hfound, Option.map_some, Option.some.injEq, SymbolInfo.variable.injEq] at h
    exact h.2.symm

theorem findSymbol_simple (name : SimpleName) :
    findSymbol env scopes (.simple name) variableTargets true s
      = match findVariableInQuery env name scopes 0 s with
        | (some (.found (v, depth)), t) => (some (.variable v (some depth)), t)
        | (some .absent, t) =>
          match findDeclared env scopes name variableTargets with
          | some found => (some found, t)
          | none => concludeNotFound (.simple name) variableTargets true t
        | (some .error, t) => (some .sawError, t)
        | (none, t) => (none, t) := by
  have hrelation : SymbolKind.relationInfo ∉ variableTargets := by decide
  have hcolumn : SymbolKind.columnVariable ∈ variableTargets := by decide
  simp only [findSymbol, findSymbolPrimary, searchFor, if_neg hrelation, if_pos hcolumn, Check.bind_run,
    Check.pure_run]
  rcases findVariableInQuery env name scopes 0 s with ⟨_ | _ | _ | ⟨v, depth⟩, t⟩
  · rfl
  · rfl
  · dsimp only
    rcases findDeclared env scopes name variableTargets with _ | found <;> rfl
  · rfl

/-- The innermost scope that exports the name decides what the name designates. -/
theorem findSymbol_simple_innermost
    (h : Innermost (Exports (identifierOf env name .variable)) scopes d scope) :
    findSymbol env scopes (.simple name) variableTargets true s
      = match scope.exportedNamed (identifierOf env name .variable) with
        | [c] => (some (.variable c.variable_ (some d)), s)
        | _ => (some .sawError, s.reported .columnAmbiguous (columnAmbiguousMessage name)) := by
  rw [findSymbol_simple, findVariableInQuery_innermost h]
  rcases scope.exportedNamed (identifierOf env name .variable) with _ | ⟨c, _ | ⟨c', cs⟩⟩
  · rfl
  · simp only [Nat.zero_add]
  · rfl

/-- A name that no scope exports designates no column, and is not ambiguous. -/
theorem findSymbol_simple_none
    (h : ∀ scope ∈ scopes, ¬ Exports (identifierOf env name .variable) scope) :
    (∀ v d, (findSymbol env scopes (.simple name) variableTargets true s).1
        ≠ some (.variable v (some d))) ∧
      (findSymbol env scopes (.simple name) variableTargets true s).2
        ≠ s.reported .columnAmbiguous (columnAmbiguousMessage name) := by
  rw [findSymbol_simple, findVariableInQuery_none h]
  rcases hfound : findDeclared env scopes name variableTargets with _ | found
  · refine ⟨fun v d hv => ?_, fun ht => ?_⟩
    · exact absurd (Option.some.inj hv) (by simp)
    · have hdiagnostics := congrArg AnalyzerState.diagnostics ht
      simp [concludeNotFound, reportSymbolNotFound, variableTargets, report, Check.modify,
        Check.bind_run, Check.pure_run, AnalyzerState.reported] at hdiagnostics
  · refine ⟨fun v d hv => ?_, fun ht => ?_⟩
    · obtain rfl := Option.some.inj hv
      exact absurd (findDeclared_variable hfound) (by simp)
    · have hdiagnostics := congrArg AnalyzerState.diagnostics ht
      simp [AnalyzerState.reported] at hdiagnostics

/-! ### Qualified names -/

def columnNotFoundMessage (name : Name) : List Fragment :=
  [.text "column", .text " \"", .name name, .text "\" is not found"]

/-- The innermost scope that holds the qualifier decides: with two relations of the name it is
ambiguous, with one the name designates the exported column of that relation. -/
theorem findSymbol_qualified_innermost {r c : SimpleName}
    (h : Innermost (Holds (identifierOf env r .relation)) scopes d scope) :
    findSymbol env scopes (.qualified (.simple r) c) variableTargets true s
      = match scope.named (identifierOf env r .relation) with
        | [rel] =>
          match rel.exportedNamed (identifierOf env c .variable) with
          | [] => (some .sawError,
              s.reported .columnNotFound (columnNotFoundMessage (.qualified (.simple r) c)))
          | [col] => (some (.variable col.variable_ (some d)), s)
          | _ => (some .sawError, s.reported .columnAmbiguous (columnAmbiguousMessage c))
        | _ => (some .sawError, s.reported .relationAmbiguous (relationAmbiguousMessage r)) := by
  have htargets : SymbolKind.relationInfo ∈ SymbolKind.qualifierTargets variableTargets := by
    decide
  have hcolumn : SymbolKind.columnVariable ∈
      SymbolKind.inter variableTargets [SymbolKind.columnVariable] := by decide
  have hqualifier := findRelationInfoInQuery_innermost (k := 0) (s := s) h
  simp only [findSymbol, findSymbolPrimary, searchFor, if_pos htargets, Check.bind_run, hqualifier]
  rcases scope.named (identifierOf env r .relation) with _ | ⟨rel, _ | ⟨rel', rels⟩⟩
  · rfl
  · simp only [Check.pure_run, Nat.zero_add, findSymbolQualified, Name.lastName, if_pos hcolumn,
      Check.bind_run, findColumnInRelation, RelationInfo.searchChain_chain, Option.toList_none,
      List.nil_append]
    rcases rel.exportedNamed (identifierOf env c .variable) with _ | ⟨col, _ | ⟨col', cols⟩⟩
    · rfl
    · rfl
    · rfl
  · rfl

theorem concludeNotFound_yields {name : Name} {targets : List SymbolKind} {b : Bool}
    {found : SymbolInfo} {t : AnalyzerState ρ}
    (h : concludeNotFound name targets b s = (some found, t)) :
    found = .sawError ∨ found = .notFound := by
  rw [concludeNotFound] at h
  split at h
  · simp only [Check.bind_yields, Check.pure_yields] at h
    obtain ⟨-, -, -, rfl, -⟩ := h
    exact .inl rfl
  · exact .inr ((Check.pure_yields ..).mp h).1.symm

theorem firstTarget_mem {targets : List SymbolKind}
    {searches : List (SymbolKind × Option SymbolInfo)} {found : SymbolInfo}
    (h : firstTarget targets searches = some found) :
    ∃ kind result, (kind, result) ∈ searches ∧ result = some found := by
  obtain ⟨⟨kind, result⟩, hmem, hresult⟩ := List.exists_of_findSome?_eq_some h
  dsimp only at hresult
  split at hresult
  · exact ⟨kind, result, hmem, hresult⟩
  · simp at hresult

theorem findDeclared_ne_relation {name : SimpleName} {targets : List SymbolKind}
    {r : RelationInfo} {scope : Option Nat} :
    findDeclared env scopes name targets ≠ some (.relation r scope) := by
  intro h
  obtain ⟨kind, result, hmem, hresult⟩ := firstTarget_mem h
  simp only [List.mem_cons, Prod.mk.injEq, List.not_mem_nil, or_false] at hmem
  rcases hmem with ⟨-, rfl⟩ | ⟨-, rfl⟩ | ⟨-, rfl⟩ | ⟨-, rfl⟩ | ⟨-, rfl⟩ | ⟨-, rfl⟩ | ⟨-, rfl⟩ <;>
    simp at hresult

/-- A search in a schema designates nothing of the chain. -/
theorem findSymbolInSchema_yields {schema : Schema} {name : SimpleName}
    {targets : List SymbolKind} {v : Variable} {scope : Option Nat} {t : AnalyzerState ρ}
    (h : findSymbolInSchema env scopes schema name targets s = (some (.variable v scope), t)) :
    scope = none := by
  unfold findSymbolInSchema at h
  dsimp only at h
  rcases hvariable : (if SymbolKind.schemaVariable ∈ targets then
    schema.findVariable (identifierOf env name .variable) else none) with _ | v'
  · rw [hvariable] at h
    simp only [Check.bind_yields] at h
    obtain ⟨relation, u, -, h⟩ := h
    rcases relation with _ | _ | r
    · simp at h
    · obtain ⟨hfound, -⟩ := (Check.pure_yields ..).mp h
      rw [Option.getD_eq_iff] at hfound
      rcases hfound with hfirst | ⟨-, hfound⟩
      · obtain ⟨kind, result, hmem, hresult⟩ := firstTarget_mem hfirst
        simp only [List.mem_cons, Prod.mk.injEq, List.not_mem_nil, or_false] at hmem
        rcases hmem with ⟨-, rfl⟩ | ⟨-, rfl⟩ | ⟨-, rfl⟩ <;> simp at hresult
      · cases hfound
    · simp at h
  · rw [hvariable] at h
    simp only [Check.pure_yields, SymbolInfo.variable.injEq] at h
    exact h.1.2.symm

/-- Only a relation of the chain leads to a column of the chain. -/
theorem findSymbolQualified_scope {qualifier : SymbolInfo} {name : Name}
    {targets : List SymbolKind} {b : Bool} {v : Variable} {t : AnalyzerState ρ}
    (h : findSymbolQualified env scopes qualifier name targets b s
      = (some (.variable v (some d)), t)) :
    ∃ r, qualifier = .relation r (some d) := by
  have hconclude : ∀ {targets t'}, concludeNotFound name targets b t'
      ≠ (some (.variable v (some d)), t) := by
    intro targets t' h
    rcases concludeNotFound_yields h with h | h <;> cases h
  unfold findSymbolQualified at h
  dsimp only at h
  split at h
  · split at h
    · simp at h
    · exact absurd h hconclude
  · rename_i r scope
    split at h
    · simp only [Check.bind_yields] at h
      obtain ⟨result, u, -, h⟩ := h
      rcases result with _ | _ | v'
      · simp at h
      · exact absurd h hconclude
      · simp only [Check.pure_yields, SymbolInfo.variable.injEq] at h
        exact ⟨r, by rw [h.1.2]⟩
    · exact absurd h hconclude
  · simp only [Check.bind_yields] at h
    obtain ⟨result, u, hschema, h⟩ := h
    have hresult : result = .variable v (some d) := by
      rcases result
      case notFound => exact absurd h hconclude
      all_goals exact ((Check.pure_yields ..).mp h).1
    rw [hresult] at hschema
    exact absurd (findSymbolInSchema_yields hschema) (by simp)
  · rename_i schemas
    split at h
    · rcases hschema : schemas.findSchema (identifierOf env name.lastName .schema) with _ | found
      · rw [hschema] at h
        exact absurd h hconclude
      · rw [hschema] at h
        simp at h
    · exact absurd h hconclude
  · exact absurd h hconclude

/-- Without a relation of the qualifier's name, the name designates no column. -/
theorem findSymbol_qualified_none {r c : SimpleName} {v : Variable}
    (h : ∀ scope ∈ scopes, ¬ Holds (identifierOf env r .relation) scope) :
    (findSymbol env scopes (.qualified (.simple r) c) variableTargets true s).1
      ≠ some (.variable v (some d)) := by
  intro hv
  have hrun : findSymbol env scopes (.qualified (.simple r) c) variableTargets true s
      = (some (.variable v (some d)), _) := Prod.ext hv rfl
  have htargets : SymbolKind.relationInfo ∈ SymbolKind.qualifierTargets variableTargets := by
    decide
  simp only [findSymbol, Check.bind_yields] at hrun
  obtain ⟨qualifier, u, hqualifier, hrun⟩ := hrun
  have hrelation : ∃ r, qualifier = .relation r (some d) := by
    rcases qualifier
    case sawError => simp at hrun
    case notFound => simp at hrun
    all_goals exact findSymbolQualified_scope hrun
  obtain ⟨rel, rfl⟩ := hrelation
  -- no relation was found, and nothing else that is found is one
  simp only [findSymbolPrimary, searchFor, if_pos htargets, Check.bind_run,
    findRelationInfoInQuery_none h] at hqualifier
  split at hqualifier
  · simp at hqualifier
  · rename_i column t hcolumn
    rcases column with _ | _ | ⟨v', depth⟩
    · simp at hqualifier
    · rcases hdeclared : findDeclared env scopes r (SymbolKind.qualifierTargets variableTargets)
        with _ | found
      · simp only [hdeclared] at hqualifier
        rcases concludeNotFound_yields hqualifier with h | h <;> cases h
      · simp only [hdeclared, Check.pure_yields] at hqualifier
        obtain ⟨rfl, -⟩ := hqualifier
        exact findDeclared_ne_relation hdeclared
    · simp at hqualifier

/-! ### Both forms -/

/-- A variable name as `analyze_variable_name` searches for it. -/
abbrev designate (env : Environment ρ) (scopes : List QueryScope) (name : Name)
    (s : AnalyzerState ρ) : Option SymbolInfo × AnalyzerState ρ :=
  findSymbol env scopes name variableTargets true s

theorem designate_simple_iff (name : SimpleName) (v : Variable) (d : Nat) :
    (designate env scopes (.simple name) s).1 = some (.variable v (some d)) ↔
      ∃ scope, Innermost (Exports (identifierOf env name .variable)) scopes d scope ∧
        (scope.exportedNamed (identifierOf env name .variable)).map ColumnInfo.variable_ = [v] := by
  rcases innermost_or_none (Exports (identifierOf env name .variable)) scopes
    with hnone | ⟨d', scope, hscope⟩
  · refine ⟨fun h => absurd h ((findSymbol_simple_none hnone).1 v d), ?_⟩
    rintro ⟨scope, hscope, -⟩
    exact absurd hscope.2.1 (hnone scope hscope.mem)
  · rw [designate, findSymbol_simple_innermost hscope]
    constructor
    · intro h
      rcases hcols : scope.exportedNamed (identifierOf env name .variable)
        with _ | ⟨c, _ | ⟨c', cs⟩⟩
      · exact absurd hcols hscope.2.1
      · simp only [hcols, Option.some.injEq, SymbolInfo.variable.injEq] at h
        obtain ⟨rfl, rfl⟩ := h
        exact ⟨scope, hscope, by simp [hcols]⟩
      · simp [hcols] at h
    · rintro ⟨scope', hscope', hcols⟩
      obtain ⟨rfl, rfl⟩ := hscope.unique hscope'
      obtain ⟨c, hc, rfl⟩ := List.map_eq_singleton_iff.mp hcols
      simp [hc]

theorem designate_simple_ambiguous_iff (name : SimpleName) :
    designate env scopes (.simple name) s
        = (some .sawError, s.reported .columnAmbiguous (columnAmbiguousMessage name)) ↔
      ∃ d scope, Innermost (Exports (identifierOf env name .variable)) scopes d scope ∧
        2 ≤ (scope.exportedNamed (identifierOf env name .variable)).length := by
  rcases innermost_or_none (Exports (identifierOf env name .variable)) scopes
    with hnone | ⟨d, scope, hscope⟩
  · refine ⟨fun h => absurd (congrArg Prod.snd h) (findSymbol_simple_none hnone).2, ?_⟩
    rintro ⟨d, scope, hscope, -⟩
    exact absurd hscope.2.1 (hnone scope hscope.mem)
  · rw [designate, findSymbol_simple_innermost hscope]
    constructor
    · intro h
      refine ⟨d, scope, hscope, ?_⟩
      rcases hcols : scope.exportedNamed (identifierOf env name .variable)
        with _ | ⟨c, _ | ⟨c', cs⟩⟩
      · exact absurd hcols hscope.2.1
      · simp [hcols] at h
      · simp
    · rintro ⟨d', scope', hscope', hlength⟩
      obtain ⟨rfl, rfl⟩ := hscope.unique hscope'
      rcases hcols : scope.exportedNamed (identifierOf env name .variable)
        with _ | ⟨c, _ | ⟨c', cs⟩⟩
      · simp [hcols] at hlength
      · simp [hcols] at hlength
      · rfl

theorem designate_qualified_iff (r c : SimpleName) (v : Variable) (d : Nat) :
    (designate env scopes (.qualified (.simple r) c) s).1 = some (.variable v (some d)) ↔
      ∃ scope rel, Innermost (Holds (identifierOf env r .relation)) scopes d scope ∧
        scope.named (identifierOf env r .relation) = [rel] ∧
        (rel.exportedNamed (identifierOf env c .variable)).map ColumnInfo.variable_ = [v] := by
  rcases innermost_or_none (Holds (identifierOf env r .relation)) scopes
    with hnone | ⟨d', scope, hscope⟩
  · refine ⟨fun h => absurd h (findSymbol_qualified_none hnone), ?_⟩
    rintro ⟨scope, rel, hscope, -⟩
    exact absurd hscope.2.1 (hnone scope hscope.mem)
  · rw [designate, findSymbol_qualified_innermost hscope]
    constructor
    · intro h
      rcases hnamed : scope.named (identifierOf env r .relation) with _ | ⟨rel, _ | ⟨rel', rels⟩⟩
      · exact absurd hnamed hscope.2.1
      · rcases hcols : rel.exportedNamed (identifierOf env c .variable)
          with _ | ⟨col, _ | ⟨col', cols⟩⟩
        · simp [hnamed, hcols] at h
        · simp only [hnamed, hcols, Option.some.injEq, SymbolInfo.variable.injEq] at h
          obtain ⟨rfl, rfl⟩ := h
          exact ⟨scope, rel, hscope, hnamed, by simp [hcols]⟩
        · simp [hnamed, hcols] at h
      · simp [hnamed] at h
    · rintro ⟨scope', rel, hscope', hnamed, hcols⟩
      obtain ⟨rfl, rfl⟩ := hscope.unique hscope'
      obtain ⟨col, hcol, rfl⟩ := List.map_eq_singleton_iff.mp hcols
      simp [hnamed, hcol]

/-- A column found by its plain name is found under the name of its relation too, when that name
leads to the relation. -/
theorem designate_qualified_of_simple {r c : SimpleName} {v : Variable} {rel : RelationInfo}
    (h : (designate env scopes (.simple c) s).1 = some (.variable v (some d)))
    (hscope : scopes[d]? = some scope)
    (hrel : ∃ col ∈ rel.exportedNamed (identifierOf env c .variable), col.variable_ = v)
    (hnamed : scope.named (identifierOf env r .relation) = [rel])
    (hinner : ∀ e < d, ∀ inner, scopes[e]? = some inner →
      inner.named (identifierOf env r .relation) = []) :
    (designate env scopes (.qualified (.simple r) c) s).1 = some (.variable v (some d)) := by
  obtain ⟨scope', hexports, hcols⟩ := (designate_simple_iff c v d).mp h
  obtain rfl : scope' = scope := Option.some.inj (hexports.1.symm.trans hscope)
  have hmem : rel ∈ scope'.relations := by
    have : rel ∈ scope'.named (identifierOf env r .relation) := by simp [hnamed]
    exact List.mem_of_mem_filter this
  -- the relation contributes the only exported column of the name
  have hrelCols : rel.exportedNamed (identifierOf env c .variable)
      = scope'.exportedNamed (identifierOf env c .variable) := by
    have hsub : List.Sublist (rel.exportedNamed (identifierOf env c .variable))
        (scope'.exportedNamed (identifierOf env c .variable)) := by
      obtain ⟨before, after, hsplit⟩ := List.append_of_mem hmem
      rw [QueryScope.exportedNamed, hsplit, List.flatMap_append, List.flatMap_cons]
      exact (List.sublist_append_left _ _).trans (List.sublist_append_right _ _)
    refine hsub.eq_of_length ?_
    obtain ⟨col, hcol, -⟩ := hrel
    have hle := hsub.length_le
    have hpos := List.length_pos_of_mem hcol
    have hone := congrArg List.length hcols
    simp only [List.length_map, List.length_singleton] at hone
    omega
  refine (designate_qualified_iff r c v d).mpr ⟨scope', rel, ?_, hnamed, by rw [hrelCols, hcols]⟩
  exact ⟨hscope, by simp [Holds, hnamed], fun e he inner hi => not_not.mpr (hinner e he inner hi)⟩

/-- What simple and qualified names designate in a chain of scopes: an unqualified name the only
exported column of the innermost scope that exports one, and it is ambiguous when that scope exports
several; a qualified name the only exported column of the only relation of the qualifier's name in
the innermost scope that holds one, and never a column of an outer relation of that name. -/
theorem designate_innermost (env : Environment ρ) (scopes : List QueryScope)
    (s : AnalyzerState ρ) (r c : SimpleName) :
    let cid := identifierOf env c .variable
    let rid := identifierOf env r .relation
    let unqualified := designate env scopes (.simple c) s
    let qualified := designate env scopes (.qualified (.simple r) c) s
    (∀ v d, unqualified.1 = some (.variable v (some d)) ↔
      ∃ scope, Innermost (Exports cid) scopes d scope ∧
        (scope.exportedNamed cid).map ColumnInfo.variable_ = [v]) ∧
    (unqualified = (some .sawError, s.reported .columnAmbiguous (columnAmbiguousMessage c)) ↔
      ∃ d scope, Innermost (Exports cid) scopes d scope ∧ 2 ≤ (scope.exportedNamed cid).length) ∧
    (∀ v d, qualified.1 = some (.variable v (some d)) ↔
      ∃ scope rel, Innermost (Holds rid) scopes d scope ∧ scope.named rid = [rel] ∧
        (rel.exportedNamed cid).map ColumnInfo.variable_ = [v]) ∧
    (∀ d scope, Innermost (Holds rid) scopes d scope →
      (2 ≤ (scope.named rid).length →
        qualified = (some .sawError, s.reported .relationAmbiguous (relationAmbiguousMessage r))) ∧
      (∀ rel, scope.named rid = [rel] → 2 ≤ (rel.exportedNamed cid).length →
        qualified = (some .sawError, s.reported .columnAmbiguous (columnAmbiguousMessage c))) ∧
      (∀ rel, scope.named rid = [rel] → rel.exportedNamed cid = [] →
        qualified = (some .sawError, s.reported .columnNotFound
          (columnNotFoundMessage (.qualified (.simple r) c))))) ∧
    (∀ v d scope rel, unqualified.1 = some (.variable v (some d)) → scopes[d]? = some scope →
      (∃ col ∈ rel.exportedNamed cid, col.variable_ = v) → scope.named rid = [rel] →
      (∀ e < d, ∀ inner, scopes[e]? = some inner → inner.named rid = []) →
      qualified.1 = some (.variable v (some d))) := by
  intro cid rid unqualified qualified
  refine ⟨designate_simple_iff c, designate_simple_ambiguous_iff c, designate_qualified_iff r c,
    fun d scope hscope => ?_, fun v d scope rel => designate_qualified_of_simple⟩
  have hrun := findSymbol_qualified_innermost (c := c) (s := s) hscope
  refine ⟨fun hlength => ?_, fun rel hrel hlength => ?_, fun rel hrel hcols => ?_⟩
  · rcases hnamed : scope.named rid with _ | ⟨rel, _ | ⟨rel', rels⟩⟩
    · simp [hnamed] at hlength
    · simp [hnamed] at hlength
    · exact hrun.trans (by rw [hnamed])
  · rcases hcols : rel.exportedNamed cid with _ | ⟨col, _ | ⟨col', cols⟩⟩
    · simp [hcols] at hlength
    · simp [hcols] at hlength
    · exact hrun.trans (by rw [hrel]; dsimp only; rw [hcols])
  · exact hrun.trans (by rw [hrel]; dsimp only; rw [hcols])

end Mizugaki.Analyzer
