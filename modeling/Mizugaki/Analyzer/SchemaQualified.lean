import Mizugaki.Analyzer.NameResolution
import Mizugaki.Analyzer.Statement

/-! Columns of a table that is named with its schema. The name of a table alone is looked for in
the whole chain of scopes, its declaration in the innermost scope only: the two names lead to the
same column exactly when the table is in that scope and no variable of a schema takes their place. -/

namespace Mizugaki.Analyzer

open Mizugaki.Ast Mizugaki.Plan Mizugaki.Control Mizugaki.Data.Chain Mizugaki.Data.UniqueMap

/-- The relations of a scope that stand for a declaration under its own name. -/
def QueryScope.declared (scope : QueryScope) (relation : Relation) : List RelationInfo :=
  scope.relations.filter fun r => r.scopeReference = some relation.address

/-- What `findDeclaration` tells about the relations of a declaration. -/
theorem QueryScope.findDeclaration_spec (scope : QueryScope) (relation : Relation) :
    match scope.findDeclaration relation with
    | none => scope.declared relation = []
    | some (.at_ i) => ∃ r, scope.relations[i]? = some r ∧ scope.declared relation = [r]
    | some .ambiguous => 2 ≤ (scope.declared relation).length :=
  scope.references.lookup relation.address

variable {ρ : Type} {env : Environment ρ} {scopes : List QueryScope} {d : Nat}
  {scope : QueryScope} {s : AnalyzerState ρ} {schema : Schema} {name : SimpleName}

/-- The declarations of a schema are looked for in the innermost scope. -/
theorem findRelationInfoInSchema_run {relation : Relation} {parents : List QueryScope}
    (h : schema.findRelation (identifierOf env name .relation) = some relation) :
    findRelationInfoInSchema env (scope :: parents) schema name s =
      match scope.declared relation with
      | [] => (some .absent, s)
      | [r] => (some (.found r), s)
      | _ => (some .error, s.reported .relationAmbiguous (relationAmbiguousMessage name)) := by
  have hspec := scope.findDeclaration_spec relation
  unfold findRelationInfoInSchema
  rw [h]
  dsimp only
  rcases hfind : scope.findDeclaration relation with _ | ⟨i⟩ | _
  · rw [hfind] at hspec
    dsimp only at hspec
    rw [hspec]
    rfl
  · rw [hfind] at hspec
    obtain ⟨r, hr, hdeclared⟩ := hspec
    simp only [hr, hdeclared]
    rfl
  · rw [hfind] at hspec
    rcases hdeclared : scope.declared relation with _ | ⟨r, _ | ⟨r', rs⟩⟩
    · simp [hdeclared] at hspec
    · simp [hdeclared] at hspec
    · rfl

/-- The kinds of what qualifies the qualifier of a variable. -/
def schemaTargets : List SymbolKind :=
  SymbolKind.qualifierTargets (SymbolKind.qualifierTargets variableTargets)

/-- A name that clashes with nothing of the chain is a variable of the search path, or a schema. -/
theorem findSymbol_schema
    (hschema : env.options.catalog.findSchema (identifierOf env name .schema) = some schema)
    (hrelation : ∀ scope ∈ scopes, ¬ Holds (identifierOf env name .relation) scope)
    (hcolumn : ∀ scope ∈ scopes, ¬ Exports (identifierOf env name .variable) scope) :
    findSymbol env scopes (.simple name) schemaTargets true s =
      match findInSearchPath env fun s => s.findVariable (identifierOf env name .variable) with
      | some p => (some (.variable (.external p.2) none), s)
      | none => (some (.schema schema), s) := by
  have hrelationInfo : SymbolKind.relationInfo ∈ schemaTargets := by decide
  have hcolumnVariable : SymbolKind.columnVariable ∈ schemaTargets := by decide
  have hschemaVariable : SymbolKind.schemaVariable ∈ schemaTargets := by decide
  have hschemaDecl : SymbolKind.schemaDecl ∈ schemaTargets := by decide
  have hothers : ∀ k ∈ [SymbolKind.queryDecl, .relationDecl, .tableDecl, .indexDecl],
      k ∉ schemaTargets := by decide
  simp only [List.forall_mem_cons] at hothers
  obtain ⟨hquery, hrelationDecl, htable, hindex, -⟩ := hothers
  simp only [findSymbol, findSymbolPrimary, searchFor, if_pos hrelationInfo, if_pos hcolumnVariable,
    Check.bind_run, findRelationInfoInQuery_none hrelation, findVariableInQuery_none hcolumn]
  simp only [findDeclared, firstTarget, List.findSome?_cons, if_pos hschemaVariable, if_neg hquery,
    if_neg hrelationDecl, if_neg htable, if_neg hindex, if_pos hschemaDecl, hschema]
  rcases findInSearchPath env fun s => s.findVariable (identifierOf env name .variable) with _ | p
  · rfl
  · rfl

/-- A table of a schema occurs in a chain of scopes: in one scope, once, under its own name, which
is that of no other relation of the chain; and the name of the schema clashes with no relation and
no column of the chain. -/
structure OccursOnce (env : Environment ρ) (scopes : List QueryScope) (schemaName tableName : SimpleName)
    (schema : Schema) (table : Table) (d : Nat) (relation : RelationInfo) : Prop where
  schema_eq : env.options.catalog.findSchema (identifierOf env schemaName .schema) = some schema
  table_eq : schema.findRelation (identifierOf env tableName .relation) = some (.table table)
  occurs : ∃ scope, scopes[d]? = some scope ∧ scope.declared (.table table) = [relation] ∧
    scope.named (identifierOf env tableName .relation) = [relation]
  elsewhere : ∀ e scope, scopes[e]? = some scope → e ≠ d → scope.declared (.table table) = [] ∧
    scope.named (identifierOf env tableName .relation) = []
  noRelation : ∀ scope ∈ scopes, ¬ Holds (identifierOf env schemaName .relation) scope
  noColumn : ∀ scope ∈ scopes, ¬ Exports (identifierOf env schemaName .variable) scope

variable {schemaName tableName column : SimpleName} {table : Table} {relation : RelationInfo}

theorem OccursOnce.innermost
    (h : OccursOnce env scopes schemaName tableName schema table d relation) :
    ∃ scope, Innermost (Holds (identifierOf env tableName .relation)) scopes d scope ∧
      scope.named (identifierOf env tableName .relation) = [relation] := by
  obtain ⟨scope, hscope, -, hnamed⟩ := h.occurs
  refine ⟨scope, ⟨hscope, ?_, fun e he inner hinner => ?_⟩, hnamed⟩
  · rw [Holds, hnamed]
    exact List.cons_ne_nil _ _
  · exact not_not.mpr (h.elsewhere e inner hinner (Nat.ne_of_lt he)).2

/-- The table alone leads to the only exported column of the name. -/
theorem OccursOnce.findSymbol_table
    (h : OccursOnce env scopes schemaName tableName schema table d relation) {found : SymbolInfo}
    {t : AnalyzerState ρ}
    (hrun : findSymbol env scopes (.qualified (.simple tableName) column) variableTargets true s =
      (some found, t)) (hfound : found ≠ .sawError) :
    ∃ c, relation.exportedNamed (identifierOf env column .variable) = [c] ∧
      found = .variable c.variable_ (some d) ∧ t = s := by
  obtain ⟨scope, hscope, hnamed⟩ := h.innermost
  rw [findSymbol_qualified_innermost hscope, hnamed] at hrun
  dsimp only at hrun
  rcases hcolumns : relation.exportedNamed (identifierOf env column .variable)
    with _ | ⟨c, _ | ⟨c', cs⟩⟩
  · rw [hcolumns] at hrun
    exact absurd (Option.some.inj (Prod.mk.inj hrun).1).symm hfound
  · rw [hcolumns] at hrun
    obtain ⟨hresult, hstate⟩ := Prod.mk.inj hrun
    exact ⟨c, rfl, (Option.some.inj hresult).symm, hstate.symm⟩
  · rw [hcolumns] at hrun
    exact absurd (Option.some.inj (Prod.mk.inj hrun).1).symm hfound

/-- The declaration of the table leads to its relation in the innermost scope only. -/
theorem OccursOnce.findRelationInfoInSchema
    (h : OccursOnce env scopes schemaName tableName schema table d relation) :
    findRelationInfoInSchema env scopes schema tableName s =
      (some (if d = 0 then .found relation else .absent), s) := by
  obtain ⟨scope, hscope, hdeclared, -⟩ := h.occurs
  cases scopes with
  | nil => cases hscope
  | cons current parents =>
    rw [findRelationInfoInSchema_run h.table_eq]
    by_cases hd : d = 0
    · subst hd
      obtain rfl : current = scope := Option.some.inj hscope
      rw [hdeclared, if_pos rfl]
    · rw [(h.elsewhere 0 current rfl (Ne.symm hd)).1, if_neg hd]

/-- What the name of the schema leads to below a table name. -/
theorem OccursOnce.findSymbol_declaration
    (h : OccursOnce env scopes schemaName tableName schema table d relation) :
    findSymbol env scopes (.qualified (.simple schemaName) tableName)
        (SymbolKind.qualifierTargets variableTargets) true s =
      match findInSearchPath env fun s => s.findVariable (identifierOf env schemaName .variable) with
      | some _ => (some .sawError,
          s.reported .unsupportedFeature [.text "the field reference is not supported"])
      | none =>
        match schema.findVariable (identifierOf env tableName .variable) with
        | some v => (some (.variable (.external v) none), s)
        | none =>
          if d = 0 then (some (.relation relation none), s)
          else concludeNotFound (.qualified (.simple schemaName) tableName)
            [.schemaVariable, .relationInfo] true s := by
  have hfield : SymbolKind.fieldVariable ∈
      SymbolKind.inter (SymbolKind.qualifierTargets variableTargets) [.fieldVariable] := by decide
  have htargets : SymbolKind.inter (SymbolKind.qualifierTargets variableTargets)
      [.schemaVariable, .relationInfo, .relationDecl, .tableDecl, .indexDecl] =
        [.schemaVariable, .relationInfo] := by decide
  have hschema := findSymbol_schema (s := s) h.schema_eq h.noRelation h.noColumn
  rw [schemaTargets] at hschema
  rw [findSymbol, Check.bind_run, hschema]
  rcases findInSearchPath env fun s => s.findVariable (identifierOf env schemaName .variable)
    with _ | p
  · dsimp only
    rw [findSymbolQualified, htargets, Check.bind_run]
    have hschemaVariable : SymbolKind.schemaVariable ∈
        [SymbolKind.schemaVariable, .relationInfo] := by decide
    have hrelationInfo : SymbolKind.relationInfo ∈
        [SymbolKind.schemaVariable, .relationInfo] := by decide
    unfold findSymbolInSchema
    dsimp only [Name.lastName]
    rw [if_pos hschemaVariable, searchFor, if_pos hrelationInfo]
    rcases schema.findVariable (identifierOf env tableName .variable) with _ | v
    · dsimp only
      rw [Check.bind_run, h.findRelationInfoInSchema]
      dsimp only
      by_cases hd : d = 0
      · rw [if_pos hd, if_pos hd]
        rfl
      · rw [if_neg hd, if_neg hd]
        rfl
    · rfl
  · dsimp only
    rw [findSymbolQualified, if_pos hfield]
    rfl

/-- No variable takes the place of the schema or of the table, and the table is in the innermost
scope. -/
def NamesInnermost (env : Environment ρ) (schemaName tableName : SimpleName) (schema : Schema)
    (d : Nat) : Prop :=
  d = 0 ∧
    (∀ s ∈ env.options.schemaSearchPath,
      s.findVariable (identifierOf env schemaName .variable) = none) ∧
      schema.findVariable (identifierOf env tableName .variable) = none

theorem findInSearchPath_eq_none {α : Type} {find : Schema → Option α} :
    findInSearchPath env find = none ↔ ∀ s ∈ env.options.schemaSearchPath, find s = none := by
  simp only [findInSearchPath, List.findSome?_eq_none_iff, Option.map_eq_none_iff]

/-- The table with its schema leads to the column that the table alone leads to. -/
theorem OccursOnce.findSymbol_column
    (h : OccursOnce env scopes schemaName tableName schema table d relation) {c : ColumnInfo}
    (hcolumn : relation.exportedNamed (identifierOf env column .variable) = [c])
    (hinnermost : NamesInnermost env schemaName tableName schema d) :
    findSymbol env scopes (.qualified (.qualified (.simple schemaName) tableName) column)
      variableTargets true s = (some (.variable c.variable_ none), s) := by
  obtain ⟨hd, hpath, htable⟩ := hinnermost
  have htargets : SymbolKind.columnVariable ∈
      SymbolKind.inter variableTargets [SymbolKind.columnVariable] := by decide
  rw [findSymbol, Check.bind_run, h.findSymbol_declaration, findInSearchPath_eq_none.mpr hpath,
    htable, if_pos hd]
  simp only [findSymbolQualified, Name.lastName, if_pos htargets, Check.bind_run,
    findColumnInRelation, RelationInfo.searchChain_chain, Option.toList_none, List.nil_append,
    hcolumn]
  rfl

/-- Otherwise it leads to an error. -/
theorem OccursOnce.findSymbol_error
    (h : OccursOnce env scopes schemaName tableName schema table d relation)
    (hinnermost : ¬ NamesInnermost env schemaName tableName schema d) :
    (findSymbol env scopes (.qualified (.qualified (.simple schemaName) tableName) column)
      variableTargets true s).1 = some .sawError := by
  have hfield : SymbolKind.fieldVariable ∈
      SymbolKind.inter variableTargets [SymbolKind.fieldVariable] := by decide
  rw [findSymbol, Check.bind_run, h.findSymbol_declaration]
  rcases hpath : findInSearchPath env fun s =>
      s.findVariable (identifierOf env schemaName .variable) with _ | p
  · rcases htable : schema.findVariable (identifierOf env tableName .variable) with _ | v
    · have hd : d ≠ 0 := fun hd => hinnermost ⟨hd, findInSearchPath_eq_none.mp hpath, htable⟩
      dsimp only
      rw [if_neg hd]
      rfl
    · simp only [findSymbolQualified, if_pos hfield]
      rfl
  · rfl

/-- A table with its schema is named as well as the table alone: where the column of the table
alone is analyzed, that of the table with its schema is, as the same expression, exactly when the
table is in the innermost scope, no variable of the search path has the name of the schema and no
variable of the schema has the name of the table. -/
theorem analyzeVariableName_schema_iff
    (h : OccursOnce env s.scopes schemaName tableName schema table d relation) {x : Scalar}
    {t : AnalyzerState ρ}
    (hrun : analyzeVariableName env (.qualified (.simple tableName) column) s = (some x, t)) :
    (analyzeVariableName env (.qualified (.qualified (.simple schemaName) tableName) column) s).1 =
      some x ↔ NamesInnermost env schemaName tableName schema d := by
  constructor
  · intro hsame
    by_contra hinnermost
    have herror : (findSymbol env s.scopes
        (.qualified (.qualified (.simple schemaName) tableName) column) variableTargets true s).1 =
          some .sawError :=
      h.findSymbol_error hinnermost
    rw [analyzeVariableName, Check.bind_run] at hsame
    simp only [Check.gets] at hsame
    rw [Check.bind_run] at hsame
    rcases hfound : findSymbol env s.scopes
      (.qualified (.qualified (.simple schemaName) tableName) column) variableTargets true s
      with ⟨found, u⟩
    rw [hfound] at herror hsame
    dsimp only at herror
    rw [herror] at hsame
    cases hsame
  · intro hinnermost
    simp only [analyzeVariableName, Check.bind_yields, Check.gets_yields] at hrun
    obtain ⟨_, _, ⟨rfl, rfl⟩, found, u, hfound, hrun⟩ := hrun
    have hnotError : found ≠ .sawError := by
      rintro rfl
      cases hrun
    obtain ⟨c, hcolumn, rfl, rfl⟩ := h.findSymbol_table hfound hnotError
    rw [hinnermost.1] at hrun
    obtain ⟨rfl, -⟩ := (Check.pure_yields ..).mp hrun
    rw [analyzeVariableName, Check.bind_run]
    simp only [Check.gets]
    rw [Check.bind_run, h.findSymbol_column hcolumn hinnermost]
    rfl

/-! ### A table of two scopes -/

/-- A table `t` of the schema `public`, with a column `c`. -/
def publicTable : Table where
  address := 0
  simpleName := "t"
  columns := [{ address := 1, simpleName := "c", type := .int4 }]
  primaryIndex := none

def publicSchema : Schema := .ofTables [publicTable] []

/-- An environment whose catalog holds the schema. -/
def publicEnvironment : Environment Types :=
  let env := Environment.ofSchema publicSchema
  { env with options := { env.options with
      catalog := ⟨"", fun name => if name = "public" then some publicSchema else none⟩ } }

/-- The relation of the table in a scope. -/
def publicRelation : RelationInfo :=
  (RelationInfo.empty (some (.table publicTable)) "").add
    { variable_ := .stream 0, identifier := some "c" }

/-- The scope of a query over the table. -/
def publicScope : QueryScope := (QueryScope.empty { expose := true }).add publicRelation

/-- The state of the analyzer in the scope, and in a subquery below it. -/
def publicState (inSubquery : Bool) : AnalyzerState Types :=
  { (.initial [] : AnalyzerState Types) with
    scopes := if inSubquery then [.empty { correlation := true }, publicScope] else [publicScope] }

theorem public_occursOnce (inSubquery : Bool) :
    OccursOnce publicEnvironment (publicState inSubquery).scopes ⟨"public", .delimited⟩
      ⟨"t", .delimited⟩ publicSchema publicTable (if inSubquery then 1 else 0) publicRelation := by
  cases inSubquery with
  | false =>
    refine ⟨rfl, rfl, ⟨publicScope, rfl, rfl, rfl⟩, ?_, ?_, ?_⟩
    · intro e scope hscope he
      cases e with
      | zero => exact absurd rfl he
      | succ e => cases hscope
    · exact List.forall_mem_singleton.mpr (not_not.mpr rfl)
    · exact List.forall_mem_singleton.mpr (not_not.mpr rfl)
  | true =>
    refine ⟨rfl, rfl, ⟨publicScope, rfl, rfl, rfl⟩, ?_, ?_, ?_⟩
    · intro e scope hscope he
      cases e with
      | zero =>
        obtain rfl := Option.some.inj hscope
        exact ⟨rfl, rfl⟩
      | succ e =>
        cases e with
        | zero => exact absurd rfl he
        | succ e => cases hscope
    · exact List.forall_mem_cons.mpr ⟨not_not.mpr rfl, List.forall_mem_singleton.mpr (not_not.mpr rfl)⟩
    · exact List.forall_mem_cons.mpr ⟨not_not.mpr rfl, List.forall_mem_singleton.mpr (not_not.mpr rfl)⟩

/-- In a subquery `t.c` is a parameter, and `public.t.c` is not found. -/
theorem analyzeVariableName_outerTable :
    let schemaName : SimpleName := ⟨"public", .delimited⟩
    let tableName : SimpleName := ⟨"t", .delimited⟩
    let column : SimpleName := ⟨"c", .delimited⟩
    let s := publicState true
    OccursOnce publicEnvironment s.scopes schemaName tableName publicSchema publicTable 1
        publicRelation ∧
      ∃ x, (analyzeVariableName publicEnvironment (.qualified (.simple tableName) column) s).1 =
          some x ∧
        (analyzeVariableName publicEnvironment
          (.qualified (.qualified (.simple schemaName) tableName) column) s).1 ≠ some x :=
  ⟨public_occursOnce true, _, rfl, nofun⟩

/-- In the query over the table `public.t.c` is `t.c`. -/
theorem analyzeVariableName_innerTable :
    let column : Name :=
      .qualified (.qualified (.simple ⟨"public", .delimited⟩) ⟨"t", .delimited⟩) ⟨"c", .delimited⟩
    (analyzeVariableName publicEnvironment column (publicState false)).1 =
      some (.variableReference (.stream 0)) :=
  (analyzeVariableName_schema_iff (public_occursOnce false) rfl).mpr
    ⟨rfl, List.forall_mem_singleton.mpr rfl, rfl⟩

end Mizugaki.Analyzer
