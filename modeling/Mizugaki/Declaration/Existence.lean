import Mizugaki.Declaration.PrimaryKey

/-! Definitions of what exists already. Whether a table or an index exists is looked up along
the search path, but it is created in the default schema. The check tells whether the default
schema holds the name exactly when it and the search path agree on that, and an index goes to
the schema of its table exactly when this is the default schema. -/

namespace Mizugaki.Analyzer

open Mizugaki.Ast Mizugaki.Plan Mizugaki.Control

variable {ρ : Type} {env : Environment ρ}

/-! ### The check -/

/-- An erroneous result with a diagnostic of a code. -/
def AnalyzerResult.RejectedAs (code : Code) : AnalyzerResult → Prop
  | .erroneous diagnostics => ∃ d ∈ diagnostics, d.code = code
  | _ => False

/-- A definition is accepted only if the name is free, and rejected as defined only if it is taken;
a definition of what may exist is void exactly when it does. -/
def ChecksExistence (ifNotExists : Bool) (code : Code) (taken : Prop) (result : AnalyzerResult) :
    Prop :=
  if ifNotExists then result = .statement .empty ↔ taken
  else (result.Accepted → ¬ taken) ∧ (result.RejectedAs code → taken)

/-- The result of a definition that is run when nothing of its name is found. -/
def checkedResult {α : Type} (existing : Option α) (ifNotExists : Bool) (code : Code)
    (kind : String) (name : Name) (define : Analysis ρ StatementResult) (s : AnalyzerState ρ) :
    AnalyzerResult :=
  match existing with
  | some _ => resultOf (definedAlready ifNotExists code kind name s)
  | none => resultOf (define s)

/-- The check is right exactly when what is found is what is taken. -/
theorem checksExistence_iff {α : Type} (existing : Option α) (taken : Prop) (ifNotExists : Bool)
    (code : Code) (kind : String) (name : Name) {define : Analysis ρ StatementResult}
    {s t : AnalyzerState ρ} {r : StatementResult} (hdefine : define s = (some r, t))
    (hr : r ≠ .statement .empty) :
    ChecksExistence ifNotExists code taken
      (checkedResult existing ifNotExists code kind name define s) ↔ (existing.isSome ↔ taken) := by
  cases existing with
  | none =>
    have hcheck : checkedResult (none : Option α) ifNotExists code kind name define s =
        r.toResult := congrArg resultOf hdefine
    have hne : r.toResult ≠ .statement .empty := by
      cases r with
      | plan graph => exact nofun
      | statement result => exact fun h => hr (congrArg _ (AnalyzerResult.statement.inj h))
    have haccepted : r.toResult.Accepted := by cases r <;> trivial
    have hrejected : ¬ r.toResult.RejectedAs code := by cases r <;> exact id
    rw [hcheck]
    cases ifNotExists with
    | true => simp [ChecksExistence, hne]
    | false => simp [ChecksExistence, haccepted, hrejected]
  | some a =>
    cases ifNotExists with
    | true =>
      have hcheck : checkedResult (some a) true code kind name define s = .statement .empty := rfl
      simp [ChecksExistence, hcheck]
    | false =>
      have hcheck : (checkedResult (some a) false code kind name define s).RejectedAs code :=
        ⟨_, List.mem_append_right _ List.mem_cons_self, rfl⟩
      have hrejected : ¬ (checkedResult (some a) false code kind name define s).Accepted := id
      simp [ChecksExistence, hcheck, hrejected]

/-- What is created was defined, since nothing was found. -/
theorem checkedResult_creates {α : Type} {existing : Option α} {ifNotExists : Bool} {code : Code}
    {kind : String} {name : Name} {define : Analysis ρ StatementResult} {s t : AnalyzerState ρ}
    {r : StatementResult} (hdefine : define s = (some r, t)) {result : Plan.Statement}
    (h : checkedResult existing ifNotExists code kind name define s = .statement result)
    (hne : result ≠ .empty) :
    existing = none ∧ r = .statement result := by
  cases existing with
  | some a =>
    cases ifNotExists with
    | true => exact absurd (AnalyzerResult.statement.inj h).symm hne
    | false => cases h
  | none =>
    have hresult : r.toResult = .statement result := (congrArg resultOf hdefine).symm.trans h
    cases r with
    | plan graph => cases hresult
    | statement result' => exact ⟨rfl, congrArg _ (AnalyzerResult.statement.inj hresult)⟩

/-! ### Looking up -/

/-- An unqualified table name is looked up along the search path. -/
theorem analyzeTableName_simple (name : SimpleName) :
    (analyzeTableName env (.simple name) false : Analysis ρ _) =
      pure (findInSearchPath env fun s => s.findTable (identifierOf env name .relation)) := by
  have hdeclared : findDeclared env [.empty] name [.tableDecl] =
      (findInSearchPath env fun s => s.findTable (identifierOf env name .relation)).map
        fun p => .table p.1 p.2 := by
    rcases hfound : findInSearchPath env fun s => s.findTable (identifierOf env name .relation)
      with _ | p <;> simp [findDeclared, firstTarget, hfound]
  simp only [analyzeTableName, analyzeDeclName, findSymbol, findSymbolPrimary, searchFor]
  rw [if_neg (by decide), if_neg (by decide), hdeclared]
  cases findInSearchPath env fun s => s.findTable (identifierOf env name .relation) <;> rfl

/-- An unqualified index name is looked up along the search path. -/
theorem analyzeIndexName_simple (name : SimpleName) :
    (analyzeIndexName env (.simple name) false : Analysis ρ _) =
      pure (findInSearchPath env fun s => s.findIndex (identifierOf env name .relation)) := by
  have hdeclared : findDeclared env [.empty] name [.indexDecl] =
      (findInSearchPath env fun s => s.findIndex (identifierOf env name .relation)).map
        fun p => .index p.1 p.2 := by
    rcases hfound : findInSearchPath env fun s => s.findIndex (identifierOf env name .relation)
      with _ | p <;> simp [findDeclared, firstTarget, hfound]
  simp only [analyzeIndexName, analyzeDeclName, findSymbol, findSymbolPrimary, searchFor]
  rw [if_neg (by decide), if_neg (by decide), hdeclared]
  cases findInSearchPath env fun s => s.findIndex (identifierOf env name .relation) <;> rfl

theorem analyzeTableName_steady (name : Name) (mandatory : Bool) :
    Check.Steady (analyzeTableName env name mandatory : Analysis ρ _) := by
  refine (findSymbol_steady name [.tableDecl] mandatory).bind fun found => ?_
  cases found
  case sawError => exact .pure none
  case table schema table => exact .pure _
  all_goals
    dsimp only
    split_ifs
    · exact report_steady _ _ _
    · exact .pure none

/-- The schema that holds a table, and the table. -/
def declaredTable (env : Environment ρ) (resolution : ρ) (name : Name) : Option (Schema × Table) :=
  (analyzeTableName env name true (.initial resolution)).1.join

theorem declaredTable_eq {name : Name} {s t : AnalyzerState ρ} {p : Option (Schema × Table)}
    (h : analyzeTableName env name true s = (some p, t)) (resolution : ρ) :
    declaredTable env resolution name = p := by
  rw [declaredTable, analyzeTableName_steady name true (.initial resolution) s, h]
  rfl

/-! ### CREATE TABLE and CREATE INDEX -/

/-- A definition of a table that is accepted when no table of its name is found. -/
def ValidTableDefinition (env : Environment ρ) (resolution : ρ) (d : TableDefinition) : Prop :=
  d.parameters = [] ∧ ∃ r t, defineTable env d (.initial resolution) = (some r, t)

/-- A definition of an index that is accepted when no index of its name is found. -/
def ValidIndexDefinition (env : Environment ρ) (resolution : ρ) (d : IndexDefinition) : Prop :=
  ∃ u r t, checkIndexFeatures d (.initial resolution) = (some (), u) ∧
    defineIndex env d u = (some r, t)

theorem defineTable_createsTable {d : TableDefinition} {s t : AnalyzerState ρ} {r : StatementResult}
    (h : defineTable env d s = (some r, t)) :
    ∃ table index, r = .statement (.createTable env.options.defaultSchema table index) := by
  cases hname : d.name with
  | qualified qualifier last => simp [defineTable, hname] at h
  | simple name =>
    obtain ⟨_, _, _, -, -, -, rfl⟩ := (defineTable_yields hname d.elements r).mp h
    exact ⟨_, _, rfl⟩

/-- An index is created in the default schema, on the table that its definition names. -/
theorem defineIndex_createsIndex {d : IndexDefinition} {s t : AnalyzerState ρ} {r : StatementResult}
    (h : defineIndex env d s = (some r, t)) :
    ∃ schema table index u, analyzeTableName env d.tableName true s = (some (some (schema, table)), u) ∧
      index.tableAddress = table.address ∧
      r = .statement (.createIndex env.options.defaultSchema index) := by
  unfold defineIndex at h
  obtain ⟨found, u, hfound, h⟩ := (Check.bind_yields ..).mp h
  cases found with
  | none => simp at h
  | some p =>
    obtain ⟨schema, table⟩ := p
    simp only [Check.bind_yields, Check.pure_yields] at h
    obtain ⟨_, _, -, _, _, -, _, _, -, rfl, -⟩ := h
    exact ⟨schema, table, _, u, hfound, rfl, rfl⟩

/-- An unqualified name is taken in a schema by a table. -/
def TakenByTable (env : Environment ρ) (schema : Schema) (name : SimpleName) : Prop :=
  (schema.findTable (identifierOf env name .relation)).isSome

/-- An unqualified name is taken in a schema by an index. -/
def TakenByIndex (env : Environment ρ) (schema : Schema) (name : SimpleName) : Prop :=
  (schema.findIndex (identifierOf env name .relation)).isSome

/-- The law of CREATE TABLE: the check is about the schema of the created table. -/
structure TableLaw (env : Environment ρ) (d : TableDefinition) (name : SimpleName)
    (result : AnalyzerResult) : Prop where
  schema : ∀ schema table index, result = .statement (.createTable schema table index) →
    schema = env.options.defaultSchema
  existence : ChecksExistence (decide (.ifNotExists ∈ d.options)) .tableAlreadyExists
    (TakenByTable env env.options.defaultSchema name) result

/-- The law of CREATE INDEX: the check is about the schema of the created index, which is the one
that holds its table. -/
structure IndexLaw (env : Environment ρ) (resolution : ρ) (d : IndexDefinition) (name : SimpleName)
    (result : AnalyzerResult) : Prop where
  schema : ∀ schema index, result = .statement (.createIndex schema index) →
    schema = env.options.defaultSchema
  existence : ChecksExistence (decide (.ifNotExists ∈ d.options)) .indexAlreadyExists
    (TakenByIndex env env.options.defaultSchema name) result
  placement : ∀ schema index, result = .statement (.createIndex schema index) →
    (declaredTable env resolution d.tableName).map Prod.fst = some schema

/-- The search path and the default schema agree on whether a name is taken. -/
def Agrees (env : Environment ρ) (taken : Schema → Prop) : Prop :=
  (∃ schema ∈ env.options.schemaSearchPath, taken schema) ↔ taken env.options.defaultSchema

theorem findInSearchPath_isSome {α : Type} (find : Schema → Option α) :
    (findInSearchPath env find).isSome ↔
      ∃ schema ∈ env.options.schemaSearchPath, (find schema).isSome := by
  rw [findInSearchPath, List.findSome?_isSome_iff]
  simp

/-- The law of CREATE TABLE holds exactly when the search path and the default schema agree on the
name. -/
theorem tableLaw_iff {resolution : ρ} {d : TableDefinition} {name : SimpleName}
    (hname : d.name = .simple name) (hvalid : ValidTableDefinition env resolution d) :
    TableLaw env d name (SqlAnalyzer.process env resolution (.tableDefinition d)) ↔
      Agrees env fun schema => TakenByTable env schema name := by
  obtain ⟨hparameters, r, t, hdefine⟩ := hvalid
  obtain ⟨table, index, hr⟩ := defineTable_createsTable hdefine
  let existing := findInSearchPath env fun s => s.findTable (identifierOf env name .relation)
  have hprocess : SqlAnalyzer.process env resolution (.tableDefinition d) =
      checkedResult existing (decide (TableDefinitionOption.ifNotExists ∈ d.options))
        .tableAlreadyExists "table" (.simple name) (defineTable env d) (.initial resolution) := by
    rw [SqlAnalyzer.process_eq_resultOf]
    simp only [analyzeStatement, processTableDefinition, hparameters, hname,
      analyzeTableName_simple, pure_bind]
    cases hexisting : existing <;> simp only [existing] at hexisting <;>
      simp only [hexisting, checkedResult]
  have hfound : existing.isSome ↔
      ∃ schema ∈ env.options.schemaSearchPath, TakenByTable env schema name :=
    findInSearchPath_isSome _
  have hiff := checksExistence_iff existing (TakenByTable env env.options.defaultSchema name)
    (decide (TableDefinitionOption.ifNotExists ∈ d.options)) .tableAlreadyExists "table"
    (.simple name) hdefine (by rw [hr]; exact fun h => by cases h)
  rw [Agrees, ← hfound, ← hiff, hprocess]
  refine ⟨TableLaw.existence, fun hexistence => ⟨fun schema table' index' hresult => ?_, hexistence⟩⟩
  obtain ⟨-, hcreated⟩ := checkedResult_creates hdefine hresult fun h => by cases h
  rw [hr] at hcreated
  cases hcreated
  rfl

/-- The law of CREATE INDEX holds exactly when the search path and the default schema agree on the
name, and the index, if it is created, is on a table of the default schema. -/
theorem indexLaw_iff {resolution : ρ} {d : IndexDefinition} {name : SimpleName}
    (hname : d.name = some (.simple name)) (hvalid : ValidIndexDefinition env resolution d) :
    IndexLaw env resolution d name (SqlAnalyzer.process env resolution (.indexDefinition d)) ↔
      (Agrees env fun schema => TakenByIndex env schema name) ∧
        ((∀ schema ∈ env.options.schemaSearchPath, ¬ TakenByIndex env schema name) →
          (declaredTable env resolution d.tableName).map Prod.fst =
            some env.options.defaultSchema) := by
  obtain ⟨u, r, t, hfeatures, hdefine⟩ := hvalid
  obtain ⟨schema, table, index, v, htable, -, hr⟩ := defineIndex_createsIndex hdefine
  have hdeclared := declaredTable_eq htable resolution
  let existing := findInSearchPath env fun s => s.findIndex (identifierOf env name .relation)
  have hprocess : SqlAnalyzer.process env resolution (.indexDefinition d) =
      checkedResult existing (decide (IndexDefinitionOption.ifNotExists ∈ d.options))
        .indexAlreadyExists "index" (.simple name) (defineIndex env d) u := by
    rw [SqlAnalyzer.process_eq_resultOf]
    simp only [analyzeStatement, processIndexDefinition, existingIndex, hname,
      analyzeIndexName_simple, pure_bind, Check.bind_run, hfeatures]
    cases hexisting : existing <;> simp only [existing] at hexisting <;>
      simp only [hexisting, checkedResult, Option.map_none, Option.map_some]
  have hfound : existing.isSome ↔
      ∃ schema ∈ env.options.schemaSearchPath, TakenByIndex env schema name :=
    findInSearchPath_isSome _
  have hfree : existing = none ↔
      ∀ schema ∈ env.options.schemaSearchPath, ¬ TakenByIndex env schema name := by
    rw [← Option.not_isSome_iff_eq_none, hfound]
    simp only [not_exists, not_and]
  have hiff := checksExistence_iff existing (TakenByIndex env env.options.defaultSchema name)
    (decide (IndexDefinitionOption.ifNotExists ∈ d.options)) .indexAlreadyExists "index"
    (.simple name) hdefine (by rw [hr]; exact fun h => by cases h)
  rw [Agrees, ← hfound, ← hiff, ← hfree, hprocess]
  constructor
  · rintro ⟨-, hexistence, hplacement⟩
    refine ⟨hexistence, fun hnone => hplacement _ index ?_⟩
    rw [hnone]
    exact (congrArg resultOf hdefine).trans (by rw [hr]; rfl)
  · rintro ⟨hexistence, hplacement⟩
    refine ⟨fun schema' index' hresult => ?_, hexistence, fun schema' index' hresult => ?_⟩
    · obtain ⟨-, hcreated⟩ := checkedResult_creates hdefine hresult fun h => by cases h
      rw [hr] at hcreated
      cases hcreated
      rfl
    · obtain ⟨hnone, hcreated⟩ := checkedResult_creates hdefine hresult fun h => by cases h
      rw [hr] at hcreated
      cases hcreated
      exact hplacement hnone

/-- Both laws: the checks are about the schema that objects are created in exactly when the search
path agrees with it. -/
theorem SqlAnalyzer.process_existence_iff (env : Environment ρ) (resolution : ρ) :
    (∀ (d : TableDefinition) (name : SimpleName), d.name = .simple name →
      ValidTableDefinition env resolution d →
        (TableLaw env d name (process env resolution (.tableDefinition d)) ↔
          Agrees env fun schema => TakenByTable env schema name)) ∧
    (∀ (d : IndexDefinition) (name : SimpleName), d.name = some (.simple name) →
      ValidIndexDefinition env resolution d →
        (IndexLaw env resolution d name (process env resolution (.indexDefinition d)) ↔
          (Agrees env fun schema => TakenByIndex env schema name) ∧
            ((∀ schema ∈ env.options.schemaSearchPath, ¬ TakenByIndex env schema name) →
              (declaredTable env resolution d.tableName).map Prod.fst =
                some env.options.defaultSchema))) :=
  ⟨fun _ _ hname hvalid => tableLaw_iff hname hvalid,
    fun _ _ hname hvalid => indexLaw_iff hname hvalid⟩

/-- A search path and a default schema of their own. -/
def pathEnvironment (path default_ : Schema) : Environment Types :=
  { Environment.ofSchema path with options := { Options.ofSchema path with defaultSchema := default_ } }

/-- `CREATE INDEX i ON t (c)`. -/
def indexOnTable : IndexDefinition where
  name := some (.simple ⟨"i", .delimited⟩)
  tableName := .simple ⟨"t", .delimited⟩
  keys := [columnKey ⟨"c", .delimited⟩]
  values := []
  predicate := none
  options := []
  parameters := []
  description := none

/-- With one schema the checks are about it. -/
theorem SqlAnalyzer.process_existence_single :
    let schema := Schema.ofTables [] []
    let env := Environment.ofSchema schema
    let d := tableOf [.columnDefinition (bigIntColumn "c" [])]
    let env' := Environment.ofSchema (.ofTables [singleTable] [])
    TableLaw env d ⟨"t", .delimited⟩ (process env [] (.tableDefinition d)) ∧
      IndexLaw env' [] indexOnTable ⟨"i", .delimited⟩
        (process env' [] (.indexDefinition indexOnTable)) := by
  intro schema env d env'
  have hvalid : ValidTableDefinition env [] d := ⟨rfl, _, _, rfl⟩
  have hvalid' : ValidIndexDefinition env' [] indexOnTable := ⟨_, _, _, rfl, rfl⟩
  have hagrees (taken : Schema → Prop) (only : Schema) :
      Agrees (Environment.ofSchema only) taken := by
    simp [Agrees, Environment.ofSchema, Options.ofSchema]
  exact ⟨((process_existence_iff env []).1 d _ rfl hvalid).mpr (hagrees _ _),
    ((process_existence_iff env' []).2 indexOnTable _ rfl hvalid').mpr
      ⟨hagrees _ _, fun _ => rfl⟩⟩

/-- A table is defined again in the default schema, when the search path does not lead there; and an
index is put into the default schema, when its table is in another one. -/
theorem SqlAnalyzer.process_existence_other :
    let holding := Schema.ofTables [singleTable] []
    let empty_ := Schema.ofTables [] []
    let d := tableOf [.columnDefinition (bigIntColumn "c" [])]
    (∃ table index, process (pathEnvironment empty_ holding) [] (.tableDefinition d) =
        .statement (.createTable holding table index)) ∧
      ¬ TableLaw (pathEnvironment empty_ holding) d ⟨"t", .delimited⟩
        (process (pathEnvironment empty_ holding) [] (.tableDefinition d)) ∧
      ¬ IndexLaw (pathEnvironment holding empty_) [] indexOnTable ⟨"i", .delimited⟩
        (process (pathEnvironment holding empty_) [] (.indexDefinition indexOnTable)) := by
  intro holding empty_ d
  refine ⟨⟨_, _, rfl⟩, fun hlaw => ?_, fun hlaw => ?_⟩
  · have hfree := hlaw.existence.1 trivial
    exact hfree rfl
  · have hplaced := hlaw.placement empty_ _ rfl
    have hschema : holding = empty_ := Option.some.inj hplaced
    have htable := congrArg (fun schema => (schema.findTable "t").isSome) hschema
    cases htable

end Mizugaki.Analyzer
