import Mizugaki.Analyzer.Context

/-! Names. A symbol is searched for by the kinds it may have: first in the chain of
query scopes, then in the schemas of the search path and in the catalog. A variable
found in an outer scope is handed down through the parameters of the correlation
scopes in between. -/

namespace Mizugaki.Analyzer

open Mizugaki.Ast Mizugaki.Plan Mizugaki.Control Mizugaki.Data.Chain

/-- `name_kind`. -/
inductive NameKind where
  | notSpecified | variable | function | relation | schema | catalog
  deriving DecidableEq, Repr

/-- `engine::is_lowercase`. -/
def isLowercase (options : Options) (kind : NameKind) : Bool :=
  options.lowercaseRegularIdentifiers ||
    match kind with
    | .notSpecified => false
    | .variable => options.lowercaseVariableRegularIdentifiers
    | .function => options.lowercaseFunctionRegularIdentifiers
    | .relation => options.lowercaseRelationRegularIdentifiers
    | .schema => options.lowercaseSchemaRegularIdentifiers
    | .catalog => options.lowercaseCatalogRegularIdentifiers

def toLowercase (s : String) : String := String.ofList (s.toList.map Char.toLower)

/-- `engine::to_identifier`, and `normalize_identifier`. -/
def toIdentifier (options : Options) (name : SimpleName) (kind : NameKind) : String :=
  if name.identifierKind = .regular ∧ isLowercase options kind = true then
    toLowercase name.identifier
  else name.identifier

variable {ρ : Type} (env : Environment ρ)

abbrev identifierOf (name : SimpleName) (kind : NameKind) : String :=
  toIdentifier env.options name kind

/-! ### Sets of symbol kinds -/

namespace SymbolKind

def all : List SymbolKind :=
  [columnVariable, fieldVariable, schemaVariable, relationInfo, relationDecl, queryDecl, schemaDecl,
    catalogDecl, tableDecl, indexDecl]

/-- `engine::compute_qualifier_symbol_kind`: the kinds that can qualify a symbol of a kind. -/
def qualifiers : SymbolKind → List SymbolKind
  | columnVariable => [relationInfo]
  | fieldVariable => [columnVariable, fieldVariable, schemaVariable]
  | schemaVariable | relationInfo | relationDecl | tableDecl | indexDecl => [schemaDecl]
  | queryDecl | catalogDecl => []
  | schemaDecl => [catalogDecl]

/-- The kinds that can qualify a symbol of one of the kinds, in the order of the enumeration. -/
def qualifierTargets (targets : List SymbolKind) : List SymbolKind :=
  all.filter fun k => targets.any fun t => decide (k ∈ t.qualifiers)

def inter (targets kinds : List SymbolKind) : List SymbolKind :=
  targets.filter fun k => decide (k ∈ kinds)

end SymbolKind

/-- `symbol_info`. The scope of a variable or of a relation is its distance from the scope of the
search; what is found through a schema has none. -/
inductive SymbolInfo where
  | sawError
  | notFound
  | variable (found : Variable) (scope : Option Nat)
  | relation (found : RelationInfo) (scope : Option Nat)
  | relationDecl (found : Relation)
  | query (found : QueryInfo)
  | schema (found : Schema)
  | catalog (found : Catalog)
  | table (schema : Schema) (found : Table)
  | index (schema : Schema) (found : Index)

/-- `find_symbol_result`. -/
inductive FindSymbolResult (α : Type) where
  | error
  | absent
  | found (value : α)

/-! ### Searching the query scopes -/

namespace QueryScope

/-- The search of a scope for an exported column: through the chains of all its relations. -/
def searchRelations (identifier : String) :
    Option Variable → List RelationInfo → Option (Option Variable)
  | found, [] => some found
  | found, r :: rs =>
    match r.searchChain found (r.chain identifier) with
    | none => none
    | some found => searchRelations identifier found rs

end QueryScope

def reportColumnAmbiguous (name : Name) : Analysis ρ Unit :=
  report .columnAmbiguous [.text "column '", .name name, .text "' is ambiguous"]

def reportRelationAmbiguous (name : Name) : Analysis ρ Unit :=
  report .relationAmbiguous [.text "relation '", .name name, .text "' is ambiguous"]

/-- `engine::find_variable_in_query`. -/
def findVariableInQuery (name : SimpleName) :
    List QueryScope → Nat → Analysis ρ (FindSymbolResult (Variable × Nat))
  | [], _ => return .absent
  | scope :: parents, depth =>
    match QueryScope.searchRelations (identifierOf env name .variable) none scope.relations with
    | none => do
      reportColumnAmbiguous (.simple name)
      return .error
    | some (some v) => return .found (v, depth)
    | some none => findVariableInQuery name parents (depth + 1)

/-- `engine::find_column_in_relation`. -/
def findColumnInRelation (parent : RelationInfo) (name : SimpleName) :
    Analysis ρ (FindSymbolResult Variable) :=
  match parent.searchChain none (parent.chain (identifierOf env name .variable)) with
  | none => do
    reportColumnAmbiguous (.simple name)
    return .error
  | some (some v) => return .found v
  | some none => return .absent

/-- `engine::find_relation_info_in_query`. -/
def findRelationInfoInQuery (name : SimpleName) :
    List QueryScope → Nat → Analysis ρ (FindSymbolResult (RelationInfo × Nat))
  | [], _ => return .absent
  | scope :: parents, depth =>
    match scope.find (identifierOf env name .relation) with
    | some .ambiguous => do
      reportRelationAmbiguous (.simple name)
      return .error
    | some (.at_ i) =>
      match scope.relations[i]? with
      | some r => return .found (r, depth)
      | none => return .absent
    | none => findRelationInfoInQuery name parents (depth + 1)

/-- `engine::find_query_in_query`. -/
def findQueryInQuery (name : SimpleName) : List QueryScope → Option QueryInfo
  | [] => none
  | scope :: parents =>
    match scope.findQuery (identifierOf env name .relation) with
    | some q => some q
    | none => findQueryInQuery name parents

/-- `engine::find_relation_info_in_schema`. -/
def findRelationInfoInSchema (scopes : List QueryScope) (schema : Schema) (name : SimpleName) :
    Analysis ρ (FindSymbolResult RelationInfo) :=
  match schema.findRelation (identifierOf env name .relation), scopes with
  | some decl, scope :: _ =>
    match scope.findDeclaration decl with
    | some (.at_ i) =>
      match scope.relations[i]? with
      | some r => return .found r
      | none => return .absent
    | some .ambiguous => do
      reportRelationAmbiguous (.simple name)
      return .error
    | none => return .absent
  | _, _ => return .absent

/-- `engine::find_catalog_in_system`. -/
def findCatalogInSystem (name : SimpleName) : Option Catalog :=
  let c := env.options.catalog
  if c.name ≠ "" ∧ identifierOf env name .catalog = c.name then some c else none

/-! ### Searching symbols -/

/-- `engine::report_symbol_not_found`. -/
def reportSymbolNotFound (name : Name) (targets : List SymbolKind) : Analysis ρ Unit :=
  let notFound (code : Code) (kind : String) : Analysis ρ Unit :=
    report code [.text kind, .text " \"", .name name, .text "\" is not found"]
  let searching (code : Code) (kind : String) : Analysis ρ Unit :=
    report code [.text kind, .text " \"", .name name, .text "\" is not found",
      .text ", searching for ", .symbols targets]
  match targets with
  | [.columnVariable] => notFound .columnNotFound "column"
  | [.fieldVariable] | [.schemaVariable] => notFound .variableNotFound "variable"
  | [.schemaDecl] => notFound .schemaNotFound "schema"
  | [.catalogDecl] => notFound .catalogNotFound "catalog"
  | [.relationInfo] | [.relationDecl] | [.tableDecl] | [.queryDecl] =>
    notFound .tableNotFound "table"
  | [.indexDecl] => notFound .indexNotFound "index"
  | _ =>
    if targets.all (· ∈ [.columnVariable, .fieldVariable, .schemaVariable]) then
      searching .variableNotFound "variable"
    else if targets.all (· ∈ [.relationDecl, .queryDecl]) then
      searching .tableNotFound "table"
    else searching .symbolNotFound "symbol"

/-- The last step of a search, for a name that designates nothing. -/
def concludeNotFound (name : Name) (targets : List SymbolKind) (reportNotFound : Bool) :
    Analysis ρ SymbolInfo :=
  if reportNotFound then do
    reportSymbolNotFound name targets
    return .sawError
  else return .notFound

/-- The first schema of the search path in which something is found. -/
def findInSearchPath {α : Type} (find : Schema → Option α) : Option (Schema × α) :=
  env.options.schemaSearchPath.findSome? fun s => (find s).map (s, ·)

/-- The first search of a target kind that found something. -/
def firstTarget (targets : List SymbolKind) (searches : List (SymbolKind × Option SymbolInfo)) :
    Option SymbolInfo :=
  searches.findSome? fun (kind, result) => if kind ∈ targets then result else none

/-- The part of `engine::find_symbol_primary` that follows the columns of the query: what is
declared in the search path, in the query and in the catalog, in this order. -/
def findDeclared (scopes : List QueryScope) (name : SimpleName) (targets : List SymbolKind) :
    Option SymbolInfo :=
  let variable_ := fun (s : Schema) => s.findVariable (identifierOf env name .variable)
  let relation := fun (s : Schema) => s.findRelation (identifierOf env name .relation)
  let table := fun (s : Schema) => s.findTable (identifierOf env name .relation)
  let index := fun (s : Schema) => s.findIndex (identifierOf env name .relation)
  firstTarget targets
    [(.schemaVariable, (findInSearchPath env variable_).map fun p => .variable (.external p.2) none),
      (.queryDecl, (findQueryInQuery env name scopes).map .query),
      (.relationDecl, (findInSearchPath env relation).map fun p => .relationDecl p.2),
      (.tableDecl, (findInSearchPath env table).map fun p => .table p.1 p.2),
      (.indexDecl, (findInSearchPath env index).map fun p => .index p.1 p.2),
      (.schemaDecl, (env.options.catalog.findSchema (identifierOf env name .schema)).map .schema),
      (.catalogDecl, (findCatalogInSystem env name).map .catalog)]

/-- Search only when the kind is one of the targets. -/
def searchFor {α : Type} (kind : SymbolKind) (targets : List SymbolKind)
    (search : Analysis ρ (FindSymbolResult α)) : Analysis ρ (FindSymbolResult α) :=
  if kind ∈ targets then search else return .absent

/-- `engine::find_symbol_primary`. -/
def findSymbolPrimary (scopes : List QueryScope) (name : SimpleName) (targets : List SymbolKind)
    (reportNotFound : Bool) : Analysis ρ SymbolInfo := do
  match ← searchFor .relationInfo targets (findRelationInfoInQuery env name scopes 0) with
  | .found (r, depth) => return .relation r (some depth)
  | .error => return .sawError
  | .absent =>
    match ← searchFor .columnVariable targets (findVariableInQuery env name scopes 0) with
    | .found (v, depth) => return .variable v (some depth)
    | .error => return .sawError
    | .absent =>
      match findDeclared env scopes name targets with
      | some found => return found
      | none => concludeNotFound (.simple name) targets reportNotFound

/-- The schema part of `engine::find_symbol_qualified`. -/
def findSymbolInSchema (scopes : List QueryScope) (schema : Schema) (name : SimpleName)
    (targets : List SymbolKind) : Analysis ρ SymbolInfo :=
  let variable_ :=
    if .schemaVariable ∈ targets then schema.findVariable (identifierOf env name .variable) else none
  match variable_ with
  | some v => return .variable (.external v) none
  | none => do
    match ← searchFor .relationInfo targets (findRelationInfoInSchema env scopes schema name) with
    | .found r => return .relation r none
    | .error => return .sawError
    | .absent =>
      let id := identifierOf env name .relation
      let found := firstTarget targets
        [(.relationDecl, (schema.findRelation id).map .relationDecl),
          (.tableDecl, (schema.findTable id).map (.table schema)),
          (.indexDecl, (schema.findIndex id).map (.index schema))]
      return found.getD .notFound

/-- `engine::find_symbol_qualified`, for a qualifier that was found. -/
def findSymbolQualified (scopes : List QueryScope) (qualifier : SymbolInfo) (name : Name)
    (targets : List SymbolKind) (reportNotFound : Bool) : Analysis ρ SymbolInfo :=
  let last := name.lastName
  match qualifier with
  | .variable _ _ =>
    let targets := SymbolKind.inter targets [.fieldVariable]
    if .fieldVariable ∈ targets then do
      report .unsupportedFeature [.text "the field reference is not supported"]
      return .sawError
    else concludeNotFound name targets reportNotFound
  | .relation r scope =>
    let targets := SymbolKind.inter targets [.columnVariable]
    if .columnVariable ∈ targets then do
      match ← findColumnInRelation env r last with
      | .found v => return .variable v scope
      | .error => return .sawError
      | .absent => concludeNotFound name targets reportNotFound
    else concludeNotFound name targets reportNotFound
  | .schema s => do
    let targets := SymbolKind.inter targets
      [.schemaVariable, .relationInfo, .relationDecl, .tableDecl, .indexDecl]
    match ← findSymbolInSchema env scopes s last targets with
    | .notFound => concludeNotFound name targets reportNotFound
    | found => return found
  | .catalog c =>
    let targets := SymbolKind.inter targets [.schemaDecl]
    if .schemaDecl ∈ targets then
      match c.findSchema (identifierOf env last .schema) with
      | some s => return .schema s
      | none => concludeNotFound name targets reportNotFound
    else concludeNotFound name targets reportNotFound
  | _ => concludeNotFound name targets reportNotFound

/-- `engine::find_symbol`. -/
def findSymbol (scopes : List QueryScope) :
    Name → List SymbolKind → Bool → Analysis ρ SymbolInfo
  | .simple name, targets, reportNotFound =>
    findSymbolPrimary env scopes name targets reportNotFound
  | .qualified q last, targets, reportNotFound => do
    match ← findSymbol scopes q (SymbolKind.qualifierTargets targets) reportNotFound with
    | .sawError => return .sawError
    | .notFound => return .notFound
    | qualifier => findSymbolQualified env scopes qualifier (.qualified q last) targets reportNotFound

/-! ### Variables -/

/-- The kinds a variable reference may have. -/
def variableTargets : List SymbolKind := [.columnVariable, .fieldVariable, .schemaVariable]

/-- The positions of the correlation scopes of a chain, innermost first; none when the chain holds
an independent scope. -/
def correlationScopes : List QueryScope → Nat → List Nat → List Nat
  | [], _, scopes => scopes
  | current :: parents, i, scopes =>
    if current.features.independent then []
    else if current.features.correlation then correlationScopes parents (i + 1) (scopes ++ [i])
    else correlationScopes parents (i + 1) scopes

/-- `query_scope::add_parameter`, for the scope at a position of the chain. -/
def addParameter (position : Nat) (free : Variable) : Analysis ρ Variable := do
  let scopes ← Check.gets AnalyzerState.scopes
  match scopes[position]?.bind (·.findParameter free) with
  | some parameter => return parameter
  | none => do
    let parameter ← frameVariable
    Check.modify fun s =>
      { s with scopes := s.scopes.modify position (·.pushParameter free parameter) }
    return parameter

/-- Hand a variable down: a parameter of each scope, outermost first, stands for the one before. -/
def addParameters (found : Variable) : Variable → List Nat → Analysis ρ Variable
  | current, [] => return current
  | current, position :: positions => do
    let parameter ← addParameter position current
    resolveAsAlias env parameter found
    addParameters found parameter positions

def rejectVariable {α : Type} (name : Name) : Analysis ρ α :=
  reject .variableNotFound [.text "'", .name name, .text "' is not found"]

/-- `analyze_variable_name`. -/
def analyzeVariableName (name : Name) : Analysis ρ Scalar := do
  let scopes ← Check.gets AnalyzerState.scopes
  match ← findSymbol env scopes name variableTargets true with
  | .sawError => fail
  | .variable v none => return .variableReference v
  | .variable v (some 0) => return .variableReference v
  | .variable v (some (depth + 1)) =>
    -- a variable of an ancestor scope must be exposed, and no independent scope may lie between
    if scopes[depth + 1]?.any (·.features.expose) then
      match (correlationScopes (scopes.take (depth + 1)) 0 []).reverse with
      | [] => rejectVariable name
      | positions => do
        let parameter ← addParameters env v v positions
        return .variableReference parameter
    else rejectVariable name
  | _ => rejectVariable name

/-! ### Relations -/

/-- `analyze_relation_info_name`. -/
def analyzeRelationInfoName (name : Name) : Analysis ρ RelationInfo := do
  let scopes ← Check.gets AnalyzerState.scopes
  match ← findSymbol env scopes name [.relationInfo] true with
  | .sawError => fail
  | .relation r none => return r
  | .relation r (some 0) => return r
  | _ => reject .tableNotFound [.text "'", .name name, .text "' is not found"]

/-- `declared_relation`. -/
inductive DeclaredRelation where
  | table (declaration : Table)
  | query (info : QueryInfo)

/-- `analyze_relation_name`. -/
def analyzeRelationName (name : Name) : Analysis ρ DeclaredRelation := do
  let scopes ← Check.gets AnalyzerState.scopes
  match ← findSymbol env scopes name [.relationDecl, .queryDecl] true with
  | .sawError => fail
  | .relationDecl (.table t) => return .table t
  | .relationDecl (.view ..) =>
    reject .tableNotFound [.text "'", .name name, .text "' is not a valid table"]
  | .query q => return .query q
  | _ => reject .tableNotFound [.text "'", .name name, .text "' is not found"]

/-! ### Declarations -/

/-- The declarations of a function name: of its schema, or of the first schema of the search path
that has any. -/
def collectDecl {α : Type} (candidates : Schema → String → List α) (name : Name) :
    Analysis ρ (List α) :=
  let id := identifierOf env name.lastName .function
  match name with
  | .qualified q _ => do
    match ← findSymbol env [.empty] q [.schemaDecl] false with
    | .schema s => return candidates s id
    | _ => return []
  | .simple _ =>
    return (env.options.schemaSearchPath.map (candidates · id)).find? (! ·.isEmpty) |>.getD []

/-- `analyze_function_name`. -/
def analyzeFunctionName (name : Name) (argumentCount : Nat) : Analysis ρ (List FunctionDecl) :=
  collectDecl env (fun s id => s.functions id argumentCount) name

/-- `analyze_aggregation_name`. -/
def analyzeAggregationName (name : Name) (argumentCount : Nat) : Analysis ρ (List AggregateDecl) :=
  collectDecl env (fun s id => s.setFunctions id argumentCount) name

/-- What `analyze_table_name`, `analyze_index_name` and `analyze_schema_name` return: nothing also
after an error was reported. -/
def analyzeDeclName {α : Type} (target : SymbolKind) (code : Code) (select : SymbolInfo → Option α)
    (name : Name) (mandatory : Bool) : Analysis ρ (Option α) := do
  match ← findSymbol env [.empty] name [target] mandatory with
  | .sawError => return none
  | found =>
    match select found with
    | some a => return some a
    | none =>
      if mandatory then do
        report code [.text "'", .name name, .text "' is not found"]
        return none
      else return none

/-- `analyze_table_name`. -/
def analyzeTableName : Name → Bool → Analysis ρ (Option (Schema × Table)) :=
  analyzeDeclName env .tableDecl .tableNotFound fun
    | .table s t => some (s, t)
    | _ => none

/-- `analyze_index_name`. -/
def analyzeIndexName : Name → Bool → Analysis ρ (Option (Schema × Index)) :=
  analyzeDeclName env .indexDecl .indexNotFound fun
    | .index s i => some (s, i)
    | _ => none

end Mizugaki.Analyzer
