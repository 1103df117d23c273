import Mizugaki.Analyzer.Engine
import Mizugaki.Analyzer.NameResolution
import Mizugaki.Analyzer.Quiet
import Mizugaki.Analyzer.Statement
import Mizugaki.Analyzer.Write

/-! Correlation names. Every form that names a relation of a FROM clause enters the relation
as the last one of the current scope; which name it is entered under decides whether a
qualified reference finds it. The column names of a correlation are given to the first
columns of the relation, whether they are exported or not. -/

namespace Mizugaki.Analyzer

open Mizugaki.Ast Mizugaki.Plan Mizugaki.Control Mizugaki.Data.Chain

variable {ρ : Type} (env : Environment ρ)

/-! ### Identifiers -/

theorem toLowercase_eq_empty {s : String} (h : toLowercase s = "") : s = "" := by
  have hlist := congrArg String.toList h
  simpa [toLowercase] using hlist

/-- Normalisation keeps names that are not empty so. -/
theorem identifierOf_ne_empty {n : SimpleName} (h : n.identifier ≠ "") (kind : NameKind) :
    identifierOf env n kind ≠ "" := by
  unfold identifierOf toIdentifier
  split
  · exact fun he => h (toLowercase_eq_empty he)
  · exact h

@[simp] theorem RelationInfo.addAll_identifier (r : RelationInfo) (infos : List ColumnInfo) :
    (r.addAll infos).identifier = r.identifier := by
  induction infos generalizing r with
  | nil => rfl
  | cons info infos ih => exact ih (r.add info)

theorem RelationInfo.scopeName_of_identifier {r : RelationInfo} (h : r.identifier ≠ "") :
    r.scopeName = some r.identifier := if_pos h

/-! ### The forms that introduce a correlation name -/

/-- A reference to a base table or to a common table under an alias, a reference to a common
table under its own name, a derived table, the alias of an `UPDATE` or `DELETE`, an `APPLY`. -/
inductive CorrelationForm where
  | aliasedReference | commonTable | derivedTable | writeAlias | apply
  deriving DecidableEq, Repr

/-- A form was accepted that introduces a correlation name, and leads to a chain of scopes. -/
inductive Introduces : CorrelationForm → SimpleName → List QueryScope → Prop
  | aliasedReference {isOnly : Bool} {name : Name} {correlation : CorrelationClause}
      {s t : AnalyzerState ρ} {g : Graph} :
      tableExpression env (.tableReference isOnly name (some correlation)) s = (some g, t) →
      Introduces .aliasedReference correlation.correlationName t.scopes
  | commonTable {isOnly : Bool} {name : Name} {q : QueryInfo} {s t u : AnalyzerState ρ}
      {g : Graph} :
      analyzeRelationName env name s = (some (.query q), u) →
      tableExpression env (.tableReference isOnly name none) s = (some g, t) →
      Introduces .commonTable name.lastName t.scopes
  | derivedTable {isLateral : Bool} {q : QueryExpression} {correlation : CorrelationClause}
      {s t : AnalyzerState ρ} {g : Graph} :
      tableExpression env (.subquery isLateral q correlation) s = (some g, t) →
      Introduces .derivedTable correlation.correlationName t.scopes
  | writeAlias {tableName : Name} {alias_ : SimpleName} {s t : AnalyzerState ρ}
      {target : WriteTarget} :
      extractTable env tableName (some alias_) s = (some target, t) →
      Introduces .writeAlias alias_ (QueryScope.empty.add target.info :: t.scopes)
  | apply {operand : TableExpression} {type : Option ApplyType} {name : Name}
      {arguments : List ScalarExpression} {correlation : CorrelationClause}
      {s t : AnalyzerState ρ} {g : Graph} :
      tableExpression env (.apply operand type name arguments correlation) s = (some g, t) →
      Introduces .apply correlation.correlationName t.scopes

/-- The identifier that the relation of a form gets. -/
def storedName (form : CorrelationForm) (name : SimpleName) : String :=
  match form with
  | .apply => name.identifier
  | _ => identifierOf env name .relation

theorem addRelation_scopes {info : RelationInfo} {s t : AnalyzerState ρ} {scope : QueryScope}
    {parents : List QueryScope} (h : addRelation info s = (some (), t))
    (ht : t.scopes = scope :: parents) :
    ∃ before, s.scopes = before :: parents ∧ scope = before.add info := by
  simp only [addRelation, modifyScope, Check.modify_yields] at h
  subst h
  cases hs : s.scopes with
  | nil => simp [hs] at ht
  | cons before rest =>
    simp only [hs, List.modify_zero_cons, List.cons.injEq] at ht
    obtain ⟨rfl, rfl⟩ := ht
    exact ⟨before, rfl, rfl⟩

/-- What a correlation makes of a relation: its identifier, and the columns when it has names
for them. -/
theorem rebuildRelationInfo_yields {info r : RelationInfo} {correlation : CorrelationClause}
    {s t : AnalyzerState ρ} (h : rebuildRelationInfo env info correlation s = (some r, t)) :
    correlation.columnNames.length ≤ info.columns.length ∧
    r.identifier = identifierOf env correlation.correlationName .relation ∧
    (correlation.columnNames ≠ [] → ∃ columns u,
      renameColumns env correlation.columnNames [] info.columns s = (some columns, u) ∧
      r.columns = (Data.Chain.rebuild ColumnInfo.threading
        (RelationInfo.erase columns correlation.columnNames.length columns.length)).cells) := by
  unfold rebuildRelationInfo at h
  split at h
  · cases h
  · rename_i hlength
    refine ⟨by omega, ?_⟩
    cases hnames : correlation.columnNames with
    | nil =>
      simp only [hnames, Check.pure_yields] at h
      obtain ⟨rfl, rfl⟩ := h
      exact ⟨rfl, fun h => absurd rfl h⟩
    | cons name names =>
      simp only [hnames, Check.bind_yields, Check.pure_yields] at h
      obtain ⟨columns, u, hrename, rfl, rfl⟩ := h
      exact ⟨rfl, fun _ => ⟨columns, u, hrename, rfl⟩⟩

/-- A correlated reference adds the correlated relation. -/
theorem tableReference_yields {isOnly : Bool} {name : Name} {correlation : CorrelationClause}
    {s t : AnalyzerState ρ} {g : Graph}
    (h : tableExpression env (.tableReference isOnly name (some correlation)) s = (some g, t)) :
    ∃ result u info v, processRelationReference env name s = (some result, u) ∧
      rebuildRelationInfo env result.relation correlation u = (some info, v) ∧
      addRelation info v = (some (), t) := by
  simp only [tableExpression, processTableExpressionReference, correlate, Check.bind_yields,
    Check.pure_yields] at h
  obtain ⟨result, u, hresult, info, v, hinfo, _, w, hadd, rfl, rfl⟩ := h
  exact ⟨result, u, info, v, hresult, hinfo, hadd⟩

/-- A derived table adds the correlated relation of its query. -/
theorem tableSubquery_yields {isLateral : Bool} {q : QueryExpression}
    {correlation : CorrelationClause} {s t : AnalyzerState ρ} {g : Graph}
    (h : tableExpression env (.subquery isLateral q correlation) s = (some g, t)) :
    ∃ result left u info v,
      withScope .empty (query env q [] false) s = (some (result, left), u) ∧
      rebuildRelationInfo env result.relation correlation u = (some info, v) ∧
      addRelation info v = (some (), t) := by
  simp only [tableExpression, processTableSubquery] at h
  split at h
  · cases h
  · simp only [Check.bind_yields, Check.pure_yields] at h
    obtain ⟨⟨result, left⟩, u, hresult, info, v, hinfo, _, w, hadd, rfl, rfl⟩ := h
    exact ⟨result, left, u, info, v, hresult, hinfo, hadd⟩

/-- The relation of an apply: the raw correlation name, a column for each name. -/
def applyRelation (name : SimpleName) (variables_ : List Variable) (names : List String) :
    RelationInfo :=
  (RelationInfo.empty none name.identifier).addAll
    ((variables_.zip names).map fun (v, n) => { variable_ := v, identifier := some n })

theorem apply_yields {operand : TableExpression} {type : Option ApplyType} {name : Name}
    {arguments : List ScalarExpression} {correlation : CorrelationClause}
    {s t : AnalyzerState ρ} {g : Graph}
    (h : tableExpression env (.apply operand type name arguments correlation) s = (some g, t)) :
    ∃ (target : FunctionDecl) (returned : List String) (first : Nat) (names : List String)
      (input : Graph) (args : List Scalar) (u v w x : AnalyzerState ρ),
      applyColumnNames env target returned correlation u = (some names, v) ∧
      addRelation (applyRelation correlation.correlationName
        (freshStreams first returned.length) names) w = (some (), x) ∧ x.scopes = t.scopes ∧
      g = .unary (.apply (convertApplyType type) target args
        ((List.range returned.length).zip (freshStreams first returned.length))) input := by
  simp only [tableExpression, processApply, Check.bind_yields] at h
  obtain ⟨input, a, -, args, b, -, functions, c, -, h⟩ := h
  cases happlicable : applicableTableFunctions env (args.map Prod.snd) functions with
  | nil =>
    rw [happlicable] at h
    cases h
  | cons f fs =>
    simp only [happlicable, Check.bind_yields, Check.pure_yields, streamVariables_yields] at h
    obtain ⟨target, d, -, returned, e, -, variables_, f, ⟨rfl, rfl⟩, names, u, hnames, _, v, hadd,
      _, w, hresolve, rfl, rfl⟩ := h
    refine ⟨target, returned, e.fresh, names, input, args.map Prod.fst, _, u, u, v, hnames, hadd,
      ?_, rfl⟩
    exact (Quiet.scopes (resolveOperator_quiet env _ rfl hresolve)).symm

/-- A form enters its relation last, under the name it stores. -/
theorem introduces_last {form : CorrelationForm} {name : SimpleName} {scope : QueryScope}
    {parents : List QueryScope} (h : Introduces env form name (scope :: parents)) :
    ∃ (before : QueryScope) (info : RelationInfo), scope = before.add info ∧
      info.identifier = storedName env form name := by
  generalize hscopes : scope :: parents = scopes at h
  cases h with
  | aliasedReference h =>
    obtain ⟨result, u, info, v, -, hinfo, hadd⟩ := tableReference_yields env h
    obtain ⟨before, -, rfl⟩ := addRelation_scopes hadd hscopes.symm
    exact ⟨before, info, rfl, (rebuildRelationInfo_yields env hinfo).2.1⟩
  | @commonTable isOnly n q s t u g hname h =>
    simp only [tableExpression, processTableExpressionReference, correlate, Check.bind_yields,
      Check.pure_yields, processRelationReference] at h
    obtain ⟨result, v, ⟨decl, w, hdecl, hresult⟩, info, x, ⟨rfl, rfl⟩, _, y, hadd, rfl, rfl⟩ := h
    rw [hname] at hdecl
    obtain ⟨hq, rfl⟩ := Prod.mk.inj hdecl
    obtain rfl := Option.some.inj hq
    simp only [processQueryReference, Check.bind_yields, Check.pure_yields] at hresult
    obtain ⟨destinations, _, -, _, _, -, rfl, rfl⟩ := hresult
    obtain ⟨before, -, rfl⟩ := addRelation_scopes hadd hscopes.symm
    exact ⟨before, _, rfl, RelationInfo.addAll_identifier ..⟩
  | derivedTable h =>
    obtain ⟨result, left, u, info, v, -, hinfo, hadd⟩ := tableSubquery_yields env h
    obtain ⟨before, -, rfl⟩ := addRelation_scopes hadd hscopes.symm
    exact ⟨before, info, rfl, (rebuildRelationInfo_yields env hinfo).2.1⟩
  | @writeAlias tableName alias_ s t target h =>
    obtain ⟨rfl, -⟩ := List.cons.inj hscopes
    simp only [extractTable, Check.bind_yields] at h
    obtain ⟨table, u, -, h⟩ := h
    cases table with
    | none => cases h
    | some table =>
      simp only [Check.bind_yields] at h
      obtain ⟨info, v, -, h⟩ := h
      cases hindex : info.primaryIndex with
      | none =>
        rw [hindex] at h
        cases h
      | some index =>
        rw [hindex] at h
        obtain ⟨rfl, rfl⟩ := (Check.pure_yields ..).mp h
        exact ⟨.empty, _, rfl, rfl⟩
  | apply h =>
    obtain ⟨target, returned, first, names, input, args, u, v, w, x, -, hadd, hx, -⟩ :=
      apply_yields env h
    obtain ⟨before, -, rfl⟩ := addRelation_scopes hadd (hx.trans hscopes.symm)
    exact ⟨before, _, rfl, RelationInfo.addAll_identifier ..⟩

/-! ### Qualified references -/

/-- The search for the qualifier of a qualified variable name. -/
abbrev qualifier (env : Environment ρ) (scopes : List QueryScope) (name : SimpleName)
    (s : AnalyzerState ρ) : Option SymbolInfo × AnalyzerState ρ :=
  findSymbol env scopes (.simple name) (SymbolKind.qualifierTargets variableTargets) true s

/-- The innermost scope that holds the qualifier decides what it is. -/
theorem qualifier_innermost {scopes : List QueryScope} {d : Nat} {scope : QueryScope}
    {name : SimpleName} {r : RelationInfo}
    (h : Innermost (Holds (identifierOf env name .relation)) scopes d scope)
    (hnamed : scope.named (identifierOf env name .relation) = [r]) (s : AnalyzerState ρ) :
    qualifier env scopes name s = (some (.relation r (some d)), s) := by
  have htargets : SymbolKind.relationInfo ∈ SymbolKind.qualifierTargets variableTargets := by
    decide
  have hfound := findRelationInfoInQuery_innermost (k := 0) (s := s) h
  simp only [qualifier, findSymbol, findSymbolPrimary, searchFor, if_pos htargets, Check.bind_run,
    hfound, hnamed, Check.pure_run, Nat.zero_add]

/-- A scope below scopes that do not hold a name is the innermost one that does. -/
theorem innermost_below {P : QueryScope → Prop} {inner parents : List QueryScope}
    {scope : QueryScope} (hinner : ∀ sc ∈ inner, ¬ P sc) (hscope : P scope) :
    Innermost P (inner ++ scope :: parents) inner.length scope := by
  refine ⟨by simp, hscope, fun e he sc hsc => ?_⟩
  rw [List.getElem?_append_left he] at hsc
  exact hinner sc (List.mem_of_getElem? hsc)

/-- Without a relation of its name the qualifier is no relation. -/
theorem qualifier_none {scopes : List QueryScope} {name : SimpleName} {s t : AnalyzerState ρ}
    {r : RelationInfo} {d : Option Nat}
    (hnone : ∀ scope ∈ scopes, ¬ Holds (identifierOf env name .relation) scope) :
    qualifier env scopes name s ≠ (some (.relation r d), t) := by
  intro h
  have htargets : SymbolKind.relationInfo ∈ SymbolKind.qualifierTargets variableTargets := by
    decide
  simp only [qualifier, findSymbol, findSymbolPrimary, searchFor, if_pos htargets, Check.bind_run,
    findRelationInfoInQuery_none hnone] at h
  split at h
  · simp at h
  · rename_i column u hcolumn
    cases column with
    | error => simp at h
    | found p => simp at h
    | absent =>
      cases hdeclared :
        findDeclared env scopes name (SymbolKind.qualifierTargets variableTargets) with
      | none =>
        simp only [hdeclared] at h
        obtain h | h := concludeNotFound_yields h <;> cases h
      | some found =>
        simp only [hdeclared, Check.pure_yields] at h
        obtain ⟨rfl, -⟩ := h
        exact findDeclared_ne_relation hdeclared

/-- A qualifier is a relation of the innermost scope only when that scope holds the name. -/
theorem holds_of_qualifier {scope : QueryScope} {parents : List QueryScope} {name : SimpleName}
    {r : RelationInfo} {s : AnalyzerState ρ}
    (h : (qualifier env (scope :: parents) name s).1 = some (.relation r (some 0))) :
    Holds (identifierOf env name .relation) scope := by
  have hrun : qualifier env (scope :: parents) name s = (some (.relation r (some 0)), _) :=
    Prod.ext h rfl
  obtain hnone | ⟨d, found, hfound⟩ :=
    innermost_or_none (Holds (identifierOf env name .relation)) (scope :: parents)
  · exact absurd hrun (qualifier_none env hnone)
  · cases d with
    | zero =>
      obtain rfl : scope = found := Option.some.inj hfound.1
      exact hfound.2.1
    | succ d =>
      have htargets : SymbolKind.relationInfo ∈ SymbolKind.qualifierTargets variableTargets := by
        decide
      have hsearch := findRelationInfoInQuery_innermost (k := 0) (s := s) hfound
      simp only [qualifier, findSymbol, findSymbolPrimary, searchFor, if_pos htargets,
        Check.bind_run, hsearch] at hrun
      cases hnamed : found.named (identifierOf env name .relation) with
      | nil => exact absurd hnamed hfound.2.1
      | cons rel rels =>
        cases rels with
        | nil => simp [hnamed] at hrun
        | cons rel' rels => simp [hnamed] at hrun

/-- The qualifier designates the relation at the depth, and a column name with it the only
exported column of the name. -/
def Finds (scopes : List QueryScope) (d : Nat) (r : RelationInfo) (name : SimpleName)
    (s : AnalyzerState ρ) : Prop :=
  (qualifier env scopes name s).1 = some (.relation r (some d)) ∧
  ∀ (c : SimpleName) (col : ColumnInfo), r.exportedNamed (identifierOf env c .variable) = [col] →
    (designate env scopes (.qualified (.simple name) c) s).1 =
      some (.variable col.variable_ (some d))

theorem finds_of_innermost {scopes : List QueryScope} {d : Nat} {scope : QueryScope}
    {name : SimpleName} {r : RelationInfo}
    (h : Innermost (Holds (identifierOf env name .relation)) scopes d scope)
    (hnamed : scope.named (identifierOf env name .relation) = [r]) (s : AnalyzerState ρ) :
    Finds env scopes d r name s := by
  refine ⟨by rw [qualifier_innermost env h hnamed], fun c col hcol => ?_⟩
  exact (designate_qualified_iff name c _ d).mpr ⟨scope, r, h, hnamed, by rw [hcol]; rfl⟩

/-- The relation that was added last is the only one of a name that no other has. -/
theorem named_add {before : QueryScope} {info : RelationInfo} {id : String}
    (hother : ∀ r ∈ before.relations, r.scopeName ≠ some id) :
    (before.add info).named id = if info.scopeName = some id then [info] else [] := by
  have hbefore : before.relations.filter (fun r => r.scopeName = some id) = [] :=
    List.filter_eq_nil_iff.mpr fun r hr => by simpa using hother r hr
  rw [QueryScope.named, QueryScope.add, List.filter_append, hbefore, List.nil_append]
  by_cases h : info.scopeName = some id <;> simp [h]

/-- What the scope of a form holds under the normalised name. -/
theorem introduces_named {form : CorrelationForm} {name : SimpleName} {scope : QueryScope}
    {parents : List QueryScope} {others : List RelationInfo} {r : RelationInfo}
    (h : Introduces env form name (scope :: parents)) (hname : name.identifier ≠ "")
    (hr : scope.relations = others ++ [r])
    (hother : ∀ r' ∈ others, r'.scopeName ≠ some (identifierOf env name .relation)) :
    scope.named (identifierOf env name .relation) =
      if storedName env form name = identifierOf env name .relation then [r] else [] := by
  obtain ⟨before, info, rfl, hinfo⟩ := introduces_last env h
  have hsplit : before.relations ++ [info] = others ++ [r] := hr
  obtain ⟨rfl, hlast⟩ := List.append_inj' hsplit rfl
  obtain rfl : info = r := List.singleton_inj.mp hlast
  have hstored : storedName env form name ≠ "" := by
    cases form with
    | apply => exact hname
    | _ => exact identifierOf_ne_empty env hname .relation
  have hscope : info.scopeName = some (storedName env form name) := by
    rw [← hinfo]
    exact RelationInfo.scopeName_of_identifier (hinfo ▸ hstored)
  rw [named_add hother, hscope]
  simp only [Option.some.injEq]

/-- Only `APPLY` stores the name as it is written. -/
theorem storedName_eq_iff (form : CorrelationForm) (name : SimpleName) :
    storedName env form name = identifierOf env name .relation ↔
      (form = .apply → name.identifier = identifierOf env name .relation) := by
  cases form <;> simp [storedName]

/-- A qualified reference finds the relation of a correlation under every spelling of its name
exactly when the form stores the normalised name; only `APPLY` stores the name as written. -/
theorem correlation_found_iff {form : CorrelationForm} {name : SimpleName} {scope : QueryScope}
    {parents : List QueryScope} {others : List RelationInfo} {r : RelationInfo}
    (h : Introduces env form name (scope :: parents)) (hname : name.identifier ≠ "")
    (hr : scope.relations = others ++ [r])
    (hother : ∀ r' ∈ others, r'.scopeName ≠ some (identifierOf env name .relation))
    (s : AnalyzerState ρ) :
    (∀ (reference : SimpleName) (inner : List QueryScope),
        identifierOf env reference .relation = identifierOf env name .relation →
        (∀ sc ∈ inner, ¬ Holds (identifierOf env name .relation) sc) →
        Finds env (inner ++ scope :: parents) inner.length r reference s) ↔
      (form = .apply → name.identifier = identifierOf env name .relation) := by
  have hnamed := introduces_named env h hname hr hother
  rw [← storedName_eq_iff]
  constructor
  · intro hfinds
    by_contra hne
    rw [if_neg hne] at hnamed
    have hfound := (hfinds name [] rfl (by simp)).1
    exact holds_of_qualifier env hfound hnamed
  · intro heq reference inner href hinner
    rw [if_pos heq] at hnamed
    have hholds : Holds (identifierOf env name .relation) scope := by
      rw [Holds, hnamed]
      exact List.cons_ne_nil _ _
    have hinnermost : Innermost (Holds (identifierOf env name .relation))
        (inner ++ scope :: parents) inner.length scope := innermost_below hinner hholds
    rw [← href] at hinnermost hnamed
    exact finds_of_innermost env hinnermost hnamed s

/-! ### References to two correlations -/

/-- A table whose first column is hidden. -/
def hiddenFirstTable : Table where
  address := 0
  simpleName := "t"
  columns :=
    [{ address := 1, simpleName := "h", type := .int4, hidden := true },
      { address := 2, simpleName := "c", type := .int4 }]
  primaryIndex :=
    some { address := 3, tableAddress := 0, tableName := "t", simpleName := "", keys := [],
           primary := true }

/-- A schema of the table and of a function that returns a table of one column. -/
def applySchema : Schema where
  name := "public"
  findVariable _ := none
  findRelation name := if name = "t" then some (.table hiddenFirstTable) else none
  findTable name := if name = "t" then some hiddenFirstTable else none
  findIndex _ := none
  functions name count :=
    if name = "f" ∧ count = 0 then
      [{ definitionId := 0, name := "f", returnType := .table ["x"], parameterTypes := [],
         scalarFunction := false, tableValuedFunction := true }]
    else []
  setFunctions _ _ := []

/-- The state before the first element of a FROM clause. -/
def AnalyzerState.beforeFrom : AnalyzerState Types := (AnalyzerState.initial []).enter .empty

/-- `t CROSS APPLY f() AS R` -/
def applied : TableExpression :=
  .apply (.tableReference false (.simple ⟨"t", .delimited⟩) none) none
    (.simple ⟨"f", .delimited⟩) [] ⟨⟨"R", .regular⟩, []⟩

/-- `t AS R` is found as `r`. -/
theorem correlation_found_reference :
    let env := Environment.ofSchema applySchema
    ∃ (scope : QueryScope) (r : RelationInfo),
      Introduces env .aliasedReference ⟨"R", .regular⟩ [scope] ∧ scope.relations = [r] ∧
      Finds env [scope] 0 r ⟨"r", .regular⟩ (.initial []) := by
  intro env
  let reference := TableExpression.tableReference false (.simple ⟨"t", .delimited⟩)
    (some ⟨⟨"R", .regular⟩, []⟩)
  let t := (tableExpression env reference .beforeFrom).2
  let r := t.scope.relations.headD .empty
  have hrun : tableExpression env reference .beforeFrom = (some _, t) := rfl
  have hintroduces : Introduces env .aliasedReference ⟨"R", .regular⟩ [t.scope] :=
    show Introduces env .aliasedReference ⟨"R", .regular⟩ t.scopes from .aliasedReference hrun
  have hr : t.scope.relations = [] ++ [r] := rfl
  have hfound := (correlation_found_iff env hintroduces (by decide) hr (by simp)
    (.initial [])).mpr (by simp)
  exact ⟨t.scope, r, hintroduces, hr, hfound ⟨"r", .regular⟩ [] (by decide) (by simp)⟩

/-- `t CROSS APPLY f() AS R` is not found as `R`, where regular identifiers are lowercased. -/
theorem apply_misses_correlation :
    let env := Environment.ofSchema applySchema
    let name : SimpleName := ⟨"R", .regular⟩
    ∃ (scope : QueryScope) (others : List RelationInfo) (r : RelationInfo),
      Introduces env .apply name [scope] ∧ scope.relations = others ++ [r] ∧
      (∀ r' ∈ others, r'.scopeName ≠ some (identifierOf env name .relation)) ∧
      ¬ Finds env [scope] 0 r name (.initial []) := by
  intro env name
  let t := (tableExpression env applied .beforeFrom).2
  have hrun : tableExpression env applied .beforeFrom = (some _, t) := rfl
  have hintroduces : Introduces env .apply name [t.scope] :=
    show Introduces env .apply name t.scopes from .apply hrun
  refine ⟨t.scope, [t.scope.relations.headD .empty], t.scope.relations.getLastD .empty,
    hintroduces, rfl, ?_, ?_⟩
  · intro r' hr'
    rw [List.mem_singleton.mp hr']
    decide
  · intro h
    have hnamed : t.scope.named (identifierOf env name .relation) = [] :=
      List.eq_nil_of_length_eq_zero (by decide)
    exact holds_of_qualifier env h.1 hnamed

/-! ### The column names of a correlation -/

/-- The column with the name of a correlation. -/
def renamed (name : SimpleName) (column : ColumnInfo) : ColumnInfo :=
  { column with identifier := some (identifierOf env name .variable) }

/-- The first columns get the names, which differ. -/
theorem renameColumns_yields {names : List SimpleName} {seen : List String}
    {columns renamedColumns : List ColumnInfo} {s t : AnalyzerState ρ}
    (h : renameColumns env names seen columns s = (some renamedColumns, t))
    (hlength : names.length ≤ columns.length) :
    renamedColumns.take names.length = List.zipWith (renamed env) names columns ∧
    (names.map fun n => identifierOf env n .variable).Nodup ∧
    ∀ n ∈ names, identifierOf env n .variable ∉ seen := by
  induction names generalizing seen columns renamedColumns s with
  | nil => simp
  | cons name names ih =>
    cases columns with
    | nil => simp at hlength
    | cons column columns =>
      simp only [renameColumns] at h
      split at h
      · cases h
      · rename_i hseen
        simp only [Check.bind_yields, Check.pure_yields] at h
        obtain ⟨rest, u, hrest, rfl, rfl⟩ := h
        obtain ⟨htake, hnodup, hfresh⟩ := ih hrest (by simpa using hlength)
        refine ⟨?_, ?_, ?_⟩
        · rw [List.length_cons, List.take_succ_cons, htake]
          rfl
        · rw [List.map_cons, List.nodup_cons]
          refine ⟨fun hmem => ?_, hnodup⟩
          obtain ⟨n, hn, heq⟩ := List.mem_map.mp hmem
          exact hfresh n hn (heq ▸ List.mem_cons_self)
        · intro n hn
          obtain rfl | hn := List.mem_cons.mp hn
          · exact hseen
          · exact fun hmem => hfresh n hn (List.mem_cons_of_mem _ hmem)

theorem correlationNames_yields {names : List SimpleName} {seen ids : List String}
    {s t : AnalyzerState ρ} (h : correlationNames env seen names s = (some ids, t)) :
    ids = names.map (fun n => identifierOf env n .variable) ∧ ids.Nodup ∧
    ∀ id ∈ ids, id ∉ seen := by
  induction names generalizing seen ids s with
  | nil =>
    obtain ⟨rfl, rfl⟩ := (Check.pure_yields ..).mp h
    simp
  | cons name names ih =>
    simp only [correlationNames] at h
    split at h
    · cases h
    · rename_i hseen
      simp only [Check.bind_yields, Check.pure_yields] at h
      obtain ⟨rest, u, hrest, rfl, rfl⟩ := h
      obtain ⟨hmap, hnodup, hfresh⟩ := ih hrest
      refine ⟨by rw [hmap, List.map_cons], ?_, ?_⟩
      · rw [List.nodup_cons]
        exact ⟨fun hmem => hfresh _ hmem List.mem_cons_self, hnodup⟩
      · intro id hid
        obtain rfl | hid := List.mem_cons.mp hid
        · exact hseen
        · exact fun hmem => hfresh id hid (List.mem_cons_of_mem _ hmem)

/-- What a reader of names and variables sees of a column. -/
def ColumnInfo.view (c : ColumnInfo) : Option String × Variable × Bool :=
  (c.identifier, c.variable_, c.exported)

/-- A table expression with a correlation was accepted: the columns of the expression that it
names, the form, the names and the scopes it leads to. -/
inductive Correlates :
    List ColumnInfo → CorrelationForm → CorrelationClause → List QueryScope → Prop
  | reference {isOnly : Bool} {name : Name} {correlation : CorrelationClause}
      {s t u : AnalyzerState ρ} {g : Graph} {underlying : QueryResult} :
      processRelationReference env name s = (some underlying, u) →
      tableExpression env (.tableReference isOnly name (some correlation)) s = (some g, t) →
      Correlates underlying.relation.columns .aliasedReference correlation t.scopes
  | derivedTable {isLateral : Bool} {q : QueryExpression} {correlation : CorrelationClause}
      {s t u : AnalyzerState ρ} {g : Graph} {underlying : QueryResult} {left : QueryScope} :
      withScope .empty (query env q [] false) s = (some (underlying, left), u) →
      tableExpression env (.subquery isLateral q correlation) s = (some g, t) →
      Correlates underlying.relation.columns .derivedTable correlation t.scopes
  | apply {operand : TableExpression} {type : Option ApplyType} {name : Name}
      {arguments : List ScalarExpression} {correlation : CorrelationClause}
      {s t : AnalyzerState ρ} {kind : ApplyKind} {target : FunctionDecl} {args : List Scalar}
      {columns : List (Nat × Variable)} {input : Graph} :
      tableExpression env (.apply operand type name arguments correlation) s =
        (some (.unary (.apply kind target args columns) input), t) →
      Correlates (columns.map fun c => { variable_ := c.2, identifier := none }) .apply
        correlation t.scopes

theorem Correlates.introduces {columns : List ColumnInfo} {form : CorrelationForm}
    {correlation : CorrelationClause} {scopes : List QueryScope}
    (h : Correlates env columns form correlation scopes) :
    Introduces env form correlation.correlationName scopes := by
  cases h with
  | reference _ h => exact .aliasedReference h
  | derivedTable _ h => exact .derivedTable h
  | apply h => exact .apply h

/-- The relation of a correlation with column names: the names go to the first columns of the
expression, by their raw positions, and the rest is dropped. -/
theorem rebuildRelationInfo_columns {info r : RelationInfo} {correlation : CorrelationClause}
    {s t : AnalyzerState ρ} (h : rebuildRelationInfo env info correlation s = (some r, t))
    (hnames : correlation.columnNames ≠ []) :
    r.columns.map ColumnInfo.view =
      (List.zipWith (renamed env) correlation.columnNames info.columns).map ColumnInfo.view ∧
    correlation.columnNames.length ≤ info.columns.length ∧
    (correlation.columnNames.map fun n => identifierOf env n .variable).Nodup := by
  obtain ⟨hlength, -, hrebuilt⟩ := rebuildRelationInfo_yields env h
  obtain ⟨columns, u, hrename, hcolumns⟩ := hrebuilt hnames
  obtain ⟨htake, hnodup, -⟩ := renameColumns_yields env hrename hlength
  refine ⟨?_, hlength, hnodup⟩
  rw [hcolumns, Data.Chain.rebuild_map (fun _ _ => rfl), RelationInfo.erase, List.drop_length,
    List.append_nil, htake]

/-- The names of a correlation go to the columns of an apply in order. -/
theorem applyRelation_columns (name : SimpleName) (names : List SimpleName) (first n : Nat) :
    (applyRelation name (freshStreams first n)
      (names.map fun n => identifierOf env n .variable)).columns.map ColumnInfo.view =
    (List.zipWith (renamed env) names (((List.range n).zip (freshStreams first n)).map
      fun c => { variable_ := c.2, identifier := none })).map ColumnInfo.view := by
  have hvariables : ((List.range n).zip (freshStreams first n)).map
      (fun c => ({ variable_ := c.2, identifier := none } : ColumnInfo)) =
      (freshStreams first n).map fun v => { variable_ := v, identifier := none } := by
    have hlength : (freshStreams first n).length ≤ (List.range n).length := by simp [freshStreams]
    conv_rhs => rw [← List.map_snd_zip hlength, List.map_map]
    rfl
  rw [hvariables, applyRelation, RelationInfo.addAll_map (fun _ _ => rfl)]
  change [] ++ _ = _
  rw [List.nil_append]
  generalize freshStreams first n = vs
  induction names generalizing vs with
  | nil => simp
  | cons name names ih =>
    cases vs with
    | nil => simp
    | cons v vs => simpa [renamed, ColumnInfo.view] using ih vs

/-- The relation that a correlation with column names enters last. -/
theorem correlates_last {columns : List ColumnInfo} {form : CorrelationForm}
    {correlation : CorrelationClause} {scope : QueryScope} {parents : List QueryScope}
    (h : Correlates env columns form correlation (scope :: parents))
    (hnames : correlation.columnNames ≠ []) :
    ∃ (before : QueryScope) (info : RelationInfo), scope = before.add info ∧
      info.columns.map ColumnInfo.view =
        (List.zipWith (renamed env) correlation.columnNames columns).map ColumnInfo.view ∧
      correlation.columnNames.length ≤ columns.length ∧
      (correlation.columnNames.map fun n => identifierOf env n .variable).Nodup := by
  generalize hscopes : scope :: parents = scopes at h
  cases h with
  | reference hunderlying h =>
    obtain ⟨result, u, info, v, hresult, hinfo, hadd⟩ := tableReference_yields env h
    obtain ⟨hr, rfl⟩ := Prod.mk.inj (hunderlying.symm.trans hresult)
    obtain rfl := Option.some.inj hr
    obtain ⟨before, -, rfl⟩ := addRelation_scopes hadd hscopes.symm
    exact ⟨before, info, rfl, rebuildRelationInfo_columns env hinfo hnames⟩
  | derivedTable hunderlying h =>
    obtain ⟨result, left, u, info, v, hresult, hinfo, hadd⟩ := tableSubquery_yields env h
    obtain ⟨hr, rfl⟩ := Prod.mk.inj (hunderlying.symm.trans hresult)
    obtain ⟨rfl, rfl⟩ := Prod.mk.inj (Option.some.inj hr)
    obtain ⟨before, -, rfl⟩ := addRelation_scopes hadd hscopes.symm
    exact ⟨before, info, rfl, rebuildRelationInfo_columns env hinfo hnames⟩
  | apply h =>
    obtain ⟨target, returned, first, names, input, args, u, v, w, x, happly, hadd, hx, hg⟩ :=
      apply_yields env h
    obtain ⟨before, -, rfl⟩ := addRelation_scopes hadd (hx.trans hscopes.symm)
    simp only [Graph.unary.injEq, Operator.apply.injEq] at hg
    obtain ⟨⟨-, -, -, rfl⟩, -⟩ := hg
    refine ⟨before, _, rfl, ?_⟩
    simp only [applyColumnNames] at happly
    cases hcolumns : correlation.columnNames with
    | nil => exact absurd hcolumns hnames
    | cons name rest =>
      rw [hcolumns] at happly
      split at happly
      · cases happly
      · rename_i hlength
        obtain ⟨rfl, hnodup, -⟩ := correlationNames_yields env happly
        refine ⟨applyRelation_columns env .., ?_, hnodup⟩
        simp [freshStreams] at hlength ⊢
        omega

/-- The columns that `*` takes of a relation, under their names. -/
def RelationInfo.expansion (r : RelationInfo) : List (Option String × Variable) :=
  r.exportedColumns.map fun c => (c.identifier, c.variable_)

/-- `r.ci` designates the `i`-th exported column of the expression, and `*` exports the columns
named, in order; a correlation with more names is rejected. -/
structure NamesExported (columns : List ColumnInfo) (correlation : CorrelationClause)
    (scopes : List QueryScope) (r : RelationInfo) (s : AnalyzerState ρ) : Prop where
  length : correlation.columnNames.length ≤ (columns.filter ColumnInfo.exported).length
  expansion : r.expansion =
    List.zipWith (fun n c => (some (identifierOf env n .variable), c.variable_))
      correlation.columnNames (columns.filter ColumnInfo.exported)
  designates : ∀ (i : Nat) (name : SimpleName), correlation.columnNames[i]? = some name →
    ∃ c, (columns.filter ColumnInfo.exported)[i]? = some c ∧
      (designate env scopes (.qualified (.simple correlation.correlationName) name) s).1 =
        some (.variable c.variable_ (some 0))

/-- Reading the columns of a relation through their views. -/
theorem RelationInfo.exportedNamed_view (r : RelationInfo) (id : String) :
    (r.exportedNamed id).map ColumnInfo.view =
      ((r.columns.map ColumnInfo.view).filter fun v => v.2.2).filter fun v => v.1 = some id := by
  rw [RelationInfo.exportedNamed, RelationInfo.exportedColumns, List.filter_map, List.filter_map]
  rfl

theorem RelationInfo.expansion_view (r : RelationInfo) :
    r.expansion = ((r.columns.map ColumnInfo.view).filter fun v => v.2.2).map
      fun v => (v.1, v.2.1) := by
  rw [RelationInfo.expansion, RelationInfo.exportedColumns, List.filter_map, List.map_map]
  rfl

/-- Where the first columns are all exported they are the first exported ones. -/
theorem take_filter_of_exported {columns : List ColumnInfo} {n : Nat}
    (h : ∀ c ∈ columns.take n, c.exported = true) :
    (columns.filter ColumnInfo.exported).take (columns.take n).length = columns.take n := by
  have hsplit : columns.filter ColumnInfo.exported =
      columns.take n ++ (columns.drop n).filter ColumnInfo.exported := by
    conv_lhs => rw [← List.take_append_drop n columns]
    rw [List.filter_append, List.filter_eq_self.mpr h]
  rw [hsplit, List.take_left]

/-- A zip looks at the first elements only. -/
theorem zipWith_congr_take {α β γ : Type} (f : α → β → γ) :
    ∀ {l : List α} {l' l'' : List β}, l'.take l.length = l''.take l.length →
      List.zipWith f l l' = List.zipWith f l l''
  | [], _, _, _ => by simp
  | a :: l, [], [], _ => rfl
  | a :: l, [], b :: l'', h => by simp at h
  | a :: l, b :: l', [], h => by simp at h
  | a :: l, b :: l', c :: l'', h => by
    simp only [List.length_cons, List.take_succ_cons, List.cons.injEq] at h
    rw [List.zipWith_cons_cons, List.zipWith_cons_cons, h.1, zipWith_congr_take f h.2]

/-- Among columns that got different names, one has a given name. -/
theorem filter_renamed {names : List SimpleName} {columns : List ColumnInfo}
    (hnodup : (names.map fun n => identifierOf env n .variable).Nodup) {i : Nat}
    {name : SimpleName} {c : ColumnInfo} (hname : names[i]? = some name)
    (hc : columns[i]? = some c) :
    (List.zipWith (renamed env) names columns).filter
      (fun col => col.identifier = some (identifierOf env name .variable)) =
      [renamed env name c] := by
  induction names generalizing columns i with
  | nil => simp at hname
  | cons n names ih =>
    rw [List.map_cons, List.nodup_cons] at hnodup
    cases columns with
    | nil => simp at hc
    | cons column columns =>
      cases i with
      | zero =>
        simp only [List.getElem?_cons_zero, Option.some.injEq] at hname hc
        subst hname hc
        have hrest : (List.zipWith (renamed env) names columns).filter
            (fun col => col.identifier = some (identifierOf env n .variable)) = [] := by
          refine List.filter_eq_nil_iff.mpr fun col hcol => ?_
          obtain ⟨j, hj, rfl⟩ := List.getElem_of_mem hcol
          rw [List.getElem_zipWith]
          simp only [renamed, Option.some.injEq, decide_eq_true_eq]
          exact fun heq => hnodup.1 (List.mem_map.mpr ⟨_, List.getElem_mem _, heq⟩)
        rw [List.zipWith_cons_cons, List.filter_cons_of_pos (by simp [renamed]), hrest]
      | succ i =>
        simp only [List.getElem?_cons_succ] at hname hc
        have hne : identifierOf env n .variable ≠ identifierOf env name .variable :=
          fun heq => hnodup.1 (heq ▸ List.mem_map.mpr ⟨name, List.mem_of_getElem? hname, rfl⟩)
        rw [List.zipWith_cons_cons, List.filter_cons_of_neg (by simpa [renamed] using hne)]
        exact ih hnodup.2 hname hc

/-- The names of a correlation take the exported columns of the expression in order exactly
when none of the columns at their positions is hidden, and the correlation name is found. -/
theorem correlation_columns_iff {columns : List ColumnInfo} {form : CorrelationForm}
    {correlation : CorrelationClause} {scope : QueryScope} {parents : List QueryScope}
    {others : List RelationInfo} {r : RelationInfo}
    (h : Correlates env columns form correlation (scope :: parents))
    (hnames : correlation.columnNames ≠ [])
    (hname : correlation.correlationName.identifier ≠ "")
    (hr : scope.relations = others ++ [r])
    (hother : ∀ r' ∈ others,
      r'.scopeName ≠ some (identifierOf env correlation.correlationName .relation))
    (s : AnalyzerState ρ) :
    NamesExported env columns correlation (scope :: parents) r s ↔
      (∀ c ∈ columns.take correlation.columnNames.length, c.exported = true) ∧
      (form = .apply → correlation.correlationName.identifier =
        identifierOf env correlation.correlationName .relation) := by
  have hfound := correlation_found_iff env h.introduces hname hr hother s
  have hnamed := introduces_named env h.introduces hname hr hother
  obtain ⟨before, info, rfl, hview, hlength, hnodup⟩ := correlates_last env h hnames
  have hsplit : before.relations ++ [info] = others ++ [r] := hr
  obtain ⟨rfl, hlast⟩ := List.append_inj' hsplit rfl
  obtain rfl : info = r := List.singleton_inj.mp hlast
  constructor
  · intro hexported
    constructor
    · -- as many columns are exported as there are names, so every one of them is
      have hcount := congrArg List.length hexported.expansion
      rw [RelationInfo.expansion_view, hview, List.length_map, List.length_zipWith,
        Nat.min_eq_left hexported.length] at hcount
      have hrenamed : ∀ v ∈ (List.zipWith (renamed env) correlation.columnNames columns).map
          ColumnInfo.view, v.2.2 = true := by
        refine List.length_filter_eq_length_iff.mp ?_
        rw [hcount, List.length_map, List.length_zipWith, Nat.min_eq_left hlength]
      intro c hc
      obtain ⟨i, hi, rfl⟩ := List.getElem_of_mem hc
      rw [List.length_take] at hi
      have hmem : renamed env correlation.columnNames[i] columns[i] ∈
          List.zipWith (renamed env) correlation.columnNames columns := by
        rw [← List.getElem_zipWith (f := renamed env) (h := by simp; omega)]
        exact List.getElem_mem _
      rw [List.getElem_take]
      exact hrenamed _ (List.mem_map_of_mem hmem)
    · rw [← storedName_eq_iff]
      by_contra hne
      rw [if_neg hne] at hnamed
      obtain ⟨name, hfirst⟩ : ∃ name, correlation.columnNames[0]? = some name :=
        ⟨_, List.getElem?_eq_getElem (List.length_pos_of_ne_nil hnames)⟩
      obtain ⟨c, -, hdesignates⟩ := hexported.designates 0 name hfirst
      obtain ⟨found, rel, hinnermost, -, -⟩ := (designate_qualified_iff ..).mp hdesignates
      obtain rfl : before.add info = found := Option.some.inj hinnermost.1
      exact hinnermost.2.1 hnamed
  · rintro ⟨hall, hregisters⟩
    have htake := take_filter_of_exported hall
    rw [List.length_take_of_le hlength] at htake
    have hcount : correlation.columnNames.length ≤ (columns.filter ColumnInfo.exported).length := by
      have := congrArg List.length htake
      rw [List.length_take, List.length_take_of_le hlength] at this
      omega
    have hzip := zipWith_congr_take (renamed env) htake.symm
    rw [hzip] at hview
    have hkept : ∀ v ∈ (List.zipWith (renamed env) correlation.columnNames
        (columns.filter ColumnInfo.exported)).map ColumnInfo.view, v.2.2 = true := by
      intro v hv
      obtain ⟨col, hcol, rfl⟩ := List.mem_map.mp hv
      obtain ⟨i, hi, rfl⟩ := List.getElem_of_mem hcol
      rw [List.getElem_zipWith]
      rw [List.length_zipWith] at hi
      have hmem : (columns.filter ColumnInfo.exported)[i] ∈ columns.filter ColumnInfo.exported :=
        List.getElem_mem _
      exact (List.mem_filter.mp hmem).2
    refine ⟨hcount, ?_, fun i name hi => ?_⟩
    · rw [RelationInfo.expansion_view, hview, List.filter_eq_self.mpr hkept, List.map_map,
        List.map_zipWith]
      rfl
    · have hlt : i < (columns.filter ColumnInfo.exported).length :=
        lt_of_lt_of_le (List.getElem?_eq_some_iff.mp hi).1 hcount
      have hc := List.getElem?_eq_getElem hlt
      refine ⟨_, hc, ?_⟩
      have hexported := info.exportedNamed_view (identifierOf env name .variable)
      rw [hview, List.filter_eq_self.mpr hkept, List.filter_map] at hexported
      have hfilter := filter_renamed env hnodup hi hc
      have hone : (info.exportedNamed (identifierOf env name .variable)).map ColumnInfo.view =
          [(renamed env name (columns.filter ColumnInfo.exported)[i]).view] :=
        hexported.trans (congrArg (List.map ColumnInfo.view) hfilter)
      obtain ⟨col, hcol, hsame⟩ := List.map_eq_singleton_iff.mp hone
      have hvariable : col.variable_ = (columns.filter ColumnInfo.exported)[i].variable_ :=
        congrArg (fun v => v.2.1) hsame
      have hdesignated :=
        (hfound.mpr hregisters correlation.correlationName [] rfl (by simp)).2 name col hcol
      rw [hvariable] at hdesignated
      exact hdesignated

/-- A table whose last column is hidden. -/
def hiddenLastTable : Table where
  address := 0
  simpleName := "t"
  columns :=
    [{ address := 1, simpleName := "c", type := .int4 },
      { address := 2, simpleName := "d", type := .int8 },
      { address := 3, simpleName := "h", type := .int4, hidden := true }]
  primaryIndex :=
    some { address := 4, tableAddress := 0, tableName := "t", simpleName := "", keys := [],
           primary := true }

/-- `t AS r(x, y)` names the two columns before the hidden one. -/
theorem correlation_columns_reference :
    let env := Environment.ofSchema (.ofTables [hiddenLastTable] [])
    let correlation : CorrelationClause :=
      ⟨⟨"r", .delimited⟩, [⟨"x", .delimited⟩, ⟨"y", .delimited⟩]⟩
    ∃ (columns : List ColumnInfo) (scope : QueryScope) (r : RelationInfo),
      Correlates env columns .aliasedReference correlation [scope] ∧ scope.relations = [r] ∧
      columns.map ColumnInfo.exported = [true, true, false] ∧
      NamesExported env columns correlation [scope] r (.initial []) := by
  intro env correlation
  let reference := TableExpression.tableReference false (.simple ⟨"t", .delimited⟩)
    (some correlation)
  let t := (tableExpression env reference .beforeFrom).2
  let r := t.scope.relations.headD .empty
  have hunderlying : processRelationReference env (.simple ⟨"t", .delimited⟩) .beforeFrom =
    (some _, _) := rfl
  have hrun : tableExpression env reference .beforeFrom = (some _, t) := rfl
  have hcorrelates : Correlates env _ .aliasedReference correlation [t.scope] :=
    show Correlates env _ .aliasedReference correlation t.scopes from .reference hunderlying hrun
  have hr : t.scope.relations = [] ++ [r] := rfl
  have hcolumns := correlation_columns_iff env hcorrelates (by decide) (by decide) hr (by simp)
    (.initial [])
  exact ⟨_, t.scope, r, hcorrelates, hr, rfl, hcolumns.mpr ⟨by decide, nofun⟩⟩

/-- `t AS r(x)` names the hidden column, which `*` does not export. -/
theorem correlation_names_hidden :
    let env := Environment.ofSchema applySchema
    let correlation : CorrelationClause := ⟨⟨"r", .delimited⟩, [⟨"x", .delimited⟩]⟩
    ∃ (columns : List ColumnInfo) (scope : QueryScope) (r : RelationInfo),
      Correlates env columns .aliasedReference correlation [scope] ∧ scope.relations = [r] ∧
      ¬ NamesExported env columns correlation [scope] r (.initial []) := by
  intro env correlation
  let reference := TableExpression.tableReference false (.simple ⟨"t", .delimited⟩)
    (some correlation)
  let t := (tableExpression env reference .beforeFrom).2
  have hunderlying : processRelationReference env (.simple ⟨"t", .delimited⟩) .beforeFrom =
    (some _, _) := rfl
  have hrun : tableExpression env reference .beforeFrom = (some _, t) := rfl
  refine ⟨_, t.scope, t.scope.relations.headD .empty,
    show Correlates env _ .aliasedReference correlation t.scopes from
      .reference hunderlying hrun, rfl, ?_⟩
  intro h
  have hlength := congrArg List.length h.expansion
  cases hlength

end Mizugaki.Analyzer
