import Mizugaki.Analyzer.Statement
import Mizugaki.Analyzer.Traversal

/-! The preference for write statements. Only the analysis of INSERT reads the option: every
analysis of names, expressions and queries is the same with and without it. -/

namespace Mizugaki.Analyzer

open Mizugaki.Ast Mizugaki.Plan Mizugaki.Control

variable {ρ : Type} (env : Environment ρ) (prefer : Bool)

/-- The environment with the option `prefer_write_statement` set. -/
def Environment.preferring : Environment ρ :=
  { env with options := { env.options with preferWriteStatement := prefer } }

@[simp] theorem preferring_options :
    (env.preferring prefer).options = { env.options with preferWriteStatement := prefer } := rfl

/-! ### Names

Functions that recurse over a list have the same recursor applied to the same steps, so they are
unfolded to it. -/

@[simp] theorem identifierOf_preferring :
    identifierOf (env.preferring prefer) = identifierOf env := rfl

@[simp] theorem findVariableInQuery_preferring :
    findVariableInQuery (env.preferring prefer) = findVariableInQuery env := by
  delta findVariableInQuery
  rfl

@[simp] theorem findRelationInfoInQuery_preferring :
    findRelationInfoInQuery (env.preferring prefer) = findRelationInfoInQuery env := by
  delta findRelationInfoInQuery
  rfl

@[simp] theorem findQueryInQuery_preferring :
    findQueryInQuery (env.preferring prefer) = findQueryInQuery env := by
  delta findQueryInQuery
  rfl

@[simp] theorem findDeclared_preferring :
    findDeclared (env.preferring prefer) = findDeclared env := by
  unfold findDeclared
  rw [findQueryInQuery_preferring]
  rfl

@[simp] theorem findSymbolPrimary_preferring :
    findSymbolPrimary (env.preferring prefer) = findSymbolPrimary env := by
  unfold findSymbolPrimary
  simp

@[simp] theorem findSymbolQualified_preferring :
    findSymbolQualified (env.preferring prefer) = findSymbolQualified env := rfl

@[simp] theorem findSymbol_preferring : findSymbol (env.preferring prefer) = findSymbol env := by
  funext scopes name targets reportNotFound
  induction name generalizing targets with
  | simple name => simp [findSymbol]
  | qualified q last ih => simp [findSymbol, ih]

@[simp] theorem addParameters_preferring :
    addParameters (env.preferring prefer) = addParameters env := by
  delta addParameters
  rfl

@[simp] theorem analyzeVariableName_preferring :
    analyzeVariableName (env.preferring prefer) = analyzeVariableName env := by
  unfold analyzeVariableName
  simp

@[simp] theorem analyzeRelationInfoName_preferring :
    analyzeRelationInfoName (env.preferring prefer) = analyzeRelationInfoName env := by
  unfold analyzeRelationInfoName
  simp

@[simp] theorem analyzeRelationName_preferring :
    analyzeRelationName (env.preferring prefer) = analyzeRelationName env := by
  unfold analyzeRelationName
  simp

@[simp] theorem collectDecl_preferring {α : Type} :
    (collectDecl (env.preferring prefer) : (Schema → String → List α) → Name → _) =
      collectDecl env := by
  unfold collectDecl
  rw [findSymbol_preferring]
  rfl

@[simp] theorem analyzeFunctionName_preferring :
    analyzeFunctionName (env.preferring prefer) = analyzeFunctionName env := by
  unfold analyzeFunctionName
  simp

@[simp] theorem analyzeAggregationName_preferring :
    analyzeAggregationName (env.preferring prefer) = analyzeAggregationName env := by
  unfold analyzeAggregationName
  simp

theorem analyzeTableName_preferring :
    analyzeTableName (env.preferring prefer) = analyzeTableName env := by
  unfold analyzeTableName analyzeDeclName
  simp

/-! ### Scalar expressions -/

@[simp] theorem process_preferring : process (env.preferring prefer) = process env := rfl

@[simp] theorem appendQuotedHexDigitsUnchecked_preferring :
    appendQuotedHexDigitsUnchecked (env.preferring prefer) = appendQuotedHexDigitsUnchecked env := by
  delta appendQuotedHexDigitsUnchecked
  rfl

theorem processLiteral_preferring : processLiteral (env.preferring prefer) = processLiteral env := by
  unfold processLiteral processBinaryString
  rw [appendQuotedHexDigitsUnchecked_preferring]
  rfl

theorem analyzeLiteral_preferring : analyzeLiteral (env.preferring prefer) = analyzeLiteral env := by
  unfold analyzeLiteral
  rw [processLiteral_preferring]
  rfl

@[simp] theorem analyzeArguments_preferring :
    analyzeArguments (env.preferring prefer) = analyzeArguments env := by
  delta analyzeArguments
  rfl

@[simp] theorem isApplicable_preferring :
    isApplicable (env.preferring prefer) = isApplicable env := by
  delta isApplicable
  rfl

@[simp] theorem resolveOverload_preferring {δ : Type} (o : Overload δ) :
    resolveOverload (env.preferring prefer) o = resolveOverload env o := by
  funext left candidates
  induction candidates generalizing left with
  | nil => rfl
  | cons right rest ih => simp [resolveOverload, ih]

@[simp] theorem applicableFunctions_preferring :
    applicableFunctions (env.preferring prefer) = applicableFunctions env := by
  unfold applicableFunctions
  simp

@[simp] theorem applicableAggregates_preferring :
    applicableAggregates (env.preferring prefer) = applicableAggregates env := by
  unfold applicableAggregates
  simp

@[simp] theorem processFunctionInvocation_preferring :
    processFunctionInvocation (env.preferring prefer) = processFunctionInvocation env := by
  unfold processFunctionInvocation
  simp

@[simp] theorem processBuiltinFunction_preferring :
    processBuiltinFunction (env.preferring prefer) = processBuiltinFunction env := by
  unfold processBuiltinFunction processDeclaredBuiltin
  simp
  rfl

@[simp] theorem processBuiltinSetFunction_preferring :
    processBuiltinSetFunction (env.preferring prefer) = processBuiltinSetFunction env := by
  unfold processBuiltinSetFunction
  simp
  rfl

@[simp] theorem processExtract_preferring :
    processExtract (env.preferring prefer) = processExtract env := by
  unfold processExtract
  simp
  rfl

/-! ### Queries -/

@[simp] theorem processSetFunctions_preferring :
    processSetFunctions (env.preferring prefer) = processSetFunctions env := by
  delta processSetFunctions
  rfl

@[simp] theorem buildRelationInfo_preferring :
    buildRelationInfo (env.preferring prefer) = buildRelationInfo env := by
  delta buildRelationInfo buildColumns
  rfl

@[simp] theorem renameColumns_preferring :
    renameColumns (env.preferring prefer) = renameColumns env := by
  delta renameColumns
  rfl

@[simp] theorem rebuildRelationInfo_preferring :
    rebuildRelationInfo (env.preferring prefer) = rebuildRelationInfo env := by
  unfold rebuildRelationInfo
  rw [renameColumns_preferring]
  rfl

@[simp] theorem correlate_preferring : correlate (env.preferring prefer) = correlate env := by
  unfold correlate
  simp

@[simp] theorem processRelationReference_preferring :
    processRelationReference (env.preferring prefer) = processRelationReference env := by
  unfold processRelationReference processTableReference
  simp
  rfl

@[simp] theorem processTableExpressionReference_preferring :
    processTableExpressionReference (env.preferring prefer) =
      processTableExpressionReference env := by
  unfold processTableExpressionReference
  simp

@[simp] theorem processTableSubquery_preferring :
    processTableSubquery (env.preferring prefer) = processTableSubquery env := by
  unfold processTableSubquery
  simp

@[simp] theorem processUsingColumns_preferring :
    processUsingColumns (env.preferring prefer) = processUsingColumns env := by
  delta processUsingColumns
  rfl

@[simp] theorem processJoinColumns_preferring :
    processJoinColumns (env.preferring prefer) = processJoinColumns env := by
  unfold processJoinColumns
  rw [processUsingColumns_preferring]
  rfl

theorem processJoinExpression_preferring :
    processJoinExpression (env.preferring prefer) = processJoinExpression env := rfl

@[simp] theorem analyzeApplyArguments_preferring :
    analyzeApplyArguments (env.preferring prefer) = analyzeApplyArguments env := by
  delta analyzeApplyArguments
  rfl

@[simp] theorem applyColumnNames_preferring :
    applyColumnNames (env.preferring prefer) = applyColumnNames env := by
  have hnames : correlationNames (env.preferring prefer) = correlationNames env := by
    delta correlationNames
    rfl
  unfold applyColumnNames
  rw [hnames]
  rfl

@[simp] theorem processApply_preferring :
    processApply (env.preferring prefer) = processApply env := by
  unfold processApply applicableTableFunctions
  simp
  rfl

@[simp] theorem processFromClause_preferring :
    processFromClause (env.preferring prefer) = processFromClause env := by
  have helements : processFromElements (env.preferring prefer) = processFromElements env := by
    delta processFromElements
    rfl
  unfold processFromClause
  rw [helements]
  rfl

@[simp] theorem processHaving_preferring :
    processHaving (env.preferring prefer) = processHaving env := by
  unfold processHaving
  simp
  rfl

@[simp] theorem processSelectAsterisk_preferring :
    processSelectAsterisk (env.preferring prefer) = processSelectAsterisk env := by
  unfold processSelectAsterisk
  simp

@[simp] theorem installSetFunctions_preferring :
    installSetFunctions (env.preferring prefer) = installSetFunctions env := by
  have hcolumns : processColumns (env.preferring prefer) = processColumns env := by
    funext columns p
    induction columns generalizing p with
    | nil => rfl
    | cons column columns ih => simp [processColumns, ih]
  unfold installSetFunctions processSortColumns
  rw [hcolumns]
  rfl

@[simp] theorem processQuery_preferring :
    processQuery (env.preferring prefer) = processQuery env := by
  unfold processQuery
  simp
  rfl

@[simp] theorem commonTableColumnNames_preferring :
    commonTableColumnNames (env.preferring prefer) = commonTableColumnNames env := by
  have hnames : declaredColumnNames (env.preferring prefer) = declaredColumnNames env := by
    delta declaredColumnNames
    rfl
  unfold commonTableColumnNames
  rw [hnames]

@[simp] theorem processCommonTables_preferring :
    processCommonTables (env.preferring prefer) = processCommonTables env := by
  have htable : processCommonTable (env.preferring prefer) = processCommonTable env := by
    unfold processCommonTable declareCommonTable
    rw [commonTableColumnNames_preferring]
    rfl
  funext elements
  induction elements with
  | nil => rfl
  | cons element elements ih => simp [processCommonTables, htable, ih]

@[simp] theorem processWith_preferring : processWith (env.preferring prefer) = processWith env := by
  unfold processWith
  simp

/-! ### All syntax trees -/

section

variable {env} {env' : Environment ρ}

/-! Children that are analyzed alike, in lists and options. -/

theorem scalars_congr {es : List ScalarExpression} (h : ∀ e ∈ es, scalar env' e = scalar env e) :
    scalars env' es = scalars env es := by
  rw [scalars_eq, scalars_eq]
  exact List.map_congr_left h

theorem scalarOption_congr {o : Option ScalarExpression}
    (h : ∀ e ∈ o, scalar env' e = scalar env e) : scalarOption env' o = scalarOption env o := by
  rw [scalarOption_eq, scalarOption_eq]
  exact Option.map_congr h

theorem scalarPairs_congr {pairs : List (ScalarExpression × ScalarExpression)}
    (h : ∀ p ∈ pairs, scalar env' p.1 = scalar env p.1 ∧ scalar env' p.2 = scalar env p.2) :
    scalarPairs env' pairs = scalarPairs env pairs := by
  rw [scalarPairs_eq, scalarPairs_eq]
  exact List.map_congr_left fun p hp => Prod.ext (h p hp).1 (h p hp).2

theorem sortElement_congr {e : SortElement} (h : scalar env' e.key = scalar env e.key) :
    sortElement env' e = sortElement env e := by
  cases e with
  | mk key collation direction nullLocation =>
    exact congrArg (SortSpecification.mk · collation direction nullLocation) h

theorem rowElements_congr {e : ScalarExpression}
    (h : ∀ row, e = .valueConstructor .row row → ∀ x ∈ row, scalar env' x = scalar env x) :
    rowElements env' e = rowElements env e := by
  unfold rowElements
  split
  · rw [scalars_congr (h _ rfl)]
  · rfl

theorem inValues_congr {q : QueryExpression}
    (h : ∀ elements, q = .tableValueConstructor elements →
      ∀ e ∈ elements, scalar env' e = scalar env e) : inValues env' q = inValues env q := by
  unfold inValues
  split
  · rw [scalars_congr (h _ rfl)]
  · rfl

end

/-- No node reads the option, so no tree does. -/
theorem preferring_induction : SyntaxInduction
    (fun e => scalar (env.preferring prefer) e = scalar env e)
    (fun q => query (env.preferring prefer) q = query env q)
    (fun t => tableExpression (env.preferring prefer) t = tableExpression env t)
    (fun e => selectElement (env.preferring prefer) e = selectElement env e)
    (fun g => groupingElement (env.preferring prefer) g = groupingElement env g)
    (fun j => joinSpecification (env.preferring prefer) j = joinSpecification env j) where
  literal value := by
    funext context
    rw [scalar, scalar, analyzeLiteral_preferring, process_preferring]
  variableReference name := by
    funext context
    rw [scalar, scalar, analyzeVariableName_preferring, process_preferring]
  hostParameter name := rfl
  case_ ho hw hd := by
    funext context
    rw [scalar, scalar, scalarOption_congr ho, scalarPairs_congr hw, scalarOption_congr hd,
      process_preferring]
  cast operator_ type ho := by
    funext context
    rw [scalar, scalar, ho]
    rfl
  unary operator_ ho := by
    funext context
    rw [scalar, scalar, ho, process_preferring]
  binary operator_ hl hr := by
    funext context
    rw [scalar, scalar, hl, hr, process_preferring]
  extract field digits ho := by
    funext context
    rw [scalar, scalar, ho, processExtract_preferring, process_preferring]
  valueConstructor kind elements := rfl
  subquery kind hq := by
    funext context
    rw [scalar, scalar, hq, process_preferring]
  comparison operator_ hl hr := by
    funext context
    rw [scalar, scalar, hl, hr, process_preferring]
  quantified operator_ quantifier hl hr := by
    funext context
    rw [scalar, scalar, hl, hr, process_preferring]
  between isNot operator_ ht hl hr := by
    funext context
    rw [scalar, scalar, ht, hl, hr, process_preferring]
  in_ isNot hl hv hr := by
    funext context
    rw [scalar, scalar, hl, inValues_congr hv, hr, process_preferring]
  patternMatch isNot operator_ hi hp he := by
    funext context
    rw [scalar, scalar, hi, hp, scalarOption_congr he, process_preferring]
  tablePredicate operator_ hq := by
    funext context
    rw [scalar, scalar, hq, process_preferring]
  function name ha := by
    funext context
    rw [scalar, scalar, scalars_congr ha, processFunctionInvocation_preferring, process_preferring]
  builtinFunction kind ha := by
    funext context
    rw [scalar, scalar, scalars_congr ha, processBuiltinFunction_preferring, process_preferring]
  builtinSetFunction kind quantifier ha := by
    funext context
    rw [scalar, scalar, scalars_congr ha, processBuiltinSetFunction_preferring, process_preferring]
  placeholder index := rfl
  unsupported kind := rfl
  query quantifier he hf hw hg hh ho hl := by
    funext context continueScope
    have helements := List.map_congr_left he
    have hfrom := List.map_congr_left hf
    have hgroup := Option.map_congr fun es hes => List.map_congr_left (hg es hes)
    have horder := List.map_congr_left fun e hmem => sortElement_congr (ho e hmem)
    simp only [query, selectElements_eq, tableExpressions_eq, groupingClause_eq, sortElements_eq,
      processQuery_preferring, scalarOption_congr hw, scalarOption_congr hh, scalarOption_congr hl,
      helements, hfrom, hgroup, horder]
  relationReference name := by
    funext context continueScope
    rw [query, query, processRelationReference_preferring]
  values he := by
    funext context continueScope
    have hrows := List.map_congr_left fun e hmem => rowElements_congr (he e hmem)
    simp only [query, rows_eq, hrows]
    rfl
  binaryQuery operator_ quantifier corresponding hl hr := by
    funext context continueScope
    rw [query, query, hl, hr]
    rfl
  with_ isRecursive he hq := by
    funext context continueScope
    have helements := List.map_congr_left fun e hmem =>
      congrArg (CommonTable.mk (WithElement.name e) e.columnNames) (he e hmem)
    simp only [query, withElements_eq, helements, hq, processWith_preferring]
  selectColumn name hv := by
    rw [selectElement, selectElement, hv]
    rfl
  selectAsterisk qualifier := by
    rw [selectElement, selectElement, processSelectAsterisk_preferring]
  groupingColumn collation hc := by
    rw [groupingElement, groupingElement, hc]
    rfl
  tableReference isOnly name correlation := by
    rw [tableExpression, tableExpression, processTableExpressionReference_preferring]
  unnest expression withOrdinality correlation := rfl
  join type hl hr hj := by
    rw [tableExpression, tableExpression, hl, hr, specificationOption_eq, specificationOption_eq,
      Option.map_congr hj, processJoinExpression_preferring]
  tableSubquery isLateral correlation hq := by
    rw [tableExpression, tableExpression, hq, processTableSubquery_preferring]
  apply type name correlation ho ha := by
    rw [tableExpression, tableExpression, ho, scalars_congr ha, processApply_preferring]
  joinCondition hc := by
    rw [joinSpecification, joinSpecification, hc]
  joinColumns columns := by
    rw [joinSpecification, joinSpecification, processJoinColumns_preferring]

theorem analyzeQueryExpression_preferring :
    analyzeQueryExpression (env.preferring prefer) = analyzeQueryExpression env := by
  funext expression context
  rw [analyzeQueryExpression, analyzeQueryExpression,
    (preferring_induction env prefer).queryExpression]

end Mizugaki.Analyzer
