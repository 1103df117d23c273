import Mizugaki.Analyzer.Literal
import Mizugaki.Analyzer.Name
import Mizugaki.Analyzer.Query
import Mizugaki.Analyzer.Type

/-! Analyses that only number variables, report and resolve. They keep every relation of states
that these steps keep: one of them is that the scopes and the mark of set functions are left as
they are. -/

namespace Mizugaki.Analyzer

open Mizugaki.Ast Mizugaki.Plan Mizugaki.Control

variable {ρ : Type} (env : Environment ρ)

/-! ### Steps -/

/-- Numbering a variable and reporting keep a relation. -/
class Numbering (R : AnalyzerState ρ → AnalyzerState ρ → Prop) : Prop extends Check.Frame R where
  report (s : AnalyzerState ρ) (diagnostics : List Diagnostic) :
    R s { s with diagnostics := s.diagnostics ++ diagnostics }
  number (s : AnalyzerState ρ) : R s { s with fresh := s.fresh + 1 }

/-- What the expression analyzer notes of expressions and variables keeps a relation. -/
class Resolving (env : Environment ρ) (R : AnalyzerState ρ → AnalyzerState ρ → Prop) : Prop where
  scalar (s : AnalyzerState ρ) (e : Scalar) (validate : Bool) :
    R s { s with
      resolution := (env.expressionAnalyzer.resolveScalar s.resolution e validate).2 }
  column (s : AnalyzerState ρ) (v : Variable) (column : Column) :
    R s { s with resolution := env.expressionAnalyzer.bindColumn s.resolution v column }
  aliased (s : AnalyzerState ρ) (v source : Variable) :
    R s { s with resolution := env.expressionAnalyzer.bindAlias s.resolution v source }
  unbind (s : AnalyzerState ρ) (e : Scalar) :
    R s { s with resolution := env.expressionAnalyzer.unbind s.resolution e }

/-- What it notes of an operator keeps a relation. -/
class Placing (env : Environment ρ) (R : AnalyzerState ρ → AnalyzerState ρ → Prop) : Prop where
  operator (s : AnalyzerState ρ) (op : Operator) (h : op.isDifference = false) :
    R s { s with
      resolution := (env.expressionAnalyzer.resolveOperator s.resolution op false).2 }

/-- Between two states the scopes and the mark of set functions are the same, and the counter did
not go back. -/
structure Quiet (s t : AnalyzerState ρ) : Prop where
  scopes : t.scopes = s.scopes
  sawAggregate : t.sawAggregate = s.sawAggregate
  fresh : s.fresh ≤ t.fresh

instance : Numbering (Quiet : AnalyzerState ρ → AnalyzerState ρ → Prop) where
  refl _ := ⟨rfl, rfl, le_rfl⟩
  trans h k :=
    ⟨k.scopes.trans h.scopes, k.sawAggregate.trans h.sawAggregate, h.fresh.trans k.fresh⟩
  report _ _ := ⟨rfl, rfl, le_rfl⟩
  number _ := ⟨rfl, rfl, Nat.le_succ _⟩

instance : Resolving env Quiet where
  scalar _ _ _ := ⟨rfl, rfl, le_rfl⟩
  column _ _ _ := ⟨rfl, rfl, le_rfl⟩
  aliased _ _ _ := ⟨rfl, rfl, le_rfl⟩
  unbind _ _ := ⟨rfl, rfl, le_rfl⟩

instance : Placing env Quiet where
  operator _ _ _ := ⟨rfl, rfl, le_rfl⟩

/-- An analysis that leaves the scopes and the mark of set functions as they are. -/
abbrev IsQuiet {α : Type} (m : Analysis ρ α) : Prop := Check.Keeps Quiet m

variable {R : AnalyzerState ρ → AnalyzerState ρ → Prop} [Numbering R]

@[grind ←] theorem report_quiet (code : Code) (message : List Fragment) :
    Check.Keeps R (report code message : Analysis ρ Unit) :=
  .modify fun s => Numbering.report s _

@[grind ←] theorem reject_quiet {α : Type} (code : Code) (message : List Fragment) :
    Check.Keeps R (reject code message : Analysis ρ α) :=
  (report_quiet code message).bind fun _ => .stop

omit [Numbering R] in
@[grind ←] theorem fail_quiet {α : Type} : Check.Keeps R (fail : Analysis ρ α) := .stop

@[grind ←] theorem freshNumber_quiet : Check.Keeps R (freshNumber : Analysis ρ Nat) :=
  Check.Keeps.bind .get fun _ => Check.Keeps.bind (.modify Numbering.number) fun _ => .pure _

@[grind ←] theorem streamVariable_quiet : Check.Keeps R (streamVariable : Analysis ρ Variable) :=
  freshNumber_quiet.map _

@[grind ←] theorem localVariable_quiet : Check.Keeps R (localVariable : Analysis ρ Variable) :=
  freshNumber_quiet.map _

@[grind ←] theorem frameVariable_quiet : Check.Keeps R (frameVariable : Analysis ρ Variable) :=
  freshNumber_quiet.map _

@[grind ←] theorem streamVariables_quiet (n : Nat) :
    Check.Keeps R (streamVariables n : Analysis ρ (List Variable)) := by
  induction n with
  | zero => exact .pure _
  | succ n ih =>
    unfold streamVariables
    grind

@[grind ←] theorem conclude_quiet {α : Type} (r : Resolution α) :
    Check.Keeps R (conclude r : Analysis ρ α) := by
  unfold conclude
  split
  · split
    · exact .pure _
    · exact reject_quiet ..
  · exact Check.Keeps.bind (.modify fun s => Numbering.report s _) fun _ => .stop

@[grind ←] theorem resolve_quiet [Resolving env R] (e : Scalar) (validate : Bool) :
    Check.Keeps R (resolve env e validate) := by
  intro s t type h
  simp only [resolve, Check.bind_yields, Check.get_yields, Check.modify_yields] at h
  obtain ⟨_, _, ⟨rfl, rfl⟩, -, _, rfl, h⟩ := h
  exact Check.Frame.trans (‹Resolving env R›.scalar s e validate) (conclude_quiet _ h)

@[grind ←] theorem resolveOperator_quiet [Placing env R] (op : Operator)
    (hop : op.isDifference = false) : Check.Keeps R (resolveOperator env op) := by
  intro s t u h
  simp only [resolveOperator, Check.bind_yields, Check.get_yields, Check.modify_yields] at h
  obtain ⟨_, _, ⟨rfl, rfl⟩, -, _, rfl, h⟩ := h
  exact Check.Frame.trans (‹Placing env R›.operator s op hop) (conclude_quiet _ h)

omit [Numbering R] in
@[grind ←] theorem resolveAs_quiet [Resolving env R] (v : Variable) (column : Column) :
    Check.Keeps R (resolveAs env v column) :=
  .modify fun s => Resolving.column s v column

@[grind ←] theorem resolveAsAlias_quiet [Resolving env R] (v source : Variable) :
    Check.Keeps R (resolveAsAlias env v source) :=
  .modify fun s => by
    dsimp only
    split_ifs
    · exact Check.Frame.refl s
    · exact Resolving.aliased s v source
    · exact Check.Frame.refl s

omit [Numbering R] in
@[grind ←] theorem clearExpressionResolution_quiet [Resolving env R] (e : Scalar) :
    Check.Keeps R (clearExpressionResolution env e) :=
  .modify fun s => Resolving.unbind s e

/-! ### Types and literals -/

@[grind ←] theorem analyzeStringLength_quiet (kind : String) (varying : Bool)
    (length : Option Nat) :
    Check.Keeps R (analyzeStringLength kind varying length : Analysis ρ (Option Nat)) := by
  unfold analyzeStringLength
  grind

@[grind ←] theorem analyzeDecimalType_quiet (precision scale : Option Nat) :
    Check.Keeps R (analyzeDecimalType env precision scale) := by
  unfold analyzeDecimalType
  grind

@[grind ←] theorem analyzeBinaryNumericType_quiet (kind : BinaryNumericKind)
    (precision : Option Nat) : Check.Keeps R (analyzeBinaryNumericType env kind precision) := by
  unfold analyzeBinaryNumericType
  grind

@[grind ←] theorem analyzeType_quiet (type : TypeNode) : Check.Keeps R (analyzeType env type) := by
  unfold analyzeType
  grind

@[grind ←] theorem processExactNumeric_quiet (sign : Option Sign) (n : Ast.ExactNumeric) :
    Check.Keeps R (processExactNumeric env sign n) := by
  unfold processExactNumeric reportNotNormal
  grind

@[grind ←] theorem processApproximateNumeric_quiet (sign : Option Sign) (value : List Char) :
    Check.Keeps R (processApproximateNumeric env sign value) := by
  unfold processApproximateNumeric
  grind

@[grind ←] theorem rejectQuotedString_quiet {α : Type} (q : List Char) :
    Check.Keeps R (rejectQuotedString q : Analysis ρ α) :=
  reject_quiet ..

@[grind ←] theorem countCharacters_quiet (q : List Char) :
    Check.Keeps R (countCharacters q : Analysis ρ Nat) := by
  unfold countCharacters
  grind

@[grind ←] theorem countHexDigits_quiet (q : List Char) :
    Check.Keeps R (countHexDigits q : Analysis ρ Nat) := by
  unfold countHexDigits
  grind

@[grind ←] theorem countParts_quiet {count : List Char → Analysis ρ Nat}
    (h : ∀ q, Check.Keeps R (count q)) (parts : List (List Char)) : Check.Keeps R (countParts count parts) := by
  induction parts with
  | nil => exact .pure _
  | cons q qs ih =>
    unfold countParts
    grind

@[grind ←] theorem processCharacterString_quiet (parts : List (List Char)) :
    Check.Keeps R (processCharacterString env parts) :=
  (countParts_quiet countCharacters_quiet parts).bind fun _ => .pure _

@[grind ←] theorem appendQuotedHexDigitsUnchecked_quiet (parts : List (List Char)) :
    Check.Keeps R (appendQuotedHexDigitsUnchecked env parts) := by
  induction parts with
  | nil => exact .pure _
  | cons q qs ih =>
    unfold appendQuotedHexDigitsUnchecked
    grind

@[grind ←] theorem processBinaryString_quiet (parts : List (List Char)) :
    Check.Keeps R (processBinaryString env parts) :=
  (countParts_quiet countHexDigits_quiet parts).bind fun _ =>
    (appendQuotedHexDigitsUnchecked_quiet env parts).bind fun _ => .pure _

@[grind ←] theorem rejectDatetime_quiet {α : Type} (kind : String) (contents : List Char)
    (reason : String) : Check.Keeps R (rejectDatetime kind contents reason : Analysis ρ α) :=
  reject_quiet ..

@[grind ←] theorem processTimestamp_quiet (contents : List Char) (withTimeZone : Bool) :
    Check.Keeps R (processTimestamp env contents withTimeZone) := by
  unfold processTimestamp
  grind

@[grind ←] theorem processDatetime_quiet (kind : DatetimeKind) (quoted : List Char) :
    Check.Keeps R (processDatetime env kind quoted) := by
  unfold processDatetime
  grind

@[grind ←] theorem processLiteral_quiet (context : ScalarValueContext) (literal : Literal) :
    Check.Keeps R (processLiteral env context literal) := by
  unfold processLiteral
  grind

@[grind ←] theorem analyzeLiteral_quiet (literal : Literal) (context : ScalarValueContext) :
    Check.Keeps R (analyzeLiteral env literal context) := by
  unfold analyzeLiteral
  grind

/-! ### Names -/

@[grind ←] theorem reportColumnAmbiguous_quiet (name : Name) :
    Check.Keeps R (reportColumnAmbiguous name : Analysis ρ Unit) :=
  report_quiet ..

@[grind ←] theorem reportRelationAmbiguous_quiet (name : Name) :
    Check.Keeps R (reportRelationAmbiguous name : Analysis ρ Unit) :=
  report_quiet ..

@[grind ←] theorem findVariableInQuery_quiet (name : SimpleName) (scopes : List QueryScope)
    (depth : Nat) : Check.Keeps R (findVariableInQuery env name scopes depth) := by
  induction scopes generalizing depth with
  | nil => exact .pure _
  | cons scope parents ih =>
    unfold findVariableInQuery
    grind

@[grind ←] theorem findColumnInRelation_quiet (parent : RelationInfo) (name : SimpleName) :
    Check.Keeps R (findColumnInRelation env parent name) := by
  unfold findColumnInRelation
  grind

@[grind ←] theorem findRelationInfoInQuery_quiet (name : SimpleName) (scopes : List QueryScope)
    (depth : Nat) : Check.Keeps R (findRelationInfoInQuery env name scopes depth) := by
  induction scopes generalizing depth with
  | nil => exact .pure _
  | cons scope parents ih =>
    unfold findRelationInfoInQuery
    grind

@[grind ←] theorem findRelationInfoInSchema_quiet (scopes : List QueryScope) (schema : Schema)
    (name : SimpleName) : Check.Keeps R (findRelationInfoInSchema env scopes schema name) := by
  unfold findRelationInfoInSchema
  grind

@[grind ←] theorem reportSymbolNotFound_quiet (name : Name) (targets : List SymbolKind) :
    Check.Keeps R (reportSymbolNotFound name targets : Analysis ρ Unit) := by
  unfold reportSymbolNotFound
  dsimp only
  split
  all_goals first
    | exact report_quiet ..
    | split_ifs <;> exact report_quiet ..

@[grind ←] theorem concludeNotFound_quiet (name : Name) (targets : List SymbolKind)
    (reportNotFound : Bool) :
    Check.Keeps R (concludeNotFound name targets reportNotFound : Analysis ρ SymbolInfo) := by
  unfold concludeNotFound
  grind

@[grind ←] theorem searchFor_quiet {α : Type} (kind : SymbolKind) (targets : List SymbolKind)
    {search : Analysis ρ (FindSymbolResult α)} (h : Check.Keeps R search) :
    Check.Keeps R (searchFor kind targets search) := by
  unfold searchFor
  grind

@[grind ←] theorem findSymbolPrimary_quiet (scopes : List QueryScope) (name : SimpleName)
    (targets : List SymbolKind) (reportNotFound : Bool) :
    Check.Keeps R (findSymbolPrimary env scopes name targets reportNotFound) := by
  unfold findSymbolPrimary
  grind

@[grind ←] theorem findSymbolInSchema_quiet (scopes : List QueryScope) (schema : Schema)
    (name : SimpleName) (targets : List SymbolKind) :
    Check.Keeps R (findSymbolInSchema env scopes schema name targets) := by
  unfold findSymbolInSchema
  grind

@[grind ←] theorem findSymbolQualified_quiet (scopes : List QueryScope) (qualifier : SymbolInfo)
    (name : Name) (targets : List SymbolKind) (reportNotFound : Bool) :
    Check.Keeps R (findSymbolQualified env scopes qualifier name targets reportNotFound) := by
  unfold findSymbolQualified
  cases qualifier <;> grind

@[grind ←] theorem findSymbol_quiet (scopes : List QueryScope) (name : Name)
    (targets : List SymbolKind) (reportNotFound : Bool) :
    Check.Keeps R (findSymbol env scopes name targets reportNotFound) := by
  induction name generalizing targets with
  | simple last => exact findSymbolPrimary_quiet ..
  | qualified q last ih =>
    unfold findSymbol
    grind

@[grind ←] theorem analyzeRelationInfoName_quiet (name : Name) :
    Check.Keeps R (analyzeRelationInfoName env name) := by
  unfold analyzeRelationInfoName
  grind

@[grind ←] theorem analyzeRelationName_quiet (name : Name) :
    Check.Keeps R (analyzeRelationName env name) := by
  unfold analyzeRelationName
  grind

@[grind ←] theorem collectDecl_quiet {α : Type} (candidates : Schema → String → List α)
    (name : Name) : Check.Keeps R (collectDecl env candidates name) := by
  unfold collectDecl
  grind

@[grind ←] theorem analyzeFunctionName_quiet (name : Name) (count : Nat) :
    Check.Keeps R (analyzeFunctionName env name count) :=
  collectDecl_quiet ..

@[grind ←] theorem analyzeAggregationName_quiet (name : Name) (count : Nat) :
    Check.Keeps R (analyzeAggregationName env name count) :=
  collectDecl_quiet ..

/-! ### Scalar expressions -/

@[grind ←] theorem findPlaceholder_quiet (identifier : String) (message : List Fragment) :
    Check.Keeps R (findPlaceholder env identifier message) := by
  unfold findPlaceholder
  grind

@[grind ←] theorem convertUnaryOperator_quiet (op : Ast.UnaryOperator) :
    Check.Keeps R (convertUnaryOperator op : Analysis ρ Plan.UnaryOperator) := by
  unfold convertUnaryOperator
  grind

@[grind ←] theorem convertBinaryOperator_quiet (op : Ast.BinaryOperator) :
    Check.Keeps R (convertBinaryOperator op : Analysis ρ Plan.BinaryOperator) := by
  unfold convertBinaryOperator
  grind

@[grind ←] theorem convertIsRight_quiet (literal : Literal) :
    Check.Keeps R (convertIsRight literal : Analysis ρ Plan.UnaryOperator) := by
  unfold convertIsRight
  grind

@[grind ←] theorem reportCastOperator_quiet (op : CastOperator) :
    Check.Keeps R (reportCastOperator op : Analysis ρ Unit) := by
  unfold reportCastOperator
  grind

@[grind ←] theorem resolveOverload_quiet {δ : Type} (o : Overload δ) (left : δ) (rest : List δ) :
    Check.Keeps R (resolveOverload env o left rest) := by
  induction rest generalizing left with
  | nil => exact .pure _
  | cons right rest ih =>
    unfold resolveOverload
    grind

@[grind ←] theorem validateExtractField_quiet (field : ExtractFieldKind) (type : TypeData) :
    Check.Keeps R (validateExtractField field type : Analysis ρ Unit) := by
  unfold validateExtractField
  grind

@[grind ←] theorem singleColumn_quiet (columns : List ColumnInfo) :
    Check.Keeps R (singleColumn columns : Analysis ρ Variable) := by
  unfold singleColumn
  grind

/-! ### Queries -/

@[grind ←] theorem columnVariable_quiet (escapeColumns : Bool) (column : Column) :
    Check.Keeps R (columnVariable escapeColumns column : Analysis ρ Variable) := by
  unfold columnVariable
  grind

@[grind ←] theorem buildColumns_quiet [Resolving env R] (escapeColumns includeSystemColumns : Bool)
    (info : RelationInfo) (columns : List Column) :
    Check.Keeps R (buildColumns env escapeColumns includeSystemColumns info columns) := by
  induction columns generalizing info with
  | nil => exact .pure _
  | cons column columns ih =>
    unfold buildColumns
    grind

@[grind ←] theorem buildRelationInfo_quiet [Resolving env R] (table : Table)
    (escapeColumns includeSystemColumns : Bool) :
    Check.Keeps R (buildRelationInfo env table escapeColumns includeSystemColumns) :=
  buildColumns_quiet ..

@[grind ←] theorem processTableReference_quiet [Resolving env R] [Placing env R] (table : Table) :
    Check.Keeps R (processTableReference env table) := by
  unfold processTableReference
  grind

@[grind ←] theorem processQueryReference_quiet [Placing env R] (query : QueryInfo) (relation : Name) :
    Check.Keeps R (processQueryReference env query relation) := by
  unfold processQueryReference
  grind

@[grind ←] theorem processRelationReference_quiet [Resolving env R] [Placing env R] (relation : Name) :
    Check.Keeps R (processRelationReference env relation) := by
  unfold processRelationReference
  grind

@[grind ←] theorem renameColumns_quiet (names : List SimpleName) (seen : List String)
    (columns : List ColumnInfo) : Check.Keeps R (renameColumns env names seen columns) := by
  induction names generalizing seen columns with
  | nil =>
    unfold renameColumns
    exact .pure _
  | cons name names ih =>
    cases columns with
    | nil =>
      unfold renameColumns
      exact .pure _
    | cons column columns =>
      unfold renameColumns
      grind

@[grind ←] theorem rebuildRelationInfo_quiet (info : RelationInfo) (correlation : CorrelationClause) :
    Check.Keeps R (rebuildRelationInfo env info correlation) := by
  unfold rebuildRelationInfo
  grind

@[grind ←] theorem correlate_quiet (info : RelationInfo) (correlation : Option CorrelationClause) :
    Check.Keeps R (correlate env info correlation) := by
  unfold correlate
  grind

@[grind ←] theorem usingColumn_quiet (side identifier : String)
    (columns : List (Nat × Nat × Variable)) :
    Check.Keeps R (usingColumn side identifier columns : Analysis ρ (Nat × Nat × Variable)) := by
  unfold usingColumn
  grind

@[grind ←] theorem returnedColumns_quiet (target : FunctionDecl) :
    Check.Keeps R (returnedColumns target : Analysis ρ (List String)) := by
  unfold returnedColumns
  grind

@[grind ←] theorem correlationNames_quiet (seen : List String) (names : List SimpleName) :
    Check.Keeps R (correlationNames env seen names) := by
  induction names generalizing seen with
  | nil => exact .pure _
  | cons name names ih =>
    unfold correlationNames
    grind

@[grind ←] theorem applyColumnNames_quiet (target : FunctionDecl) (returned : List String)
    (correlation : CorrelationClause) :
    Check.Keeps R (applyColumnNames env target returned correlation) := by
  unfold applyColumnNames
  grind

@[grind ←] theorem processDistinct_quiet [Placing env R] (quantifier : Option Ast.SetQuantifier)
    (info : RelationInfo) : Check.Keeps R (processDistinct env quantifier info) := by
  unfold processDistinct
  grind

@[grind ←] theorem reportNullLocation_quiet (nullLocation : Option NullOrderingSpecification) :
    Check.Keeps R (reportNullLocation nullLocation : Analysis ρ Unit) := by
  unfold reportNullLocation
  grind

@[grind ←] theorem extractSize_quiet [Resolving env R] (e : Scalar) :
    Check.Keeps R (extractSize env e) := by
  refine (clearExpressionResolution_quiet env e).bind fun _ => ?_
  cases e with
  | immediate value type =>
    dsimp only
    split
    · exact .pure _
    · exact reject_quiet ..
  | _ => exact reject_quiet ..

/-! ### Set functions -/

@[grind ←] theorem reportVariable_quiet (inside : Bool) :
    Check.Keeps R (reportVariable inside : Analysis ρ Unit) :=
  report_quiet ..

@[grind ←] theorem checkReference_quiet (p : SetFunctionProcessor) (inside : Bool) (v : Variable) :
    Check.Keeps R (checkReference p inside v : Analysis ρ Unit) := by
  unfold checkReference checkVariable
  grind

@[grind ←] theorem reportParameters_quiet (p : SetFunctionProcessor) (inside : Bool)
    (parameters : List (Variable × Variable)) :
    Check.Keeps R (reportParameters p inside parameters : Analysis ρ Unit) := by
  induction parameters with
  | nil => exact .pure _
  | cons parameter rest ih =>
    unfold reportParameters
    grind

@[grind ←] theorem checkParameters_quiet (p : SetFunctionProcessor) (inside : Bool)
    (parameters : List (Variable × Variable)) :
    Check.Keeps R (checkParameters p inside parameters : Analysis ρ Unit) := by
  induction parameters with
  | nil => exact .pure _
  | cons parameter rest ih =>
    unfold checkParameters
    grind

@[grind ←] theorem replaceArguments_quiet (p : SetFunctionProcessor) (arguments : List Scalar) :
    Check.Keeps R (replaceArguments p arguments : Analysis ρ _) := by
  induction arguments generalizing p with
  | nil => exact .pure _
  | cons e es ih =>
    unfold replaceArguments
    grind

@[grind ←] theorem consume_quiet [Resolving env R] (p : SetFunctionProcessor)
    (function : AggregateDecl) (arguments : List Scalar) :
    Check.Keeps R (consume env p function arguments) := by
  refine (clearExpressionResolution_quiet env _).bind fun _ =>
    (replaceArguments_quiet _ _).bind fun r => ?_
  dsimp only
  cases r.2.findAggregation function r.1 with
  | some existing => exact .pure _
  | none => exact streamVariable_quiet.bind fun _ => .pure _

mutual

@[grind ←] theorem processSetFunctions_quiet [Resolving env R] (inside : Bool) :
    ∀ (e : Scalar) (p : SetFunctionProcessor), Check.Keeps R (processSetFunctions env inside e p)
  | .immediate _ _, _ => .pure _
  | .variableReference v, p => (checkReference_quiet p inside v).bind fun _ => .pure _
  | .cast _ _ operand, p => (processSetFunctions_quiet inside operand p).bind fun _ => .pure _
  | .unary _ operand, p => (processSetFunctions_quiet inside operand p).bind fun _ => .pure _
  | .binary _ left right, p => (processSetFunctions_quiet inside left p).bind fun _ =>
      (processSetFunctions_quiet inside right _).bind fun _ => .pure _
  | .compare _ left right, p => (processSetFunctions_quiet inside left p).bind fun _ =>
      (processSetFunctions_quiet inside right _).bind fun _ => .pure _
  | .match_ _ input pattern escape, p => (processSetFunctions_quiet inside input p).bind fun _ =>
      (processSetFunctions_quiet inside pattern _).bind fun _ =>
        (processSetFunctions_quiet inside escape _).bind fun _ => .pure _
  | .conditional alternatives default_, p =>
    (processAlternatives_quiet inside alternatives p).bind fun _ =>
      (processDefault_quiet inside default_ _).bind fun _ => .pure _
  | .coalesce alternatives, p =>
    (processOperands_quiet inside alternatives p).bind fun _ => .pure _
  | .let_ variables_ body, p => (processLetVariables_quiet inside variables_ p).bind fun _ =>
      (processSetFunctions_quiet inside body _).bind fun _ => .pure _
  | .functionCall _ arguments, p =>
    (processOperands_quiet inside arguments p).bind fun _ => .pure _
  | .aggregateFunctionCall function arguments, p => by
    rw [processSetFunctions]
    split_ifs
    · exact reject_quiet ..
    · exact (processOperands_quiet true arguments p).bind fun _ => consume_quiet env ..
  | .subquery _ parameters _, p => (checkParameters_quiet p inside parameters).bind fun _ => .pure _
  | .exists_ _ parameters, p => (checkParameters_quiet p inside parameters).bind fun _ => .pure _
  | .quantifiedCompare _ _ left _ parameters _, p =>
    (checkParameters_quiet p inside parameters).bind fun _ =>
      (processSetFunctions_quiet inside left p).bind fun _ => .pure _
termination_by structural e => e

theorem processOperands_quiet [Resolving env R] (inside : Bool) :
    ∀ (es : List Scalar) (p : SetFunctionProcessor), Check.Keeps R (processOperands env inside es p)
  | [], _ => .pure _
  | e :: es, p => (processSetFunctions_quiet inside e p).bind fun _ =>
      (processOperands_quiet inside es _).bind fun _ => .pure _
termination_by structural es => es

theorem processAlternatives_quiet [Resolving env R] (inside : Bool) :
    ∀ (alternatives : List (Scalar × Scalar)) (p : SetFunctionProcessor),
      Check.Keeps R (processAlternatives env inside alternatives p)
  | [], _ => .pure _
  | (condition, body) :: rest, p => (processSetFunctions_quiet inside condition p).bind fun _ =>
      (processSetFunctions_quiet inside body _).bind fun _ =>
        (processAlternatives_quiet inside rest _).bind fun _ => .pure _
termination_by structural alternatives => alternatives

theorem processDefault_quiet [Resolving env R] (inside : Bool) :
    ∀ (e : Option Scalar) (p : SetFunctionProcessor), Check.Keeps R (processDefault env inside e p)
  | none, _ => .pure _
  | some e, p => (processSetFunctions_quiet inside e p).bind fun _ => .pure _
termination_by structural e => e

theorem processLetVariables_quiet [Resolving env R] (inside : Bool) :
    ∀ (variables_ : List (Variable × Scalar)) (p : SetFunctionProcessor),
      Check.Keeps R (processLetVariables env inside variables_ p)
  | [], _ => .pure _
  | (_, value) :: rest, p => (processSetFunctions_quiet inside value p).bind fun _ =>
      (processLetVariables_quiet inside rest _).bind fun _ => .pure _
termination_by structural variables_ => variables_

end

@[grind ←] theorem processColumns_quiet [Resolving env R] (columns : List (Variable × Scalar))
    (p : SetFunctionProcessor) : Check.Keeps R (processColumns env columns p) := by
  induction columns generalizing p with
  | nil => exact .pure _
  | cons column columns ih =>
    exact (processSetFunctions_quiet env false column.2 p).bind fun _ => (ih _).bind fun _ => .pure _

@[grind ←] theorem processSortColumns_quiet [Resolving env R] (sort : Option SortList)
    (p : SetFunctionProcessor) : Check.Keeps R (processSortColumns env sort p) := by
  unfold processSortColumns
  grind

@[grind ←] theorem installOperator_quiet [Placing env R] (op : Option Operator)
    (hop : ∀ o ∈ op, o.isDifference = false) (port : Graph) :
    Check.Keeps R (installOperator env op port) := by
  cases op with
  | none => exact .pure _
  | some op => exact (resolveOperator_quiet env op (hop op rfl)).bind fun _ => .pure _

@[grind ←] theorem install_quiet [Placing env R] (p : SetFunctionProcessor) (port : Graph) :
    Check.Keeps R (install env p port) := by
  refine (installOperator_quiet env _ (fun o ho => ?_) port).bind fun _ =>
    installOperator_quiet env _ (fun o ho => ?_) _
  · obtain ⟨columns, -, rfl⟩ := Option.map_eq_some_iff.mp ho
    rfl
  · obtain ⟨columns, -, rfl⟩ := Option.map_eq_some_iff.mp ho
    rfl

@[grind ←] theorem resolveSort_quiet [Placing env R] (sort : Option SortList) :
    Check.Keeps R (resolveSort env sort) := by
  unfold resolveSort
  grind

@[grind ←] theorem installSetFunctions_quiet [Resolving env R] [Placing env R]
    {q : SetFunctionProcessor} {entry : Graph} {b : QueryBlock} :
    Check.Keeps R (installSetFunctions env q entry b) := by
  unfold installSetFunctions
  grind

@[grind ←] theorem processSetOperation_quiet [Placing env R] (operation : SetOperation)
    (quantifier : Plan.SetQuantifier) (left right : Graph) (lefts rights : List ColumnInfo) :
    Check.Keeps R (processSetOperation env operation quantifier left right lefts rights) := by
  unfold processSetOperation processUnion processExceptIntersect
  grind

@[grind ←] theorem declaredColumnNames_quiet (seen : List String) (names : List SimpleName) :
    Check.Keeps R (declaredColumnNames env seen names) := by
  induction names generalizing seen with
  | nil => exact .pure _
  | cons name names ih =>
    unfold declaredColumnNames
    grind

@[grind ←] theorem commonTableColumnNames_quiet (declared : List SimpleName)
    (names : List (Option String)) : Check.Keeps R (commonTableColumnNames env declared names) := by
  unfold commonTableColumnNames
  grind

end Mizugaki.Analyzer
