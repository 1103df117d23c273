import Mizugaki.Analyzer.Quiet
import Mizugaki.Control.Simulation

/-! Analyses over an expression analyzer that notes more than another one. What it notes in addition
is never read by the analysis, so that a run over the one is a run over the other apart from
these notes. This file has types, literals, names and the functions of the scalar expression
analyzer. -/

namespace Mizugaki.Analyzer

open Mizugaki.Ast Mizugaki.Plan Mizugaki.Control

variable {ρ σ : Type}

/-- A state over other notes. -/
def AnalyzerState.mapNotes (f : σ → ρ) (s : AnalyzerState σ) : AnalyzerState ρ where
  diagnostics := s.diagnostics
  fresh := s.fresh
  resolution := f s.resolution
  scopes := s.scopes
  sawAggregate := s.sawAggregate

@[simp] theorem AnalyzerState.mapNotes_resolution (f : σ → ρ) (s : AnalyzerState σ) :
    (s.mapNotes f).resolution = f s.resolution := rfl

/-- The environment with another expression analyzer. -/
def Environment.over (env : Environment ρ) (a : ExpressionAnalyzer σ) : Environment σ where
  options := env.options
  placeholders := env.placeholders
  hostParameters := env.hostParameters
  expressionAnalyzer := a
  isParameterApplicationConvertible := env.isParameterApplicationConvertible
  parsers := env.parsers
  source := env.source
  nameSuffixDistinct := env.nameSuffixDistinct

section

variable (env : Environment ρ) (a : ExpressionAnalyzer σ)

@[simp, grind =] theorem Environment.over_options : (env.over a).options = env.options := rfl
@[simp, grind =] theorem Environment.over_placeholders :
    (env.over a).placeholders = env.placeholders := rfl
@[simp, grind =] theorem Environment.over_hostParameters :
    (env.over a).hostParameters = env.hostParameters := rfl
@[simp, grind =] theorem Environment.over_expressionAnalyzer :
    (env.over a).expressionAnalyzer = a := rfl
@[simp, grind =] theorem Environment.over_parsers : (env.over a).parsers = env.parsers := rfl
@[simp, grind =] theorem Environment.over_source : (env.over a).source = env.source := rfl
@[simp, grind =] theorem Environment.over_nameSuffixDistinct :
    (env.over a).nameSuffixDistinct = env.nameSuffixDistinct := rfl
@[simp, grind =] theorem Environment.over_isParameterApplicationConvertible :
    (env.over a).isParameterApplicationConvertible = env.isParameterApplicationConvertible := rfl

@[simp] theorem identifierOf_over (name : SimpleName) (kind : NameKind) :
    identifierOf (env.over a) name kind = identifierOf env name kind := rfl
@[simp, grind =] theorem integerImmediate_over (value : Int) :
    integerImmediate (env.over a) value = integerImmediate env value := rfl
@[simp, grind =] theorem zoneOffset_over (offset : Option (Bool × Nat × Nat)) :
    zoneOffset (env.over a) offset = zoneOffset env offset := rfl
@[simp, grind =] theorem decimalImmediate_over (t : Triple) (digits scale : Nat) :
    decimalImmediate (env.over a) t digits scale = decimalImmediate env t digits scale := rfl

end

/-- `a` answers as `b` does, and the notes of `b` are the image of its own. -/
class ExpressionAnalyzer.Follows (f : outParam (σ → ρ)) (a : ExpressionAnalyzer σ)
    (b : outParam (ExpressionAnalyzer ρ)) : Prop where
  resolveScalar (r : σ) (e : Scalar) (validate : Bool) :
    b.resolveScalar (f r) e validate =
      ((a.resolveScalar r e validate).1, f (a.resolveScalar r e validate).2)
  resolveOperator (r : σ) (op : Operator) (validate : Bool) :
    b.resolveOperator (f r) op validate =
      ((a.resolveOperator r op validate).1, f (a.resolveOperator r op validate).2)
  isResolved (r : σ) (v : Variable) : b.isResolved (f r) v = a.isResolved r v
  bindColumn (r : σ) (v : Variable) (column : Column) :
    b.bindColumn (f r) v column = f (a.bindColumn r v column)
  bindAlias (r : σ) (v source : Variable) :
    b.bindAlias (f r) v source = f (a.bindAlias r v source)
  unbind (r : σ) (e : Scalar) : b.unbind (f r) e = f (a.unbind r e)

/-- A run over the notes of one analyzer is a run over their images. -/
abbrev Simulated {α : Type} (f : σ → ρ) (m : Analysis σ α) (n : Analysis ρ α) : Prop :=
  Check.Simulates (AnalyzerState.mapNotes f) m n

variable {f : σ → ρ}

/-! ### Steps -/

@[grind ←] theorem report_over (code : Code) (message : List Fragment) :
    Simulated f (report code message) (report code message) :=
  .modify fun _ => rfl

@[grind ←] theorem reject_over {α : Type} (code : Code) (message : List Fragment) :
    Simulated f (reject code message : Analysis σ α) (reject code message) :=
  (report_over code message).bind fun _ => .stop

@[grind ←] theorem fail_over {α : Type} : Simulated f (fail : Analysis σ α) fail := .stop

@[grind ←] theorem freshNumber_over : Simulated f freshNumber freshNumber :=
  .get_bind fun s => .bind (.modify fun _ => rfl) fun _ => .pure s.fresh

@[grind ←] theorem streamVariable_over : Simulated f streamVariable streamVariable :=
  freshNumber_over.map _

@[grind ←] theorem localVariable_over : Simulated f localVariable localVariable :=
  freshNumber_over.map _

@[grind ←] theorem frameVariable_over : Simulated f frameVariable frameVariable :=
  freshNumber_over.map _

@[grind ←] theorem streamVariables_over (n : Nat) :
    Simulated f (streamVariables n) (streamVariables n) := by
  induction n with
  | zero => exact .pure _
  | succ n ih =>
    unfold streamVariables
    grind

@[grind ←] theorem conclude_over {α : Type} (r : Resolution α) :
    Simulated f (conclude r) (conclude r) := by
  unfold conclude
  split
  · split
    · exact .pure _
    · exact reject_over ..
  · exact .bind (.modify fun _ => rfl) fun _ => .stop

@[grind ←] theorem currentScope_over : Simulated f currentScope currentScope := by
  refine .get_bind fun s => ?_
  have hscopes : (s.mapNotes f).scopes = s.scopes := rfl
  rw [hscopes]
  cases s.scopes <;> exact .pure _

@[grind ←] theorem scopes_over :
    Simulated f (Check.gets AnalyzerState.scopes) (Check.gets AnalyzerState.scopes) :=
  .gets fun _ => rfl

@[grind ←] theorem modifyScope_over (g : QueryScope → QueryScope) :
    Simulated f (modifyScope g) (modifyScope g) :=
  .modify fun _ => rfl

@[grind ←] theorem withScope_over {α : Type} (scope : QueryScope) {m : Analysis σ α}
    {n : Analysis ρ α} (h : Simulated f m n) :
    Simulated f (withScope scope m) (withScope scope n) :=
  .bind (.modify fun _ => rfl) fun _ => .bind h fun a => .bind currentScope_over fun left =>
    .bind (.modify fun _ => rfl) fun _ => .pure (a, left)

section

variable (env : Environment ρ) {a : ExpressionAnalyzer σ} [follows : a.Follows f env.expressionAnalyzer]

@[grind ←] theorem resolve_over (e : Scalar) (validate : Bool) :
    Simulated f (resolve (env.over a) e validate) (resolve env e validate) := by
  refine .get_bind fun s => ?_
  rw [AnalyzerState.mapNotes_resolution, follows.resolveScalar]
  exact .bind (.modify fun _ => rfl) fun _ => conclude_over _

@[grind ←] theorem resolveOperator_over (op : Operator) :
    Simulated f (resolveOperator (env.over a) op) (resolveOperator env op) := by
  refine .get_bind fun s => ?_
  rw [AnalyzerState.mapNotes_resolution, follows.resolveOperator]
  exact .bind (.modify fun _ => rfl) fun _ => conclude_over _

@[grind ←] theorem resolveAs_over (v : Variable) (column : Column) :
    Simulated f (resolveAs (env.over a) v column) (resolveAs env v column) :=
  .modify fun s => by
    rw [AnalyzerState.mapNotes_resolution, follows.bindColumn]
    rfl

@[grind ←] theorem resolveAsAlias_over (v source : Variable) :
    Simulated f (resolveAsAlias (env.over a) v source) (resolveAsAlias env v source) := by
  refine .modify fun s => ?_
  by_cases hv : a.isResolved s.resolution v = true
  · simp [follows.isResolved, hv]
  · by_cases hsource : a.isResolved s.resolution source = true
    · simp [follows.isResolved, follows.bindAlias, hv, hsource, AnalyzerState.mapNotes]
    · simp [follows.isResolved, hv, hsource]

@[grind ←] theorem clearExpressionResolution_over (e : Scalar) :
    Simulated f (clearExpressionResolution (env.over a) e) (clearExpressionResolution env e) :=
  .modify fun s => by
    rw [AnalyzerState.mapNotes_resolution, follows.unbind]
    rfl

end

section

variable (env : Environment ρ) (a : ExpressionAnalyzer σ)

/-! ### Types and literals -/

@[grind ←] theorem analyzeStringLength_over (kind : String) (varying : Bool)
    (length : Option Nat) :
    Simulated f (analyzeStringLength kind varying length)
      (analyzeStringLength kind varying length) := by
  unfold analyzeStringLength
  grind

@[grind ←] theorem analyzeDecimalType_over (precision scale : Option Nat) :
    Simulated f (analyzeDecimalType (env.over a) precision scale)
      (analyzeDecimalType env precision scale) := by
  unfold analyzeDecimalType
  grind

@[grind ←] theorem analyzeBinaryNumericType_over (kind : BinaryNumericKind)
    (precision : Option Nat) :
    Simulated f (analyzeBinaryNumericType (env.over a) kind precision)
      (analyzeBinaryNumericType env kind precision) := by
  unfold analyzeBinaryNumericType
  grind

@[grind ←] theorem analyzeType_over (type : TypeNode) :
    Simulated f (analyzeType (env.over a) type) (analyzeType env type) := by
  unfold analyzeType
  grind

@[grind ←] theorem processExactNumeric_over (sign : Option Sign) (n : Ast.ExactNumeric) :
    Simulated f (processExactNumeric (env.over a) sign n) (processExactNumeric env sign n) := by
  simp only [processExactNumeric, reportNotNormal, Environment.over_options,
    integerImmediate_over, decimalImmediate_over]
  grind

@[grind ←] theorem processApproximateNumeric_over (sign : Option Sign) (value : List Char) :
    Simulated f (processApproximateNumeric (env.over a) sign value)
      (processApproximateNumeric env sign value) := by
  unfold processApproximateNumeric
  grind

@[grind ←] theorem rejectQuotedString_over {α : Type} (q : List Char) :
    Simulated f (rejectQuotedString q : Analysis σ α) (rejectQuotedString q) :=
  reject_over _ _

@[grind ←] theorem countCharacters_over (q : List Char) :
    Simulated f (countCharacters q) (countCharacters q) := by
  unfold countCharacters
  grind

@[grind ←] theorem countHexDigits_over (q : List Char) :
    Simulated f (countHexDigits q) (countHexDigits q) := by
  unfold countHexDigits
  grind

@[grind ←] theorem countParts_over {count : List Char → Analysis σ Nat}
    {count' : List Char → Analysis ρ Nat} (h : ∀ q, Simulated f (count q) (count' q))
    (parts : List (List Char)) : Simulated f (countParts count parts) (countParts count' parts) := by
  induction parts with
  | nil => exact .pure _
  | cons q qs ih =>
    unfold countParts
    grind

@[grind ←] theorem processCharacterString_over (parts : List (List Char)) :
    Simulated f (processCharacterString (env.over a) parts) (processCharacterString env parts) := by
  unfold processCharacterString
  grind

@[grind ←] theorem appendQuotedHexDigitsUnchecked_over (parts : List (List Char)) :
    Simulated f (appendQuotedHexDigitsUnchecked (env.over a) parts)
      (appendQuotedHexDigitsUnchecked env parts) := by
  induction parts with
  | nil => exact .pure _
  | cons q qs ih =>
    unfold appendQuotedHexDigitsUnchecked
    grind

@[grind ←] theorem processBinaryString_over (parts : List (List Char)) :
    Simulated f (processBinaryString (env.over a) parts) (processBinaryString env parts) := by
  unfold processBinaryString
  grind

@[grind ←] theorem rejectDatetime_over {α : Type} (kind : String) (contents : List Char)
    (reason : String) :
    Simulated f (rejectDatetime kind contents reason : Analysis σ α)
      (rejectDatetime kind contents reason) :=
  reject_over _ _

@[grind ←] theorem processTimestamp_over (contents : List Char) (withTimeZone : Bool) :
    Simulated f (processTimestamp (env.over a) contents withTimeZone)
      (processTimestamp env contents withTimeZone) := by
  simp only [processTimestamp, Environment.over_parsers, zoneOffset_over]
  grind

@[grind ←] theorem processDatetime_over (kind : DatetimeKind) (quoted : List Char) :
    Simulated f (processDatetime (env.over a) kind quoted) (processDatetime env kind quoted) := by
  unfold processDatetime
  grind

@[grind ←] theorem processLiteral_over (context : ScalarValueContext) (literal : Literal) :
    Simulated f (processLiteral (env.over a) context literal)
      (processLiteral env context literal) := by
  unfold processLiteral
  grind

@[grind ←] theorem analyzeLiteral_over (literal : Literal) (context : ScalarValueContext) :
    Simulated f (analyzeLiteral (env.over a) literal context)
      (analyzeLiteral env literal context) := by
  unfold analyzeLiteral
  grind

/-! ### Names -/

@[simp, grind =] theorem findQueryInQuery_over (name : SimpleName) (scopes : List QueryScope) :
    findQueryInQuery (env.over a) name scopes = findQueryInQuery env name scopes := by
  induction scopes with
  | nil => rfl
  | cons scope parents ih => simp [findQueryInQuery, ih]

@[simp, grind =] theorem findDeclared_over (scopes : List QueryScope) (name : SimpleName)
    (targets : List SymbolKind) :
    findDeclared (env.over a) scopes name targets = findDeclared env scopes name targets := by
  unfold findDeclared
  rw [findQueryInQuery_over]
  rfl

@[grind ←] theorem findVariableInQuery_over (name : SimpleName) (scopes : List QueryScope)
    (depth : Nat) :
    Simulated f (findVariableInQuery (env.over a) name scopes depth)
      (findVariableInQuery env name scopes depth) := by
  induction scopes generalizing depth with
  | nil => exact .pure _
  | cons scope parents ih =>
    unfold findVariableInQuery reportColumnAmbiguous
    grind

@[grind ←] theorem findColumnInRelation_over (parent : RelationInfo) (name : SimpleName) :
    Simulated f (findColumnInRelation (env.over a) parent name)
      (findColumnInRelation env parent name) := by
  unfold findColumnInRelation reportColumnAmbiguous
  grind

@[grind ←] theorem findRelationInfoInQuery_over (name : SimpleName) (scopes : List QueryScope)
    (depth : Nat) :
    Simulated f (findRelationInfoInQuery (env.over a) name scopes depth)
      (findRelationInfoInQuery env name scopes depth) := by
  induction scopes generalizing depth with
  | nil => exact .pure _
  | cons scope parents ih =>
    unfold findRelationInfoInQuery reportRelationAmbiguous
    grind

@[grind ←] theorem findRelationInfoInSchema_over (scopes : List QueryScope) (schema : Schema)
    (name : SimpleName) :
    Simulated f (findRelationInfoInSchema (env.over a) scopes schema name)
      (findRelationInfoInSchema env scopes schema name) := by
  unfold findRelationInfoInSchema reportRelationAmbiguous
  grind

@[grind ←] theorem reportSymbolNotFound_over (name : Name) (targets : List SymbolKind) :
    Simulated f (reportSymbolNotFound name targets) (reportSymbolNotFound name targets) := by
  unfold reportSymbolNotFound
  dsimp only
  split
  all_goals first
    | exact report_over _ _
    | split_ifs <;> exact report_over _ _

@[grind ←] theorem concludeNotFound_over (name : Name) (targets : List SymbolKind)
    (reportNotFound : Bool) :
    Simulated f (concludeNotFound name targets reportNotFound)
      (concludeNotFound name targets reportNotFound) := by
  unfold concludeNotFound
  grind

@[grind ←] theorem searchFor_over {α : Type} (kind : SymbolKind) (targets : List SymbolKind)
    {search : Analysis σ (FindSymbolResult α)} {search' : Analysis ρ (FindSymbolResult α)}
    (h : Simulated f search search') :
    Simulated f (searchFor kind targets search) (searchFor kind targets search') := by
  unfold searchFor
  grind

@[grind ←] theorem findSymbolPrimary_over (scopes : List QueryScope) (name : SimpleName)
    (targets : List SymbolKind) (reportNotFound : Bool) :
    Simulated f (findSymbolPrimary (env.over a) scopes name targets reportNotFound)
      (findSymbolPrimary env scopes name targets reportNotFound) := by
  unfold findSymbolPrimary
  grind

@[grind ←] theorem findSymbolInSchema_over (scopes : List QueryScope) (schema : Schema)
    (name : SimpleName) (targets : List SymbolKind) :
    Simulated f (findSymbolInSchema (env.over a) scopes schema name targets)
      (findSymbolInSchema env scopes schema name targets) := by
  unfold findSymbolInSchema
  grind

@[grind ←] theorem findSymbolQualified_over (scopes : List QueryScope) (qualifier : SymbolInfo)
    (name : Name) (targets : List SymbolKind) (reportNotFound : Bool) :
    Simulated f (findSymbolQualified (env.over a) scopes qualifier name targets reportNotFound)
      (findSymbolQualified env scopes qualifier name targets reportNotFound) := by
  unfold findSymbolQualified
  cases qualifier <;> grind

@[grind ←] theorem findSymbol_over (scopes : List QueryScope) (name : Name)
    (targets : List SymbolKind) (reportNotFound : Bool) :
    Simulated f (findSymbol (env.over a) scopes name targets reportNotFound)
      (findSymbol env scopes name targets reportNotFound) := by
  induction name generalizing targets with
  | simple last => exact findSymbolPrimary_over env a scopes last targets reportNotFound
  | qualified q last ih =>
    unfold findSymbol
    grind

@[grind ←] theorem analyzeRelationInfoName_over (name : Name) :
    Simulated f (analyzeRelationInfoName (env.over a) name) (analyzeRelationInfoName env name) := by
  unfold analyzeRelationInfoName
  grind

@[grind ←] theorem analyzeRelationName_over (name : Name) :
    Simulated f (analyzeRelationName (env.over a) name) (analyzeRelationName env name) := by
  unfold analyzeRelationName
  grind

@[grind ←] theorem collectDecl_over {α : Type} (candidates : Schema → String → List α)
    (name : Name) :
    Simulated f (collectDecl (env.over a) candidates name) (collectDecl env candidates name) := by
  unfold collectDecl
  grind

@[grind ←] theorem analyzeFunctionName_over (name : Name) (argumentCount : Nat) :
    Simulated f (analyzeFunctionName (env.over a) name argumentCount)
      (analyzeFunctionName env name argumentCount) :=
  collectDecl_over env a _ name

@[grind ←] theorem analyzeAggregationName_over (name : Name) (argumentCount : Nat) :
    Simulated f (analyzeAggregationName (env.over a) name argumentCount)
      (analyzeAggregationName env name argumentCount) :=
  collectDecl_over env a _ name

@[grind ←] theorem analyzeDeclName_over {α : Type} (target : SymbolKind) (code : Code)
    (select : SymbolInfo → Option α) (name : Name) (mandatory : Bool) :
    Simulated f (analyzeDeclName (env.over a) target code select name mandatory)
      (analyzeDeclName env target code select name mandatory) := by
  unfold analyzeDeclName
  grind

@[grind ←] theorem addParameter_over (position : Nat) (free : Variable) :
    Simulated f (addParameter position free) (addParameter position free) := by
  refine scopes_over.bind fun scopes => ?_
  cases scopes[position]?.bind (·.findParameter free) with
  | some parameter => exact .pure parameter
  | none =>
    exact frameVariable_over.bind fun parameter => .bind (.modify fun _ => rfl) fun _ => .pure parameter

end

section

variable (env : Environment ρ) {a : ExpressionAnalyzer σ}
  [follows : a.Follows f env.expressionAnalyzer]

@[grind ←] theorem addParameters_over (found current : Variable) (positions : List Nat) :
    Simulated f (addParameters (env.over a) found current positions)
      (addParameters env found current positions) := by
  induction positions generalizing current with
  | nil => exact .pure _
  | cons position positions ih =>
    unfold addParameters
    grind

@[grind ←] theorem analyzeVariableName_over (name : Name) :
    Simulated f (analyzeVariableName (env.over a) name) (analyzeVariableName env name) := by
  unfold analyzeVariableName rejectVariable
  grind

end

/-! ### Scalar expressions -/

abbrev ScalarSimulated (f : σ → ρ) (x : ScalarAction σ) (y : ScalarAction ρ) : Prop :=
  ∀ context, Simulated f (x context) (y context)

abbrev QuerySimulated (f : σ → ρ) (q : QueryAction σ) (r : QueryAction ρ) : Prop :=
  ∀ context continueScope, Simulated f (q context continueScope) (r context continueScope)

abbrev ListSimulated (f : σ → ρ) : List (ScalarAction σ) → List (ScalarAction ρ) → Prop :=
  List.Forall₂ (ScalarSimulated f)

abbrev OptionSimulated (f : σ → ρ) : Option (ScalarAction σ) → Option (ScalarAction ρ) → Prop :=
  Option.Rel (ScalarSimulated f)

abbrev PairsSimulated (f : σ → ρ) :
    List (ScalarAction σ × ScalarAction σ) → List (ScalarAction ρ × ScalarAction ρ) → Prop :=
  List.Forall₂ fun x y => ScalarSimulated f x.1 y.1 ∧ ScalarSimulated f x.2 y.2

@[grind ←] theorem analyzeScalarExpression_over {x : ScalarAction σ} {y : ScalarAction ρ}
    (h : ScalarSimulated f x y) (context : ValueContext) :
    Simulated f (analyzeScalarExpression x context) (analyzeScalarExpression y context) :=
  .bind (.gets fun _ => rfl) fun _ => .bind (.modify fun _ => rfl) fun _ =>
    .bind (h context) fun value => .bind (.gets fun _ => rfl) fun sawAggregate =>
      .bind (.modify fun _ => rfl) fun _ => .pure (value, sawAggregate)

theorem option_over {x : Option (ScalarAction σ)} {y : Option (ScalarAction ρ)}
    (h : OptionSimulated f x y) (context : ValueContext) :
    Simulated f (Check.option (x.map (· context))) (Check.option (y.map (· context))) := by
  cases h with
  | none => exact .pure none
  | some h => exact .bind (h context) fun e => .pure (some e)

@[grind ←] theorem processWhenClauses_over
    {xs : List (ScalarAction σ × ScalarAction σ)} {ys : List (ScalarAction ρ × ScalarAction ρ)}
    (h : PairsSimulated f xs ys) (v : Option Variable) (context : ValueContext) :
    Simulated f (processWhenClauses v context xs) (processWhenClauses v context ys) := by
  induction h with
  | nil => exact .pure []
  | cons h _ ih => exact .bind (h.1 _) fun _ => .bind (h.2 _) fun _ => .bind ih fun _ => .pure _

@[grind ←] theorem processCase_over {x : Option (ScalarAction σ)} {y : Option (ScalarAction ρ)}
    {xs : List (ScalarAction σ × ScalarAction σ)} {ys : List (ScalarAction ρ × ScalarAction ρ)}
    {d : Option (ScalarAction σ)} {d' : Option (ScalarAction ρ)} (ho : OptionSimulated f x y)
    (hw : PairsSimulated f xs ys) (hd : OptionSimulated f d d') (context : ValueContext) :
    Simulated f (processCase x xs d context) (processCase y ys d' context) := by
  cases hw with
  | nil => exact reject_over _ _
  | cons h hs =>
    have hclauses := fun v => processWhenClauses_over (.cons h hs) v context
    have hdefault := option_over hd context
    cases ho with
    | none => exact .bind (hclauses none) fun _ => .bind hdefault fun _ => .pure _
    | some h =>
      exact .bind (h _) fun _ => .bind localVariable_over fun v => .bind (hclauses (some v)) fun _ =>
        .bind hdefault fun _ => .pure _

@[grind ←] theorem reportCastOperator_over (operator_ : CastOperator) :
    Simulated f (reportCastOperator operator_) (reportCastOperator operator_) := by
  unfold reportCastOperator
  grind

@[grind ←] theorem convertUnaryOperator_over (operator_ : Ast.UnaryOperator) :
    Simulated f (convertUnaryOperator operator_) (convertUnaryOperator operator_) := by
  unfold convertUnaryOperator
  grind

@[grind ←] theorem processUnary_over {x : ScalarAction σ} {y : ScalarAction ρ}
    (h : ScalarSimulated f x y) (operator_ : Ast.UnaryOperator) :
    Simulated f (processUnary operator_ x) (processUnary operator_ y) := by
  unfold processUnary
  grind

@[grind ←] theorem convertBinaryOperator_over (operator_ : Ast.BinaryOperator) :
    Simulated f (convertBinaryOperator operator_) (convertBinaryOperator operator_) := by
  unfold convertBinaryOperator
  grind

@[grind ←] theorem processIs_over {x : ScalarAction σ} {y : ScalarAction ρ}
    (h : ScalarSimulated f x y) (isNot : Bool) (right : ScalarExpression) :
    Simulated f (processIs x isNot right) (processIs y isNot right) := by
  unfold processIs convertIsRight
  grind

@[grind ←] theorem processBinary_over {l r : ScalarAction σ} {l' r' : ScalarAction ρ}
    (hl : ScalarSimulated f l l') (hr : ScalarSimulated f r r') (operator_ : Ast.BinaryOperator)
    (right : ScalarExpression) :
    Simulated f (processBinary l operator_ right r) (processBinary l' operator_ right r') := by
  unfold processBinary
  grind

@[grind ←] theorem processComparison_over {l r : ScalarAction σ} {l' r' : ScalarAction ρ}
    (hl : ScalarSimulated f l l') (hr : ScalarSimulated f r r')
    (operator_ : Ast.ComparisonOperator) :
    Simulated f (processComparison l operator_ r) (processComparison l' operator_ r') := by
  unfold processComparison
  grind

@[grind ←] theorem processBetween_over {x l r : ScalarAction σ} {x' l' r' : ScalarAction ρ}
    (hx : ScalarSimulated f x x') (hl : ScalarSimulated f l l') (hr : ScalarSimulated f r r')
    (isNot : Bool) (operator_ : Option BetweenOperator) :
    Simulated f (processBetween x isNot operator_ l r) (processBetween x' isNot operator_ l' r') := by
  refine .bind (hx _) fun _ => .bind (hl _) fun _ => .bind (hr _) fun _ => ?_
  have hasymmetric {g : Variable → Scalar} :
      Simulated f (localVariable >>= fun v => pure (g v)) (localVariable >>= fun v => pure (g v)) :=
    localVariable_over.bind fun _ => .pure _
  rcases operator_ with _ | _ | _
  · exact hasymmetric
  · exact hasymmetric
  · exact localVariable_over.bind fun _ => localVariable_over.bind fun _ =>
      localVariable_over.bind fun _ => .pure _

@[grind ←] theorem processPatternMatch_over {x p : ScalarAction σ} {x' p' : ScalarAction ρ}
    {e : Option (ScalarAction σ)} {e' : Option (ScalarAction ρ)} (hx : ScalarSimulated f x x')
    (hp : ScalarSimulated f p p') (he : OptionSimulated f e e') (isNot : Bool)
    (operator_ : PatternMatchOperator) :
    Simulated f (processPatternMatch x isNot operator_ p e)
      (processPatternMatch x' isNot operator_ p' e') :=
  .bind (hx _) fun _ => .bind (hp _) fun _ => .bind (option_over he _) fun _ => .pure _

@[grind ←] theorem analyzeAll_over {xs : List (ScalarAction σ)} {ys : List (ScalarAction ρ)}
    (h : ListSimulated f xs ys) : Simulated f (analyzeAll xs) (analyzeAll ys) := by
  induction h with
  | nil => exact .pure []
  | cons h _ ih => exact .bind (h _) fun _ => .bind ih fun _ => .pure _

@[grind ←] theorem callAggregate_over (function : AggregateDecl) (arguments : List Scalar) :
    Simulated f (callAggregate function arguments) (callAggregate function arguments) :=
  .bind (.modify fun _ => rfl) fun _ => .pure _

@[grind ←] theorem processCoalesce_over {xs : List (ScalarAction σ)} {ys : List (ScalarAction ρ)}
    (h : ListSimulated f xs ys) : Simulated f (processCoalesce xs) (processCoalesce ys) := by
  cases h with
  | nil => exact reject_over _ _
  | cons h hs => exact .bind (analyzeAll_over (.cons h hs)) fun _ => .pure _

section

variable (env : Environment ρ) (a : ExpressionAnalyzer σ)

@[simp, grind =] theorem isApplicable_over (types parameters : List TypeData) :
    isApplicable (env.over a) types parameters = isApplicable env types parameters := by
  induction types generalizing parameters with
  | nil => cases parameters <;> rfl
  | cons type types ih =>
    cases parameters with
    | nil => rfl
    | cons parameter parameters => simp [isApplicable, ih]

@[simp, grind =] theorem applicableFunctions_over (types : List TypeData)
    (functions : List FunctionDecl) :
    applicableFunctions (env.over a) types functions = applicableFunctions env types functions := by
  simp [applicableFunctions]

@[simp, grind =] theorem applicableAggregates_over (types : List TypeData)
    (aggregates : List AggregateDecl) :
    applicableAggregates (env.over a) types aggregates =
      applicableAggregates env types aggregates := by
  simp [applicableAggregates]

@[grind ←] theorem resolveOverload_over {δ : Type} (o : Overload δ) (left : δ) (rest : List δ) :
    Simulated f (resolveOverload (env.over a) o left rest) (resolveOverload env o left rest) := by
  induction rest generalizing left with
  | nil => exact .pure left
  | cons right rest ih =>
    simp only [resolveOverload, isApplicable_over]
    split_ifs
    · exact reject_over _ _
    all_goals exact ih _

@[grind ←] theorem findPlaceholder_over (identifier : String) (message : List Fragment) :
    Simulated f (findPlaceholder (env.over a) identifier message)
      (findPlaceholder env identifier message) := by
  unfold findPlaceholder
  grind

@[grind ←] theorem processCast_over {x : ScalarAction σ} {y : ScalarAction ρ}
    (h : ScalarSimulated f x y) (operator_ : CastOperator) (type : TypeNode) :
    Simulated f (processCast (env.over a) operator_ x type) (processCast env operator_ y type) := by
  unfold processCast
  grind

end

section

variable (env : Environment ρ) {a : ExpressionAnalyzer σ}
  [follows : a.Follows f env.expressionAnalyzer]

@[grind ←] theorem process_over {m : Analysis σ Scalar} {n : Analysis ρ Scalar}
    (h : Simulated f m n) : Simulated f (process (env.over a) m) (process env n) := by
  simp only [process, Environment.over_options]
  grind

@[grind ←] theorem analyzeArguments_over {xs : List (ScalarAction σ)} {ys : List (ScalarAction ρ)}
    (h : ListSimulated f xs ys) :
    Simulated f (analyzeArguments (env.over a) xs) (analyzeArguments env ys) := by
  induction h with
  | nil => exact .pure []
  | cons h _ ih =>
    exact .bind (h _) fun _ => .bind (resolve_over env _ _) fun _ => .bind ih fun _ => .pure _

@[grind ←] theorem processFunctionInvocation_over {xs : List (ScalarAction σ)}
    {ys : List (ScalarAction ρ)} (h : ListSimulated f xs ys) (name : Name) :
    Simulated f (processFunctionInvocation (env.over a) name xs)
      (processFunctionInvocation env name ys) := by
  simp only [processFunctionInvocation, h.length_eq, applicableFunctions_over,
    applicableAggregates_over]
  grind

@[grind ←] theorem processNullif_over {xs : List (ScalarAction σ)} {ys : List (ScalarAction ρ)}
    (h : ListSimulated f xs ys) :
    Simulated f (processNullif (env.over a) xs) (processNullif env ys) := by
  match xs, ys, h with
  | [], _, .nil => exact reject_over _ _
  | [_], _, .cons _ .nil => exact reject_over _ _
  | [_, _], _, .cons hl (.cons hr .nil) =>
    exact .bind (hl _) fun _ => .bind (hr _) fun _ => .bind (resolve_over env _ _) fun _ =>
      .bind localVariable_over fun _ => .pure _
  | _ :: _ :: _ :: _, _, .cons _ (.cons _ (.cons _ _)) => exact reject_over _ _

@[grind ←] theorem processDeclaredBuiltin_over {xs : List (ScalarAction σ)}
    {ys : List (ScalarAction ρ)} (h : ListSimulated f xs ys) (function : BuiltinFunctionKind) :
    Simulated f (processDeclaredBuiltin (env.over a) function xs)
      (processDeclaredBuiltin env function ys) := by
  simp only [processDeclaredBuiltin, h.length_eq, Environment.over_options,
    applicableFunctions_over]
  grind

@[grind ←] theorem processBuiltinFunction_over {xs : List (ScalarAction σ)}
    {ys : List (ScalarAction ρ)} (h : ListSimulated f xs ys) (function : BuiltinFunctionKind) :
    Simulated f (processBuiltinFunction (env.over a) function xs)
      (processBuiltinFunction env function ys) := by
  unfold processBuiltinFunction
  split <;> grind

@[grind ←] theorem processBuiltinSetFunction_over {xs : List (ScalarAction σ)}
    {ys : List (ScalarAction ρ)} (h : ListSimulated f xs ys) (function : BuiltinSetFunctionKind)
    (quantifier : Option Ast.SetQuantifier) :
    Simulated f (processBuiltinSetFunction (env.over a) function quantifier xs)
      (processBuiltinSetFunction env function quantifier ys) := by
  simp only [processBuiltinSetFunction, h.length_eq, Environment.over_options,
    Environment.over_nameSuffixDistinct, applicableAggregates_over]
  grind

@[grind ←] theorem processExtract_over {x : ScalarAction σ} {y : ScalarAction ρ}
    (h : ScalarSimulated f x y) (field : ExtractFieldKind) (subsecondDigits : Option Nat) :
    Simulated f (processExtract (env.over a) field subsecondDigits x)
      (processExtract env field subsecondDigits y) := by
  simp only [processExtract, validateExtractField, applicableFunctions_over]
  grind

end

/-! ### Subqueries -/

@[grind ←] theorem analyzeSubquery_over {q : QueryAction σ} {r : QueryAction ρ}
    (h : QuerySimulated f q r) : Simulated f (analyzeSubquery q) (analyzeSubquery r) :=
  .bind (currentScope_over.map _) fun _ => .bind (modifyScope_over _) fun _ =>
    .bind (withScope_over _ (h [] false)) fun _ => .bind (modifyScope_over _) fun _ => .pure _

@[grind ←] theorem singleColumn_over (columns : List ColumnInfo) :
    Simulated f (singleColumn columns) (singleColumn columns) := by
  unfold singleColumn
  grind

@[grind ←] theorem processSubquery_over {q : QueryAction σ} {r : QueryAction ρ}
    (h : QuerySimulated f q r) (contextKind : ExpressionContextKind) :
    Simulated f (processSubquery q contextKind) (processSubquery r contextKind) := by
  unfold processSubquery
  grind

@[grind ←] theorem quantifiedCompare_over {x : ScalarAction σ} {y : ScalarAction ρ}
    {q : QueryAction σ} {r : QueryAction ρ} (hx : ScalarSimulated f x y)
    (hq : QuerySimulated f q r) (operator_ : Plan.ComparisonOperator)
    (quantifier : Plan.Quantifier) :
    Simulated f (quantifiedCompare operator_ quantifier x q)
      (quantifiedCompare operator_ quantifier y r) := by
  unfold quantifiedCompare
  grind

@[grind ←] theorem processInValues_over {x : ScalarAction σ} {y : ScalarAction ρ}
    {xs : List (ScalarAction σ)} {ys : List (ScalarAction ρ)} (hx : ScalarSimulated f x y)
    (h : ListSimulated f xs ys) (isNot : Bool) :
    Simulated f (processInValues x isNot xs) (processInValues y isNot ys) := by
  cases h with
  | nil => exact reject_over _ _
  | cons h hs =>
    exact .bind (hx _) fun _ => .bind (h _) fun _ => .bind (analyzeAll_over hs) fun _ =>
      .bind localVariable_over fun _ => .pure _

@[grind ←] theorem processIn_over {x : ScalarAction σ} {y : ScalarAction ρ}
    {vs : Option (List (ScalarAction σ))} {ws : Option (List (ScalarAction ρ))}
    {q : QueryAction σ} {r : QueryAction ρ} (hx : ScalarSimulated f x y)
    (hv : Option.Rel (ListSimulated f) vs ws) (hq : QuerySimulated f q r) (isNot : Bool) :
    Simulated f (processIn x isNot vs q) (processIn y isNot ws r) := by
  cases hv with
  | some h => exact processInValues_over hx h isNot
  | none =>
    unfold processIn processInQuery
    grind

@[grind ←] theorem processTablePredicate_over {q : QueryAction σ} {r : QueryAction ρ}
    (h : QuerySimulated f q r) (operator_ : TableOperator) :
    Simulated f (processTablePredicate operator_ q) (processTablePredicate operator_ r) := by
  unfold processTablePredicate
  grind

end Mizugaki.Analyzer
