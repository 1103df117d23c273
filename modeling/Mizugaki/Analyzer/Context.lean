import Mizugaki.Analyzer.QueryScope
import Mizugaki.Ast.Expression
import Mizugaki.Control.Check

/-! The context of an analysis: options and catalog, the diagnostics reported so
far, the counter of fresh variables and the chain of query scopes. The expression
analyzer and the type conversions belong to the compiler library underneath; they
are parameters of the environment, over a state of their own that is only passed on. -/

namespace Mizugaki.Analyzer

open Mizugaki.Ast Mizugaki.Plan Mizugaki.Control

/-! ### Diagnostics -/

/-- `sql_analyzer_code`. -/
inductive Code where
  | unknown | unsupportedFeature | malformedSyntax | missingContextOfDefaultValue
  | missingContextOfNull | unsupportedDecimalValue | malformedApproximateNumber
  | unsupportedApproximateNumber | malformedQuotedString | unsupportedStringValue
  | flexibleLengthIsNotSupported | invalidTypeLength | invalidNumericScale | catalogNotFound
  | schemaNotFound | tableNotFound | indexNotFound | viewNotFound | sequenceNotFound
  | columnNotFound | variableNotFound | functionNotFound | symbolNotFound | schemaAlreadyExists
  | tableAlreadyExists | indexAlreadyExists | viewAlreadyExists | sequenceAlreadyExists
  | columnAlreadyExists | variableAlreadyExists | functionAlreadyExists | symbolAlreadyExists
  | primaryIndexNotFound | primaryIndexAlreadyExists | invalidConstraint | invalidSequenceValue
  | relationAmbiguous | variableAmbiguous | columnAmbiguous | functionAmbiguous
  | invalidUnsignedInteger | inconsistentTable | inconsistentColumns | invalidAggregationColumn
  | ambiguousType | inconsistentType | unresolvedVariable | inconsistentElements
  | inconsistentFunctionType
  deriving DecidableEq, Repr

/-- `symbol_kind`. -/
inductive SymbolKind where
  | columnVariable | fieldVariable | schemaVariable | relationInfo | relationDecl | queryDecl
  | schemaDecl | catalogDecl | tableDecl | indexDecl
  deriving DecidableEq, Repr

/-- A piece of a message: a text, a printed value, or `node` for the printed syntax node that
the diagnostic is about. -/
inductive Fragment where
  | text (value : String)
  | name (value : Name)
  | size (value : Nat)
  | integer (value : Int)
  | type (value : TypeData)
  | value (value : ValueData)
  | symbols (value : List SymbolKind)
  | chars (value : List Char)
  | node
  deriving DecidableEq, Repr

structure Diagnostic where
  code : Code
  message : List Fragment
  deriving DecidableEq, Repr

/-! ### Options and catalog -/

/-- `MPD_MAX_PREC`: a decimal context of a larger precision cannot be built. -/
def decimalMaxPrecision : Nat := 999999999999999999

/-- `sql_analyzer_options`. The zone offset is in minutes. -/
structure Options where
  catalog : Catalog
  schemaSearchPath : List Schema
  defaultSchema : Schema
  lowercaseRegularIdentifiers : Bool
  lowercaseVariableRegularIdentifiers : Bool
  lowercaseFunctionRegularIdentifiers : Bool
  lowercaseRelationRegularIdentifiers : Bool
  lowercaseSchemaRegularIdentifiers : Bool
  lowercaseCatalogRegularIdentifiers : Bool
  maxDecimalPrecision : Nat
  maxDecimalPrecision_bounds : 1 ≤ maxDecimalPrecision ∧ maxDecimalPrecision ≤ decimalMaxPrecision
  defaultDecimalPrecision : Option Nat
  maxBinaryInteger1Precision : Nat
  maxBinaryInteger2Precision : Nat
  maxBinaryInteger4Precision : Nat
  maxBinaryInteger8Precision : Nat
  maxBinaryFloat4Precision : Nat
  maxBinaryFloat8Precision : Nat
  allowContextIndependentNull : Bool
  preferWriteStatement : Bool
  hostParameterDeclarationStartsWithColon : Bool
  preferSmallIntegerLiterals : Bool
  preferSmallCharacterLiterals : Bool
  preferSmallBinaryLiterals : Bool
  preferSmallDecimalLiterals : Bool
  validateScalarExpressions : Bool
  castLiteralsInContext : Bool
  defaultSequenceCycle : Bool
  advanceSequenceFunctionName : String
  systemZoneOffset : Int

/-! ### The compiler library -/

/-- `yugawara::analyzer::expression_analyzer_code`. -/
inductive ExpressionAnalyzerCode where
  | unknown | unsupportedType | ambiguousType | inconsistentType | unresolvedVariable
  | inconsistentElements | inconsistentFunctionType
  deriving DecidableEq, Repr

/-- `analyzer_context::convert_code`. -/
def convertCode : ExpressionAnalyzerCode → Code
  | .unknown => .unknown
  | .unsupportedType => .unsupportedFeature
  | .ambiguousType => .ambiguousType
  | .inconsistentType => .inconsistentType
  | .unresolvedVariable => .unresolvedVariable
  | .inconsistentElements => .inconsistentElements
  | .inconsistentFunctionType => .functionNotFound

/-- What the expression analyzer reports, and its result. -/
structure Resolution (α : Type) where
  diagnostics : List (ExpressionAnalyzerCode × String)
  result : Option α

/-- `yugawara::analyzer::expression_analyzer`, over its own state. -/
structure ExpressionAnalyzer (ρ : Type) where
  resolveScalar : ρ → Scalar → Bool → Resolution TypeData × ρ
  resolveOperator : ρ → Operator → Bool → Resolution Unit × ρ
  isResolved : ρ → Variable → Bool
  bindColumn : ρ → Variable → Column → ρ
  bindAlias : ρ → Variable → Variable → ρ
  clearExpressions : ρ → ρ
  unbind : ρ → Scalar → ρ

/-- The result of `std::stod`: the bits of the number and the count of characters read. -/
inductive StodResult where
  | value (bits : Nat) (index : Nat)
  | invalidArgument
  | outOfRange
  deriving DecidableEq, Repr

/-- A datetime as parsed: nanoseconds from the epoch, and the zone offset. -/
structure DatetimeInfo where
  timePoint : Int
  offset : Option (Bool × Nat × Nat)
  deriving DecidableEq, Repr

/-- The parsers of literal contents. -/
structure LiteralParsers where
  stod : List Char → StodResult
  parseOctet : List Char → Except String (List Char)
  parseDate : List Char → Except String Int
  parseTime : List Char → Except String Int
  parseDatetime : List Char → Except String DatetimeInfo

/-- What an analysis reads. -/
structure Environment (ρ : Type) where
  options : Options
  placeholders : String → Option (ValueData × TypeData)
  hostParameters : String → Option ExternalVariable
  expressionAnalyzer : ExpressionAnalyzer ρ
  isParameterApplicationConvertible : TypeData → TypeData → Bool
  parsers : LiteralParsers
  source : Option (List Char)
  /-- `yugawara::aggregate::declaration::name_suffix_distinct`. -/
  nameSuffixDistinct : String

/-! ### State -/

/-- What an analysis changes. The scopes are the chain of the current query scope, innermost
first; `sawAggregate` belongs to the scalar expression under analysis. -/
structure AnalyzerState (ρ : Type) where
  diagnostics : List Diagnostic
  fresh : Nat
  resolution : ρ
  scopes : List QueryScope
  sawAggregate : Bool

abbrev Analysis (ρ α : Type) := Check (AnalyzerState ρ) α

variable {ρ : Type} (env : Environment ρ)

/-- `analyzer_context::report`. -/
def report (code : Code) (message : List Fragment) : Analysis ρ Unit :=
  Check.modify fun s => { s with diagnostics := s.diagnostics ++ [⟨code, message⟩] }

/-- Report and fail, as an early return without a value does. -/
def reject {α : Type} (code : Code) (message : List Fragment) : Analysis ρ α := do
  report code message
  Check.stop

/-- Fail after the callee reported. -/
def fail {α : Type} : Analysis ρ α := Check.stop

/-! ### Fresh variables -/

def freshNumber : Analysis ρ Nat := do
  let s ← Check.get
  Check.modify fun s => { s with fresh := s.fresh + 1 }
  return s.fresh

/-- `factory::stream_variable`. -/
def streamVariable : Analysis ρ Variable := Variable.stream <$> freshNumber

/-- `factory::local_variable`. -/
def localVariable : Analysis ρ Variable := Variable.localVariable <$> freshNumber

/-- `factory::frame_variable`. -/
def frameVariable : Analysis ρ Variable := Variable.frame <$> freshNumber

def streamVariables : Nat → Analysis ρ (List Variable)
  | 0 => return []
  | n + 1 => do
    let v ← streamVariable
    let vs ← streamVariables n
    return v :: vs

/-- The stream variables that a number of fresh ones becomes from a state of the counter. -/
def freshStreams (first count : Nat) : List Variable := (List.range' first count).map .stream

theorem freshStreams_succ (first count : Nat) :
    freshStreams first (count + 1) = .stream first :: freshStreams (first + 1) count := rfl

theorem streamVariable_run (s : AnalyzerState ρ) :
    streamVariable s = (some (.stream s.fresh), { s with fresh := s.fresh + 1 }) := rfl

theorem streamVariables_run (n : Nat) (s : AnalyzerState ρ) :
    streamVariables n s = (some (freshStreams s.fresh n), { s with fresh := s.fresh + n }) := by
  induction n generalizing s with
  | zero => rfl
  | succ n ih =>
    rw [streamVariables, Check.bind_run, streamVariable_run]
    dsimp only
    rw [Check.bind_run, ih]
    dsimp only
    rw [Check.pure_run, freshStreams_succ, Nat.add_assoc, Nat.add_comm 1 n]

@[simp] theorem streamVariable_yields (s t : AnalyzerState ρ) (v : Variable) :
    streamVariable s = (some v, t) ↔ .stream s.fresh = v ∧ { s with fresh := s.fresh + 1 } = t := by
  simp [streamVariable_run]

@[simp] theorem streamVariables_yields (n : Nat) (s t : AnalyzerState ρ) (vs : List Variable) :
    streamVariables n s = (some vs, t) ↔
      freshStreams s.fresh n = vs ∧ { s with fresh := s.fresh + n } = t := by
  simp [streamVariables_run]

/-! ### Resolution -/

/-- Report what the expression analyzer reported; without a report a missing result is one. -/
def conclude {α : Type} (r : Resolution α) : Analysis ρ α := do
  match r.diagnostics with
  | [] =>
    match r.result with
    | some a => return a
    | none =>
      reject .unknown [.text "unknown error occurred while analyzing type of scalar expression"]
  | ds => do
    Check.modify fun s =>
      { s with diagnostics := s.diagnostics ++ ds.map fun d => ⟨convertCode d.1, [.text d.2]⟩ }
    fail

/-- `analyzer_context::resolve`, of a scalar expression. -/
def resolve (e : Scalar) (validate : Bool := false) : Analysis ρ TypeData := do
  let s ← Check.get
  let (r, t) := env.expressionAnalyzer.resolveScalar s.resolution e validate
  Check.modify fun s => { s with resolution := t }
  conclude r

/-- `analyzer_context::resolve`, of a relational operator. -/
def resolveOperator (op : Operator) : Analysis ρ Unit := do
  let s ← Check.get
  let (r, t) := env.expressionAnalyzer.resolveOperator s.resolution op false
  Check.modify fun s => { s with resolution := t }
  conclude r

/-- `analyzer_context::resolve_as`, of a column. -/
def resolveAs (v : Variable) (column : Column) : Analysis ρ Unit :=
  Check.modify fun s =>
    { s with resolution := env.expressionAnalyzer.bindColumn s.resolution v column }

/-- Resolve a variable as an alias of another unless it is resolved, with
`analyzer_context::is_resolved` and `analyzer_context::resolve_as_alias`. -/
def resolveAsAlias (v source : Variable) : Analysis ρ Unit :=
  Check.modify fun s =>
    let r := s.resolution
    if env.expressionAnalyzer.isResolved r v then s
    else if env.expressionAnalyzer.isResolved r source then
      { s with resolution := env.expressionAnalyzer.bindAlias r v source }
    else s

/-- `analyzer_context::clear_expression_resolution`, of one expression. -/
def clearExpressionResolution (e : Scalar) : Analysis ρ Unit :=
  Check.modify fun s => { s with resolution := env.expressionAnalyzer.unbind s.resolution e }

/-! ### Scopes -/

def currentScope : Analysis ρ QueryScope := do
  let s ← Check.get
  match s.scopes with
  | scope :: _ => return scope
  | [] => return .empty

def modifyScope (f : QueryScope → QueryScope) : Analysis ρ Unit :=
  Check.modify fun s => { s with scopes := s.scopes.modify 0 f }

/-- Run under a new scope whose parent is the current one, and return the scope as it is left. -/
def withScope {α : Type} (scope : QueryScope) (m : Analysis ρ α) : Analysis ρ (α × QueryScope) := do
  Check.modify fun s => { s with scopes := scope :: s.scopes }
  let a ← m
  let left ← currentScope
  Check.modify fun s => { s with scopes := s.scopes.tail }
  return (a, left)

/-- The current scope of a state; without scopes it is an empty one. -/
def AnalyzerState.scope (s : AnalyzerState ρ) : QueryScope := s.scopes.headD .empty

/-- Enter a scope. -/
def AnalyzerState.enter (s : AnalyzerState ρ) (scope : QueryScope) : AnalyzerState ρ :=
  { s with scopes := scope :: s.scopes }

/-- Leave the current scope. -/
def AnalyzerState.leave (s : AnalyzerState ρ) : AnalyzerState ρ :=
  { s with scopes := s.scopes.tail }

theorem currentScope_run (s : AnalyzerState ρ) : currentScope s = (some s.scope, s) := by
  simp only [currentScope, AnalyzerState.scope, Check.bind_run, Check.get]
  cases s.scopes <;> rfl

@[simp] theorem currentScope_yields (s t : AnalyzerState ρ) (scope : QueryScope) :
    currentScope s = (some scope, t) ↔ s.scope = scope ∧ s = t := by
  simp [currentScope_run]

@[simp] theorem withScope_yields {α : Type} (scope left : QueryScope) (m : Analysis ρ α)
    (s t : AnalyzerState ρ) (a : α) :
    withScope scope m s = (some (a, left), t) ↔
      ∃ u, m (s.enter scope) = (some a, u) ∧ u.scope = left ∧ u.leave = t := by
  simp only [withScope, Check.bind_yields, Check.modify_yields, currentScope_yields,
    Check.pure_yields, Prod.mk.injEq]
  constructor
  · rintro ⟨-, _, rfl, b, u, hm, _, _, ⟨rfl, rfl⟩, -, _, rfl, ⟨rfl, rfl⟩, rfl⟩
    exact ⟨u, hm, rfl, rfl⟩
  · rintro ⟨u, hm, rfl, rfl⟩
    exact ⟨(), _, rfl, a, u, hm, _, u, ⟨rfl, rfl⟩, (), _, rfl, ⟨rfl, rfl⟩, rfl⟩

/-! ### A small environment

One schema, with an expression analyzer that notes the types of variables and only checks the columns
of set operations: enough to run the analyzer on a concrete statement. -/

/-- The types of variables. -/
abbrev Types := List (Variable × TypeData)

def Types.find (types : Types) (v : Variable) : TypeData :=
  ((types.find? fun c => c.1 = v).map Prod.snd).getD .unknown

mutual

/-- The type of an expression over typed variables, by its first operand where it has several. -/
def scalarType : Scalar → Types → TypeData
  | .immediate _ type, _ => type
  | .variableReference v, types => Types.find types v
  | .cast type _ _, _ => type
  | .unary operator_ operand, types =>
    if operator_ ∈ [.plus, .signInversion] then scalarType operand types else .boolean
  | .binary operator_ left _, types =>
    if operator_ ∈ [.conditionalAnd, .conditionalOr] then .boolean else scalarType left types
  | .compare _ _ _, _ => .boolean
  | .match_ _ _ _ _, _ => .boolean
  | .conditional alternatives _, types => bodyType alternatives types
  | .coalesce alternatives, types => firstType alternatives types
  | .let_ variables_ body, types => scalarType body (bindingTypes variables_ types)
  | .functionCall function _, _ => function.returnType
  | .aggregateFunctionCall function _, _ => function.returnType
  | .subquery _ _ column, types => Types.find types column
  | .exists_ _ _, _ => .boolean
  | .quantifiedCompare _ _ _ _ _ _, _ => .boolean
termination_by structural e => e

def firstType : List Scalar → Types → TypeData
  | [], _ => .unknown
  | e :: _, types => scalarType e types
termination_by structural es => es

def bodyType : List (Scalar × Scalar) → Types → TypeData
  | [], _ => .unknown
  | (_, body) :: _, types => scalarType body types
termination_by structural pairs => pairs

def bindingTypes : List (Variable × Scalar) → Types → Types
  | [], types => types
  | (v, e) :: rest, types => bindingTypes rest ((v, scalarType e types) :: types)
termination_by structural bindings => bindings

end

/-- The operand columns of a set operation must have the same types. -/
def checkColumns (types : Types) (pairs : List (Variable × Variable)) : Resolution Unit :=
  if pairs.all fun p => types.find p.1 = types.find p.2 then ⟨[], some ()⟩
  else ⟨[(.inconsistentType, "inconsistent columns")], none⟩

/-- The columns that an operator defines, with their types. -/
def columnTypes (types : Types) : Operator → Types
  | .values columns rows => columns.zip ((rows.headD []).map fun e => scalarType e types)
  | .project columns => columns.map fun c => (c.1, scalarType c.2 types)
  | .union_ _ mappings => mappings.map fun m => (m.2.2, types.find m.1)
  | .aggregate _ columns => columns.map fun c => (c.destination, c.function.returnType)
  | .subquery _ mappings _ => mappings.map fun m => (m.2, types.find m.1)
  | _ => []

def typeNoting : ExpressionAnalyzer Types where
  resolveScalar types e _ := (⟨[], some (scalarType e types)⟩, types)
  resolveOperator types op _ :=
    let checked :=
      match op with
      | .union_ _ mappings => checkColumns types (mappings.map fun m => (m.1, m.2.1))
      | .difference _ pairs | .intersection _ pairs => checkColumns types pairs
      | _ => ⟨[], some ()⟩
    (checked, columnTypes types op ++ types)
  isResolved types v := types.any fun c => c.1 = v
  bindColumn types v column := (v, column.type) :: types
  bindAlias types v source := (v, types.find source) :: types
  clearExpressions types := types
  unbind types _ := types

/-- The default options over a schema. -/
def Options.ofSchema (schema : Schema) : Options where
  catalog := ⟨"", fun _ => none⟩
  schemaSearchPath := [schema]
  defaultSchema := schema
  lowercaseRegularIdentifiers := true
  lowercaseVariableRegularIdentifiers := false
  lowercaseFunctionRegularIdentifiers := false
  lowercaseRelationRegularIdentifiers := false
  lowercaseSchemaRegularIdentifiers := false
  lowercaseCatalogRegularIdentifiers := false
  maxDecimalPrecision := 38
  maxDecimalPrecision_bounds := by decide
  defaultDecimalPrecision := some 38
  maxBinaryInteger1Precision := 7
  maxBinaryInteger2Precision := 15
  maxBinaryInteger4Precision := 31
  maxBinaryInteger8Precision := 63
  maxBinaryFloat4Precision := 25
  maxBinaryFloat8Precision := 53
  allowContextIndependentNull := false
  preferWriteStatement := true
  hostParameterDeclarationStartsWithColon := false
  preferSmallIntegerLiterals := false
  preferSmallCharacterLiterals := false
  preferSmallBinaryLiterals := false
  preferSmallDecimalLiterals := false
  validateScalarExpressions := false
  castLiteralsInContext := true
  defaultSequenceCycle := true
  advanceSequenceFunctionName := "nextval"
  systemZoneOffset := 0

/-- The environment over a schema, without placeholders. -/
def Environment.ofSchema (schema : Schema) : Environment Types where
  options := .ofSchema schema
  placeholders _ := none
  hostParameters _ := none
  expressionAnalyzer := typeNoting
  isParameterApplicationConvertible _ _ := true
  parsers :=
    { stod := fun _ => .invalidArgument
      parseOctet := fun _ => .error ""
      parseDate := fun _ => .error ""
      parseTime := fun _ => .error ""
      parseDatetime := fun _ => .error "" }
  source := none
  nameSuffixDistinct := "$distinct"

end Mizugaki.Analyzer
