import Mizugaki.Analyzer.Name
import Mizugaki.Analyzer.Type
import Mizugaki.Analyzer.Literal

/-! Scalar expressions. Every function takes the analyses of the operands as actions, so
that it is not recursive itself: which node runs which actions is decided where the
syntax tree is traversed. A subquery is analyzed under a correlation scope of its own,
whose parameters become those of the subquery node. -/

namespace Mizugaki.Analyzer

open Mizugaki.Ast Mizugaki.Plan Mizugaki.Control

variable {ρ : Type} (env : Environment ρ)

/-- The analysis of a scalar expression, with the value context it is given. -/
abbrev ScalarAction (ρ : Type) := ValueContext → Analysis ρ Scalar

/-- `analyze_query_expression_result`: the output port and the relation. -/
structure QueryResult where
  output : Graph
  relation : RelationInfo

/-- The analysis of a query expression, with its row value context, and whether it continues to use
the current scope. -/
abbrev QueryAction (ρ : Type) := List ScalarValueContext → Bool → Analysis ρ QueryResult

/-- `engine::process`: analyze, and validate when the options ask for it. -/
def process (dispatch : Analysis ρ Scalar) : Analysis ρ Scalar := do
  let e ← dispatch
  if env.options.validateScalarExpressions then do
    let _ ← resolve env e true
    return e
  else return e

/-- `analyze_scalar_expression`: the expression, and whether it contains a set function. -/
def analyzeScalarExpression (e : ScalarAction ρ) (context : ValueContext := .unspecified) :
    Analysis ρ (Scalar × Bool) := do
  let saved ← Check.gets AnalyzerState.sawAggregate
  Check.modify fun s => { s with sawAggregate := false }
  let value ← e context
  let sawAggregate ← Check.gets AnalyzerState.sawAggregate
  Check.modify fun s => { s with sawAggregate := saved }
  return (value, sawAggregate)

/-! ### References -/

/-- The value or the host parameter of a placeholder. -/
def findPlaceholder (identifier : String) (message : List Fragment) : Analysis ρ Scalar :=
  match env.placeholders identifier with
  | some (value, type) => return .immediate value type
  | none =>
    match env.hostParameters identifier with
    | some v => return .variableReference (.external v)
    | none => reject .variableNotFound (.text "placeholder is not found: " :: message)

/-- `scalar::host_parameter_reference`: the case of the name is kept. -/
def processHostParameter (name : SimpleName) : Analysis ρ Scalar :=
  let identifier :=
    if env.options.hostParameterDeclarationStartsWithColon then name.identifier
    else
      match name.identifier.toList with
      | ':' :: rest => String.ofList rest
      | _ => name.identifier
  findPlaceholder env identifier [.name (.simple name)]

/-- `scalar::placeholder_reference`. -/
def processPlaceholder (index : Nat) : Analysis ρ Scalar :=
  let identifier :=
    if env.options.hostParameterDeclarationStartsWithColon then ":" ++ toString index
    else toString index
  findPlaceholder env identifier [.text "\"", .text identifier, .text "\""]

/-! ### Case, cast and operators -/

/-- The when clauses of a case expression; a simple case compares its operand. -/
def processWhenClauses (variable_ : Option Variable) (context : ValueContext) :
    List (ScalarAction ρ × ScalarAction ρ) → Analysis ρ (List (Scalar × Scalar))
  | [] => return []
  | (when_, then_) :: clauses => do
    let w ← when_ .unspecified
    let t ← then_ context
    let rest ← processWhenClauses variable_ context clauses
    let condition :=
      match variable_ with
      | some v => Scalar.compare .equal (.variableReference v) w
      | none => w
    return (condition, t) :: rest

/-- `scalar::case_expression`. -/
def processCase (operand : Option (ScalarAction ρ))
    (whenClauses : List (ScalarAction ρ × ScalarAction ρ)) (defaultResult : Option (ScalarAction ρ))
    (context : ValueContext) : Analysis ρ Scalar :=
  match whenClauses, operand with
  | [], _ => reject .malformedSyntax [.text "when clause list must not empty"]
  | _, none => do
    let alternatives ← processWhenClauses none context whenClauses
    let default_ ← Check.option (defaultResult.map (· context))
    return .conditional alternatives default_
  | _, some operand => do
    let value ← operand .unspecified
    let v ← localVariable
    let alternatives ← processWhenClauses (some v) context whenClauses
    let default_ ← Check.option (defaultResult.map (· context))
    return .let_ [(v, value)] (.conditional alternatives default_)

/-- The report about a cast operator other than `CAST`: the analysis goes on after it. -/
def reportCastOperator (operator_ : CastOperator) : Analysis ρ Unit :=
  if operator_ ≠ .cast then
    report .unsupportedFeature [.text "unsupported cast type: ", .node]
  else return ()

/-- `scalar::cast_expression`. -/
def processCast (operator_ : CastOperator) (operand : ScalarAction ρ) (type : TypeNode) :
    Analysis ρ Scalar := do
  reportCastOperator operator_
  let e ← operand .unspecified
  let t ← analyzeType env type
  return .cast t .ignore e

/-- `engine::convert`, of a unary operator. -/
def convertUnaryOperator : Ast.UnaryOperator → Analysis ρ Plan.UnaryOperator
  | .plus => return .plus
  | .minus => return .signInversion
  | .not_ => return .conditionalNot
  | .atLocal | .referenceResolution =>
    reject .unsupportedFeature [.text "unsupported unary operator: ", .node]

/-- `scalar::unary_expression`. -/
def processUnary (operator_ : Ast.UnaryOperator) (operand : ScalarAction ρ) :
    Analysis ρ Scalar := do
  let op ← convertUnaryOperator operator_
  let e ← operand .unspecified
  return .unary op e

/-- `engine::convert`, of a binary operator. -/
def convertBinaryOperator : Ast.BinaryOperator → Analysis ρ Plan.BinaryOperator
  | .plus => return .add
  | .minus => return .subtract
  | .asterisk => return .multiply
  | .solidus => return .divide
  | .percent => return .remainder
  | .concatenation => return .concat
  | .and_ => return .conditionalAnd
  | .or_ => return .conditionalOr
  | _ => reject .unsupportedFeature [.text "unsupported unary operator: ", .node]

/-- `engine::convert_is_right`. -/
def convertIsRight : Literal → Analysis ρ Plan.UnaryOperator
  | .null => return .isNull
  | .boolean .true_ => return .isTrue
  | .boolean .false_ => return .isFalse
  | .boolean .unknown => return .isUnknown
  | _ => reject .malformedSyntax [.text "unsupported right operand for IS/IS NOT: ", .node]

/-- `engine::process_is`. -/
def processIs (left : ScalarAction ρ) (isNot : Bool) (right : ScalarExpression) :
    Analysis ρ Scalar :=
  match right with
  | .literalExpression literal => do
    let op ← convertIsRight literal
    let e ← left .unspecified
    return if isNot then .unary .conditionalNot (.unary op e) else .unary op e
  | _ => reject .unsupportedFeature [.text "unsupported right operand for IS/IS NOT: ", .node]

/-- `scalar::binary_expression`; `right` is the node of the right operand. -/
def processBinary (left : ScalarAction ρ) (operator_ : Ast.BinaryOperator)
    (right : ScalarExpression) (rightAction : ScalarAction ρ) : Analysis ρ Scalar :=
  match operator_ with
  | .is => processIs left false right
  | .isNot => processIs left true right
  | _ => do
    let op ← convertBinaryOperator operator_
    let l ← left .unspecified
    let r ← rightAction .unspecified
    return .binary op l r

/-- `engine::convert`, of a comparison operator. -/
def convertComparisonOperator : Ast.ComparisonOperator → Plan.ComparisonOperator
  | .equals => .equal
  | .notEquals | .notEqualsAlternative => .notEqual
  | .lessThan => .less
  | .lessThanOrEquals => .lessEqual
  | .greaterThan => .greater
  | .greaterThanOrEquals => .greaterEqual

/-- `scalar::comparison_predicate`. -/
def processComparison (left : ScalarAction ρ) (operator_ : Ast.ComparisonOperator)
    (right : ScalarAction ρ) : Analysis ρ Scalar := do
  let l ← left .unspecified
  let r ← right .unspecified
  return .compare (convertComparisonOperator operator_) l r

/-- Negate a predicate that is written with `NOT`. -/
def negateIf (isNot : Bool) (e : Scalar) : Scalar :=
  if isNot then .unary .conditionalNot e else e

/-- `scalar::between_predicate`. -/
def processBetween (target : ScalarAction ρ) (isNot : Bool) (operator_ : Option BetweenOperator)
    (left right : ScalarAction ρ) : Analysis ρ Scalar := do
  let t ← target .unspecified
  let l ← left .unspecified
  let r ← right .unspecified
  let lessEqual (a b : Scalar) : Scalar := .compare .lessEqual a b
  match operator_ with
  | some .symmetric => do
    let vt ← localVariable
    let vl ← localVariable
    let vr ← localVariable
    let ref := Scalar.variableReference
    let forward := Scalar.binary .conditionalAnd (lessEqual (ref vl) (ref vt))
      (lessEqual (ref vt) (ref vr))
    let backward := Scalar.binary .conditionalAnd (lessEqual (ref vr) (ref vt))
      (lessEqual (ref vt) (ref vl))
    return negateIf isNot
      (.let_ [(vt, t), (vl, l), (vr, r)] (.binary .conditionalOr forward backward))
  | _ => do
    let vt ← localVariable
    return negateIf isNot
      (.let_ [(vt, t)] (.binary .conditionalAnd (lessEqual l (.variableReference vt))
        (lessEqual (.variableReference vt) r)))

/-- `scalar::pattern_match_predicate`. -/
def processPatternMatch (matchValue : ScalarAction ρ) (isNot : Bool)
    (operator_ : PatternMatchOperator) (pattern : ScalarAction ρ)
    (escape : Option (ScalarAction ρ)) : Analysis ρ Scalar := do
  let input ← matchValue .unspecified
  let p ← pattern .unspecified
  let e ← Check.option (escape.map (· .unspecified))
  let op : MatchOperator := match operator_ with
    | .like => .like
    | .similarTo => .similar
  return negateIf isNot
    (.match_ op input p (e.getD (.immediate (.character []) (.character true none))))

/-! ### Functions -/

/-- Analyze the arguments of an invocation, with their types. -/
def analyzeArguments : List (ScalarAction ρ) → Analysis ρ (List (Scalar × TypeData))
  | [] => return []
  | a :: as => do
    let value ← a .unspecified
    let type ← resolve env value
    let rest ← analyzeArguments as
    return (value, type) :: rest

/-- `engine::is_applicable`. -/
def isApplicable : List TypeData → List TypeData → Bool
  | [], [] => true
  | a :: as, p :: ps => env.isParameterApplicationConvertible a p && isApplicable as ps
  | _, _ => false

/-- A list of types, printed. -/
def typeFragments (types : List TypeData) : List Fragment :=
  .text "(" :: (types.map Fragment.type).intersperse (.text ", ") ++ [.text ")"]

/-- What overload resolution reads of a declaration. -/
structure Overload (δ : Type) where
  name : δ → String
  parameterTypes : δ → List TypeData

/-- `engine::resolve_overload`, from the candidate that is the most specific so far. -/
def resolveOverload {δ : Type} (o : Overload δ) (left : δ) : List δ → Analysis ρ δ
  | [] => return left
  | right :: rest =>
    let forwardApplicable := isApplicable env (o.parameterTypes left) (o.parameterTypes right)
    let reverseApplicable := isApplicable env (o.parameterTypes right) (o.parameterTypes left)
    if forwardApplicable = reverseApplicable then
      reject .functionAmbiguous
        ([.text "ambiguous function overload: ", .text (o.name left), .text " - "]
          ++ typeFragments (o.parameterTypes left) ++ [.text " and "]
          ++ typeFragments (o.parameterTypes right))
    else resolveOverload o (if reverseApplicable then right else left) rest

def functionOverload : Overload FunctionDecl := ⟨FunctionDecl.name, FunctionDecl.parameterTypes⟩

def aggregateOverload : Overload AggregateDecl := ⟨AggregateDecl.name, AggregateDecl.parameterTypes⟩

/-- The scalar functions that accept the argument types. -/
def applicableFunctions (types : List TypeData) (functions : List FunctionDecl) :
    List FunctionDecl :=
  functions.filter fun f => f.scalarFunction && isApplicable env types f.parameterTypes

/-- The set functions that accept the argument types. -/
def applicableAggregates (types : List TypeData) (aggregates : List AggregateDecl) :
    List AggregateDecl :=
  aggregates.filter fun a => isApplicable env types a.parameterTypes

/-- Build the call of a set function. -/
def callAggregate (function : AggregateDecl) (arguments : List Scalar) : Analysis ρ Scalar := do
  Check.modify fun s => { s with sawAggregate := true }
  return .aggregateFunctionCall function arguments

/-- `scalar::function_invocation`: a scalar function, or else a set function. -/
def processFunctionInvocation (name : Name) (arguments : List (ScalarAction ρ)) :
    Analysis ρ Scalar := do
  let args ← analyzeArguments env arguments
  let values := args.map Prod.fst
  let types := args.map Prod.snd
  let functions ← analyzeFunctionName env name arguments.length
  match applicableFunctions env types functions with
  | f :: fs => do
    let target ← resolveOverload env functionOverload f fs
    return .functionCall target values
  | [] => do
    let aggregates ← analyzeAggregationName env name arguments.length
    match applicableAggregates env types aggregates with
    | a :: as => do
      let target ← resolveOverload env aggregateOverload a as
      callAggregate target values
    | [] =>
      reject .functionNotFound
        ([.text "function not found: ", .name name] ++ typeFragments types)

/-- `to_string_view`, of a built-in function. -/
def builtinFunctionName : BuiltinFunctionKind → String
  | .position => "position"
  | .length => "length"
  | .characterLength => "character_length"
  | .octetLength => "octet_length"
  | .bitLength => "bit_length"
  | .cardinality => "cardinality"
  | .abs => "abs"
  | .ceil => "ceil"
  | .floor => "floor"
  | .mod => "mod"
  | .substring => "substring"
  | .upper => "upper"
  | .lower => "lower"
  | .convert => "convert"
  | .translate => "translate"
  | .overlay => "overlay"
  | .currentDate => "current_date"
  | .currentTime => "current_time"
  | .localtime => "localtime"
  | .currentTimestamp => "current_timestamp"
  | .localtimestamp => "localtimestamp"
  | .nullif => "nullif"
  | .coalesce => "coalesce"
  | .nextValueFor => "next_value_for"
  | .user => "user"
  | .currentUser => "current_user"
  | .currentRole => "current_role"
  | .systemUser => "system_user"
  | .currentPath => "current_path"

/-- `engine::process_nullif`. -/
def processNullif : List (ScalarAction ρ) → Analysis ρ Scalar
  | [left, right] => do
    let l ← left .unspecified
    let r ← right .unspecified
    let type ← resolve env l
    let v ← localVariable
    return .let_ [(v, l)]
      (.conditional [(.compare .equal (.variableReference v) r, .immediate .unknown type)]
        (some (.variableReference v)))
  | _ => reject .malformedSyntax [.text "NULLIF must have two operands"]

/-- Analyze expressions in order. -/
def analyzeAll : List (ScalarAction ρ) → Analysis ρ (List Scalar)
  | [] => return []
  | a :: as => do
    let e ← a .unspecified
    let es ← analyzeAll as
    return e :: es

/-- `engine::process_coalesce`. -/
def processCoalesce (arguments : List (ScalarAction ρ)) : Analysis ρ Scalar :=
  match arguments with
  | [] => reject .malformedSyntax [.text "COALESCE must have one or more operands"]
  | _ => do
    let operands ← analyzeAll arguments
    return .coalesce operands

/-- The built-in functions that are declared in the schemas of the search path. -/
def processDeclaredBuiltin (function : BuiltinFunctionKind) (arguments : List (ScalarAction ρ)) :
    Analysis ρ Scalar := do
  let name := builtinFunctionName function
  let args ← analyzeArguments env arguments
  let types := args.map Prod.snd
  let functions := env.options.schemaSearchPath.flatMap fun s => s.functions name arguments.length
  match applicableFunctions env types functions with
  | [] =>
    reject .functionNotFound ([.text "function not found: ", .text name] ++ typeFragments types)
  | f :: fs => do
    let target ← resolveOverload env functionOverload f fs
    return .functionCall target (args.map Prod.fst)

/-- `scalar::builtin_function_invocation`. -/
def processBuiltinFunction (function : BuiltinFunctionKind) (arguments : List (ScalarAction ρ)) :
    Analysis ρ Scalar :=
  match function with
  | .nullif => processNullif env arguments
  | .coalesce => processCoalesce arguments
  | .nextValueFor | .convert | .translate | .currentPath =>
    reject .unsupportedFeature
      [.text "unsupported special built-in function invocation: ",
        .text (builtinFunctionName function)]
  | _ => processDeclaredBuiltin env function arguments

/-- `to_string_view`, of a built-in set function. -/
def builtinSetFunctionName : BuiltinSetFunctionKind → String
  | .avg => "avg"
  | .max => "max"
  | .min => "min"
  | .sum => "sum"
  | .every => "every"
  | .any => "any"
  | .some_ => "some"
  | .count => "count"
  | .bitAnd => "bit_and"
  | .bitOr => "bit_or"
  | .boolAnd => "bool_and"
  | .boolOr => "bool_or"

/-- `scalar::builtin_set_function_invocation`. -/
def processBuiltinSetFunction (function : BuiltinSetFunctionKind)
    (quantifier : Option Ast.SetQuantifier) (arguments : List (ScalarAction ρ)) :
    Analysis ρ Scalar := do
  let name := builtinSetFunctionName function
  let declared := if quantifier = some .distinct then name ++ env.nameSuffixDistinct else name
  let args ← analyzeArguments env arguments
  let types := args.map Prod.snd
  let aggregates :=
    env.options.schemaSearchPath.flatMap fun s => s.setFunctions declared arguments.length
  match applicableAggregates env types aggregates with
  | [] =>
    reject .functionNotFound
      ([.text "set function not found: ", .text name]
        ++ (if quantifier.isSome then [.text "[", .node, .text "]"] else []) ++ typeFragments types)
  | a :: as => do
    let target ← resolveOverload env aggregateOverload a as
    callAggregate target (args.map Prod.fst)

/-! ### Extract -/

/-- The fields whose function takes a precision of seconds. -/
def extractIncludesSecond : List ExtractFieldKind := [.second, .yearToSecond]

def extractFromDate : List ExtractFieldKind :=
  [.year, .month, .day, .date, .yearToMonth, .yearToDay]

def extractFromTimeOfDay : List ExtractFieldKind := [.hour, .minute, .second]

def extractFromTimePoint : List ExtractFieldKind :=
  [.year, .month, .day, .hour, .minute, .second, .date, .yearToMonth, .yearToDay, .yearToHour,
    .yearToMinute, .yearToSecond]

def extractFromWithTimeZone : List ExtractFieldKind := [.timezoneHour, .timezoneMinute]

/-- The fields that can be extracted from a type. -/
def extractFields : TypeData → List ExtractFieldKind
  | .date => extractFromDate
  | .timeOfDay tz => (if tz then extractFromWithTimeZone else []) ++ extractFromTimeOfDay
  | .timePoint tz => (if tz then extractFromWithTimeZone else []) ++ extractFromTimePoint
  | _ => []

/-- `engine::validate_extract_field`. -/
def validateExtractField (field : ExtractFieldKind) (type : TypeData) : Analysis ρ Unit :=
  if field ∈ extractFields type then return ()
  else reject .functionNotFound
    [.text "EXTRACT(", .node, .text " FROM ...) is not support for the operand type"]

def extractMaxSecondPrecision : Nat := 9

/-- `engine::extract_second_precision`. -/
def extractSecondPrecision (subsecondDigits : Option Nat) : Scalar :=
  .immediate (.int4 (min (subsecondDigits.getD extractMaxSecondPrecision) extractMaxSecondPrecision
    : Nat)) .int4

/-- `engine::extract_function_name`. -/
def extractFunctionName : ExtractFieldKind → String
  | .year => "extract_year"
  | .month => "extract_month"
  | .day => "extract_day"
  | .hour => "extract_hour"
  | .minute => "extract_minute"
  | .second => "extract_second"
  | .timezoneHour => "extract_timezone_hour"
  | .timezoneMinute => "extract_timezone_minute"
  | .date => "date"
  | .yearToMonth => "extract_year_to_month"
  | .yearToDay => "extract_year_to_day"
  | .yearToHour => "extract_year_to_hour"
  | .yearToMinute => "extract_year_to_minute"
  | .yearToSecond => "extract_year_to_second"

/-- `scalar::extract_expression`. -/
def processExtract (field : ExtractFieldKind) (subsecondDigits : Option Nat)
    (operand : ScalarAction ρ) : Analysis ρ Scalar := do
  let e ← operand .unspecified
  let type ← resolve env e
  validateExtractField field type
  let args : List (Scalar × TypeData) :=
    if field ∈ extractIncludesSecond then
      [(e, type), (extractSecondPrecision subsecondDigits, .int4)]
    else [(e, type)]
  let name : Name := .simple ⟨extractFunctionName field, .regular⟩
  let functions ← analyzeFunctionName env name args.length
  match applicableFunctions env (args.map Prod.snd) functions with
  | f :: fs => do
    let target ← resolveOverload env functionOverload f fs
    return .functionCall target (args.map Prod.fst)
  | [] =>
    reject .functionNotFound
      [.text "function not found: EXTRACT(", .node, .text " FROM ...), delegated to \"",
        .name name, .text "\""]

/-! ### Subqueries -/

/-- Analyze a query under a correlation scope, with the columns of the current scope exposed to it.
The parameters are those the correlation scope is left with. -/
def analyzeSubquery (query : QueryAction ρ) :
    Analysis ρ (QueryResult × List (Variable × Variable)) := do
  let original ← QueryScope.features <$> currentScope
  modifyScope (·.setFeatures { original with expose := true })
  let (result, parameterScope) ← withScope (.empty { correlation := true }) (query [] false)
  modifyScope (·.setFeatures original)
  return (result, parameterScope.parameters)

/-- The only column of a subquery that stands for a value. -/
def singleColumn (columns : List ColumnInfo) : Analysis ρ Variable :=
  match columns with
  | [column] => return column.variable_
  | columns =>
    reject .inconsistentColumns
      [.text "subquery must return exactly one column, but got ", .size columns.length]

/-- `scalar::subquery`. -/
def processSubquery (query : QueryAction ρ) (contextKind : ExpressionContextKind) :
    Analysis ρ Scalar :=
  match contextKind with
  | .row => reject .unsupportedFeature [.text "row subqueries are not yet supported"]
  | .scalar => do
    let (result, parameters) ← analyzeSubquery query
    let column ← singleColumn result.relation.columns
    return .subquery result.output parameters column

/-- `engine::convert`, of a quantifier. -/
def convertQuantifier : Ast.Quantifier → Plan.Quantifier
  | .all => .all
  | .any | .some_ => .any

/-- The quantified comparison of an analyzed operand with a query. -/
def quantifiedCompare (operator_ : Plan.ComparisonOperator) (quantifier : Plan.Quantifier)
    (left : ScalarAction ρ) (right : QueryAction ρ) : Analysis ρ Scalar := do
  let l ← left .unspecified
  let (result, parameters) ← analyzeSubquery right
  let column ← singleColumn result.relation.columns
  return .quantifiedCompare operator_ quantifier l result.output parameters column

/-- `scalar::quantified_comparison_predicate`. -/
def processQuantifiedComparison (left : ScalarAction ρ) (operator_ : Ast.ComparisonOperator)
    (quantifier : Ast.Quantifier) (right : QueryAction ρ) : Analysis ρ Scalar :=
  quantifiedCompare (convertComparisonOperator operator_) (convertQuantifier quantifier) left right

/-- The comparisons of a variable with the elements of a list, joined by `OR` from the left. -/
def compareAny (target : Variable) (first : Scalar) (rest : List Scalar) : Scalar :=
  let compare (e : Scalar) : Scalar := .compare .equal (.variableReference target) e
  rest.foldl (fun body e => .binary .conditionalOr body (compare e)) (compare first)

/-- `engine::process_in_values`. -/
def processInValues (left : ScalarAction ρ) (isNot : Bool) (values : List (ScalarAction ρ)) :
    Analysis ρ Scalar :=
  match values with
  | [] => reject .malformedSyntax [.text "IN predicate with values must not be empty"]
  | first :: rest => do
    let l ← left .unspecified
    let e ← first .unspecified
    let es ← analyzeAll rest
    let v ← localVariable
    return negateIf isNot (.let_ [(v, l)] (compareAny v e es))

/-- `engine::process_in_query`. -/
def processInQuery (left : ScalarAction ρ) (isNot : Bool) (right : QueryAction ρ) :
    Analysis ρ Scalar :=
  if isNot then quantifiedCompare .notEqual .all left right
  else quantifiedCompare .equal .any left right

/-- `scalar::in_predicate`; `values` are the elements of a table value constructor. -/
def processIn (left : ScalarAction ρ) (isNot : Bool) (values : Option (List (ScalarAction ρ)))
    (right : QueryAction ρ) : Analysis ρ Scalar :=
  match values with
  | some values => processInValues left isNot values
  | none => processInQuery left isNot right

/-- `scalar::table_predicate`. -/
def processTablePredicate (operator_ : TableOperator) (operand : QueryAction ρ) :
    Analysis ρ Scalar :=
  match operator_ with
  | .exists_ => do
    let (result, parameters) ← analyzeSubquery operand
    return .exists_ result.output parameters
  | .unique => reject .unsupportedFeature [.text "unsupported table predicate: ", .node]

end Mizugaki.Analyzer
