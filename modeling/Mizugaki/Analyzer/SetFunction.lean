import Mizugaki.Analyzer.Context

/-! Set functions of a query. The processor takes every call of a set function out of an
expression: its arguments move to a projection, the call to a column of an aggregate
operator, and a reference to that column stays in its place. What is left may read
group keys and aggregated columns only. -/

namespace Mizugaki.Analyzer

open Mizugaki.Plan

variable {ρ : Type} (env : Environment ρ)

/-- `set_function_processor`. The projection of the arguments and the aggregate operator exist when
something was stored in them. -/
structure SetFunctionProcessor where
  active : Bool := false
  groupingColumns : List Variable := []
  aggregatedColumns : List Variable := []
  arguments : Option (List (Variable × Scalar)) := none
  aggregations : Option (List Variable × List AggregateColumn) := none

namespace SetFunctionProcessor

def activate (p : SetFunctionProcessor) : SetFunctionProcessor := { p with active := true }

/-- `set_function_processor::arguments_store`, read. -/
def argumentColumns (p : SetFunctionProcessor) : List (Variable × Scalar) := p.arguments.getD []

/-- `set_function_processor::aggregations_store`, read. -/
def aggregationsStore (p : SetFunctionProcessor) : List Variable × List AggregateColumn :=
  p.aggregations.getD ([], [])

/-- `set_function_processor::add_group_key`. -/
def addGroupKey (p : SetFunctionProcessor) (column : Variable) : SetFunctionProcessor :=
  if column ∈ p.groupingColumns then p
  else
    { p with
      active := true
      groupingColumns := p.groupingColumns ++ [column]
      aggregations := some (p.aggregationsStore.1 ++ [column], p.aggregationsStore.2) }

/-- `set_function_processor::add_aggregated`. -/
def addAggregated (p : SetFunctionProcessor) (column : Variable) : SetFunctionProcessor :=
  { p with aggregatedColumns := p.aggregatedColumns ++ [column] }

/-- `set_function_processor::find_aggregation`. -/
def findAggregation (p : SetFunctionProcessor) (function : AggregateDecl)
    (arguments : List Variable) : Option Variable :=
  (p.aggregationsStore.2.find? fun c =>
    c.function = function ∧ c.arguments = arguments).map AggregateColumn.destination

/-- What `engine::check_variable` accepts: outside of set functions a group key or an aggregated
column, inside anything but an aggregated column. -/
def accepts (p : SetFunctionProcessor) (inside : Bool) (v : Variable) : Bool :=
  if inside then decide (v ∉ p.aggregatedColumns)
  else decide (v ∈ p.groupingColumns ∨ v ∈ p.aggregatedColumns)

end SetFunctionProcessor

/-! ### Checks -/

def reportVariable (inside : Bool) : Analysis ρ Unit :=
  report .invalidAggregationColumn
    [.text (if inside then "the aggregated result is not visible here"
      else "column must be aggregated")]

/-- `engine::check_variable`, of a variable reference. -/
def checkVariable (p : SetFunctionProcessor) (inside : Bool) (v : Variable) : Analysis ρ Unit :=
  if p.accepts inside v then return ()
  else do
    reportVariable inside
    fail

/-- The visit of a variable reference: only stream variables are checked. -/
def checkReference (p : SetFunctionProcessor) (inside : Bool) (v : Variable) : Analysis ρ Unit :=
  if v.isStream then checkVariable p inside v else return ()

/-- The reports about the rest of the parameters, after one that is not accepted. -/
def reportParameters (p : SetFunctionProcessor) (inside : Bool) :
    List (Variable × Variable) → Analysis ρ Unit
  | [] => return ()
  | (source, _) :: rest =>
    if p.accepts inside source then reportParameters p inside rest
    else do
      reportVariable inside
      reportParameters p inside rest

/-- `engine::check_variable`, of all parameters of a subquery. -/
def checkParameters (p : SetFunctionProcessor) (inside : Bool) :
    List (Variable × Variable) → Analysis ρ Unit
  | [] => return ()
  | (source, _) :: rest =>
    if p.accepts inside source then checkParameters p inside rest
    else do
      reportVariable inside
      reportParameters p inside rest
      fail

/-! ### Consuming a call -/

/-- `set_function_processor::replace_argument`, of all arguments of a call. -/
def replaceArguments (p : SetFunctionProcessor) :
    List Scalar → Analysis ρ (List Variable × SetFunctionProcessor)
  | [] => return ([], p)
  | e :: es => do
    let replacement ← streamVariable
    let (replacements, q) ←
      replaceArguments { p with arguments := some (p.argumentColumns ++ [(replacement, e)]) } es
    return (replacement :: replacements, q)

/-- `set_function_processor::consume`. -/
def consume (p : SetFunctionProcessor) (function : AggregateDecl) (arguments : List Scalar) :
    Analysis ρ (Scalar × SetFunctionProcessor) := do
  clearExpressionResolution env (.aggregateFunctionCall function arguments)
  let (replacements, q) ← replaceArguments p.activate arguments
  let store := q.aggregationsStore
  match q.findAggregation function replacements with
  | some existing => return (.variableReference existing, { q with aggregations := some store })
  | none => do
    let replacement ← streamVariable
    let column : AggregateColumn := ⟨function, replacements, replacement⟩
    return (.variableReference replacement,
      { q with
        aggregations := some (store.1, store.2 ++ [column])
        aggregatedColumns := q.aggregatedColumns ++ [replacement] })

/-! ### Expressions -/

mutual

/-- `engine::process`: rewrite an expression; `inside` tells that it is in the arguments of a set
function. -/
def processSetFunctions (inside : Bool) :
    Scalar → SetFunctionProcessor → Analysis ρ (Scalar × SetFunctionProcessor)
  | .immediate value type, p => return (.immediate value type, p)
  | .variableReference v, p => do
    checkReference p inside v
    return (.variableReference v, p)
  | .cast type policy operand, p => do
    let (e, p) ← processSetFunctions inside operand p
    return (.cast type policy e, p)
  | .unary op operand, p => do
    let (e, p) ← processSetFunctions inside operand p
    return (.unary op e, p)
  | .binary op left right, p => do
    let (l, p) ← processSetFunctions inside left p
    let (r, p) ← processSetFunctions inside right p
    return (.binary op l r, p)
  | .compare op left right, p => do
    let (l, p) ← processSetFunctions inside left p
    let (r, p) ← processSetFunctions inside right p
    return (.compare op l r, p)
  | .match_ op input pattern escape, p => do
    let (i, p) ← processSetFunctions inside input p
    let (t, p) ← processSetFunctions inside pattern p
    let (e, p) ← processSetFunctions inside escape p
    return (.match_ op i t e, p)
  | .conditional alternatives default_, p => do
    let (as, p) ← processAlternatives inside alternatives p
    let (d, p) ← processDefault inside default_ p
    return (.conditional as d, p)
  | .coalesce alternatives, p => do
    let (es, p) ← processOperands inside alternatives p
    return (.coalesce es, p)
  | .let_ variables_ body, p => do
    let (vs, p) ← processLetVariables inside variables_ p
    let (e, p) ← processSetFunctions inside body p
    return (.let_ vs e, p)
  | .functionCall function arguments, p => do
    let (es, p) ← processOperands inside arguments p
    return (.functionCall function es, p)
  | .aggregateFunctionCall function arguments, p =>
    if inside then reject .unsupportedFeature [.text "nested aggregation is not supported"]
    else do
      let (es, p) ← processOperands true arguments p
      consume env p function es
  | .subquery graph parameters outputColumn, p => do
    checkParameters p inside parameters
    return (.subquery graph parameters outputColumn, p)
  | .exists_ graph parameters, p => do
    checkParameters p inside parameters
    return (.exists_ graph parameters, p)
  | .quantifiedCompare op quantifier left graph parameters rightColumn, p => do
    checkParameters p inside parameters
    let (l, p) ← processSetFunctions inside left p
    return (.quantifiedCompare op quantifier l graph parameters rightColumn, p)
termination_by structural e => e

def processOperands (inside : Bool) :
    List Scalar → SetFunctionProcessor → Analysis ρ (List Scalar × SetFunctionProcessor)
  | [], p => return ([], p)
  | e :: es, p => do
    let (e, p) ← processSetFunctions inside e p
    let (es, p) ← processOperands inside es p
    return (e :: es, p)
termination_by structural es => es

def processAlternatives (inside : Bool) : List (Scalar × Scalar) → SetFunctionProcessor →
    Analysis ρ (List (Scalar × Scalar) × SetFunctionProcessor)
  | [], p => return ([], p)
  | (condition, body) :: rest, p => do
    let (c, p) ← processSetFunctions inside condition p
    let (b, p) ← processSetFunctions inside body p
    let (rest, p) ← processAlternatives inside rest p
    return ((c, b) :: rest, p)
termination_by structural alternatives => alternatives

def processDefault (inside : Bool) :
    Option Scalar → SetFunctionProcessor → Analysis ρ (Option Scalar × SetFunctionProcessor)
  | none, p => return (none, p)
  | some e, p => do
    let (e, p) ← processSetFunctions inside e p
    return (some e, p)
termination_by structural e => e

def processLetVariables (inside : Bool) : List (Variable × Scalar) → SetFunctionProcessor →
    Analysis ρ (List (Variable × Scalar) × SetFunctionProcessor)
  | [], p => return ([], p)
  | (v, value) :: rest, p => do
    let (e, p) ← processSetFunctions inside value p
    let (rest, p) ← processLetVariables inside rest p
    return ((v, e) :: rest, p)
termination_by structural variables_ => variables_

end

/-! ### Installing -/

/-- Put an operator on an output port, when there is one, once it is resolved. -/
def installOperator (operator_ : Option Operator) (port : Graph) : Analysis ρ Graph :=
  match operator_ with
  | none => return port
  | some op => do
    resolveOperator env op
    return .unary op port

/-- `set_function_processor::install`: the projection of the arguments and the aggregate operator,
on top of an output port. -/
def install (p : SetFunctionProcessor) (port : Graph) : Analysis ρ Graph := do
  let port ← installOperator env (p.arguments.map .project) port
  installOperator env (p.aggregations.map fun a => .aggregate a.1 a.2) port

end Mizugaki.Analyzer
