import Mizugaki.Plan.Variables

/-! The subqueries of expressions and operators, and properties that hold of a graph and of
every graph nested in it. -/

namespace Mizugaki.Plan

/-- A graph in an expression, with the parameters it takes. -/
structure SubqueryNode where
  graph : Graph
  parameters : List (Variable × Variable)

mutual

/-- The subqueries of an expression, not those inside of their graphs. -/
def Scalar.subqueries : Scalar → List SubqueryNode
  | .immediate _ _ => []
  | .variableReference _ => []
  | .cast _ _ operand => operand.subqueries
  | .unary _ operand => operand.subqueries
  | .binary _ left right => left.subqueries ++ right.subqueries
  | .compare _ left right => left.subqueries ++ right.subqueries
  | .match_ _ input pattern escape => input.subqueries ++ pattern.subqueries ++ escape.subqueries
  | .conditional alternatives default_ =>
    subqueriesPairs alternatives ++ subqueriesOption default_
  | .coalesce alternatives => subqueriesList alternatives
  | .let_ variables_ body => subqueriesBindings variables_ ++ body.subqueries
  | .functionCall _ arguments => subqueriesList arguments
  | .aggregateFunctionCall _ arguments => subqueriesList arguments
  | .subquery graph parameters _ => [⟨graph, parameters⟩]
  | .exists_ graph parameters => [⟨graph, parameters⟩]
  | .quantifiedCompare _ _ left graph parameters _ => left.subqueries ++ [⟨graph, parameters⟩]
termination_by structural e => e

def subqueriesList : List Scalar → List SubqueryNode
  | [] => []
  | e :: es => e.subqueries ++ subqueriesList es
termination_by structural es => es

def subqueriesOption : Option Scalar → List SubqueryNode
  | none => []
  | some e => e.subqueries
termination_by structural e => e

def subqueriesPairs : List (Scalar × Scalar) → List SubqueryNode
  | [] => []
  | (a, b) :: rest => a.subqueries ++ b.subqueries ++ subqueriesPairs rest
termination_by structural pairs => pairs

def subqueriesBindings : List (Variable × Scalar) → List SubqueryNode
  | [] => []
  | (_, e) :: rest => e.subqueries ++ subqueriesBindings rest
termination_by structural bindings => bindings

end

theorem mem_subqueriesList {n : SubqueryNode} {es : List Scalar} :
    n ∈ subqueriesList es ↔ ∃ e ∈ es, n ∈ e.subqueries := by
  induction es with
  | nil => simp [subqueriesList]
  | cons e es ih => simp [subqueriesList, ih]

theorem mem_subqueriesPairs {n : SubqueryNode} {pairs : List (Scalar × Scalar)} :
    n ∈ subqueriesPairs pairs ↔ ∃ p ∈ pairs, n ∈ p.1.subqueries ∨ n ∈ p.2.subqueries := by
  induction pairs with
  | nil => simp [subqueriesPairs]
  | cons p pairs ih =>
    obtain ⟨a, b⟩ := p
    simp [subqueriesPairs, ih, or_assoc]

theorem mem_subqueriesBindings {n : SubqueryNode} {bindings : List (Variable × Scalar)} :
    n ∈ subqueriesBindings bindings ↔ ∃ b ∈ bindings, n ∈ b.2.subqueries := by
  induction bindings with
  | nil => simp [subqueriesBindings]
  | cons b bindings ih =>
    obtain ⟨v, e⟩ := b
    simp [subqueriesBindings, ih]

theorem subqueriesBindings_append (as bs : List (Variable × Scalar)) :
    subqueriesBindings (as ++ bs) = subqueriesBindings as ++ subqueriesBindings bs := by
  induction as with
  | nil => rfl
  | cons a as ih => rw [List.cons_append, subqueriesBindings, subqueriesBindings, ih, List.append_assoc]

theorem variablesBindings_append (as bs : List (Variable × Scalar)) :
    variablesBindings (as ++ bs) = variablesBindings as ++ variablesBindings bs := by
  induction as with
  | nil => rfl
  | cons a as ih => rw [List.cons_append, variablesBindings, variablesBindings, ih, List.append_assoc]

mutual

/-- An expression reads what its subqueries take. -/
theorem Scalar.variables_of_subqueries {n : SubqueryNode} {p : Variable × Variable}
    (hp : p ∈ n.parameters) : ∀ {e : Scalar}, n ∈ e.subqueries → p.1 ∈ e.variables
  | .immediate _ _, hn => nomatch hn
  | .variableReference _, hn => nomatch hn
  | .cast _ _ operand, hn => Scalar.variables_of_subqueries (e := operand) hp hn
  | .unary _ operand, hn => Scalar.variables_of_subqueries (e := operand) hp hn
  | .binary _ l r, hn => List.mem_append.mpr <| (List.mem_append.mp hn).imp
      (Scalar.variables_of_subqueries (e := l) hp) (Scalar.variables_of_subqueries (e := r) hp)
  | .compare _ l r, hn => List.mem_append.mpr <| (List.mem_append.mp hn).imp
      (Scalar.variables_of_subqueries (e := l) hp) (Scalar.variables_of_subqueries (e := r) hp)
  | .match_ _ i q s, hn => by
    rw [Scalar.subqueries, List.mem_append, List.mem_append] at hn
    rw [Scalar.variables, List.mem_append, List.mem_append]
    exact hn.imp (Or.imp (Scalar.variables_of_subqueries (e := i) hp)
      (Scalar.variables_of_subqueries (e := q) hp)) (Scalar.variables_of_subqueries (e := s) hp)
  | .conditional as d, hn => List.mem_append.mpr <| (List.mem_append.mp hn).imp
      (variables_of_subqueriesPairs (e := as) hp) (variables_of_subqueriesOption (e := d) hp)
  | .coalesce as, hn => variables_of_subqueriesList (e := as) hp hn
  | .let_ vs b, hn => List.mem_append.mpr <| (List.mem_append.mp hn).imp
      (variables_of_subqueriesBindings (e := vs) hp) (Scalar.variables_of_subqueries (e := b) hp)
  | .functionCall _ as, hn => variables_of_subqueriesList (e := as) hp hn
  | .aggregateFunctionCall _ as, hn => variables_of_subqueriesList (e := as) hp hn
  | .subquery _ _ _, hn => by
    rw [List.mem_singleton.mp hn] at hp
    exact List.mem_map_of_mem hp
  | .exists_ _ _, hn => by
    rw [List.mem_singleton.mp hn] at hp
    exact List.mem_map_of_mem hp
  | .quantifiedCompare _ _ l _ _ _, hn => by
    obtain hn | hn := List.mem_append.mp hn
    · exact List.mem_append_left _ (Scalar.variables_of_subqueries (e := l) hp hn)
    · rw [List.mem_singleton.mp hn] at hp
      exact List.mem_append_right _ (List.mem_map_of_mem hp)
termination_by structural e => e

theorem variables_of_subqueriesList {n : SubqueryNode} {p : Variable × Variable}
    (hp : p ∈ n.parameters) : ∀ {e : List Scalar}, n ∈ subqueriesList e → p.1 ∈ variablesList e
  | [], hn => nomatch hn
  | e :: es, hn => List.mem_append.mpr <| (List.mem_append.mp hn).imp
      (Scalar.variables_of_subqueries (e := e) hp) (variables_of_subqueriesList (e := es) hp)
termination_by structural e => e

theorem variables_of_subqueriesOption {n : SubqueryNode} {p : Variable × Variable}
    (hp : p ∈ n.parameters) : ∀ {e : Option Scalar}, n ∈ subqueriesOption e →
      p.1 ∈ variablesOption e
  | none, hn => nomatch hn
  | some e, hn => Scalar.variables_of_subqueries (e := e) hp hn
termination_by structural e => e

theorem variables_of_subqueriesPairs {n : SubqueryNode} {p : Variable × Variable}
    (hp : p ∈ n.parameters) : ∀ {e : List (Scalar × Scalar)}, n ∈ subqueriesPairs e →
      p.1 ∈ variablesPairs e
  | [], hn => nomatch hn
  | (a, b) :: rest, hn => by
    rw [subqueriesPairs, List.mem_append, List.mem_append] at hn
    rw [variablesPairs, List.mem_append, List.mem_append]
    exact hn.imp (Or.imp (Scalar.variables_of_subqueries (e := a) hp)
      (Scalar.variables_of_subqueries (e := b) hp)) (variables_of_subqueriesPairs (e := rest) hp)
termination_by structural e => e

theorem variables_of_subqueriesBindings {n : SubqueryNode} {p : Variable × Variable}
    (hp : p ∈ n.parameters) : ∀ {e : List (Variable × Scalar)}, n ∈ subqueriesBindings e →
      p.1 ∈ variablesBindings e
  | [], hn => nomatch hn
  | (_, e) :: rest, hn => List.mem_append.mpr <| (List.mem_append.mp hn).imp
      (Scalar.variables_of_subqueries (e := e) hp) (variables_of_subqueriesBindings (e := rest) hp)
termination_by structural e => e

end

namespace Operator

/-- The expressions of an operator. -/
def expressions : Operator → List Scalar
  | values _ rows => rows.flatten
  | filter condition => [condition]
  | project columns => columns.map Prod.snd
  | apply _ _ arguments _ => arguments
  | join _ condition => condition.toList
  | scan _ _ | distinct _ | limit _ _ _ | union_ _ _ | difference _ _ | intersection _ _
  | aggregate _ _ | subquery _ _ _ | emit _ | write _ _ _ _ => []

/-- The graphs nested in an operator: subqueries of its expressions, or the graph it stands for. -/
def nested (op : Operator) : List SubqueryNode :=
  (match op with
    | subquery graph _ _ => [⟨graph, []⟩]
    | _ => []) ++ op.expressions.flatMap Scalar.subqueries

/-- The variables that an operator names outside of its expressions. -/
def references : Operator → List Variable
  | distinct keys => keys
  | limit _ keys sortKeys => keys ++ sortKeys.map Prod.fst
  | union_ _ mappings => mappings.map Prod.fst ++ mappings.map fun m => m.2.1
  | difference _ pairs => pairs.map Prod.fst ++ pairs.map Prod.snd
  | intersection _ pairs => pairs.map Prod.fst ++ pairs.map Prod.snd
  | aggregate keys columns => keys ++ columns.flatMap AggregateColumn.arguments
  | emit columns => columns.map Prod.fst
  | write _ _ keys columns => keys.map Prod.fst ++ columns.map Prod.fst
  | scan _ _ | values _ _ | filter _ | project _ | apply _ _ _ _ | join _ _ | subquery _ _ _ => []

/-- The variables that an operator reads. -/
def reads (op : Operator) : List Variable := op.references ++ op.expressions.flatMap Scalar.variables

/-- The output columns of an operator that stands for a graph are not columns of the graph. -/
def Separate : Operator → Prop
  | subquery graph mappings _ => ∀ m ∈ mappings, m.2 ∉ graph.defines
  | scan _ _ | values _ _ | filter _ | project _ | apply _ _ _ _ | join _ _ | distinct _ | limit _ _ _
  | union_ _ _ | difference _ _ | intersection _ _ | aggregate _ _ | emit _ | write _ _ _ _ => True

/-- An operator whose nested graphs are those of its expressions stands for none. -/
theorem separate_of_nested {op : Operator}
    (h : op.nested = op.expressions.flatMap Scalar.subqueries) : op.Separate := by
  cases op with
  | subquery graph mappings isClone => cases h
  | _ => trivial

/-- An operator reads what its nested graphs take. -/
theorem reads_of_nested {op : Operator} {n : SubqueryNode} (hn : n ∈ op.nested)
    {p : Variable × Variable} (hp : p ∈ n.parameters) : p.1 ∈ op.reads := by
  obtain hn | hn := List.mem_append.mp hn
  · split at hn
    · rw [List.mem_singleton.mp hn] at hp
      cases hp
    · cases hn
  · obtain ⟨e, he, hn⟩ := List.mem_flatMap.mp hn
    exact List.mem_append_right _ (List.mem_flatMap.mpr ⟨e, he, Scalar.variables_of_subqueries hp hn⟩)

end Operator

namespace Graph

@[simp] theorem operators_source (op : Operator) : (source op).operators = [op] := rfl

@[simp] theorem operators_unary (op : Operator) (g : Graph) :
    (unary op g).operators = op :: g.operators := rfl

@[simp] theorem operators_binary (op : Operator) (l r : Graph) :
    (binary op l r).operators = op :: (l.operators ++ r.operators) := rfl

theorem operators_stack (ops : List Operator) (g : Graph) :
    (ops.foldr unary g).operators = ops ++ g.operators := by
  induction ops with
  | nil => rfl
  | cons op ops ih => rw [List.foldr_cons, operators_unary, ih, List.cons_append]

/-- The subqueries of the operators of a graph. -/
def nodes (g : Graph) : List SubqueryNode := g.operators.flatMap Operator.nested

/-- A property of a graph, under the parameters it takes, and of all graphs nested in it. -/
inductive Hereditary (P : List (Variable × Variable) → Graph → Prop) :
    List (Variable × Variable) → Graph → Prop where
  | intro {parameters : List (Variable × Variable)} {g : Graph} (here : P parameters g)
      (inside : ∀ op ∈ g.operators, ∀ n ∈ op.nested, Hereditary P n.parameters n.graph) :
      Hereditary P parameters g

namespace Hereditary

variable {P : List (Variable × Variable) → Graph → Prop} {parameters : List (Variable × Variable)}
  {g : Graph}

theorem here (h : g.Hereditary P parameters) : P parameters g := by
  cases h with
  | intro here _ => exact here

theorem inside (h : g.Hereditary P parameters) {op : Operator} (hop : op ∈ g.operators)
    {n : SubqueryNode} (hn : n ∈ op.nested) : n.graph.Hereditary P n.parameters := by
  cases h with
  | intro _ inside => exact inside op hop n hn

end Hereditary

end Graph

end Mizugaki.Plan
