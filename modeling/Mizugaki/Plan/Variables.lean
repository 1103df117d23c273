import Mizugaki.Plan.Expression

/-! The variables of a scalar expression. A subquery reads the sources of its parameters;
what is inside its graph belongs to the graph. -/

namespace Mizugaki.Plan

mutual

/-- The variables an expression reads and does not bind. -/
def Scalar.free : Scalar → List Variable
  | .immediate _ _ => []
  | .variableReference v => [v]
  | .cast _ _ operand => operand.free
  | .unary _ operand => operand.free
  | .binary _ left right => left.free ++ right.free
  | .compare _ left right => left.free ++ right.free
  | .match_ _ input pattern escape => input.free ++ pattern.free ++ escape.free
  | .conditional alternatives default_ => freePairs alternatives ++ freeOption default_
  | .coalesce alternatives => freeList alternatives
  | .let_ variables_ body => freeBindings variables_ body.free
  | .functionCall _ arguments => freeList arguments
  | .aggregateFunctionCall _ arguments => freeList arguments
  | .subquery _ parameters _ => parameters.map Prod.fst
  | .exists_ _ parameters => parameters.map Prod.fst
  | .quantifiedCompare _ _ left _ parameters _ => left.free ++ parameters.map Prod.fst
termination_by structural e => e

def freeList : List Scalar → List Variable
  | [] => []
  | e :: es => e.free ++ freeList es
termination_by structural es => es

def freeOption : Option Scalar → List Variable
  | none => []
  | some e => e.free
termination_by structural e => e

def freePairs : List (Scalar × Scalar) → List Variable
  | [] => []
  | (a, b) :: rest => a.free ++ b.free ++ freePairs rest
termination_by structural pairs => pairs

/-- The variables of bindings, each visible to those after it and to a body. -/
def freeBindings : List (Variable × Scalar) → List Variable → List Variable
  | [], body => body
  | (v, e) :: rest, body => e.free ++ (freeBindings rest body).filter (· ≠ v)
termination_by structural bindings => bindings

end

mutual

/-- All variables that an expression reads, bound in it or not. -/
def Scalar.variables : Scalar → List Variable
  | .immediate _ _ => []
  | .variableReference v => [v]
  | .cast _ _ operand => operand.variables
  | .unary _ operand => operand.variables
  | .binary _ left right => left.variables ++ right.variables
  | .compare _ left right => left.variables ++ right.variables
  | .match_ _ input pattern escape => input.variables ++ pattern.variables ++ escape.variables
  | .conditional alternatives default_ => variablesPairs alternatives ++ variablesOption default_
  | .coalesce alternatives => variablesList alternatives
  | .let_ variables_ body => variablesBindings variables_ ++ body.variables
  | .functionCall _ arguments => variablesList arguments
  | .aggregateFunctionCall _ arguments => variablesList arguments
  | .subquery _ parameters _ => parameters.map Prod.fst
  | .exists_ _ parameters => parameters.map Prod.fst
  | .quantifiedCompare _ _ left _ parameters _ => left.variables ++ parameters.map Prod.fst
termination_by structural e => e

def variablesList : List Scalar → List Variable
  | [] => []
  | e :: es => e.variables ++ variablesList es
termination_by structural es => es

def variablesOption : Option Scalar → List Variable
  | none => []
  | some e => e.variables
termination_by structural e => e

def variablesPairs : List (Scalar × Scalar) → List Variable
  | [] => []
  | (a, b) :: rest => a.variables ++ b.variables ++ variablesPairs rest
termination_by structural pairs => pairs

def variablesBindings : List (Variable × Scalar) → List Variable
  | [] => []
  | (_, e) :: rest => e.variables ++ variablesBindings rest
termination_by structural bindings => bindings

end

mutual

/-- A property of every variable that an expression reads or binds. -/
def Scalar.AllVariables (P : Variable → Prop) : Scalar → Prop
  | .immediate _ _ => True
  | .variableReference v => P v
  | .cast _ _ operand => operand.AllVariables P
  | .unary _ operand => operand.AllVariables P
  | .binary _ left right => left.AllVariables P ∧ right.AllVariables P
  | .compare _ left right => left.AllVariables P ∧ right.AllVariables P
  | .match_ _ input pattern escape =>
    input.AllVariables P ∧ pattern.AllVariables P ∧ escape.AllVariables P
  | .conditional alternatives default_ =>
    AllVariablesPairs P alternatives ∧ AllVariablesOption P default_
  | .coalesce alternatives => AllVariablesList P alternatives
  | .let_ variables_ body => AllVariablesBindings P variables_ ∧ body.AllVariables P
  | .functionCall _ arguments => AllVariablesList P arguments
  | .aggregateFunctionCall _ arguments => AllVariablesList P arguments
  | .subquery _ parameters _ => ∀ p ∈ parameters, P p.1
  | .exists_ _ parameters => ∀ p ∈ parameters, P p.1
  | .quantifiedCompare _ _ left _ parameters _ =>
    left.AllVariables P ∧ ∀ p ∈ parameters, P p.1
termination_by structural e => e

def AllVariablesList (P : Variable → Prop) : List Scalar → Prop
  | [] => True
  | e :: es => e.AllVariables P ∧ AllVariablesList P es
termination_by structural es => es

def AllVariablesOption (P : Variable → Prop) : Option Scalar → Prop
  | none => True
  | some e => e.AllVariables P
termination_by structural e => e

def AllVariablesPairs (P : Variable → Prop) : List (Scalar × Scalar) → Prop
  | [] => True
  | (a, b) :: rest => a.AllVariables P ∧ b.AllVariables P ∧ AllVariablesPairs P rest
termination_by structural pairs => pairs

def AllVariablesBindings (P : Variable → Prop) : List (Variable × Scalar) → Prop
  | [] => True
  | (v, e) :: rest => P v ∧ e.AllVariables P ∧ AllVariablesBindings P rest
termination_by structural bindings => bindings

end

mutual

/-- A call of a set function is left in an expression, outside of subquery graphs. -/
def Scalar.hasAggregate : Scalar → Bool
  | .immediate _ _ => false
  | .variableReference _ => false
  | .cast _ _ operand => operand.hasAggregate
  | .unary _ operand => operand.hasAggregate
  | .binary _ left right => left.hasAggregate || right.hasAggregate
  | .compare _ left right => left.hasAggregate || right.hasAggregate
  | .match_ _ input pattern escape =>
    input.hasAggregate || pattern.hasAggregate || escape.hasAggregate
  | .conditional alternatives default_ =>
    hasAggregatePairs alternatives || hasAggregateOption default_
  | .coalesce alternatives => hasAggregateList alternatives
  | .let_ variables_ body => hasAggregateBindings variables_ || body.hasAggregate
  | .functionCall _ arguments => hasAggregateList arguments
  | .aggregateFunctionCall _ _ => true
  | .subquery _ _ _ => false
  | .exists_ _ _ => false
  | .quantifiedCompare _ _ left _ _ _ => left.hasAggregate
termination_by structural e => e

def hasAggregateList : List Scalar → Bool
  | [] => false
  | e :: es => e.hasAggregate || hasAggregateList es
termination_by structural es => es

def hasAggregateOption : Option Scalar → Bool
  | none => false
  | some e => e.hasAggregate
termination_by structural e => e

def hasAggregatePairs : List (Scalar × Scalar) → Bool
  | [] => false
  | (a, b) :: rest => a.hasAggregate || b.hasAggregate || hasAggregatePairs rest
termination_by structural pairs => pairs

def hasAggregateBindings : List (Variable × Scalar) → Bool
  | [] => false
  | (_, e) :: rest => e.hasAggregate || hasAggregateBindings rest
termination_by structural bindings => bindings

end

variable {P Q : Variable → Prop}

mutual

theorem Scalar.AllVariables.mono (h : ∀ v, P v → Q v) :
    ∀ {e : Scalar}, e.AllVariables P → e.AllVariables Q
  | .immediate _ _, _ => trivial
  | .variableReference v, hv => h v hv
  | .cast _ _ operand, he => Scalar.AllVariables.mono (e := operand) h he
  | .unary _ operand, he => Scalar.AllVariables.mono (e := operand) h he
  | .binary _ l r, he =>
    ⟨Scalar.AllVariables.mono (e := l) h he.1, Scalar.AllVariables.mono (e := r) h he.2⟩
  | .compare _ l r, he =>
    ⟨Scalar.AllVariables.mono (e := l) h he.1, Scalar.AllVariables.mono (e := r) h he.2⟩
  | .match_ _ i p s, he =>
    ⟨Scalar.AllVariables.mono (e := i) h he.1, Scalar.AllVariables.mono (e := p) h he.2.1,
      Scalar.AllVariables.mono (e := s) h he.2.2⟩
  | .conditional as d, he => ⟨AllVariablesPairs.mono h (e := as) he.1, AllVariablesOption.mono h (e := d) he.2⟩
  | .coalesce as, he => AllVariablesList.mono h (e := as) he
  | .let_ vs b, he =>
    ⟨AllVariablesBindings.mono h (e := vs) he.1, Scalar.AllVariables.mono (e := b) h he.2⟩
  | .functionCall _ as, he => AllVariablesList.mono h (e := as) he
  | .aggregateFunctionCall _ as, he => AllVariablesList.mono h (e := as) he
  | .subquery _ _ _, he => fun p hp => h _ (he p hp)
  | .exists_ _ _, he => fun p hp => h _ (he p hp)
  | .quantifiedCompare _ _ l _ _ _, he =>
    ⟨Scalar.AllVariables.mono (e := l) h he.1, fun p hp => h _ (he.2 p hp)⟩
termination_by structural e => e

theorem AllVariablesList.mono (h : ∀ v, P v → Q v) :
    ∀ {e : List Scalar}, AllVariablesList P e → AllVariablesList Q e
  | [], _ => trivial
  | e :: es, he => ⟨Scalar.AllVariables.mono (e := e) h he.1, AllVariablesList.mono h (e := es) he.2⟩
termination_by structural e => e

theorem AllVariablesOption.mono (h : ∀ v, P v → Q v) :
    ∀ {e : Option Scalar}, AllVariablesOption P e → AllVariablesOption Q e
  | none, _ => trivial
  | some e, he => Scalar.AllVariables.mono (e := e) h he
termination_by structural e => e

theorem AllVariablesPairs.mono (h : ∀ v, P v → Q v) :
    ∀ {e : List (Scalar × Scalar)}, AllVariablesPairs P e → AllVariablesPairs Q e
  | [], _ => trivial
  | (a, b) :: rest, he =>
    ⟨Scalar.AllVariables.mono (e := a) h he.1, Scalar.AllVariables.mono (e := b) h he.2.1,
      AllVariablesPairs.mono h (e := rest) he.2.2⟩
termination_by structural e => e

theorem AllVariablesBindings.mono (h : ∀ v, P v → Q v) :
    ∀ {e : List (Variable × Scalar)}, AllVariablesBindings P e → AllVariablesBindings Q e
  | [], _ => trivial
  | (_, e) :: rest, he =>
    ⟨h _ he.1, Scalar.AllVariables.mono (e := e) h he.2.1, AllVariablesBindings.mono h (e := rest) he.2.2⟩
termination_by structural e => e

end

mutual

/-- A property of all variables of an expression holds of those that it reads. -/
theorem Scalar.AllVariables.of_mem : ∀ {e : Scalar}, e.AllVariables P → ∀ v ∈ e.variables, P v
  | .immediate _ _, _, _, hv => nomatch hv
  | .variableReference _, h, v, hv => List.mem_singleton.mp hv ▸ h
  | .cast _ _ operand, h, v, hv => Scalar.AllVariables.of_mem (e := operand) h v hv
  | .unary _ operand, h, v, hv => Scalar.AllVariables.of_mem (e := operand) h v hv
  | .binary _ l r, h, v, hv => (List.mem_append.mp hv).elim
      (Scalar.AllVariables.of_mem (e := l) h.1 v) (Scalar.AllVariables.of_mem (e := r) h.2 v)
  | .compare _ l r, h, v, hv => (List.mem_append.mp hv).elim
      (Scalar.AllVariables.of_mem (e := l) h.1 v) (Scalar.AllVariables.of_mem (e := r) h.2 v)
  | .match_ _ i p s, h, v, hv => by
    rw [Scalar.variables, List.mem_append, List.mem_append] at hv
    obtain (hv | hv) | hv := hv
    · exact Scalar.AllVariables.of_mem (e := i) h.1 v hv
    · exact Scalar.AllVariables.of_mem (e := p) h.2.1 v hv
    · exact Scalar.AllVariables.of_mem (e := s) h.2.2 v hv
  | .conditional as d, h, v, hv => (List.mem_append.mp hv).elim
      (AllVariablesPairs.of_mem (e := as) h.1 v) (AllVariablesOption.of_mem (e := d) h.2 v)
  | .coalesce as, h, v, hv => AllVariablesList.of_mem (e := as) h v hv
  | .let_ vs b, h, v, hv => (List.mem_append.mp hv).elim
      (AllVariablesBindings.of_mem (e := vs) h.1 v) (Scalar.AllVariables.of_mem (e := b) h.2 v)
  | .functionCall _ as, h, v, hv => AllVariablesList.of_mem (e := as) h v hv
  | .aggregateFunctionCall _ as, h, v, hv => AllVariablesList.of_mem (e := as) h v hv
  | .subquery _ _ _, h, v, hv => by
    obtain ⟨p, hp, rfl⟩ := List.mem_map.mp hv
    exact h p hp
  | .exists_ _ _, h, v, hv => by
    obtain ⟨p, hp, rfl⟩ := List.mem_map.mp hv
    exact h p hp
  | .quantifiedCompare _ _ l _ _ _, h, v, hv => by
    obtain hv | hv := List.mem_append.mp hv
    · exact Scalar.AllVariables.of_mem (e := l) h.1 v hv
    · obtain ⟨p, hp, rfl⟩ := List.mem_map.mp hv
      exact h.2 p hp
termination_by structural e => e

theorem AllVariablesList.of_mem :
    ∀ {e : List Scalar}, AllVariablesList P e → ∀ v ∈ variablesList e, P v
  | [], _, _, hv => nomatch hv
  | e :: es, h, v, hv => (List.mem_append.mp hv).elim
      (Scalar.AllVariables.of_mem (e := e) h.1 v) (AllVariablesList.of_mem (e := es) h.2 v)
termination_by structural e => e

theorem AllVariablesOption.of_mem :
    ∀ {e : Option Scalar}, AllVariablesOption P e → ∀ v ∈ variablesOption e, P v
  | none, _, _, hv => nomatch hv
  | some e, h, v, hv => Scalar.AllVariables.of_mem (e := e) h v hv
termination_by structural e => e

theorem AllVariablesPairs.of_mem :
    ∀ {e : List (Scalar × Scalar)}, AllVariablesPairs P e → ∀ v ∈ variablesPairs e, P v
  | [], _, _, hv => nomatch hv
  | (a, b) :: rest, h, v, hv => by
    rw [variablesPairs, List.mem_append, List.mem_append] at hv
    obtain (hv | hv) | hv := hv
    · exact Scalar.AllVariables.of_mem (e := a) h.1 v hv
    · exact Scalar.AllVariables.of_mem (e := b) h.2.1 v hv
    · exact AllVariablesPairs.of_mem (e := rest) h.2.2 v hv
termination_by structural e => e

theorem AllVariablesBindings.of_mem :
    ∀ {e : List (Variable × Scalar)}, AllVariablesBindings P e → ∀ v ∈ variablesBindings e, P v
  | [], _, _, hv => nomatch hv
  | (_, e) :: rest, h, v, hv => (List.mem_append.mp hv).elim
      (Scalar.AllVariables.of_mem (e := e) h.2.1 v) (AllVariablesBindings.of_mem (e := rest) h.2.2 v)
termination_by structural e => e

end

theorem allVariablesList_iff {es : List Scalar} :
    AllVariablesList P es ↔ ∀ e ∈ es, e.AllVariables P := by
  induction es with
  | nil => simp [AllVariablesList]
  | cons e es ih => simp [AllVariablesList, ih]

theorem allVariablesPairs_iff {pairs : List (Scalar × Scalar)} :
    AllVariablesPairs P pairs ↔ ∀ p ∈ pairs, p.1.AllVariables P ∧ p.2.AllVariables P := by
  induction pairs with
  | nil => simp [AllVariablesPairs]
  | cons p pairs ih =>
    obtain ⟨a, b⟩ := p
    rw [AllVariablesPairs, ih, List.forall_mem_cons, and_assoc]

end Mizugaki.Plan
