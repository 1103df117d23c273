import Mizugaki.Scoping.Name

/-! Scalar expressions in sound chains. What the analysis of an expression returns mentions only
what is legible in the scope where it stands, and the subqueries in it are closed and take only
what is visible there. -/

namespace Mizugaki.Analyzer

open Mizugaki.Ast Mizugaki.Plan Mizugaki.Control

variable {ρ : Type} {env : Environment ρ}

/-! ### Scoped expressions -/

/-- A nested graph is closed, and takes what is visible where it stands. -/
def NodeScoped (scopes : List QueryScope) (node : SubqueryNode) : Prop :=
  node.Closed ∧ ∀ p ∈ node.parameters, Visible scopes p.1

/-- An expression that mentions only what is legible, with scoped subqueries. -/
def Scoped (scopes : List QueryScope) (n : Nat) (e : Scalar) : Prop :=
  e.AllVariables (Legible scopes n) ∧ ∀ node ∈ e.subqueries, NodeScoped scopes node

variable {scopes later : List QueryScope} {n m : Nat}

theorem NodeScoped.mono {node : SubqueryNode} (h : NodeScoped scopes node)
    (hlater : Captured scopes later) : NodeScoped later node :=
  ⟨h.1, fun p hp => hlater.visible (h.2 p hp)⟩

theorem Scoped.mono {e : Scalar} (h : Scoped scopes n e) (hlater : Captured scopes later)
    (hnm : n ≤ m) : Scoped later m e :=
  ⟨h.1.mono fun _ hv => hlater.legible hnm hv, fun node hnode => (h.2 node hnode).mono hlater⟩

/-- A column that a scoped expression reads is visible. -/
theorem Scoped.visible {e : Scalar} (h : Scoped scopes n e) {v : Variable} (hv : v ∈ e.variables)
    (hcolumn : v.isColumn = true) : Visible scopes v := by
  obtain hv | ⟨x, rfl⟩ | ⟨k, -, rfl⟩ := h.1.of_mem v hv
  · exact hv
  · cases hcolumn
  · cases hcolumn

@[simp] theorem scoped_immediate (value : ValueData) (type : TypeData) :
    Scoped scopes n (.immediate value type) :=
  ⟨trivial, fun _ hnode => nomatch hnode⟩

@[simp] theorem scoped_variableReference {v : Variable} :
    Scoped scopes n (.variableReference v) ↔ Legible scopes n v :=
  ⟨fun h => h.1, fun h => ⟨h, fun _ hnode => nomatch hnode⟩⟩

@[simp] theorem scoped_cast {type : TypeData} {policy : CastLossPolicy} {e : Scalar} :
    Scoped scopes n (.cast type policy e) ↔ Scoped scopes n e := Iff.rfl

@[simp] theorem scoped_unary {op : Plan.UnaryOperator} {e : Scalar} :
    Scoped scopes n (.unary op e) ↔ Scoped scopes n e := Iff.rfl

@[simp] theorem scoped_binary {op : Plan.BinaryOperator} {l r : Scalar} :
    Scoped scopes n (.binary op l r) ↔ Scoped scopes n l ∧ Scoped scopes n r := by
  simp only [Scoped, Scalar.AllVariables, Scalar.subqueries, List.forall_mem_append,
    and_and_and_comm]

@[simp] theorem scoped_compare {op : Plan.ComparisonOperator} {l r : Scalar} :
    Scoped scopes n (.compare op l r) ↔ Scoped scopes n l ∧ Scoped scopes n r := by
  simp only [Scoped, Scalar.AllVariables, Scalar.subqueries, List.forall_mem_append,
    and_and_and_comm]

@[simp] theorem scoped_match {op : MatchOperator} {i p e : Scalar} :
    Scoped scopes n (.match_ op i p e) ↔
      Scoped scopes n i ∧ Scoped scopes n p ∧ Scoped scopes n e := by
  simp only [Scoped, Scalar.AllVariables, Scalar.subqueries, List.forall_mem_append]
  tauto

@[simp] theorem scoped_conditional {alternatives : List (Scalar × Scalar)} {d : Option Scalar} :
    Scoped scopes n (.conditional alternatives d) ↔
      (∀ p ∈ alternatives, Scoped scopes n p.1 ∧ Scoped scopes n p.2) ∧
      ∀ e ∈ d, Scoped scopes n e := by
  have hpairs : (∀ node ∈ subqueriesPairs alternatives, NodeScoped scopes node) ↔
      ∀ p ∈ alternatives, (∀ node ∈ p.1.subqueries, NodeScoped scopes node) ∧
        ∀ node ∈ p.2.subqueries, NodeScoped scopes node := by
    simp only [mem_subqueriesPairs]
    constructor
    · exact fun h p hp => ⟨fun node hn => h node ⟨p, hp, .inl hn⟩, fun node hn => h node ⟨p, hp, .inr hn⟩⟩
    · rintro h node ⟨p, hp, hn | hn⟩
      · exact (h p hp).1 node hn
      · exact (h p hp).2 node hn
  simp only [Scoped, Scalar.AllVariables, Scalar.subqueries, List.forall_mem_append,
    allVariablesPairs_iff, hpairs]
  cases d with
  | none =>
    simp only [AllVariablesOption, subqueriesOption, List.not_mem_nil, Option.not_mem_none,
      false_implies, implies_true, and_true]
    exact ⟨fun h p hp => ⟨⟨(h.1 p hp).1, (h.2 p hp).1⟩, (h.1 p hp).2, (h.2 p hp).2⟩,
      fun h => ⟨fun p hp => ⟨(h p hp).1.1, (h p hp).2.1⟩, fun p hp => ⟨(h p hp).1.2, (h p hp).2.2⟩⟩⟩
  | some e =>
    simp only [AllVariablesOption, subqueriesOption, Option.mem_some_iff, forall_eq']
    exact ⟨fun h => ⟨fun p hp => ⟨⟨(h.1.1 p hp).1, (h.2.1 p hp).1⟩, (h.1.1 p hp).2, (h.2.1 p hp).2⟩,
        h.1.2, h.2.2⟩,
      fun h => ⟨⟨fun p hp => ⟨(h.1 p hp).1.1, (h.1 p hp).2.1⟩, h.2.1⟩,
        fun p hp => ⟨(h.1 p hp).1.2, (h.1 p hp).2.2⟩, h.2.2⟩⟩

/-- The expressions of a list, as they stand in a node. -/
theorem scopedList {es : List Scalar} :
    (AllVariablesList (Legible scopes n) es ∧ ∀ node ∈ subqueriesList es, NodeScoped scopes node) ↔
      ∀ e ∈ es, Scoped scopes n e := by
  simp only [allVariablesList_iff, mem_subqueriesList, Scoped]
  constructor
  · exact fun h e he => ⟨h.1 e he, fun node hnode => h.2 node ⟨e, he, hnode⟩⟩
  · exact fun h => ⟨fun e he => (h e he).1, fun node ⟨e, he, hnode⟩ => (h e he).2 node hnode⟩

@[simp] theorem scoped_coalesce {es : List Scalar} :
    Scoped scopes n (.coalesce es) ↔ ∀ e ∈ es, Scoped scopes n e := scopedList

@[simp] theorem scoped_functionCall {function : FunctionDecl} {es : List Scalar} :
    Scoped scopes n (.functionCall function es) ↔ ∀ e ∈ es, Scoped scopes n e := scopedList

@[simp] theorem scoped_aggregateFunctionCall {function : AggregateDecl} {es : List Scalar} :
    Scoped scopes n (.aggregateFunctionCall function es) ↔ ∀ e ∈ es, Scoped scopes n e := scopedList

/-- The bindings of a let, as they stand in it. -/
@[simp] theorem scoped_let {bindings : List (Variable × Scalar)} {body : Scalar} :
    Scoped scopes n (.let_ bindings body) ↔
      (∀ b ∈ bindings, Legible scopes n b.1 ∧ Scoped scopes n b.2) ∧ Scoped scopes n body := by
  have hbindings : (AllVariablesBindings (Legible scopes n) bindings ∧
      ∀ node ∈ subqueriesBindings bindings, NodeScoped scopes node) ↔
      ∀ b ∈ bindings, Legible scopes n b.1 ∧ Scoped scopes n b.2 := by
    induction bindings with
    | nil => simp [AllVariablesBindings, subqueriesBindings]
    | cons b bindings ih =>
      obtain ⟨v, e⟩ := b
      rw [List.forall_mem_cons, ← ih]
      simp only [AllVariablesBindings, subqueriesBindings, List.forall_mem_append, Scoped]
      tauto
  rw [← hbindings]
  simp only [Scoped, Scalar.AllVariables, Scalar.subqueries, List.forall_mem_append]
  tauto

/-- A subquery node is scoped when what it takes is. -/
theorem parameters_legible {node : SubqueryNode} (h : NodeScoped scopes node) :
    ∀ p ∈ node.parameters, Legible scopes n p.1 :=
  fun p hp => .inl (h.2 p hp)

@[simp] theorem scoped_subquery {g : Graph} {parameters : List (Variable × Variable)}
    {v : Variable} :
    Scoped scopes n (.subquery g parameters v) ↔ NodeScoped scopes ⟨g, parameters⟩ :=
  ⟨fun h => h.2 _ List.mem_cons_self,
    fun h => ⟨parameters_legible h, fun _ hn => List.mem_singleton.mp hn ▸ h⟩⟩

@[simp] theorem scoped_exists {g : Graph} {parameters : List (Variable × Variable)} :
    Scoped scopes n (.exists_ g parameters) ↔ NodeScoped scopes ⟨g, parameters⟩ :=
  ⟨fun h => h.2 _ List.mem_cons_self,
    fun h => ⟨parameters_legible h, fun _ hn => List.mem_singleton.mp hn ▸ h⟩⟩

@[simp] theorem scoped_quantifiedCompare {op : Plan.ComparisonOperator} {q : Plan.Quantifier}
    {l : Scalar} {g : Graph} {parameters : List (Variable × Variable)} {v : Variable} :
    Scoped scopes n (.quantifiedCompare op q l g parameters v) ↔
      Scoped scopes n l ∧ NodeScoped scopes ⟨g, parameters⟩ := by
  simp only [Scoped, Scalar.AllVariables, Scalar.subqueries, List.forall_mem_append,
    List.forall_mem_singleton]
  exact ⟨fun h => ⟨⟨h.1.1, h.2.1⟩, h.2.2⟩,
    fun h => ⟨⟨h.1.1, parameters_legible h.2⟩, h.1.2, h.2⟩⟩

@[simp] theorem scoped_negateIf {isNot : Bool} {e : Scalar} :
    Scoped scopes n (negateIf isNot e) ↔ Scoped scopes n e := by
  cases isNot <;> rfl

theorem legible_local {k : Nat} (h : k < n) : Legible scopes n (.localVariable k) :=
  .inr (.inr ⟨k, h, rfl⟩)

theorem scoped_compareAny {v : Variable} {first : Scalar} {rest : List Scalar}
    (hv : Legible scopes n v) (hfirst : Scoped scopes n first)
    (hrest : ∀ e ∈ rest, Scoped scopes n e) : Scoped scopes n (compareAny v first rest) := by
  have hfold : ∀ (rest : List Scalar) (body : Scalar), (∀ e ∈ rest, Scoped scopes n e) →
      Scoped scopes n body → Scoped scopes n (rest.foldl (fun body e =>
        Scalar.binary .conditionalOr body (.compare .equal (.variableReference v) e)) body) := by
    intro rest
    induction rest with
    | nil => exact fun _ _ hbody => hbody
    | cons e rest ih =>
      intro body hes hbody
      rw [List.forall_mem_cons] at hes
      exact ih _ hes.2 (by simp [hbody, hv, hes.1])
  exact hfold rest _ hrest (by simp [hv, hfirst])

/-! ### Actions -/

/-- Between two states expressions were analyzed that are scoped where they stand. -/
structure Reads (s t : AnalyzerState ρ) (es : List Scalar) : Prop where
  sound : s.Sound → t.Sound
  frame : s.Sound → Extends s t
  expressions : s.Sound → ∀ e ∈ es, Scoped t.scopes t.fresh e

namespace Reads

variable {s t u : AnalyzerState ρ} {es es' : List Scalar}

theorem of_quiet (h : Quiet s t) : Reads s t [] where
  sound hs := hs.of_quiet h
  frame _ := h.extends
  expressions _ _ he := nomatch he

theorem refl (s : AnalyzerState ρ) : Reads s s [] := of_quiet (Check.Frame.refl s)

theorem trans (h : Reads s t es) (k : Reads t u es') : Reads s u (es ++ es') where
  sound hs := k.sound (h.sound hs)
  frame hs := (h.frame hs).trans (k.frame (h.sound hs))
  expressions hs := by
    have hlater := k.frame (h.sound hs)
    exact List.forall_mem_append.mpr
      ⟨fun e he => (h.expressions hs e he).mono hlater.scopes hlater.fresh, k.expressions (h.sound hs)⟩

theorem quiet_trans (h : Quiet s t) (k : Reads t u es) : Reads s u es := (of_quiet h).trans k

theorem trans_quiet (h : Reads s t es) (k : Quiet t u) : Reads s u es := by
  have hall := h.trans (of_quiet k)
  rwa [List.append_nil] at hall

/-- Expressions that are built of the ones analyzed. -/
theorem build (h : Reads s t es)
    (hes : (∀ e ∈ es, Scoped t.scopes t.fresh e) → ∀ e ∈ es', Scoped t.scopes t.fresh e) :
    Reads s t es' :=
  { h with expressions := fun hs => hes (h.expressions hs) }

/-- A fresh local variable can be mentioned from then on. -/
theorem localVariable {v : Variable} (h : Reads s t es)
    (hv : localVariable t = (some v, u)) : Reads s u (.variableReference v :: es) := by
  have hquiet : Quiet _ _ := localVariable_quiet hv
  have hall := h.trans_quiet hquiet
  simp only [Analyzer.localVariable, freshNumber, Check.map_yields, Check.bind_yields, Check.get_yields,
    Check.modify_yields, Check.pure_yields] at hv
  obtain ⟨_, ⟨_, _, ⟨rfl, rfl⟩, -, _, rfl, rfl, rfl⟩, rfl⟩ := hv
  refine ⟨hall.sound, hall.frame, fun hs => List.forall_mem_cons.mpr ⟨?_, hall.expressions hs⟩⟩
  exact scoped_variableReference.mpr (legible_local (Nat.lt_succ_self _))

end Reads

/-- An analysis of an expression that is scoped where it stands. -/
def ScalarScoped (a : ScalarAction ρ) : Prop :=
  ∀ context ⦃s t e⦄, a context s = (some e, t) → Reads s t [e]

/-- An analysis without columns and subqueries. -/
theorem Reads.of_legible {s t : AnalyzerState ρ} {e : Scalar} (h : Quiet s t)
    (he : ∀ scopes n, Scoped scopes n e) : Reads s t [e] :=
  { Reads.of_quiet h with expressions := fun _ _ hmem => List.mem_singleton.mp hmem ▸ he _ _ }

end Mizugaki.Analyzer
