import Mizugaki.Analyzer.Capture
import Mizugaki.Analyzer.Engine
import Mizugaki.Plan.Subquery

/-! The mark of set functions. The analysis of an expression marks the state exactly when a
call of a set function is left in the expression outside of its subqueries. Everywhere but in the
rows of table values and in the arguments of an APPLY the mark is consulted, so that the graphs
that come of an analysis have calls of set functions in these two places at most. -/

namespace Mizugaki.Plan

/-- An operator whose expressions are not checked for set functions. -/
def Operator.isUnchecked : Operator → Bool
  | values _ _ => true
  | apply _ _ _ _ => true
  | _ => false

/-- No operator of a graph but unchecked ones has a set function in its expressions. -/
def Graph.Checked (g : Graph) : Prop :=
  ∀ op ∈ g.operators, op.isUnchecked = false → ∀ e ∈ op.expressions, e.hasAggregate = false

/-- Set functions are called nowhere in a nested graph but in unchecked operators. -/
def SubqueryNode.Confined (n : SubqueryNode) : Prop :=
  n.graph.Hereditary (fun _ g => g.Checked) n.parameters

/-- No set function is called in an expression, and those of its subqueries are confined. -/
def Scalar.Confined (e : Scalar) : Prop :=
  e.hasAggregate = false ∧ ∀ n ∈ e.subqueries, n.Confined

/-- Set functions are called nowhere in an operator but in unchecked operators. -/
def Operator.Confined (op : Operator) : Prop :=
  (op.isUnchecked = false → ∀ e ∈ op.expressions, e.hasAggregate = false) ∧
    ∀ n ∈ op.nested, n.Confined

/-- Set functions are called nowhere in a graph but in unchecked operators. -/
def Graph.Confined (g : Graph) : Prop := (SubqueryNode.mk g []).Confined

theorem SubqueryNode.confined_iff (n : SubqueryNode) :
    n.Confined ↔ ∀ op ∈ n.graph.operators, op.Confined := by
  constructor
  · intro h op hop
    exact ⟨h.here op hop, fun m hm => h.inside hop hm⟩
  · intro h
    exact .intro (fun op hop => (h op hop).1) fun op hop m hm => (h op hop).2 m hm

theorem Graph.confined_iff (g : Graph) : g.Confined ↔ ∀ op ∈ g.operators, op.Confined :=
  (SubqueryNode.mk g []).confined_iff

/-- The parameters of a nested graph do not matter. -/
theorem Graph.Confined.node {g : Graph} (h : g.Confined)
    (parameters : List (Variable × Variable)) : (SubqueryNode.mk g parameters).Confined :=
  (SubqueryNode.confined_iff _).mpr (g.confined_iff.mp h)

theorem Graph.Confined.source {op : Operator} (h : op.Confined) : (Graph.source op).Confined := by
  refine (Graph.confined_iff _).mpr fun o ho => ?_
  rw [List.mem_singleton.mp ho]
  exact h

theorem Graph.Confined.unary {op : Operator} {g : Graph} (h : op.Confined) (hg : g.Confined) :
    (Graph.unary op g).Confined := by
  refine (Graph.confined_iff _).mpr (List.forall_mem_cons.mpr ⟨h, ?_⟩)
  exact g.confined_iff.mp hg

theorem Graph.Confined.binary {op : Operator} {l r : Graph} (h : op.Confined)
    (hl : l.Confined) (hr : r.Confined) : (Graph.binary op l r).Confined := by
  refine (Graph.confined_iff _).mpr (List.forall_mem_cons.mpr ⟨h, ?_⟩)
  exact List.forall_mem_append.mpr ⟨l.confined_iff.mp hl, r.confined_iff.mp hr⟩

/-- An operator over confined expressions. -/
theorem Operator.Confined.of_expressions {op : Operator}
    (hnested : op.nested = op.expressions.flatMap Scalar.subqueries)
    (h : ∀ e ∈ op.expressions, e.Confined) : op.Confined := by
  refine ⟨fun _ e he => (h e he).1, fun n hn => ?_⟩
  rw [hnested] at hn
  obtain ⟨e, he, hn⟩ := List.mem_flatMap.mp hn
  exact (h e he).2 n hn

/-- An unchecked operator: only its subqueries are confined. -/
theorem Operator.Confined.of_unchecked {op : Operator} (h : op.isUnchecked = true)
    (hn : ∀ n ∈ op.nested, n.Confined) : op.Confined := by
  refine ⟨fun hchecked => ?_, hn⟩
  rw [h] at hchecked
  cases hchecked

end Mizugaki.Plan

namespace Mizugaki.Analyzer

open Mizugaki.Ast Mizugaki.Plan Mizugaki.Control

variable {ρ : Type} (env : Environment ρ)

/-- The queries that can be referred to by name are confined. -/
def ConfinedQueries (s : AnalyzerState ρ) : Prop :=
  ∀ scope ∈ s.scopes, ∀ name q, scope.queryMap name = some q → q.queryGraph.Confined

/-- An analysis between two states. The mark tells whether there is a set function in the result,
and `nodes` are the graphs nested in it. -/
structure Marked (has : Bool) (nodes : List SubqueryNode) (s t : AnalyzerState ρ) : Prop where
  mark : t.sawAggregate = (s.sawAggregate || has)
  queries : ConfinedQueries s → ConfinedQueries t
  graphs : ConfinedQueries s → ∀ n ∈ nodes, n.Confined

namespace Marked

variable {h h' : Bool} {ns ns' : List SubqueryNode} {s t u : AnalyzerState ρ}

theorem trans (hst : Marked h ns s t) (htu : Marked h' ns' t u) :
    Marked (h || h') (ns ++ ns') s u where
  mark := by rw [htu.mark, hst.mark, Bool.or_assoc]
  queries hs := htu.queries (hst.queries hs)
  graphs hs := List.forall_mem_append.mpr ⟨hst.graphs hs, htu.graphs (hst.queries hs)⟩

/-- Scopes with the same queries and the same mark. -/
theorem of_capturing (h : Capturing s t) : Marked false [] s t where
  mark := by rw [h.sawAggregate, Bool.or_false]
  queries hs scope hscope name q hq := by
    obtain ⟨earlier, hearlier, hcaptures⟩ := h.scopes.exists_of_mem hscope
    exact hs earlier hearlier name q (hcaptures.queryMap ▸ hq)
  graphs _ _ hn := nomatch hn

theorem of_quiet (h : Quiet s t) : Marked false [] s t := of_capturing h.capturing

theorem quiet_trans (hst : Quiet s t) (htu : Marked h ns t u) : Marked h ns s u :=
  (of_quiet hst).trans htu

theorem trans_quiet (hst : Marked h ns s t) (htu : Quiet t u) : Marked h ns s u := by
  have hall := hst.trans (of_quiet htu)
  rwa [Bool.or_false, List.append_nil] at hall

/-- Equal marks, and the same graphs. -/
theorem congr (hst : Marked h ns s t) (hh : h = h') (hns : ns' ⊆ ns) : Marked h' ns' s t where
  mark := hh ▸ hst.mark
  queries := hst.queries
  graphs hs n hn := hst.graphs hs n (hns hn)

/-- A graph that is built of the nested ones. -/
theorem graph (hst : Marked h ns s t) {g : Graph}
    (hg : (∀ n ∈ ns, n.Confined) → g.Confined) : Marked h [⟨g, []⟩] s t :=
  { hst with
    graphs := fun hs n hn => by
      rw [List.mem_singleton.mp hn]
      exact hg (hst.graphs hs) }

end Marked

/-! ### Actions -/

/-- An analysis of an expression that marks the state when it calls set functions. -/
def Marks (m : Analysis ρ Scalar) : Prop :=
  ∀ ⦃s t e⦄, m s = (some e, t) → Marked e.hasAggregate e.subqueries s t

def ActionMarks (a : ScalarAction ρ) : Prop := ∀ context, Marks (a context)

abbrev ListMarks (actions : List (ScalarAction ρ)) : Prop := ∀ a ∈ actions, ActionMarks a

abbrev OptionMarks (action : Option (ScalarAction ρ)) : Prop := ∀ a ∈ action, ActionMarks a

abbrev PairsMarks (pairs : List (ScalarAction ρ × ScalarAction ρ)) : Prop :=
  ∀ p ∈ pairs, ActionMarks p.1 ∧ ActionMarks p.2

/-- An analysis of a query, of which only the graph is left. -/
def GraphMarks {α : Type} (graph : α → Graph) (m : Analysis ρ α) : Prop :=
  ∀ ⦃s t a⦄, m s = (some a, t) → Marked false [⟨graph a, []⟩] s t

def QueryMarks (q : QueryAction ρ) : Prop :=
  ∀ context continueScope, GraphMarks QueryResult.output (q context continueScope)

/-- An analysis without expressions. -/
theorem Marks.of_quiet {m : Analysis ρ Scalar} (hm : IsQuiet m)
    (he : ∀ ⦃s t e⦄, m s = (some e, t) → e.hasAggregate = false ∧ e.subqueries = []) :
    Marks m := by
  intro s t e h
  obtain ⟨hhas, hnodes⟩ := he h
  rw [hhas, hnodes]
  exact .of_quiet (hm h)

/-- The mark belongs to one expression, and its analysis puts back the one from before. -/
theorem analyzeScalarExpression_marked {a : ScalarAction ρ} (h : ActionMarks a)
    {context : ValueContext} {s t : AnalyzerState ρ} {e : Scalar} {sawAggregate : Bool}
    (hrun : analyzeScalarExpression a context s = (some (e, sawAggregate), t)) :
    sawAggregate = e.hasAggregate ∧ Marked false e.subqueries s t := by
  simp only [analyzeScalarExpression, Check.bind_yields, Check.gets_yields, Check.modify_yields,
    Check.pure_yields, Prod.mk.injEq] at hrun
  obtain ⟨_, _, ⟨rfl, rfl⟩, -, _, rfl, value, u, ha, _, _, ⟨rfl, rfl⟩, -, _, rfl, ⟨rfl, rfl⟩, rfl⟩ :=
    hrun
  have hvalue := h context ha
  refine ⟨?_, (Bool.or_false _).symm, hvalue.queries, hvalue.graphs⟩
  rw [hvalue.mark, Bool.false_or]

end Mizugaki.Analyzer
