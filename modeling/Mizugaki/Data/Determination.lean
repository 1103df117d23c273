import Mathlib.Data.List.Basic

/-! Terms over operators without a meaning of their own, and when the values of some terms
determine the value of another. Two valuations may differ in what is not constant; where keys
identify a valuation, valuations with the same keys are the same. A term is determined by others,
whatever the operators mean, exactly when it is built from them, from constants and, once all keys
are determined, from anything. -/

namespace Mizugaki.Data.Determination

variable {σ ν α β : Type}

/-- Terms. -/
inductive Term (σ ν : Type) where
  | var (v : ν)
  | node (f : σ) (args : List (Term σ ν))

namespace Term

/-- Induction over terms, with the hypothesis for every argument of a node. -/
theorem induction {motive : Term σ ν → Prop} (var : ∀ v, motive (.var v))
    (node : ∀ f args, (∀ t ∈ args, motive t) → motive (.node f args)) : ∀ t, motive t
  | .var v => var v
  | .node f args => node f args fun t _ => induction var node t

mutual

/-- The value of a term under a meaning of the operators and a valuation. -/
def eval (apply : σ → List α → α) (ρ : ν → α) : Term σ ν → α
  | .var v => ρ v
  | .node f args => apply f (evalList apply ρ args)
termination_by structural t => t

def evalList (apply : σ → List α → α) (ρ : ν → α) : List (Term σ ν) → List α
  | [] => []
  | t :: ts => eval apply ρ t :: evalList apply ρ ts
termination_by structural ts => ts

end

theorem evalList_eq (apply : σ → List α → α) (ρ : ν → α) (ts : List (Term σ ν)) :
    evalList apply ρ ts = ts.map (eval apply ρ) := by
  induction ts with
  | nil => rfl
  | cons t ts ih => rw [evalList, ih, List.map_cons]

theorem eval_node (apply : σ → List α → α) (ρ : ν → α) (f : σ) (args : List (Term σ ν)) :
    eval apply ρ (.node f args) = apply f (args.map (eval apply ρ)) := by
  rw [eval, evalList_eq]

/-- The term itself is its value among terms. -/
theorem eval_self (t : Term σ ν) : eval node var t = t := by
  induction t using induction with
  | var v => rfl
  | node f args ih => rw [eval_node, List.map_congr_left ih, List.map_id']

/-- Two meanings side by side. -/
def pair (apply : σ → List α → α) (apply' : σ → List β → β) (f : σ) (args : List (α × β)) : α × β :=
  (apply f (args.map Prod.fst), apply' f (args.map Prod.snd))

theorem eval_pair (apply : σ → List α → α) (apply' : σ → List β → β) (ρ : ν → α × β)
    (t : Term σ ν) :
    eval (pair apply apply') ρ t =
      (eval apply (fun v => (ρ v).1) t, eval apply' (fun v => (ρ v).2) t) := by
  induction t using induction with
  | var v => rfl
  | node f args ih =>
    rw [eval_node, eval_node, eval_node, List.map_congr_left ih, pair, List.map_map, List.map_map]
    rfl

end Term

variable (outputs : List (Term σ ν)) (constant : ν → Prop) (keys : Option (List ν))

/-- A term is determined by outputs: it is one of them, a constant or a node of determined terms, or
a variable where all keys are determined. -/
inductive Determined : Term σ ν → Prop
  | output {t} (h : t ∈ outputs) : Determined t
  | constant {v} (h : constant v) : Determined (.var v)
  | identified {ks v} (hkeys : keys = some ks) (h : ∀ k ∈ ks, Determined (.var k)) :
    Determined (.var v)
  | node {f args} (h : ∀ t ∈ args, Determined t) : Determined (.node f args)

/-- What two valuations of one relation have in common: the constants, and everything once they
agree on the keys. -/
structure Related (ρ ρ' : ν → α) : Prop where
  constant : ∀ v, constant v → ρ v = ρ' v
  identified : ∀ ks, keys = some ks → (∀ k ∈ ks, ρ k = ρ' k) → ρ = ρ'

variable {outputs constant keys} {t : Term σ ν}

/-- Valuations that agree on the outputs agree on what these determine. -/
theorem Determined.eval_eq (h : Determined outputs constant keys t) {apply : σ → List α → α}
    {ρ ρ' : ν → α} (hrelated : Related constant keys ρ ρ')
    (houtputs : ∀ u ∈ outputs, u.eval apply ρ = u.eval apply ρ') :
    t.eval apply ρ = t.eval apply ρ' := by
  induction h with
  | output hmem => exact houtputs _ hmem
  | constant hv => exact hrelated.constant _ hv
  | identified hkeys _ ih => rw [hrelated.identified _ hkeys ih]
  | node _ ih => rw [Term.eval_node, Term.eval_node, List.map_congr_left ih]

section Separation

open Classical in
/-- The meaning that keeps the terms, and a mark on what is not determined: a node is marked when
one of its arguments is. -/
noncomputable def marked (outputs : List (Term σ ν)) (constant : ν → Prop)
    (keys : Option (List ν)) (f : σ) (args : List (Term σ ν × Bool)) : Term σ ν × Bool :=
  let t := Term.node f (args.map Prod.fst)
  (t, decide (¬ Determined outputs constant keys t) && args.any Prod.snd)

open Classical in
/-- The valuation of the variables by themselves, marked or not. -/
noncomputable def marks (outputs : List (Term σ ν)) (constant : ν → Prop) (keys : Option (List ν))
    (mark : Bool) (v : ν) : Term σ ν × Bool :=
  (.var v, mark && decide (¬ Determined outputs constant keys (.var v)))

open Classical in
theorem eval_marked (mark : Bool) (t : Term σ ν) :
    t.eval (marked outputs constant keys) (marks outputs constant keys mark) =
      (t, mark && decide (¬ Determined outputs constant keys t)) := by
  induction t using Term.induction with
  | var v => rfl
  | node f args ih =>
    rw [Term.eval_node, List.map_congr_left ih, marked]
    have hterms : (args.map fun t => (t, mark && decide (¬ Determined outputs constant keys t))).map
        Prod.fst = args := by
      rw [List.map_map]
      exact List.map_id' args
    rw [hterms]
    refine congrArg (Prod.mk _) ?_
    by_cases hnode : Determined outputs constant keys (.node f args)
    · simp [hnode]
    · -- an argument that is not determined carries the mark
      obtain ⟨u, hu, hnot⟩ : ∃ u ∈ args, ¬ Determined outputs constant keys u := by
        by_contra hall
        exact hnode (.node fun u hu => by_contra fun hnot => hall ⟨u, hu, hnot⟩)
      rw [decide_eq_true hnode, Bool.true_and, Bool.and_true]
      cases mark with
      | false => simp
      | true =>
        refine List.any_eq_true.mpr ⟨_, List.mem_map_of_mem hu, ?_⟩
        exact decide_eq_true hnot

/-- A term that is not determined has different values under valuations that agree on the
outputs. -/
theorem exists_separation (h : ¬ Determined outputs constant keys t) :
    ∃ (α : Type) (apply : σ → List α → α) (ρ ρ' : ν → α), Related constant keys ρ ρ' ∧
      (∀ u ∈ outputs, u.eval apply ρ = u.eval apply ρ') ∧ t.eval apply ρ ≠ t.eval apply ρ' := by
  refine ⟨_, marked outputs constant keys, marks outputs constant keys false,
    marks outputs constant keys true, ⟨fun v hv => ?_, fun ks hks hkeys => ?_⟩, fun u hu => ?_, ?_⟩
  · have hdetermined : Determined outputs constant keys (.var v) := .constant hv
    simp [marks, hdetermined]
  · have hdetermined : ∀ k ∈ ks, Determined outputs constant keys (.var k) := by
      intro k hk
      simpa [marks] using hkeys k hk
    funext v
    have hv : Determined outputs constant keys (.var v) := .identified hks hdetermined
    simp [marks, hv]
  · have hu : Determined outputs constant keys u := .output hu
    rw [eval_marked, eval_marked]
    simp [hu]
  · rw [eval_marked, eval_marked]
    simp [h]

end Separation

end Mizugaki.Data.Determination
