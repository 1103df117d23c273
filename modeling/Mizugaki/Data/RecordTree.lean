import Mathlib.Data.List.Perm.Subperm
import Mathlib.Data.List.Basic
import Mathlib.Algebra.Order.BigOperators.Group.List
import Mathlib.Algebra.Order.Group.Nat
import Mathlib.Algebra.Ring.Nat

/-! Trees of records: a record of a kind `κ` holds a tree under every member name `μ`, and a
leaf an attribute `α`. Records and leaves carry a mark `ρ` that comparisons ignore. A
comparison that lists the members it looks at, kind by kind, is related to structural
identity, and a traversal that lists the members it visits to the set of all records. -/

namespace Mizugaki

inductive RecordTree (κ μ α ρ : Type)
  | null
  | leaf (value : α) (mark : ρ)
  | list (items : List (RecordTree κ μ α ρ))
  | record (kind : κ) (mark : ρ) (get : μ → RecordTree κ μ α ρ)

namespace RecordTree

variable {κ μ α ρ : Type}

section Comparison

variable [DecidableEq κ] [DecidableEq α]

mutual

/-- Compares two trees by the members that `listed` gives for the left record. -/
def agrees (listed : κ → (μ → RecordTree κ μ α ρ) → List μ) :
    RecordTree κ μ α ρ → RecordTree κ μ α ρ → Bool
  | .null, .null => true
  | .leaf a _, .leaf b _ => a = b
  | .list xs, .list ys => agreesAll listed xs ys
  | .record k _ f, .record l _ g => k = l && (listed k f).all fun m => agrees listed (f m) (g m)
  | _, _ => false

def agreesAll (listed : κ → (μ → RecordTree κ μ α ρ) → List μ) :
    List (RecordTree κ μ α ρ) → List (RecordTree κ μ α ρ) → Bool
  | [], [] => true
  | x :: xs, y :: ys => agrees listed x y && agreesAll listed xs ys
  | _, _ => false

end

end Comparison

/-- The trees are the same but for the marks, in every member of the records. -/
inductive Same (members : κ → List μ) : RecordTree κ μ α ρ → RecordTree κ μ α ρ → Prop
  | null : Same members .null .null
  | leaf (a : α) (r s : ρ) : Same members (.leaf a r) (.leaf a s)
  | nil : Same members (.list []) (.list [])
  | cons {x y : RecordTree κ μ α ρ} {xs ys : List (RecordTree κ μ α ρ)} :
      Same members x y → Same members (.list xs) (.list ys) →
      Same members (.list (x :: xs)) (.list (y :: ys))
  | record (k : κ) (r s : ρ) {f g : μ → RecordTree κ μ α ρ} :
      (∀ m ∈ members k, Same members (f m) (g m)) → Same members (.record k r f) (.record k s g)

mutual

/-- `P` holds of every record that is reached through members. -/
def Everywhere (members : κ → List μ) (P : κ → (μ → RecordTree κ μ α ρ) → Prop) :
    RecordTree κ μ α ρ → Prop
  | .null => True
  | .leaf _ _ => True
  | .list xs => EverywhereAll members P xs
  | .record k _ f => P k f ∧ ∀ m ∈ members k, Everywhere members P (f m)

def EverywhereAll (members : κ → List μ) (P : κ → (μ → RecordTree κ μ α ρ) → Prop) :
    List (RecordTree κ μ α ρ) → Prop
  | [] => True
  | x :: xs => Everywhere members P x ∧ EverywhereAll members P xs

end

section Equivalence

variable {members : κ → List μ}

mutual

theorem Same.refl : ∀ a : RecordTree κ μ α ρ, Same members a a
  | .null => .null
  | .leaf a r => .leaf a r r
  | .list xs => Same.refl_list xs
  | .record k r f => .record k r r fun m _ => Same.refl (f m)

theorem Same.refl_list : ∀ xs : List (RecordTree κ μ α ρ), Same members (.list xs) (.list xs)
  | [] => .nil
  | x :: xs => .cons (Same.refl x) (Same.refl_list xs)

end

theorem same_record {k l : κ} {r s : ρ} {f g : μ → RecordTree κ μ α ρ}
    (h : Same members (.record k r f) (.record l s g)) :
    k = l ∧ ∀ m ∈ members k, Same members (f m) (g m) := by
  cases h with
  | record _ _ _ hm => exact ⟨rfl, hm⟩

end Equivalence

section Comparison

variable [DecidableEq κ] [DecidableEq α] {listed : κ → (μ → RecordTree κ μ α ρ) → List μ}
  {members : κ → List μ}

/-- The members listed for a record are settled by the members that are compared. -/
def Settled (listed : κ → (μ → RecordTree κ μ α ρ) → List μ) : Prop :=
  ∀ (k : κ) (f g : μ → RecordTree κ μ α ρ),
    (∀ m ∈ listed k f, agrees listed (f m) (g m) = true) → listed k g = listed k f

theorem agrees_record {k l : κ} {r s : ρ} {f g : μ → RecordTree κ μ α ρ} :
    agrees listed (.record k r f) (.record l s g) = true ↔
      k = l ∧ ∀ m ∈ listed k f, agrees listed (f m) (g m) = true := by
  simp [agrees]

/-- Comparison is complete: it looks at nothing but members. -/
theorem Same.agrees (hl : ∀ k (f : μ → RecordTree κ μ α ρ), listed k f ⊆ members k)
    {a b : RecordTree κ μ α ρ} (h : Same members a b) : agrees listed a b = true := by
  induction h with
  | null => simp [RecordTree.agrees]
  | leaf a r s => simp [RecordTree.agrees]
  | nil => simp [RecordTree.agrees, agreesAll]
  | cons _ _ hx hxs =>
    simp only [RecordTree.agrees, agreesAll, Bool.and_eq_true] at hxs ⊢
    exact ⟨hx, hxs⟩
  | record k r s _ ih => exact agrees_record.mpr ⟨rfl, fun m hm => ih m (hl k _ hm)⟩

section Soundness

variable {P : κ → (μ → RecordTree κ μ α ρ) → Prop}

mutual

/-- Comparison is sound where `P` says that it looks at all members. -/
theorem same_of_agrees (hp : ∀ k f, P k f → members k ⊆ listed k f) :
    ∀ a b : RecordTree κ μ α ρ, Everywhere members P a → agrees listed a b = true →
      Same members a b
  | .null, b, _, h => by
    cases b with
    | null => exact .null
    | _ => simp [RecordTree.agrees] at h
  | .leaf a r, b, _, h => by
    cases b with
    | leaf b s =>
      have hab : a = b := by simpa [RecordTree.agrees] using h
      exact hab ▸ .leaf a r s
    | _ => simp [RecordTree.agrees] at h
  | .list xs, b, ha, h => by
    cases b with
    | list ys =>
      simp only [RecordTree.agrees] at h
      exact same_of_agreesAll hp xs ys ha h
    | _ => simp [RecordTree.agrees] at h
  | .record k r f, b, ha, h => by
    cases b with
    | record l s g =>
      obtain ⟨rfl, hfg⟩ := agrees_record.mp h
      exact .record k r s fun m hm =>
        same_of_agrees hp (f m) (g m) (ha.2 m hm) (hfg m (hp k f ha.1 hm))
    | _ => simp [RecordTree.agrees] at h

theorem same_of_agreesAll (hp : ∀ k f, P k f → members k ⊆ listed k f) :
    ∀ xs ys : List (RecordTree κ μ α ρ), EverywhereAll members P xs →
      agreesAll listed xs ys = true → Same members (.list xs) (.list ys)
  | [], ys, _, h => by
    cases ys with
    | nil => exact .nil
    | cons y ys => simp [agreesAll] at h
  | x :: xs, ys, ha, h => by
    cases ys with
    | nil => simp [agreesAll] at h
    | cons y ys =>
      simp only [agreesAll, Bool.and_eq_true] at h
      exact .cons (same_of_agrees hp x y ha.1 h.1) (same_of_agreesAll hp xs ys ha.2 h.2)

end

end Soundness

mutual

theorem agrees_symm (hs : Settled listed) :
    ∀ a b : RecordTree κ μ α ρ, agrees listed a b = true → agrees listed b a = true
  | .null, b, h => by
    cases b with
    | null => exact h
    | _ => simp [agrees] at h
  | .leaf a r, b, h => by
    cases b with
    | leaf b s => simpa [agrees, eq_comm] using h
    | _ => simp [agrees] at h
  | .list xs, b, h => by
    cases b with
    | list ys =>
      simp only [agrees] at h ⊢
      exact agreesAll_symm hs xs ys h
    | _ => simp [agrees] at h
  | .record k r f, b, h => by
    cases b with
    | record l s g =>
      obtain ⟨rfl, hfg⟩ := agrees_record.mp h
      refine agrees_record.mpr ⟨rfl, fun m hm => ?_⟩
      rw [hs k f g hfg] at hm
      exact agrees_symm hs (f m) (g m) (hfg m hm)
    | _ => simp [agrees] at h

theorem agreesAll_symm (hs : Settled listed) :
    ∀ xs ys : List (RecordTree κ μ α ρ), agreesAll listed xs ys = true →
      agreesAll listed ys xs = true
  | [], ys, h => by
    cases ys with
    | nil => exact h
    | cons y ys => simp [agreesAll] at h
  | x :: xs, ys, h => by
    cases ys with
    | nil => simp [agreesAll] at h
    | cons y ys =>
      simp only [agreesAll, Bool.and_eq_true] at h ⊢
      exact ⟨agrees_symm hs x y h.1, agreesAll_symm hs xs ys h.2⟩

end

mutual

theorem agrees_trans (hs : Settled listed) :
    ∀ a b c : RecordTree κ μ α ρ, agrees listed a b = true → agrees listed b c = true →
      agrees listed a c = true
  | .null, b, c, h, h' => by
    cases b with
    | null => exact h'
    | _ => simp [agrees] at h
  | .leaf a r, b, c, h, h' => by
    cases b with
    | leaf b s =>
      cases c with
      | leaf c t =>
        simp only [agrees, decide_eq_true_eq] at h h' ⊢
        exact h.trans h'
      | _ => simp [agrees] at h'
    | _ => simp [agrees] at h
  | .list xs, b, c, h, h' => by
    cases b with
    | list ys =>
      cases c with
      | list zs =>
        simp only [agrees] at h h' ⊢
        exact agreesAll_trans hs xs ys zs h h'
      | _ => simp [agrees] at h'
    | _ => simp [agrees] at h
  | .record k r f, b, c, h, h' => by
    cases b with
    | record l s g =>
      cases c with
      | record n t i =>
        obtain ⟨rfl, hfg⟩ := agrees_record.mp h
        obtain ⟨rfl, hgi⟩ := agrees_record.mp h'
        refine agrees_record.mpr ⟨rfl, fun m hm => ?_⟩
        have hm' : m ∈ listed k g := by rwa [hs k f g hfg]
        exact agrees_trans hs (f m) (g m) (i m) (hfg m hm) (hgi m hm')
      | _ => simp [agrees] at h'
    | _ => simp [agrees] at h

theorem agreesAll_trans (hs : Settled listed) :
    ∀ xs ys zs : List (RecordTree κ μ α ρ), agreesAll listed xs ys = true →
      agreesAll listed ys zs = true → agreesAll listed xs zs = true
  | [], ys, zs, h, h' => by
    cases ys with
    | nil => exact h'
    | cons y ys => simp [agreesAll] at h
  | x :: xs, ys, zs, h, h' => by
    cases ys with
    | nil => simp [agreesAll] at h
    | cons y ys =>
      cases zs with
      | nil => simp [agreesAll] at h'
      | cons z zs =>
        simp only [agreesAll, Bool.and_eq_true] at h h' ⊢
        exact ⟨agrees_trans hs x y z h.1 h'.1, agreesAll_trans hs xs ys zs h.2 h'.2⟩

end

end Comparison

/-! ### Traversals -/

/-- How many records of the kinds in `emit` the members of a record are below. -/
def inner (emit : κ → Bool) (k : κ) (depth : Nat) : Nat := if emit k then depth + 1 else depth

mutual

/-- The records of the kinds in `emit`, in preorder, with the number of such records on the
path to each; the traversal follows the members in `plan` and starts below `depth` records. -/
def preorder (plan : κ → List μ) (emit : κ → Bool) :
    Nat → RecordTree κ μ α ρ → List (κ × ρ × Nat)
  | _, .null => []
  | _, .leaf _ _ => []
  | depth, .list xs => preorderAll plan emit depth xs
  | depth, .record k r f =>
    (if emit k then [(k, r, depth + 1)] else []) ++
      (plan k).flatMap fun m => preorder plan emit (inner emit k depth) (f m)

def preorderAll (plan : κ → List μ) (emit : κ → Bool) :
    Nat → List (RecordTree κ μ α ρ) → List (κ × ρ × Nat)
  | _, [] => []
  | depth, x :: xs => preorder plan emit depth x ++ preorderAll plan emit depth xs

end

/-- Sums that agree over a list of smaller and larger summands agree in every summand. -/
theorem eq_of_sum_map_le {ι : Type} {f g : ι → Nat} :
    ∀ {l : List ι}, (∀ i ∈ l, f i ≤ g i) → (l.map g).sum ≤ (l.map f).sum → ∀ i ∈ l, f i = g i
  | [], _, _, i, hi => by simp at hi
  | j :: l, hle, hsum, i, hi => by
    have hj := hle j (by simp)
    have hl : (l.map f).sum ≤ (l.map g).sum :=
      List.sum_le_sum fun i hi => hle i (by simp [hi])
    simp only [List.map_cons, List.sum_cons] at hsum
    cases List.mem_cons.mp hi with
    | inl h => subst h; omega
    | inr h => exact eq_of_sum_map_le (fun i hi => hle i (by simp [hi])) (by omega) i h

end RecordTree

end Mizugaki
