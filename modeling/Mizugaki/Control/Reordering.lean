import Mizugaki.Control.Check

/-! Runs over a list in another order. Where two steps of a fold return the same in either
order, the fold returns the same for every permutation of its list: a permutation is made of
exchanges of neighbours. Runs that stop may differ, in where they stop and in what they wrote
before. -/

namespace Mizugaki.Control.Check

variable {σ α β : Type} {f : β → α → Check σ β}

/-- What two steps return in one order, they return in the other. -/
def Exchanges (f : β → α → Check σ β) (a a' : α) : Prop :=
  ∀ ⦃b : β⦄ ⦃s t : σ⦄ ⦃r : β⦄,
    (f b a >>= fun b => f b a') s = (some r, t) → (f b a' >>= fun b => f b a) s = (some r, t)

theorem Exchanges.fold_swap {a a' : α} (h : Exchanges f a a') (as : List α) {b r : β} {s t : σ}
    (hrun : fold f b (a :: a' :: as) s = (some r, t)) :
    fold f b (a' :: a :: as) s = (some r, t) := by
  simp only [fold, bind_yields] at hrun ⊢
  obtain ⟨b₁, u₁, h₁, b₂, u₂, h₂, hrest⟩ := hrun
  have hpair : (f b a >>= fun b => f b a') s = (some b₂, u₂) :=
    (bind_yields ..).mpr ⟨b₁, u₁, h₁, h₂⟩
  obtain ⟨c, v, hc, hv⟩ := (bind_yields ..).mp (h hpair)
  exact ⟨c, v, hc, b₂, u₂, hv, hrest⟩

/-- A fold of steps that exchange returns the same for every order of its list. -/
theorem fold_yields_perm (h : ∀ a a', Exchanges f a a') {as as' : List α} (hperm : as.Perm as')
    (b r : β) (s t : σ) : fold f b as s = (some r, t) ↔ fold f b as' s = (some r, t) := by
  induction hperm generalizing b s with
  | nil => rfl
  | cons a _ ih => simp only [fold, bind_yields, ih]
  | swap a a' as => exact ⟨(h a' a).fold_swap as, (h a a').fold_swap as⟩
  | trans _ _ ih₁ ih₂ => exact (ih₁ b s).trans (ih₂ b s)

/-- Two continuations that return the same make two runs that do. -/
theorem bind_yields_congr {γ : Type} {m : Check σ α} {f g : α → Check σ γ} {s t : σ} {c : γ}
    (h : ∀ a u, f a u = (some c, t) ↔ g a u = (some c, t)) :
    (m >>= f) s = (some c, t) ↔ (m >>= g) s = (some c, t) := by
  simp only [bind_yields, h]

theorem fold_append (b : β) (as as' : List α) :
    fold f b (as ++ as') = fold f b as >>= fun b => fold f b as' := by
  induction as generalizing b with
  | nil => rfl
  | cons a as ih => simp only [List.cons_append, fold, ih, bind_assoc]

end Mizugaki.Control.Check
