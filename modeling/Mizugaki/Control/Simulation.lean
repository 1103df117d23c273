import Mizugaki.Control.Check

/-! Computations that do the same over two kinds of states. A map takes each state of the first
kind to one of the second, forgetting what only the first computation writes. From a state and
from its image the computations return the same value or both stop, and the map takes the final
state of the one to that of the other. -/

namespace Mizugaki.Control.Check

variable {σ τ α β : Type}

/-- From every state `m` returns what `n` returns from its image, and leaves a state whose image
is the one that `n` leaves. -/
structure Simulates (f : σ → τ) (m : Check σ α) (n : Check τ α) : Prop where
  run : ∀ s, n (f s) = ((m s).1, f (m s).2)

namespace Simulates

variable {f : σ → τ} {m : Check σ α} {n : Check τ α} {k : α → Check σ β} {l : α → Check τ β}

@[grind ←] theorem pure (a : α) : Simulates f (pure a : Check σ α) (pure a : Check τ α) :=
  ⟨fun _ => rfl⟩

@[grind ←] theorem stop : Simulates f (stop : Check σ α) (stop : Check τ α) :=
  ⟨fun _ => rfl⟩

@[grind ←] theorem bind (hm : Simulates f m n) (hk : ∀ a, Simulates f (k a) (l a)) :
    Simulates f (m >>= k) (n >>= l) := by
  refine ⟨fun s => ?_⟩
  rw [bind_run, bind_run, hm.run s]
  rcases m s with ⟨_ | a, t⟩
  · rfl
  · exact (hk a).run t

@[grind ←] theorem map (hm : Simulates f m n) (g : α → β) : Simulates f (g <$> m) (g <$> n) :=
  bind hm fun a => pure (g a)

/-- A step over the one state is taken to a step over the other. -/
theorem modify {g : σ → σ} {g' : τ → τ} (h : ∀ s, g' (f s) = f (g s)) :
    Simulates f (modify g) (modify g') := by
  refine ⟨fun s => ?_⟩
  change (some (), g' (f s)) = (some (), f (g s))
  rw [h]

/-- A component that the map keeps. -/
theorem gets {g : σ → α} {g' : τ → α} (h : ∀ s, g' (f s) = g s) :
    Simulates f (gets g) (gets g') := by
  refine ⟨fun s => ?_⟩
  change (some (g' (f s)), f s) = (some (g s), f s)
  rw [h]

/-- A state that is read, and its image. -/
theorem get_bind {k : σ → Check σ β} {l : τ → Check τ β}
    (h : ∀ s, Simulates f (k s) (l (f s))) :
    Simulates f (get >>= k) (get >>= l) :=
  ⟨fun s => (h s).run s⟩

/-! ### Runs -/

/-- A run from an image that returns a value is taken from one that returns it. -/
theorem lift (h : Simulates f m n) {s : σ} {u : τ} {a : α} (hn : n (f s) = (some a, u)) :
    ∃ t, m s = (some a, t) ∧ f t = u := by
  rw [h.run s, Prod.mk.injEq] at hn
  exact ⟨(m s).2, Prod.ext hn.1 rfl, hn.2⟩

end Simulates

end Mizugaki.Control.Check
