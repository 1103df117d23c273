import Mathlib.Logic.Basic
import Mathlib.Tactic.Common

/-! Computations over a mutable state that may stop without a value. Unlike
`StateT σ Option`, the state is kept when a computation stops: what it wrote
before stopping can still be read. The rules here decompose a run that returned
a value, carry a reflexive and transitive relation along a run, and count how
many entries a run adds to a log kept in the state. -/

namespace Mizugaki.Control

/-- A computation: from a state, the value it returns if it does not stop, and the final state. -/
def Check (σ α : Type) := σ → Option α × σ

namespace Check

variable {σ α β : Type}

protected def bind (m : Check σ α) (f : α → Check σ β) : Check σ β := fun s =>
  match m s with
  | (none, t) => (none, t)
  | (some a, t) => f a t

instance : Monad (Check σ) where
  pure a := fun s => (some a, s)
  bind := Check.bind

/-- Stop without a value. -/
def stop : Check σ α := fun s => (none, s)

def get : Check σ σ := fun s => (some s, s)

def modify (f : σ → σ) : Check σ Unit := fun s => (some (), f s)

/-- Read a component of the state. -/
def gets (f : σ → α) : Check σ α := fun s => (some (f s), s)

/-- Run an optional computation. -/
def option : Option (Check σ α) → Check σ (Option α)
  | none => pure none
  | some m => do
    let a ← m
    return some a

/-- Thread an accumulator through the elements of a list, in order. -/
def fold (f : β → α → Check σ β) : β → List α → Check σ β
  | b, [] => pure b
  | b, a :: as => do
    let b' ← f b a
    fold f b' as

instance : LawfulMonad (Check σ) := LawfulMonad.mk' _
  (fun m => by
    funext s
    change Check.bind m _ s = m s
    rcases h : m s with ⟨_ | a, t⟩
    · simp [Check.bind, h]
    · simp only [Check.bind, h]
      rfl)
  (fun _ _ => rfl)
  (fun m f g => by
    funext s
    change Check.bind (Check.bind m f) g s = Check.bind m (fun a => Check.bind (f a) g) s
    rcases h : m s with ⟨_ | a, t⟩ <;> simp [Check.bind, h])

/-! ### Runs that return a value -/

theorem pure_run (a : α) (s : σ) : (pure a : Check σ α) s = (some a, s) := rfl

theorem bind_run (m : Check σ α) (f : α → Check σ β) (s : σ) :
    (m >>= f) s = match m s with
      | (none, t) => (none, t)
      | (some a, t) => f a t := rfl

@[simp] theorem pure_yields (a b : α) (s t : σ) :
    (pure a : Check σ α) s = (some b, t) ↔ a = b ∧ s = t := by
  rw [pure_run, Prod.mk.injEq, Option.some.injEq]

@[simp] theorem bind_yields (m : Check σ α) (f : α → Check σ β) (s t : σ) (b : β) :
    (m >>= f) s = (some b, t) ↔ ∃ a u, m s = (some a, u) ∧ f a u = (some b, t) := by
  rw [bind_run]
  rcases hm : m s with ⟨_ | a, u⟩
  · simp
  · simp

@[simp] theorem stop_yields (s t : σ) (a : α) : (stop : Check σ α) s = (some a, t) ↔ False := by
  simp [stop]

@[simp] theorem get_yields (s t : σ) (a : σ) : (get : Check σ σ) s = (some a, t) ↔ s = a ∧ s = t := by
  simp [get]

@[simp] theorem gets_yields (f : σ → α) (s t : σ) (a : α) :
    gets f s = (some a, t) ↔ f s = a ∧ s = t := by
  simp [gets]

@[simp] theorem modify_yields (f : σ → σ) (s t : σ) (a : Unit) :
    modify f s = (some a, t) ↔ f s = t := by
  simp [modify]

@[simp] theorem map_yields (m : Check σ α) (f : α → β) (s t : σ) (b : β) :
    (f <$> m) s = (some b, t) ↔ ∃ a, m s = (some a, t) ∧ f a = b := by
  change (m >>= fun a => pure (f a)) s = _ ↔ _
  simp only [bind_yields, pure_yields]
  constructor
  · rintro ⟨a, u, hm, rfl, rfl⟩
    exact ⟨a, hm, rfl⟩
  · rintro ⟨a, hm, rfl⟩
    exact ⟨a, t, hm, rfl, rfl⟩

/-! ### What a run returns -/

/-- Every value that a run returns has a property. -/
def Returns (P : α → Prop) (m : Check σ α) : Prop := ∀ ⦃s t a⦄, m s = (some a, t) → P a

namespace Returns

variable {P : α → Prop} {Q : β → Prop} {m : Check σ α} {f : α → Check σ β}

theorem pure {a : α} (ha : P a) : Returns P (pure a : Check σ α) := by
  intro s t b h
  obtain ⟨rfl, -⟩ := (pure_yields ..).mp h
  exact ha

theorem stop : Returns P (stop : Check σ α) := by
  intro s t a h
  cases h

theorem bind (hm : Returns P m) (hf : ∀ a, P a → Returns Q (f a)) : Returns Q (m >>= f) := by
  intro s t b h
  obtain ⟨a, u, hu, ht⟩ := (bind_yields ..).mp h
  exact hf a (hm hu) ht

/-- Whatever runs before. -/
theorem after (hf : ∀ a, Returns Q (f a)) : Returns Q (m >>= f) := by
  intro s t b h
  obtain ⟨a, u, -, ht⟩ := (bind_yields ..).mp h
  exact hf a ht

theorem imp {P' : α → Prop} (hm : Returns P m) (h : ∀ a, P a → P' a) : Returns P' m :=
  fun _ _ a ha => h a (hm ha)

end Returns

/-- A computation that does not read the state: from any state it returns the same. -/
def Steady (m : Check σ α) : Prop := ∀ s t, (m s).1 = (m t).1

namespace Steady

variable {m : Check σ α} {f : α → Check σ β}

theorem pure (a : α) : Steady (pure a : Check σ α) := fun _ _ => rfl

theorem modify (f : σ → σ) : Steady (modify f) := fun _ _ => rfl

theorem bind (hm : Steady m) (hf : ∀ a, Steady (f a)) : Steady (m >>= f) := by
  intro s t
  have hvalue := hm s t
  rw [bind_run, bind_run]
  generalize m s = x at hvalue
  generalize m t = y at hvalue
  obtain ⟨_ | a, s'⟩ := x <;> obtain ⟨_ | b, t'⟩ := y
  · rfl
  · cases hvalue
  · cases hvalue
  · obtain rfl := Option.some.inj hvalue
    exact hf a s' t'

/-- The value that is returned from one state is returned from any other. -/
theorem yields (hm : Steady m) {s t : σ} {a : α} (h : m s = (some a, t)) (u : σ) :
    ∃ v, m u = (some a, v) := by
  have hvalue : (m u).1 = some a := by rw [hm u s, h]
  exact ⟨(m u).2, Prod.ext hvalue rfl⟩

end Steady

/-! ### What a run keeps -/

/-- A relation of states that holds along a run, whatever the run is made of. -/
class Frame (R : σ → σ → Prop) : Prop where
  refl : ∀ s, R s s
  trans : ∀ {s t u}, R s t → R t u → R s u

/-- Every run that returns a value relates its states. -/
def Keeps (R : σ → σ → Prop) (m : Check σ α) : Prop := ∀ ⦃s t a⦄, m s = (some a, t) → R s t

namespace Keeps

variable {R : σ → σ → Prop} [Frame R] {m : Check σ α} {f : α → Check σ β}

@[grind ←] theorem pure (a : α) : Keeps R (pure a : Check σ α) := by
  intro s t b h
  obtain ⟨-, rfl⟩ := (pure_yields ..).mp h
  exact Frame.refl s

omit [Frame R] in
@[grind ←] theorem stop : Keeps R (stop : Check σ α) := by
  intro s t a h
  cases h

@[grind ←] theorem bind (hm : Keeps R m) (hf : ∀ a, Keeps R (f a)) : Keeps R (m >>= f) := by
  intro s t b h
  obtain ⟨a, u, hu, ht⟩ := (bind_yields ..).mp h
  exact Frame.trans (hm hu) (hf a ht)

@[grind ←] theorem map (hm : Keeps R m) (g : α → β) : Keeps R (g <$> m) :=
  bind hm fun a => pure (g a)

@[grind ←] theorem get : Keeps R (get : Check σ σ) := by
  intro s t a h
  obtain ⟨-, rfl⟩ := (get_yields ..).mp h
  exact Frame.refl s

@[grind ←] theorem gets (g : σ → α) : Keeps R (gets g) := by
  intro s t a h
  obtain ⟨-, rfl⟩ := (gets_yields ..).mp h
  exact Frame.refl s

omit [Frame R] in
theorem modify {g : σ → σ} (hg : ∀ s, R s (g s)) : Keeps R (modify g) := by
  intro s t a h
  obtain rfl := (modify_yields ..).mp h
  exact hg s

end Keeps

/-! ### Counting the entries of a log -/

/-- A computation adds `n` entries to a log when it returns a value, and some when it stops. -/
structure Logs (size : σ → Nat) (n : Nat) (m : Check σ α) : Prop where
  returned : ∀ {s t : σ} {a : α}, m s = (some a, t) → size t = size s + n
  stopped : ∀ {s t : σ}, m s = (none, t) → size s < size t

namespace Logs

variable {size : σ → Nat} {n k : Nat} {m : Check σ α} {f : α → Check σ β}

theorem of_eq (h : Logs size n m) (hnk : n = k) : Logs size k m := hnk ▸ h

@[grind ←] theorem pure (a : α) : Logs size 0 (pure a : Check σ α) where
  returned h := by
    obtain ⟨-, rfl⟩ := (pure_yields ..).mp h
    rfl
  stopped h := by cases h

theorem bind (hm : Logs size n m) (hf : ∀ a, Logs size k (f a)) : Logs size (n + k) (m >>= f) where
  returned h := by
    obtain ⟨a, u, hu, ht⟩ := (bind_yields ..).mp h
    have h₁ := hm.returned hu
    have h₂ := (hf a).returned ht
    omega
  stopped {s t} h := by
    rw [bind_run] at h
    rcases hu : m s with ⟨_ | a, u⟩
    · rw [hu] at h
      cases h
      exact hm.stopped hu
    · rw [hu] at h
      have h₁ := hm.returned hu
      have h₂ := (hf a).stopped h
      omega

/-- A computation that adds nothing may run before one that adds entries. -/
@[grind ←] theorem bind_zero (hm : Logs size 0 m) (hf : ∀ a, Logs size k (f a)) :
    Logs size k (m >>= f) :=
  (hm.bind hf).of_eq (Nat.zero_add k)

theorem map (hm : Logs size n m) (g : α → β) : Logs size n (g <$> m) :=
  hm.bind fun a => .pure (g a)

@[grind ←] theorem get : Logs size 0 (get : Check σ σ) where
  returned h := by
    obtain ⟨-, rfl⟩ := (get_yields ..).mp h
    rfl
  stopped h := by cases h

@[grind ←] theorem gets (g : σ → α) : Logs size 0 (gets g) where
  returned h := by
    obtain ⟨-, rfl⟩ := (gets_yields ..).mp h
    rfl
  stopped h := by cases h

theorem modify {g : σ → σ} (hg : ∀ s, size (g s) = size s + n) : Logs size n (modify g) where
  returned h := by
    obtain rfl := (modify_yields ..).mp h
    exact hg _
  stopped h := by cases h

/-- Stopping is allowed after an entry was added. -/
theorem bind_stop (hm : Logs size n m) (hn : 0 < n) : Logs size k (m >>= fun _ => (stop : Check σ β)) where
  returned h := by
    obtain ⟨a, u, -, ht⟩ := (bind_yields ..).mp h
    cases ht
  stopped {s t} h := by
    rw [bind_run] at h
    rcases hu : m s with ⟨_ | a, u⟩
    · rw [hu] at h
      cases h
      exact hm.stopped hu
    · rw [hu] at h
      cases h
      have h₁ := hm.returned hu
      omega

theorem option {m : Option (Check σ α)} (hm : ∀ x ∈ m, Logs size n x) :
    Logs size (if m.isSome then n else 0) (option m) := by
  cases m with
  | none => exact .pure none
  | some x => exact (hm x rfl).bind fun a => .pure (some a)

end Logs

/-- What a computation adds to a log from one state, where it depends on the state. -/
structure LogsFrom (size : σ → Nat) (s : σ) (n : Nat) (m : Check σ α) : Prop where
  returned : ∀ {t : σ} {a : α}, m s = (some a, t) → size t = size s + n
  stopped : ∀ {t : σ}, m s = (none, t) → size s < size t

theorem Logs.from {size : σ → Nat} {n : Nat} {m : Check σ α} (h : Logs size n m) (s : σ) :
    LogsFrom size s n m :=
  ⟨h.returned, h.stopped⟩

theorem LogsFrom.bind {size : σ → Nat} {s : σ} {n k : Nat} {m : Check σ α} {f : α → Check σ β}
    (hm : LogsFrom size s n m) (hf : ∀ a t, m s = (some a, t) → LogsFrom size t k (f a)) :
    LogsFrom size s (n + k) (m >>= f) where
  returned h := by
    obtain ⟨a, u, hu, ht⟩ := (bind_yields ..).mp h
    have h₁ := hm.returned hu
    have h₂ := (hf a u hu).returned ht
    omega
  stopped {t} h := by
    rw [bind_run] at h
    rcases hu : m s with ⟨_ | a, u⟩
    · rw [hu] at h
      cases h
      exact hm.stopped hu
    · rw [hu] at h
      have h₁ := hm.returned hu
      have h₂ := (hf a u hu).stopped h
      omega

/-- A computation whose value may stand for a failure: it adds entries to a log when it returns
such a value or stops, and none otherwise. -/
structure Tells (size : σ → Nat) (failed : α → Bool) (m : Check σ α) : Prop where
  returned : ∀ {s t : σ} {a : α}, m s = (some a, t) → failed a = false → size t = size s
  failed : ∀ {s t : σ} {a : α}, m s = (some a, t) → failed a = true → size s < size t
  stopped : ∀ {s t : σ}, m s = (none, t) → size s < size t

namespace Tells

variable {size : σ → Nat} {n k : Nat} {m : Check σ α} {f : α → Check σ β}
  {p : α → Bool} {q : β → Bool}

@[grind ←] theorem pure {a : α} (ha : p a = false) : Tells size p (pure a : Check σ α) where
  returned h _ := by
    obtain ⟨-, rfl⟩ := (pure_yields ..).mp h
    rfl
  failed h hp := by
    obtain ⟨rfl, -⟩ := (pure_yields ..).mp h
    rw [ha] at hp
    cases hp
  stopped h := by cases h

/-- An entry is added before a value that stands for a failure is returned. -/
theorem report {m : Check σ Unit} (hm : Logs size 1 m) {b : β} (hb : q b = true) :
    Tells size q (m >>= fun _ => Pure.pure b) where
  returned h hq := by
    obtain ⟨_, u, -, ht⟩ := (bind_yields ..).mp h
    obtain ⟨rfl, -⟩ := (pure_yields ..).mp ht
    rw [hb] at hq
    cases hq
  failed h _ := by
    obtain ⟨_, u, hu, ht⟩ := (bind_yields ..).mp h
    obtain ⟨-, rfl⟩ := (pure_yields ..).mp ht
    have := hm.returned hu
    omega
  stopped {s t} h := by
    rw [bind_run] at h
    rcases hu : m s with ⟨_ | a, u⟩
    · rw [hu] at h
      cases h
      exact hm.stopped hu
    · rw [hu] at h
      cases h

theorem bind (hm : Tells size p m) (hf : ∀ a, p a = false → Tells size q (f a))
    (hs : ∀ a, p a = true → ∃ b, f a = Pure.pure b ∧ q b = true) : Tells size q (m >>= f) where
  returned h hq := by
    obtain ⟨a, u, hu, ht⟩ := (bind_yields ..).mp h
    cases hp : p a with
    | false => exact ((hf a hp).returned ht hq).trans (hm.returned hu hp)
    | true =>
      obtain ⟨b, hb, hqb⟩ := hs a hp
      rw [hb] at ht
      obtain ⟨rfl, -⟩ := (pure_yields ..).mp ht
      rw [hqb] at hq
      cases hq
  failed h hq := by
    obtain ⟨a, u, hu, ht⟩ := (bind_yields ..).mp h
    cases hp : p a with
    | false =>
      have h₁ := hm.returned hu hp
      have h₂ := (hf a hp).failed ht hq
      omega
    | true =>
      obtain ⟨b, hb, -⟩ := hs a hp
      rw [hb] at ht
      obtain ⟨-, rfl⟩ := (pure_yields ..).mp ht
      exact hm.failed hu hp
  stopped {s t} h := by
    rw [bind_run] at h
    rcases hu : m s with ⟨_ | a, u⟩
    · rw [hu] at h
      cases h
      exact hm.stopped hu
    · rw [hu] at h
      cases hp : p a with
      | false =>
        have h₁ := hm.returned hu hp
        have h₂ := (hf a hp).stopped h
        omega
      | true =>
        obtain ⟨b, hb, -⟩ := hs a hp
        dsimp only at h
        rw [hb] at h
        cases h

/-- A caller that stops when a failure is returned. -/
theorem logs (hm : Tells size p m) (hf : ∀ a, p a = false → Logs size k (f a))
    (hs : ∀ a, p a = true → f a = stop) : Logs size k (m >>= f) where
  returned h := by
    obtain ⟨a, u, hu, ht⟩ := (bind_yields ..).mp h
    cases hp : p a with
    | false =>
      have h₁ := hm.returned hu hp
      have h₂ := (hf a hp).returned ht
      omega
    | true =>
      rw [hs a hp] at ht
      cases ht
  stopped {s t} h := by
    rw [bind_run] at h
    rcases hu : m s with ⟨_ | a, u⟩
    · rw [hu] at h
      cases h
      exact hm.stopped hu
    · rw [hu] at h
      cases hp : p a with
      | false =>
        have h₁ := hm.returned hu hp
        have h₂ := (hf a hp).stopped h
        omega
      | true =>
        dsimp only at h
        rw [hs a hp] at h
        cases h
        exact hm.failed hu hp

end Tells

end Check

end Mizugaki.Control
