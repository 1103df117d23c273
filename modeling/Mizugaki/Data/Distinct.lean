import Mathlib.Data.List.Nodup

/-! First occurrences. Of the elements with one key the first is kept, in order; what comes again
does not count. -/

namespace Mizugaki.Data.Distinct

variable {α κ : Type} [DecidableEq κ] (key : α → κ)

/-- The first elements of their keys, of those with keys that were not seen. -/
def distinctFrom (seen : List κ) : List α → List α
  | [] => []
  | a :: l =>
    if key a ∈ seen then distinctFrom seen l
    else a :: distinctFrom (key a :: seen) l

/-- The first elements of their keys. -/
def distinctBy (l : List α) : List α := distinctFrom key [] l

variable {key} {seen : List κ} {l : List α} {a : α} {k : κ}

theorem distinctFrom_cons_seen (h : key a ∈ seen) :
    distinctFrom key seen (a :: l) = distinctFrom key seen l := if_pos h

theorem distinctFrom_cons_new (h : key a ∉ seen) :
    distinctFrom key seen (a :: l) = a :: distinctFrom key (key a :: seen) l := if_neg h

theorem mem_map_distinctFrom :
    k ∈ (distinctFrom key seen l).map key ↔ k ∉ seen ∧ k ∈ l.map key := by
  induction l generalizing seen with
  | nil => simp [distinctFrom]
  | cons a l ih =>
    by_cases ha : key a ∈ seen
    · rw [distinctFrom_cons_seen ha, ih, List.map_cons, List.mem_cons]
      constructor
      · rintro ⟨hk, hl⟩
        exact ⟨hk, .inr hl⟩
      · rintro ⟨hk, rfl | hl⟩
        · exact absurd ha hk
        · exact ⟨hk, hl⟩
    · rw [distinctFrom_cons_new ha, List.map_cons, List.mem_cons, ih, List.map_cons, List.mem_cons,
        List.mem_cons]
      by_cases hk : k = key a
      · subst hk
        simp [ha]
      · simp [hk]

theorem distinctFrom_nodup : ((distinctFrom key seen l).map key).Nodup := by
  induction l generalizing seen with
  | nil => exact List.nodup_nil
  | cons a l ih =>
    by_cases ha : key a ∈ seen
    · rw [distinctFrom_cons_seen ha]
      exact ih
    · rw [distinctFrom_cons_new ha, List.map_cons, List.nodup_cons, mem_map_distinctFrom]
      exact ⟨fun h => h.1 List.mem_cons_self, ih⟩

theorem distinctFrom_eq_self (hseen : ∀ a ∈ l, key a ∉ seen) (hl : (l.map key).Nodup) :
    distinctFrom key seen l = l := by
  induction l generalizing seen with
  | nil => rfl
  | cons a l ih =>
    obtain ⟨ha, hrest⟩ := List.forall_mem_cons.mp hseen
    rw [List.map_cons, List.nodup_cons] at hl
    rw [distinctFrom_cons_new ha, ih ?_ hl.2]
    intro b hb hmem
    obtain heq | hmem := List.mem_cons.mp hmem
    · exact hl.1 (heq ▸ List.mem_map_of_mem hb)
    · exact hrest b hb hmem

/-- Nothing is left out of a list exactly when no key comes again. -/
theorem distinctBy_eq_self_iff : distinctBy key l = l ↔ (l.map key).Nodup := by
  constructor
  · intro h
    rw [← h]
    exact distinctFrom_nodup
  · exact distinctFrom_eq_self fun a _ => List.not_mem_nil

end Mizugaki.Data.Distinct
