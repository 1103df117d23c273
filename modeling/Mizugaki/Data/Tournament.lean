import Mathlib.Data.List.Infix
import Mathlib.Data.List.Perm.Basic
import Mathlib.Tactic.Common

/-! A tournament: one pass over a list that compares every element with the winner so far, and
stops at the first pair where neither or both of the two are below the other. Over a transitive
relation it only returns the element that is strictly below all others; it finds that element
exactly when every initial part of the list has one of its own. -/

namespace Mizugaki.Data.Tournament

variable {α : Type} (r : α → α → Bool)

/-- Exactly one of the two is below the other. -/
def Decided (a b : α) : Prop := r a b ≠ r b a

/-- An element is strictly below another one. -/
def Beats (a b : α) : Prop := r a b = true ∧ r b a = false

/-- The pass over a list, from the winner so far. -/
def winner (left : α) : List α → Option α
  | [] => some left
  | right :: rest =>
    if r left right = r right left then none
    else winner (if r right left then right else left) rest

/-- An element of a list that is strictly below all others. -/
def Champion (c : α) (l : List α) : Prop := ∃ others, l.Perm (c :: others) ∧ ∀ d ∈ others, Beats r c d

variable {r} {left right c d : α} {rest l l' : List α}

theorem Beats.trans (hr : ∀ a b c, r a b = true → r b c = true → r a c = true) {a b c : α}
    (hab : Beats r a b) (hbc : Beats r b c) : Beats r a c := by
  refine ⟨hr a b c hab.1 hbc.1, ?_⟩
  by_contra hca
  rw [Bool.not_eq_false] at hca
  have hba : r b a = true := hr b c a hbc.1 hca
  rw [hab.2] at hba
  cases hba

theorem Beats.asymm (h : Beats r c d) : ¬ Beats r d c := by
  intro h'
  have hcd := h'.2
  rw [h.1] at hcd
  cases hcd

theorem Beats.decided (h : Beats r c d) : Decided r c d := by
  rw [Decided, h.1, h.2]
  decide

theorem Decided.symm (h : Decided r c d) : Decided r d c := Ne.symm h

/-- Two elements of which exactly one is below the other. -/
theorem Decided.cases (h : Decided r left right) :
    (r right left = true ∧ Beats r right left) ∨ (r right left = false ∧ Beats r left right) := by
  unfold Decided at h
  cases hrl : r right left with
  | true =>
    rw [hrl] at h
    exact .inl ⟨rfl, hrl, Bool.eq_false_iff.mpr h⟩
  | false =>
    rw [hrl] at h
    exact .inr ⟨rfl, Bool.ne_false_iff.mp h, hrl⟩

/-! ### One step -/

theorem winner_undecided (h : ¬ Decided r left right) : winner r left (right :: rest) = none := by
  rw [winner, if_pos (not_not.mp h)]

theorem winner_left (h : Beats r left right) : winner r left (right :: rest) = winner r left rest := by
  rw [winner, if_neg h.decided, h.2]
  rfl

theorem winner_right (h : Beats r right left) :
    winner r left (right :: rest) = winner r right rest := by
  rw [winner, if_neg h.decided.symm, h.1]
  rfl

/-- The pass goes on from the winner of a part of the list. -/
theorem winner_append (left : α) (l l' : List α) :
    winner r left (l ++ l') = (winner r left l).bind fun c => winner r c l' := by
  induction l generalizing left with
  | nil => rfl
  | cons right l ih =>
    by_cases h : Decided r left right
    · obtain ⟨-, hbeats⟩ | ⟨-, hbeats⟩ := h.cases
      · rw [List.cons_append, winner_right hbeats, winner_right hbeats, ih]
      · rw [List.cons_append, winner_left hbeats, winner_left hbeats, ih]
    · rw [List.cons_append, winner_undecided h, winner_undecided h]
      rfl

/-! ### Champions -/

theorem Champion.perm (h : Champion r c l) (hl : l.Perm l') : Champion r c l' := by
  obtain ⟨others, hothers, hbeats⟩ := h
  exact ⟨others, hl.symm.trans hothers, hbeats⟩

theorem champion_singleton (c : α) : Champion r c [c] :=
  ⟨[], .refl _, fun _ hd => nomatch hd⟩

/-- A champion stays one next to an element that it beats. -/
theorem Champion.cons (h : Champion r c l) (hd : Beats r c d) : Champion r c (d :: l) := by
  obtain ⟨others, hothers, hbeats⟩ := h
  refine ⟨d :: others, (hothers.cons d).trans (.swap c d others), ?_⟩
  exact List.forall_mem_cons.mpr ⟨hd, hbeats⟩

/-- There is at most one champion. -/
theorem Champion.unique (h : Champion r c l) (h' : Champion r d l) : c = d := by
  obtain ⟨others, hothers, hbeats⟩ := h
  obtain ⟨others', hothers', hbeats'⟩ := h'
  have hd : d ∈ c :: others := hothers.mem_iff.mp (hothers'.mem_iff.mpr List.mem_cons_self)
  have hc : c ∈ d :: others' := hothers'.mem_iff.mp (hothers.mem_iff.mpr List.mem_cons_self)
  obtain rfl | hd := List.mem_cons.mp hd
  · rfl
  · obtain rfl | hc := List.mem_cons.mp hc
    · rfl
    · exact absurd (hbeats' c hc) (hbeats d hd).asymm

/-- An element that beats all but one of the others, in a list with a champion. -/
theorem Champion.decided (h : Champion r d (c :: right :: l)) (hc : ∀ b ∈ l, Beats r c b) :
    Decided r c right := by
  obtain ⟨others, hothers, hbeats⟩ := h
  have hd : d ∈ c :: right :: l := hothers.mem_iff.mpr List.mem_cons_self
  obtain rfl | hd := List.mem_cons.mp hd
  · have hright : right ∈ others := hothers.cons_inv.mem_iff.mp List.mem_cons_self
    exact (hbeats right hright).decided
  · obtain rfl | hd := List.mem_cons.mp hd
    · have hothers' := (List.Perm.swap d c l).symm.trans hothers
      have hmem : c ∈ others := hothers'.cons_inv.mem_iff.mp List.mem_cons_self
      exact (hbeats c hmem).decided.symm
    · have hcd := hc d hd
      have hmem : c ∈ d :: others := hothers.mem_iff.mp List.mem_cons_self
      obtain rfl | hmem := List.mem_cons.mp hmem
      · exact absurd hcd hcd.asymm
      · exact absurd (hbeats c hmem) hcd.asymm

/-- Over a transitive relation, the pass returns the champion only. -/
theorem champion_of_winner (hr : ∀ a b c, r a b = true → r b c = true → r a c = true)
    (h : winner r left rest = some c) : Champion r c (left :: rest) := by
  induction rest generalizing left with
  | nil =>
    obtain rfl := Option.some.inj h
    exact champion_singleton _
  | cons right rest ih =>
    by_cases hd : Decided r left right
    · -- the loser is beaten by the winner, or by one that the champion beats
      have hloser : ∀ {a b : α}, Beats r a b → Champion r c (a :: rest) →
          Champion r c (b :: a :: rest) := by
        intro a b hab hc
        obtain ⟨others, hothers, hbeats⟩ := id hc
        have ha : a ∈ c :: others := hothers.mem_iff.mp List.mem_cons_self
        obtain rfl | ha := List.mem_cons.mp ha
        · exact hc.cons hab
        · exact hc.cons ((hbeats a ha).trans hr hab)
      obtain ⟨-, hbeats⟩ | ⟨-, hbeats⟩ := hd.cases
      · rw [winner_right hbeats] at h
        exact hloser hbeats (ih h)
      · rw [winner_left hbeats] at h
        exact (hloser hbeats (ih h)).perm (.swap left right rest)
    · rw [winner_undecided hd] at h
      cases h

/-- A champion at the front wins. -/
theorem winner_of_forall (h : ∀ d ∈ rest, Beats r left d) : winner r left rest = some left := by
  induction rest with
  | nil => rfl
  | cons right rest ih =>
    obtain ⟨hright, hrest⟩ := List.forall_mem_cons.mp h
    rw [winner_left hright, ih hrest]

/-- The pass finds a champion exactly when every initial part of the list has one. -/
theorem winner_isSome_iff (hr : ∀ a b c, r a b = true → r b c = true → r a c = true) :
    (∃ c, winner r left rest = some c) ↔
      ∀ part, part <+: rest → ∃ c, Champion r c (left :: part) := by
  constructor
  · rintro ⟨c, h⟩ part ⟨remaining, rfl⟩
    rw [winner_append] at h
    obtain ⟨d, hd, -⟩ := Option.bind_eq_some_iff.mp h
    exact ⟨d, champion_of_winner hr hd⟩
  · intro h
    induction rest using List.reverseRecOn with
    | nil => exact ⟨left, rfl⟩
    | append_singleton rest right ih =>
      obtain ⟨c, hc⟩ := ih fun part hpart => h part (hpart.trans (List.prefix_append rest [right]))
      obtain ⟨d, hd⟩ := h (rest ++ [right]) (List.prefix_refl _)
      obtain ⟨losers, hlosers, hbeats⟩ := champion_of_winner hr hc
      have hall : (left :: (rest ++ [right])).Perm (c :: right :: losers) := by
        rw [← List.cons_append]
        refine (hlosers.append_right [right]).trans ?_
        exact (List.perm_append_singleton right losers).cons c
      have hpair := (hd.perm hall).decided hbeats
      obtain ⟨-, hwin⟩ | ⟨-, hwin⟩ := hpair.cases
      · exact ⟨right, by rw [winner_append, hc, Option.bind_some, winner_right hwin]; rfl⟩
      · exact ⟨c, by rw [winner_append, hc, Option.bind_some, winner_left hwin]; rfl⟩

/-- A list of which every two elements are decided has a winner. -/
theorem winner_of_pairwise (h : (left :: rest).Pairwise (Decided r)) :
    ∃ c, winner r left rest = some c := by
  induction rest generalizing left with
  | nil => exact ⟨left, rfl⟩
  | cons right rest ih =>
    obtain ⟨hleft, hright⟩ := List.pairwise_cons.mp h
    obtain ⟨hdecided, hrest⟩ := List.forall_mem_cons.mp hleft
    obtain ⟨-, hbeats⟩ | ⟨-, hbeats⟩ := hdecided.cases
    · rw [winner_right hbeats]
      exact ih hright
    · rw [winner_left hbeats]
      exact ih (List.pairwise_cons.mpr ⟨hrest, hright.of_cons⟩)

/-- The pass returns exactly the champion when every initial part of a list with a champion has one
of its own. -/
theorem winner_iff_champion_iff (hr : ∀ a b c, r a b = true → r b c = true → r a c = true) :
    (∀ c, winner r left rest = some c ↔ Champion r c (left :: rest)) ↔
      ∀ c, Champion r c (left :: rest) → ∀ part, part <+: rest → ∃ d, Champion r d (left :: part) := by
  constructor
  · intro h c hc
    exact (winner_isSome_iff hr).mp ⟨c, (h c).mpr hc⟩
  · intro h c
    refine ⟨champion_of_winner hr, fun hc => ?_⟩
    obtain ⟨d, hd⟩ := (winner_isSome_iff hr).mpr (h c hc)
    rw [hd, (champion_of_winner hr hd).unique hc]

/-! ### Every order -/

/-- The pass over a list. -/
def winnerOf (r : α → α → Bool) : List α → Option α
  | [] => none
  | left :: rest => winner r left rest

theorem champion_of_winnerOf (hr : ∀ a b c, r a b = true → r b c = true → r a c = true)
    (h : winnerOf r l = some c) : Champion r c l := by
  cases l with
  | nil => cases h
  | cons left rest => exact champion_of_winner hr h

/-- The order of a list does not matter exactly when a list with a champion has only decided
pairs. -/
theorem winnerOf_perm_iff (hr : ∀ a b c, r a b = true → r b c = true → r a c = true) :
    (∀ l', l'.Perm l → winnerOf r l' = winnerOf r l) ↔
      ∀ c, Champion r c l → l.Pairwise (Decided r) := by
  constructor
  · intro hall c hc
    obtain ⟨others, hothers, hbeats⟩ := hc
    have hfront : winnerOf r l = some c := by
      rw [← hall (c :: others) hothers.symm]
      exact winner_of_forall hbeats
    refine List.pairwise_iff_forall_sublist.mpr fun {a b} hab => ?_
    obtain ⟨remaining, hremaining⟩ := hab.exists_perm_append
    have hfound := hall (a :: b :: remaining) hremaining.symm
    by_contra hnot
    rw [hfront, winnerOf, winner_undecided hnot] at hfound
    cases hfound
  · intro h l' hl'
    cases hl : winnerOf r l with
    | none =>
      by_contra hne
      obtain ⟨c, hc⟩ := Option.ne_none_iff_exists'.mp hne
      have hchampion := (champion_of_winnerOf hr hc).perm hl'
      have hpairwise := h c hchampion
      cases l with
      | nil => cases hl'.eq_nil; cases hc
      | cons left rest =>
        obtain ⟨d, hd⟩ := winner_of_pairwise hpairwise
        rw [winnerOf, hd] at hl
        cases hl
    | some c =>
      have hchampion := champion_of_winnerOf hr hl
      have hpairwise := (hl'.pairwise_iff fun hd => Decided.symm hd).mpr (h c hchampion)
      cases l' with
      | nil => cases hl'.nil_eq; cases hl
      | cons left rest =>
        obtain ⟨d, hd⟩ := winner_of_pairwise hpairwise
        rw [winnerOf, hd, ((champion_of_winner hr hd).perm hl').unique hchampion]

end Mizugaki.Data.Tournament
