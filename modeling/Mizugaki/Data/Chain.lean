import Mathlib.Data.List.Range
import Mathlib.Data.List.Pairwise
import Mathlib.Logic.Function.Basic
import Mathlib.Tactic.Common

/-! Chains threaded through a vector. Cells that share a key are linked by
positions: a map holds the first cell of each key and every cell the next one.
A chain is built by following it to its end and attaching the new cell there;
a cell met twice gets a sentinel instead of a position. The invariant `Linked`
says that the links below a bound list, for every key, the cells with that key
in increasing position. Proved: building keeps it, and under it following a chain
enumerates exactly the cells of the key and never meets the sentinel. -/

namespace Mizugaki.Data.Chain

/-- A position in the vector, or the sentinel. -/
inductive Position where
  | at_ (index : ℕ)
  | ambiguous
  deriving DecidableEq, Repr

/-- How the key and the link are kept in a cell. -/
structure Threading (α κ : Type) where
  key : α → Option κ
  next : α → Option Position
  setNext : Option Position → α → α
  key_setNext : ∀ p a, key (setNext p a) = key a
  next_setNext : ∀ p a, next (setNext p a) = p

/-- A vector of cells with the map from keys to first cells. -/
structure Chained (α κ : Type) where
  heads : κ → Option Position
  cells : List α

variable {α κ : Type} (T : Threading α κ)

def keyAt (cells : List α) (i : ℕ) : Option κ := cells[i]?.bind T.key

def nextAt (cells : List α) (i : ℕ) : Option Position := cells[i]?.bind T.next

section

variable {β : Type} {f : α → β} {T} {cells : List α} {k : κ} {i j : ℕ}

theorem keyAt_modify_setNext (p : Option Position) (i j : ℕ) :
    keyAt T (cells.modify i (T.setNext p)) j = keyAt T cells j := by
  rw [keyAt, keyAt, List.getElem?_modify]
  rcases cells[j]? with _ | a
  · simp
  · by_cases hij : i = j
    · simp [hij, T.key_setNext]
    · simp [hij]

theorem nextAt_modify_setNext_ne (p : Option Position) (hij : i ≠ j) :
    nextAt T (cells.modify i (T.setNext p)) j = nextAt T cells j := by
  rw [nextAt, nextAt, List.getElem?_modify]
  simp [hij]

theorem nextAt_modify_setNext_self (p : Option Position) (h : i < cells.length) :
    nextAt T (cells.modify i (T.setNext p)) i = p := by
  rw [nextAt, List.getElem?_modify]
  simp [h, T.next_setNext]

/-- What does not read the links of the cells does not see a link change. -/
theorem modify_map (hf : ∀ p a, f (T.setNext p a) = f a) (p : Option Position) (i : ℕ) :
    (cells.modify i (T.setNext p)).map f = cells.map f := by
  apply List.ext_getElem?
  intro j
  rw [List.getElem?_map, List.getElem?_map, List.getElem?_modify]
  rcases cells[j]? with _ | a
  · rfl
  · by_cases hij : i = j <;> simp [hij, hf]

theorem lt_length_of_keyAt (h : keyAt T cells i = some k) : i < cells.length := by
  by_contra hle
  simp [keyAt, List.getElem?_eq_none (Nat.le_of_not_lt hle)] at h

end

/-! ### Building and following -/

/-- Follow the chain from a position to its end and make the last cell point at `target`.
`seen` are the cells met so far; `fuel` bounds their number. -/
def attach (target : ℕ) : ℕ → Position → List ℕ → List α → List α
  | 0, _, _, cells => cells
  | _ + 1, .ambiguous, _, cells => cells
  | fuel + 1, .at_ i, seen, cells =>
    if i ∈ seen then cells.modify i (T.setNext (some .ambiguous))
    else match nextAt T cells i with
      | some p => attach target fuel p (i :: seen) cells
      | none => cells.modify i (T.setNext (some (.at_ target)))

variable [DecidableEq κ]

/-- Enter the cell at a position: as the head of its key, or at the end of the chain. -/
def build (c : Chained α κ) (position : ℕ) : Chained α κ :=
  match keyAt T c.cells position with
  | none => c
  | some k =>
    match c.heads k with
    | none => { c with heads := Function.update c.heads k (some (.at_ position)) }
    | some p => { c with cells := attach T position (c.cells.length + 1) p [] c.cells }

/-- Enter the cells below a bound, in order. -/
def buildTo (c : Chained α κ) : ℕ → Chained α κ
  | 0 => c
  | n + 1 => build T (buildTo c n) n

/-- Append a cell. -/
def push (c : Chained α κ) (a : α) : Chained α κ :=
  build T { c with cells := c.cells ++ [T.setNext none a] } c.cells.length

/-- Forget all links and enter all cells again. -/
def rebuild (cells : List α) : Chained α κ :=
  buildTo T { heads := fun _ => none, cells := cells.map (T.setNext none) } cells.length

/-- The positions met on the chain from a position. -/
def walk (cells : List α) : ℕ → Option Position → List Position
  | n + 1, some (.at_ i) => .at_ i :: walk cells n (nextAt T cells i)
  | _ + 1, some .ambiguous => [.ambiguous]
  | _, _ => []

/-- The positions met on the chain of a key. -/
def Chained.chain (c : Chained α κ) (k : κ) : List Position :=
  walk T c.cells (c.cells.length + 1) (c.heads k)

/-! ### The first cell of a key from a position -/

/-- The first position with the key, from `i` on and below the bound. -/
def firstFrom (cells : List α) (k : κ) (i : ℕ) : ℕ → Option ℕ
  | 0 => none
  | n + 1 =>
    match firstFrom cells k i n with
    | some j => some j
    | none => if i ≤ n ∧ keyAt T cells n = some k then some n else none

variable {T} {cells : List α} {k : κ} {c : Chained α κ} {i j n : ℕ}

theorem firstFrom_eq_none :
    firstFrom T cells k i n = none ↔ ∀ j, i ≤ j → j < n → keyAt T cells j ≠ some k := by
  induction n with
  | zero => simp [firstFrom]
  | succ n ih =>
    rw [firstFrom]
    rcases h : firstFrom T cells k i n with _ | j
    · rw [h] at ih
      have hbelow := ih.mp rfl
      constructor
      · intro hn j hij hjn
        rcases Nat.lt_succ_iff_lt_or_eq.mp hjn with hlt | rfl
        · exact hbelow j hij hlt
        · intro hk
          simp [hij, hk] at hn
      · intro hall
        simp only [ite_eq_right_iff, reduceCtorEq, imp_false]
        rintro ⟨hin, hk⟩
        exact hall n hin (Nat.lt_succ_self n) hk
    · constructor
      · intro hn
        simp at hn
      · intro hall
        have := ih.mpr fun j hij hjn => hall j hij (Nat.lt_succ_of_lt hjn)
        rw [h] at this
        exact absurd this (by simp)

theorem firstFrom_some (h : firstFrom T cells k i n = some j) :
    i ≤ j ∧ j < n ∧ keyAt T cells j = some k ∧ ∀ l, i ≤ l → l < j → keyAt T cells l ≠ some k := by
  induction n with
  | zero => simp [firstFrom] at h
  | succ n ih =>
    rw [firstFrom] at h
    rcases hn : firstFrom T cells k i n with _ | j'
    · rw [hn] at h
      simp only [Option.ite_none_right_eq_some, Option.some.injEq] at h
      obtain ⟨⟨hin, hk⟩, rfl⟩ := h
      exact ⟨hin, Nat.lt_succ_self _, hk, firstFrom_eq_none.mp hn⟩
    · rw [hn] at h
      obtain rfl := Option.some.inj h
      obtain ⟨h₁, h₂, h₃, h₄⟩ := ih hn
      exact ⟨h₁, Nat.lt_succ_of_lt h₂, h₃, h₄⟩

theorem firstFrom_congr {cells' : List α} (h : ∀ i, keyAt T cells' i = keyAt T cells i) :
    firstFrom T cells' k i n = firstFrom T cells k i n := by
  induction n with
  | zero => rfl
  | succ n ih => rw [firstFrom, firstFrom, ih, h n]

/-- The first cell with a key, of all cells. -/
theorem firstFrom_zero (cells : List α) (k : κ) :
    firstFrom T cells k 0 cells.length = cells.findIdx? fun a => T.key a = some k := by
  cases h : firstFrom T cells k 0 cells.length with
  | none =>
    refine (List.findIdx?_eq_none_iff.mpr fun a ha => ?_).symm
    obtain ⟨i, hi, rfl⟩ := List.getElem_of_mem ha
    have hkey := firstFrom_eq_none.mp h i (Nat.zero_le i) hi
    rw [keyAt, List.getElem?_eq_getElem hi, Option.bind_some] at hkey
    exact decide_eq_false hkey
  | some j =>
    obtain ⟨-, hj, hkey, hbelow⟩ := firstFrom_some h
    rw [keyAt, List.getElem?_eq_getElem hj, Option.bind_some] at hkey
    refine (List.findIdx?_eq_some_iff_getElem.mpr ⟨hj, decide_eq_true hkey, fun i hij => ?_⟩).symm
    have hne := hbelow i (Nat.zero_le i) hij
    rw [keyAt, List.getElem?_eq_getElem (Nat.lt_trans hij hj), Option.bind_some] at hne
    exact fun h => hne (of_decide_eq_true h)

/-! ### The invariant -/

variable (T) in
/-- Below the bound, the links list the cells of every key in increasing position. -/
structure Linked (n : ℕ) (c : Chained α κ) : Prop where
  head : ∀ k, c.heads k = (firstFrom T c.cells k 0 n).map .at_
  next : ∀ i k, keyAt T c.cells i = some k →
    nextAt T c.cells i = (firstFrom T c.cells k (i + 1) n).map .at_
  unkeyed : ∀ i, keyAt T c.cells i = none → nextAt T c.cells i = none

/-- The invariant reads a cell only through its key and its link. -/
theorem Linked.congr {cells' : List α} (h : Linked T n c)
    (hkey : ∀ i, keyAt T cells' i = keyAt T c.cells i)
    (hnext : ∀ i, nextAt T cells' i = nextAt T c.cells i) :
    Linked T n { c with cells := cells' } where
  head k := by rw [h.head k, firstFrom_congr hkey]
  next i k hk := by
    rw [hnext, firstFrom_congr hkey]
    exact h.next i k (hkey i ▸ hk)
  unkeyed i hk := by
    rw [hnext]
    exact h.unkeyed i (hkey i ▸ hk)

/-- Following a linked chain from a cell of the key ends at the last cell of the key. -/
theorem attach_of_linked (h : Linked T n c) (target fuel : ℕ) {p : ℕ} {seen : List ℕ}
    (hseen : ∀ i ∈ seen, i < p) (hk : keyAt T c.cells p = some k) (hp : p < n)
    (hfuel : n ≤ p + fuel) :
    ∃ q, q < n ∧ keyAt T c.cells q = some k ∧ firstFrom T c.cells k (q + 1) n = none ∧
      attach T target fuel (.at_ p) seen c.cells
        = c.cells.modify q (T.setNext (some (.at_ target))) := by
  induction fuel generalizing p seen with
  | zero => omega
  | succ fuel ih =>
    have hnew : p ∉ seen := fun hmem => Nat.lt_irrefl p (hseen p hmem)
    have hnext := h.next p k hk
    rw [attach, if_neg hnew]
    rcases hfirst : firstFrom T c.cells k (p + 1) n with _ | q
    · refine ⟨p, hp, hk, hfirst, ?_⟩
      simp [hnext, hfirst]
    · obtain ⟨hpq, hqn, hkq, -⟩ := firstFrom_some hfirst
      simp only [hnext, hfirst, Option.map_some]
      refine ih ?_ hkq hqn (by omega)
      intro i hi
      rcases List.mem_cons.mp hi with rfl | hi
      · omega
      · have := hseen i hi
        omega

/-- Entering the cell at the bound extends the invariant by one cell. -/
theorem build_linked (h : Linked T n c) (hn : n < c.cells.length) :
    Linked T (n + 1) (build T c n) := by
  rcases hkey : keyAt T c.cells n with _ | k
  · have hstep : ∀ k i, firstFrom T c.cells k i (n + 1) = firstFrom T c.cells k i n := by
      intro k i
      rw [firstFrom, hkey]
      rcases firstFrom T c.cells k i n with _ | j <;> simp
    have hbuild : build T c n = c := by rw [build, hkey]
    rw [hbuild]
    exact ⟨fun k => by rw [hstep, h.head], fun i k hk => by rw [hstep, h.next i k hk], h.unkeyed⟩
  have hother : ∀ k' i, k' ≠ k →
      firstFrom T c.cells k' i (n + 1) = firstFrom T c.cells k' i n := by
    intro k' i hne
    rw [firstFrom, hkey]
    rcases firstFrom T c.cells k' i n with _ | j <;> simp [Ne.symm hne]
  rcases hhead : firstFrom T c.cells k 0 n with _ | p
  · -- the first cell of its key: no cell below it has the key
    have hbuild : build T c n
        = { c with heads := Function.update c.heads k (some (.at_ n)) } := by
      simp [build, hkey, h.head k, hhead]
    have hnone := firstFrom_eq_none.mp hhead
    rw [hbuild]
    refine ⟨fun k' => ?_, fun i k' hk' => ?_, h.unkeyed⟩
    · by_cases hne : k' = k
      · subst hne
        simp [firstFrom, hhead, hkey]
      · rw [hother k' 0 hne, ← h.head k']
        simp [hne]
    · by_cases hne : k' = k
      · subst hne
        have hni : n ≤ i := by
          by_contra hlt
          exact hnone i (Nat.zero_le i) (by omega) hk'
        have hnil : ∀ m, m ≤ i + 1 → firstFrom T c.cells k' (i + 1) m = none := fun m hm =>
          firstFrom_eq_none.mpr fun j h₁ h₂ => by omega
        rw [h.next i k' hk', hnil n (by omega), hnil (n + 1) (by omega)]
      · rw [hother k' _ hne, h.next i k' hk']
  · -- the chain is followed to its last cell `q`
    obtain ⟨-, hpn, hkp, -⟩ := firstFrom_some hhead
    obtain ⟨q, hqn, hkq, hlast, hattach⟩ :=
      attach_of_linked h n (c.cells.length + 1) (List.forall_mem_nil _) hkp hpn (by omega)
    have hbuild : build T c n
        = { c with cells := c.cells.modify q (T.setNext (some (.at_ n))) } := by
      simp [build, hkey, h.head k, hhead, hattach]
    have hkeys : ∀ i, keyAt T (c.cells.modify q (T.setNext (some (.at_ n)))) i
        = keyAt T c.cells i := fun i => keyAt_modify_setNext _ q i
    have hq : q < c.cells.length := lt_length_of_keyAt hkq
    rw [hbuild]
    refine ⟨fun k' => ?_, fun i k' hk' => ?_, fun i hi => ?_⟩
    · rw [firstFrom_congr hkeys, h.head k']
      by_cases hne : k' = k
      · subst hne
        simp [firstFrom, hhead]
      · rw [hother k' 0 hne]
    · rw [hkeys] at hk'
      rw [firstFrom_congr hkeys]
      by_cases hiq : q = i
      · subst hiq
        obtain rfl : k = k' := Option.some.inj (hkq.symm.trans hk')
        rw [nextAt_modify_setNext_self _ hq]
        simp [firstFrom, hlast, hkey]
        omega
      · rw [nextAt_modify_setNext_ne _ hiq, h.next i k' hk']
        by_cases hne : k' = k
        · subst hne
          rcases hi : firstFrom T c.cells k' (i + 1) n with _ | j
          · have hnone := firstFrom_eq_none.mp hi
            have hge := firstFrom_eq_none.mp hlast
            have hqi : q < i := by
              by_contra hlt
              exact hnone q (by omega) hqn hkq
            have hni : n ≤ i := by
              by_contra hlt
              exact hge i (by omega) (by omega) hk'
            have : firstFrom T c.cells k' (i + 1) (n + 1) = none :=
              firstFrom_eq_none.mpr fun j h₁ h₂ => by omega
            rw [this]
          · simp [firstFrom, hi]
        · rw [hother k' _ hne]
    · rw [hkeys] at hi
      have hiq : q ≠ i := by
        rintro rfl
        rw [hkq] at hi
        exact absurd hi (by simp)
      rw [nextAt_modify_setNext_ne _ hiq]
      exact h.unkeyed i hi

theorem build_cells_length (c : Chained α κ) (position : ℕ) :
    (build T c position).cells.length = c.cells.length := by
  have hattach : ∀ target fuel p seen (cells : List α),
      (attach T target fuel p seen cells).length = cells.length := by
    intro target fuel p seen cells
    fun_induction attach T target fuel p seen cells <;> simp_all
  rw [build]
  split
  · rfl
  · split
    · rfl
    · exact hattach ..

/-- Appending a cell keeps all cells linked. -/
theorem push_linked (h : Linked T c.cells.length c) (a : α) :
    Linked T (c.cells.length + 1) (push T c a) := by
  have hkey : ∀ i, i < c.cells.length →
      keyAt T (c.cells ++ [T.setNext none a]) i = keyAt T c.cells i := by
    intro i hi
    rw [keyAt, keyAt, List.getElem?_append_left hi]
  have hfirst : ∀ k i n, n ≤ c.cells.length →
      firstFrom T (c.cells ++ [T.setNext none a]) k i n = firstFrom T c.cells k i n := by
    intro k i n hn
    induction n with
    | zero => rfl
    | succ n ih => rw [firstFrom, firstFrom, ih (by omega), hkey n (by omega)]
  refine build_linked ?_ (by simp)
  refine ⟨fun k => ?_, fun i k hk => ?_, fun i hk => ?_⟩
  · rw [hfirst k 0 _ (Nat.le_refl _), h.head k]
  · rcases Nat.lt_or_ge i c.cells.length with hi | hi
    · rw [hkey i hi] at hk
      rw [hfirst k _ _ (Nat.le_refl _), ← h.next i k hk, nextAt, nextAt,
        List.getElem?_append_left hi]
    · have hnone : firstFrom T c.cells k (i + 1) c.cells.length = none :=
        firstFrom_eq_none.mpr fun j h₁ h₂ => by omega
      rw [hfirst k _ _ (Nat.le_refl _), hnone, nextAt, List.getElem?_append_right hi]
      rcases hi' : i - c.cells.length with _ | m
      · simp [T.next_setNext]
      · simp
  · rcases Nat.lt_or_ge i c.cells.length with hi | hi
    · rw [hkey i hi] at hk
      rw [← h.unkeyed i hk, nextAt, nextAt, List.getElem?_append_left hi]
    · rw [nextAt, List.getElem?_append_right hi]
      rcases hi' : i - c.cells.length with _ | m
      · simp [T.next_setNext]
      · simp

theorem buildTo_cells_length (c : Chained α κ) (n : ℕ) :
    (buildTo T c n).cells.length = c.cells.length := by
  induction n with
  | zero => rfl
  | succ n ih => rw [buildTo, build_cells_length, ih]

theorem rebuild_cells_length (cells : List α) : (rebuild T cells).cells.length = cells.length := by
  rw [rebuild, buildTo_cells_length, List.length_map]

/-! ### What linking leaves unchanged -/

section

variable {β : Type} {f : α → β}

theorem build_map (hf : ∀ p a, f (T.setNext p a) = f a) (c : Chained α κ) (position : ℕ) :
    (build T c position).cells.map f = c.cells.map f := by
  have hattach : ∀ target fuel p seen (cells : List α),
      (attach T target fuel p seen cells).map f = cells.map f := by
    intro target fuel p seen cells
    fun_induction attach T target fuel p seen cells with
    | case1 => rfl
    | case2 => rfl
    | case3 => exact modify_map hf _ _
    | case4 _ _ _ _ _ _ _ ih => exact ih
    | case5 => exact modify_map hf _ _
  rw [build]
  split
  · rfl
  · split
    · rfl
    · exact hattach ..

/-- What does not read the links of the cells sees an appended cell only. -/
theorem push_map (hf : ∀ p a, f (T.setNext p a) = f a) (c : Chained α κ) (a : α) :
    (push T c a).cells.map f = c.cells.map f ++ [f a] := by
  rw [push, build_map hf, List.map_append, List.map_singleton, hf]

theorem rebuild_map (hf : ∀ p a, f (T.setNext p a) = f a) (cells : List α) :
    (rebuild T cells).cells.map f = cells.map f := by
  have hrun : ∀ n (c : Chained α κ), (buildTo T c n).cells.map f = c.cells.map f := by
    intro n c
    induction n with
    | zero => rfl
    | succ n ih => rw [buildTo, build_map hf, ih]
  rw [rebuild, hrun, List.map_map]
  exact List.map_congr_left fun a _ => hf none a

end

/-- Entering all cells anew links all of them, whatever their links were before. -/
theorem rebuild_linked (cells : List α) : Linked T cells.length (rebuild T cells) := by
  have hrun : ∀ n, n ≤ cells.length →
      Linked T n (buildTo T { heads := fun _ => none, cells := cells.map (T.setNext none) } n) := by
    intro n hn
    induction n with
    | zero =>
      refine ⟨fun k => rfl, fun i k hk => ?_, fun i hk => ?_⟩
      · rw [nextAt, buildTo, List.getElem?_map]
        rcases cells[i]? with _ | a <;> simp [T.next_setNext, firstFrom]
      · rw [nextAt, buildTo, List.getElem?_map]
        rcases cells[i]? with _ | a <;> simp [T.next_setNext]
    | succ n ih =>
      refine build_linked (ih (by omega)) ?_
      rw [buildTo_cells_length, List.length_map]
      omega
  exact hrun _ (Nat.le_refl _)

theorem empty_linked : Linked T 0 { heads := fun _ => none, cells := [] } where
  head k := rfl
  next i k hk := by simp [keyAt] at hk
  unkeyed i hk := by simp [nextAt]

/-! ### Following a linked chain -/

variable (T) in
/-- The positions with the key, from `i` on and below the bound. -/
def positions (cells : List α) (k : κ) (i n : ℕ) : List ℕ :=
  (List.range' i (n - i)).filter fun j => keyAt T cells j = some k

/-- The cells at the positions of a key are the cells with that key, in order. -/
theorem positions_cells (cells : List α) (k : κ) :
    (positions T cells k 0 cells.length).filterMap (cells[·]?)
      = cells.filter fun a => T.key a = some k := by
  have hall : ∀ l : List α, (List.range l.length).filterMap (l[·]?) = l := by
    intro l
    induction l with
    | nil => rfl
    | cons a l ih =>
      rw [List.length_cons, List.range_succ_eq_map, List.filterMap_cons, List.filterMap_map]
      simpa [Function.comp_def] using ih
  conv_rhs => rw [← hall cells]
  rw [positions, Nat.sub_zero, ← List.range_eq_range', List.filterMap_filter, List.filter_filterMap]
  refine List.filterMap_congr fun i _ => ?_
  rcases hi : cells[i]? with _ | a
  · simp
  · simp [keyAt, hi, Option.filter]

theorem positions_eq_nil (h : firstFrom T cells k i n = none) : positions T cells k i n = [] := by
  rw [positions, List.filter_eq_nil_iff]
  intro j hj
  obtain ⟨h₁, h₂⟩ := List.mem_range'_1.mp hj
  simpa using firstFrom_eq_none.mp h j h₁ (by omega)

theorem positions_eq_cons (h : firstFrom T cells k i n = some j) :
    positions T cells k i n = j :: positions T cells k (j + 1) n := by
  obtain ⟨hij, hjn, hk, hbefore⟩ := firstFrom_some h
  have hsplit : List.range' i (n - i)
      = List.range' i (j - i) ++ j :: List.range' (j + 1) (n - (j + 1)) := by
    have h₁ : n - i = (j - i) + (n - j) := by omega
    have h₂ : n - j = (n - (j + 1)) + 1 := by omega
    rw [h₁, ← List.range'_append_1, show i + (j - i) = j by omega, h₂, List.range'_succ]
  have hnil : (List.range' i (j - i)).filter (fun j => keyAt T cells j = some k) = [] := by
    rw [List.filter_eq_nil_iff]
    intro l hl
    obtain ⟨h₁, h₂⟩ := List.mem_range'_1.mp hl
    simpa using hbefore l h₁ (by omega)
  rw [positions, hsplit, List.filter_append, hnil, List.nil_append,
    List.filter_cons_of_pos (by simpa using hk), positions]

theorem walk_of_linked (h : Linked T n c) {fuel : ℕ} (hfuel : n < i + fuel) :
    walk T c.cells fuel ((firstFrom T c.cells k i n).map .at_)
      = (positions T c.cells k i n).map .at_ := by
  induction fuel generalizing i with
  | zero =>
    have hnone : firstFrom T c.cells k i n = none := firstFrom_eq_none.mpr fun j h₁ h₂ => by omega
    rw [hnone, positions_eq_nil hnone]
    rfl
  | succ fuel ih =>
    rcases hfirst : firstFrom T c.cells k i n with _ | j
    · rw [positions_eq_nil hfirst]
      rfl
    · obtain ⟨hij, -, hk, -⟩ := firstFrom_some hfirst
      rw [positions_eq_cons hfirst, Option.map_some, walk, h.next j k hk, ih (by omega),
        List.map_cons]

/-- Following the chain of a key enumerates the cells with that key, in increasing position. -/
theorem chain_of_linked (h : Linked T c.cells.length c) (k : κ) :
    c.chain T k = (positions T c.cells k 0 c.cells.length).map .at_ := by
  rw [Chained.chain, h.head k]
  exact walk_of_linked h (by omega)

/-! ### Enumerations -/

variable (T) in
/-- Following the links from a position meets the listed ones and comes to an end. -/
inductive Enumerates (cells : List α) : Option Position → List ℕ → Prop
  | nil : Enumerates cells none []
  | cons {i : ℕ} {l : List ℕ} (tail : Enumerates cells (nextAt T cells i) l) :
      Enumerates cells (some (.at_ i)) (i :: l)

theorem mem_positions : j ∈ positions T cells k i n ↔ i ≤ j ∧ j < n ∧ keyAt T cells j = some k := by
  rw [positions, List.mem_filter, List.mem_range'_1, decide_eq_true_eq, and_assoc]
  constructor
  · rintro ⟨hij, hjn, hk⟩
    exact ⟨hij, by omega, hk⟩
  · rintro ⟨hij, hjn, hk⟩
    exact ⟨hij, by omega, hk⟩

theorem positions_sorted : (positions T cells k i n).Pairwise (· < ·) :=
  List.Pairwise.filter _ List.pairwise_lt_range'

/-- Linked cells are enumerated from the first one of a key on. -/
theorem Linked.enumerates (h : Linked T n c) :
    Enumerates T c.cells ((firstFrom T c.cells k i n).map .at_) (positions T c.cells k i n) := by
  induction hm : n - i using Nat.strongRecOn generalizing i with
  | ind m ih =>
    cases hfirst : firstFrom T c.cells k i n with
    | none =>
      rw [positions_eq_nil hfirst]
      exact .nil
    | some j =>
      obtain ⟨hij, hjn, hk, -⟩ := firstFrom_some hfirst
      rw [positions_eq_cons hfirst]
      refine .cons ?_
      rw [h.next j k hk]
      exact ih (n - (j + 1)) (by omega) rfl

/-- A link leads to a later cell of the same key, and never to the sentinel. -/
theorem Linked.next_lt (h : Linked T n c) {p : Position} (hp : nextAt T c.cells i = some p) :
    ∃ j, p = .at_ j ∧ i < j ∧ j < n := by
  cases hkey : keyAt T c.cells i with
  | none =>
    rw [h.unkeyed i hkey] at hp
    cases hp
  | some k =>
    rw [h.next i k hkey, Option.map_eq_some_iff] at hp
    obtain ⟨j, hj, rfl⟩ := hp
    obtain ⟨hij, hjn, -, -⟩ := firstFrom_some hj
    exact ⟨j, rfl, hij, hjn⟩

end Mizugaki.Data.Chain
