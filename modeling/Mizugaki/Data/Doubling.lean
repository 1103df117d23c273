import Mathlib.Data.List.Basic
import Mathlib.Tactic.Common

/-! Doubling of a quote character. A text is written with each quote in it doubled, and read back
pair by pair; a quote that stands alone is an error. Proved: what is read is exactly what is
written. -/

namespace Mizugaki.Data.Doubling

variable {α : Type} [DecidableEq α] (q : α)

/-- Write a text with its quotes doubled. -/
def double : List α → List α
  | [] => []
  | c :: cs => if c = q then q :: q :: double cs else c :: double cs

/-- Read a text whose quotes are doubled. -/
def undouble : List α → Option (List α)
  | [] => some []
  | [c] => if c = q then none else some [c]
  | c :: c' :: rest =>
    if c = q then
      if c' = q then (undouble rest).map (c :: ·) else none
    else (undouble (c' :: rest)).map (c :: ·)

variable {q} {body text : List α}

theorem undouble_cons_of_ne {c : α} (hc : c ≠ q) (rest : List α) :
    undouble q (c :: rest) = (undouble q rest).map (c :: ·) := by
  cases rest with
  | nil => simp [undouble, hc]
  | cons c' rest => rw [undouble, if_neg hc]

theorem undouble_double (text : List α) : undouble q (double q text) = some text := by
  induction text with
  | nil => rfl
  | cons c cs ih =>
    by_cases hc : c = q
    · rw [double, if_pos hc, undouble, if_pos rfl, if_pos rfl, ih, Option.map_some, hc]
    · rw [double, if_neg hc, undouble_cons_of_ne hc, ih, Option.map_some]

theorem double_of_undouble (h : undouble q body = some text) : double q text = body := by
  induction body using undouble.induct q generalizing text with
  | case1 =>
    obtain rfl := Option.some.inj h
    rfl
  | case2 => simp [undouble] at h
  | case3 c hc =>
    rw [undouble, if_neg hc] at h
    obtain rfl := Option.some.inj h
    rw [double, if_neg hc, double]
  | case4 rest ih =>
    rw [undouble, if_pos rfl, if_pos rfl] at h
    obtain ⟨text', htext, rfl⟩ := Option.map_eq_some_iff.mp h
    rw [double, if_pos rfl, ih htext]
  | case5 c' rest hc' =>
    rw [undouble, if_pos rfl, if_neg hc'] at h
    cases h
  | case6 c c' rest hc ih =>
    rw [undouble_cons_of_ne hc] at h
    obtain ⟨text', htext, rfl⟩ := Option.map_eq_some_iff.mp h
    rw [double, if_neg hc, ih htext]

/-- A body is read as a text exactly when it is the text with its quotes doubled. -/
theorem undouble_eq_some_iff : undouble q body = some text ↔ double q text = body := by
  constructor
  · exact double_of_undouble
  · rintro rfl
    exact undouble_double text

/-- A text without quotes is at the start of a text exactly if it is at the start of the quoted
one. -/
theorem isPrefixOf_double {start : List α} (h : q ∉ start) :
    start.isPrefixOf (double q text ++ [q]) = start.isPrefixOf text := by
  induction start generalizing text with
  | nil => rw [List.isPrefixOf, List.isPrefixOf]
  | cons a start ih =>
    have hne : (a == q) = false := beq_false_of_ne fun ha => h (by simp [ha])
    cases text with
    | nil => simp [double, List.isPrefixOf, hne]
    | cons c cs =>
      rw [double]
      by_cases hc : c = q
      · rw [if_pos hc, hc]
        simp [List.isPrefixOf, hne]
      · rw [if_neg hc]
        simp [List.isPrefixOf, ih fun hmem => h (List.mem_cons_of_mem _ hmem)]

/-- A closing quote that more text follows is followed by another quote, if that is a quoted text
as well. -/
theorem head?_of_double_append {text' rest : List α}
    (h : double q text ++ q :: rest = double q text' ++ [q]) (hrest : rest ≠ []) :
    rest.head? = some q := by
  induction text generalizing text' with
  | nil =>
    cases text' with
    | nil => exact absurd (List.cons.inj h).2 hrest
    | cons c' cs' =>
      rw [double, double] at h
      by_cases hc' : c' = q
      · rw [if_pos hc'] at h
        rw [(List.cons.inj h).2]
        rfl
      · rw [if_neg hc'] at h
        exact absurd (List.cons.inj h).1.symm hc'
  | cons c cs ih =>
    rw [double] at h
    cases text' with
    | nil =>
      by_cases hc : c = q
      · rw [if_pos hc] at h
        cases (List.cons.inj h).2
      · rw [if_neg hc] at h
        exact absurd (List.cons.inj h).1 hc
    | cons c' cs' =>
      rw [double] at h
      by_cases hc : c = q
      · by_cases hc' : c' = q
        · rw [if_pos hc, if_pos hc'] at h
          exact ih (List.cons.inj (List.cons.inj h).2).2
        · rw [if_pos hc, if_neg hc'] at h
          exact absurd (List.cons.inj h).1.symm hc'
      · by_cases hc' : c' = q
        · rw [if_neg hc, if_pos hc'] at h
          exact absurd (List.cons.inj h).1 hc
        · rw [if_neg hc, if_neg hc'] at h
          exact ih (List.cons.inj h).2

end Mizugaki.Data.Doubling
