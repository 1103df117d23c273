import Mathlib.Data.List.Forall2
import Mathlib.Tactic.Common

/-! Lists with a separator between any two of their parts. -/

namespace Mizugaki.Data

variable {τ α : Type} {sep : τ} {element element' : List τ → α → Prop} {part w : List τ}
  {parts : List (List τ)} {value : α} {values : List α}

/-- A list of parts with separators between them, and the values of the parts in their order. -/
def Separated (sep : τ) (element : List τ → α → Prop) (w : List τ) (values : List α) : Prop :=
  ∃ parts, w = [sep].intercalate parts ∧ List.Forall₂ element parts values

/-- A part that is not empty and has no separator at its ends. -/
structure Delimited (sep : τ) (part : List τ) : Prop where
  head : ∃ first, part.head? = some first ∧ first ≠ sep
  last : ∃ last, part.getLast? = some last ∧ last ≠ sep

theorem intercalate_concat (hne : parts ≠ []) :
    [sep].intercalate (parts ++ [part]) = [sep].intercalate parts ++ sep :: part := by
  induction parts with
  | nil => exact absurd rfl hne
  | cons first parts ih =>
    cases parts with
    | nil =>
      rw [List.singleton_append, List.intercalate_cons_cons, List.intercalate_singleton,
        List.intercalate_singleton, List.append_assoc, List.singleton_append]
    | cons second parts =>
      have hrest := ih (List.cons_ne_nil _ _)
      rw [List.cons_append] at hrest
      rw [List.cons_append, List.cons_append, List.intercalate_cons_cons, hrest,
        List.intercalate_cons_cons, List.append_assoc _ _ (sep :: part)]

theorem Separated.nil : Separated sep element [] [] :=
  ⟨[], rfl, List.Forall₂.nil⟩

theorem Separated.singleton (h : element part value) : Separated sep element part [value] :=
  ⟨[part], List.intercalate_singleton.symm, List.Forall₂.cons h List.Forall₂.nil⟩

theorem Separated.concat (h : Separated sep element w values) (hne : values ≠ [])
    (hpart : element part value) :
    Separated sep element (w ++ sep :: part) (values ++ [value]) := by
  obtain ⟨parts, rfl, hparts⟩ := h
  have hparts' : parts ≠ [] := by
    rintro rfl
    cases hparts
    exact hne rfl
  refine ⟨parts ++ [part], (intercalate_concat hparts').symm, ?_⟩
  exact List.rel_append hparts (List.Forall₂.cons hpart List.Forall₂.nil)

/-- A separated list is empty, a part, or a separated list that another part follows. -/
theorem Separated.cases_concat (h : Separated sep element w values) :
    (w = [] ∧ values = []) ∨ (∃ value, element w value ∧ values = [value]) ∨
      ∃ w' part values' value, values' ≠ [] ∧ Separated sep element w' values' ∧
        element part value ∧ w = w' ++ sep :: part ∧ values = values' ++ [value] := by
  obtain ⟨parts, rfl, hparts⟩ := h
  rcases List.eq_nil_or_concat values with rfl | ⟨values', value, rfl⟩
  · cases hparts
    exact Or.inl ⟨rfl, rfl⟩
  · rw [List.concat_eq_append] at hparts
    have hinit := List.forall₂_take_append parts values' [value] hparts
    have hlast := List.forall₂_drop_append parts values' [value] hparts
    have hsplit := List.take_append_drop values'.length parts
    obtain ⟨part, rest, hpart, hrest, hdrop⟩ := List.forall₂_cons_right_iff.mp hlast
    rw [List.forall₂_nil_right_iff.mp hrest] at hdrop
    rw [← hsplit, hdrop]
    refine Or.inr ?_
    cases values' with
    | nil => exact Or.inl ⟨value, by simpa using hpart, rfl⟩
    | cons first values' =>
      have hne : parts.take (first :: values').length ≠ [] := by
        intro hnil
        rw [hnil] at hinit
        cases hinit
      exact Or.inr ⟨_, part, _, value, List.cons_ne_nil _ _, ⟨_, rfl, hinit⟩, hpart,
        intercalate_concat hne, List.concat_eq_append⟩

theorem Separated.eq_nil (h : Separated sep element w []) : w = [] := by
  obtain ⟨parts, rfl, hparts⟩ := h
  cases hparts
  rfl

theorem Separated.imp (h : Separated sep element w values)
    (himp : ∀ part value, element part value → element' part value) :
    Separated sep element' w values := by
  obtain ⟨parts, hw, hparts⟩ := h
  exact ⟨parts, hw, hparts.imp fun part value => himp part value⟩

/-- It begins as its first part does. -/
theorem Separated.head (h : Separated sep element w values)
    (hpart : ∀ part value, element part value → Delimited sep part) : w.head? ≠ some sep := by
  obtain ⟨parts, rfl, hparts⟩ := h
  cases hparts with
  | nil => exact fun h => (by cases h)
  | @cons part _ parts _ hfirst _ =>
    obtain ⟨first, hhead, hne⟩ := (hpart _ _ hfirst).head
    have hlist : ([sep].intercalate (part :: parts)).head? = some first := by
      cases parts with
      | nil => rw [List.intercalate_singleton, hhead]
      | cons second parts =>
        rw [List.intercalate_cons_cons, List.append_assoc, List.head?_append, hhead,
          Option.some_or]
    rw [hlist]
    exact fun h => hne (Option.some.inj h)

end Mizugaki.Data
