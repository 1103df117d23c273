import Mizugaki.Data.Chain

/-! Maps from keys to the positions of a growing vector, where a key entered a
second time is replaced by a sentinel. The invariant `Indexes` says that the map
tells for every key whether no, exactly one or several elements have it. -/

namespace Mizugaki.Data.UniqueMap

open Mizugaki.Data.Chain

variable {α κ : Type}

/-- A change that keeps the keys of the elements does not change the list of keys. -/
theorem modify_map_eq {β : Type} {key : α → β} {l : List α} {f : α → α} (h : ∀ a, key (f a) = key a)
    (i : ℕ) : (l.modify i f).map key = l.map key := by
  apply List.ext_getElem?
  intro j
  rw [List.getElem?_map, List.getElem?_map, List.getElem?_modify]
  rcases l[j]? with _ | a
  · rfl
  · by_cases hij : i = j <;> simp [hij, h]

variable [DecidableEq κ]

/-- `try_emplace`, and the sentinel when the key is already there. -/
def enter (map : κ → Option Position) (k : κ) (position : ℕ) : κ → Option Position :=
  match map k with
  | none => Function.update map k (some (.at_ position))
  | some _ => Function.update map k (some .ambiguous)

/-- Enter the key of an element, when it has one. -/
def enterKey (map : κ → Option Position) (k : Option κ) (position : ℕ) : κ → Option Position :=
  match k with
  | none => map
  | some k => enter map k position

/-- The positions of the elements with a key. -/
def keyPositions (key : α → Option κ) (l : List α) (k : κ) : List ℕ :=
  l.findIdxs fun a => key a = some k

/-- What a map must say about the positions of a key. -/
def summary : List ℕ → Option Position
  | [] => none
  | [i] => some (.at_ i)
  | _ :: _ :: _ => some .ambiguous

/-- The map summarises, for every key, the positions of the elements with that key. -/
def Indexes (key : α → Option κ) (l : List α) (map : κ → Option Position) : Prop :=
  ∀ k, map k = summary (keyPositions key l k)

variable {key : α → Option κ} {l : List α} {map : κ → Option Position}

theorem indexes_nil : Indexes key ([] : List α) fun _ => none := fun _ => rfl

theorem keyPositions_append (a : α) (k : κ) :
    keyPositions key (l ++ [a]) k
      = keyPositions key l k ++ if key a = some k then [l.length] else [] := by
  by_cases h : key a = some k
  · simp [keyPositions, h, List.findIdxs_append]
  · simp [keyPositions, h, List.findIdxs_append]

/-- Entering the key of an appended element keeps the map a summary. -/
theorem Indexes.enterKey (h : Indexes key l map) (a : α) :
    Indexes key (l ++ [a]) (enterKey map (key a) l.length) := by
  intro k
  rw [keyPositions_append]
  rcases hkey : key a with _ | k'
  · simpa [UniqueMap.enterKey] using h k
  · have hmap := h k'
    by_cases hk : k' = k
    · subst hk
      rcases hpos : keyPositions key l k' with _ | ⟨i, _ | ⟨j, rest⟩⟩ <;>
        simp [UniqueMap.enterKey, enter, hmap, hpos, summary]
    · have hother : UniqueMap.enterKey map (some k') l.length k = map k := by
        rw [UniqueMap.enterKey, enter]
        rcases map k' with _ | p <;> simp [Ne.symm hk]
      rw [hother, h k]
      simp [hk]

/-- The invariant reads an element only through its key. -/
theorem Indexes.congr {l' : List α} (h : Indexes key l map) (hl : l'.map key = l.map key) :
    Indexes key l' map := by
  intro k
  have hpositions : ∀ l : List α,
      keyPositions key l k = (l.map key).findIdxs fun a => a = some k := by
    intro l
    simp [keyPositions, List.findIdxs_map]
    rfl
  rw [h k, hpositions l, hpositions l', hl]

/-- Reading a map that indexes a vector: the elements of the key are none, exactly the one at the
position told, or several. -/
theorem Indexes.lookup (h : Indexes key l map) (k : κ) :
    match map k with
    | none => l.filter (fun a => key a = some k) = []
    | some (.at_ i) => ∃ a, l[i]? = some a ∧ l.filter (fun a => key a = some k) = [a]
    | some .ambiguous => 2 ≤ (l.filter fun a => key a = some k).length := by
  have hlength : (keyPositions key l k).length = (l.filter fun a => key a = some k).length := by
    rw [keyPositions, List.length_findIdxs, List.countP_eq_length_filter]
  rw [h k]
  rcases hpos : keyPositions key l k with _ | ⟨i, _ | ⟨j, rest⟩⟩
  · rw [hpos] at hlength
    exact List.length_eq_zero_iff.mp hlength.symm
  · rw [hpos] at hlength
    obtain ⟨a, ha⟩ := List.length_eq_one_iff.mp hlength.symm
    have hmem : i ∈ keyPositions key l k := by simp [hpos]
    obtain ⟨hi, hkey⟩ := List.mem_findIdxs_iff_exists_getElem_pos.mp hmem
    have hfilter : l[i] ∈ l.filter fun a => key a = some k :=
      List.mem_filter.mpr ⟨List.getElem_mem hi, hkey⟩
    rw [ha, List.mem_singleton] at hfilter
    exact ⟨a, by rw [List.getElem?_eq_getElem hi, hfilter], ha⟩
  · rw [hpos] at hlength
    simp only [summary, ← hlength, List.length_cons]
    omega

end Mizugaki.Data.UniqueMap
