import Mizugaki.Relation.Rows

/-! Selections of one row for every key. What is read from the selected rows does not depend on the
selection exactly when it is a function of the key; the distinct rows of a relation are one
selection. -/

namespace Mizugaki.Relation

variable {β κ γ : Type} {key : β → κ} {rows selected : List β}

/-- One of the rows of every key. -/
structure Chooses (key : β → κ) (rows selected : List β) : Prop where
  subset : ∀ r ∈ selected, r ∈ rows
  once : (selected.map key).Nodup
  all : ∀ r ∈ rows, key r ∈ selected.map key

theorem Chooses.nil : Chooses key [] [] := ⟨nofun, .nil, nofun⟩

/-- A row of a new key joins a selection. -/
theorem Chooses.cons (h : Chooses key rows selected) {r : β} (hr : key r ∉ selected.map key) :
    Chooses key (r :: rows) (r :: selected) where
  subset := List.forall_mem_cons.mpr
    ⟨List.mem_cons_self, fun r' hr' => List.mem_cons_of_mem _ (h.subset r' hr')⟩
  once := List.nodup_cons.mpr ⟨hr, h.once⟩
  all := List.forall_mem_cons.mpr
    ⟨List.mem_cons_self, fun r' hr' => List.mem_cons_of_mem _ (h.all r' hr')⟩

/-- More rows of keys that are there change nothing. -/
theorem Chooses.widen {rows' : List β} (h : Chooses key rows selected) (hrows : rows ⊆ rows')
    (hkeys : ∀ r ∈ rows', key r ∈ selected.map key) : Chooses key rows' selected :=
  ⟨fun r hr => hrows (h.subset r hr), h.once, hkeys⟩

theorem exists_chooses (key : β → κ) (rows : List β) : ∃ selected, Chooses key rows selected := by
  induction rows with
  | nil => exact ⟨[], .nil⟩
  | cons r rows ih =>
    obtain ⟨selected, h⟩ := ih
    by_cases hr : key r ∈ selected.map key
    · exact ⟨selected, h.widen (List.subset_cons_self _ _) (List.forall_mem_cons.mpr ⟨hr, h.all⟩)⟩
    · exact ⟨r :: selected, h.cons hr⟩

open Classical in
/-- Every row is selected by some selection. -/
theorem exists_chooses_mem (key : β → κ) {r : β} (hr : r ∈ rows) :
    ∃ selected, Chooses key rows selected ∧ r ∈ selected := by
  obtain ⟨selected, h⟩ := exists_chooses key (rows.filter fun r' => key r' ≠ key r)
  have hnew : key r ∉ selected.map key := by
    intro hmem
    obtain ⟨r', hr', hkey⟩ := List.mem_map.mp hmem
    exact of_decide_eq_true (List.mem_filter.mp (h.subset r' hr')).2 hkey
  refine ⟨r :: selected, (h.cons hnew).widen ?_ fun r' hr' => ?_, List.mem_cons_self⟩
  · exact List.cons_subset.mpr ⟨hr, List.filter_subset_self _⟩
  · by_cases hkey : key r' = key r
    · rw [hkey]
      exact List.mem_cons_self
    · exact List.mem_cons_of_mem _ (h.all r' (List.mem_filter.mpr ⟨hr', decide_eq_true hkey⟩))

/-- What is read besides the key is the same for all selections exactly when the rows of one key
agree on it. -/
theorem chooses_perm_iff {f : β → γ} :
    (∀ selected selected', Chooses key rows selected → Chooses key rows selected' →
      (selected.map fun r => (key r, f r)).Perm (selected'.map fun r => (key r, f r))) ↔
      ∀ r ∈ rows, ∀ r' ∈ rows, key r = key r' → f r = f r' := by
  constructor
  · intro hperm r hr r' hr' hkey
    obtain ⟨selected, hselected, hmem⟩ := exists_chooses_mem key hr
    obtain ⟨selected', hselected', hmem'⟩ := exists_chooses_mem key hr'
    have hpair : (key r, f r) ∈ selected'.map fun r => (key r, f r) :=
      (hperm _ _ hselected hselected').subset (List.mem_map_of_mem hmem)
    obtain ⟨r'', hmem'', heq⟩ := List.mem_map.mp hpair
    obtain ⟨hkey'', hf⟩ := Prod.mk.inj heq
    obtain rfl : r'' = r' :=
      List.inj_on_of_nodup_map hselected'.once hmem'' hmem' (hkey''.trans hkey)
    exact hf.symm
  · intro hdetermined selected selected' h h'
    have hnodup {l : List β} (hl : Chooses key rows l) : (l.map fun r => (key r, f r)).Nodup := by
      refine List.Nodup.of_map Prod.fst ?_
      rw [List.map_map]
      exact hl.once
    have hsubset {l l' : List β} (hl : Chooses key rows l) (hl' : Chooses key rows l') :
        (l.map fun r => (key r, f r)) ⊆ l'.map fun r => (key r, f r) := by
      intro p hp
      obtain ⟨r, hr, rfl⟩ := List.mem_map.mp hp
      obtain ⟨r', hr', hkey⟩ := List.mem_map.mp (hl'.all r (hl.subset r hr))
      refine List.mem_map.mpr ⟨r', hr', ?_⟩
      rw [hkey, hdetermined r' (hl'.subset r' hr') r (hl.subset r hr) hkey]
    exact (List.perm_ext_iff_of_nodup (hnodup h) (hnodup h')).mpr
      fun p => ⟨fun hp => hsubset h h' hp, fun hp => hsubset h' h hp⟩

/-! ### Distinct rows -/

section

variable {ν α : Type} [DecidableEq ν] [DecidableEq α] {keys : List ν}

omit [DecidableEq ν] in
theorem mem_groups {relation group : List (Row ν α)} (hgroup : group ∈ groups keys relation)
    {row : Row ν α} (hrow : row ∈ group) : row ∈ relation := by
  cases keys with
  | nil =>
    obtain rfl := List.mem_singleton.mp hgroup
    exact hrow
  | cons key keys =>
    obtain ⟨k, -, rfl⟩ := List.mem_map.mp hgroup
    exact (List.mem_filter.mp hrow).1

omit [DecidableEq ν] in
/-- With keys, the rows with the keys of one row are a group. -/
theorem filter_mem_groups (hkeys : keys ≠ []) {relation : List (Row ν α)} {row : Row ν α}
    (hrow : row ∈ relation) :
    (relation.filter fun row' => keyValues keys row' = keyValues keys row) ∈
      groups keys relation := by
  cases keys with
  | nil => exact (hkeys rfl).elim
  | cons key keys =>
    exact List.mem_map_of_mem (List.mem_dedup.mpr (List.mem_map_of_mem hrow))

/-- The keys of the row that stands for a group identify it. -/
theorem groups_inj {relation group group' : List (Row ν α)} (hgroup : group ∈ groups keys relation)
    (hgroup' : group' ∈ groups keys relation) (surroundings : Row ν α)
    (hkeys : ∀ k ∈ keys, representative surroundings keys group k =
      representative surroundings keys group' k) : group = group' := by
  cases keys with
  | nil => rw [List.mem_singleton.mp hgroup, List.mem_singleton.mp hgroup']
  | cons key keys =>
    -- a group is made of the rows with the values of the row that stands for it
    have hfilter : ∀ {g}, g ∈ groups (key :: keys) relation →
        g = relation.filter fun row => keyValues (key :: keys) row =
          keyValues (key :: keys) (representative surroundings (key :: keys) g) := by
      intro g hg
      obtain ⟨k, hk, rfl⟩ := List.mem_map.mp hg
      obtain ⟨row, hrow, hvalues⟩ := List.mem_map.mp (List.mem_dedup.mp hk)
      have hmem : row ∈ relation.filter fun row => keyValues (key :: keys) row = k :=
        List.mem_filter.mpr ⟨hrow, decide_eq_true hvalues⟩
      have hrepresentative := keyValues_congr fun n hn =>
        representative_of_mem hg hmem surroundings hn
      rw [hrepresentative, hvalues]
    rw [hfilter hgroup, hfilter hgroup', keyValues_congr hkeys]

end

end Mizugaki.Relation
