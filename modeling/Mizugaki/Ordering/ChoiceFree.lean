import Mathlib.Data.Multiset.Basic
import Mizugaki.Ordering.Block

/-! The choice of the distinct operator and the terms of the sort keys. A row that reaches the
distinct operator is made of a row of the input, or of a group of rows, and two of them have in
common what their query says; so determined sort keys do not depend on the choice. Sort keys that
are not determined differ for some input of two groups that look the same in the output. -/

namespace Mizugaki.Analyzer

open Mizugaki.Plan Mizugaki.Relation Mizugaki.Data.Determination

variable {α : Type} {I : Interpretation α} {apply : Symbol → List α → α}

/-- The valuation of the atoms by a row of the input; there are no groups. -/
def rowValuation (I : Interpretation α) (row : Row Variable α) : Atom → α
  | .column v => row v
  | .collected function _ => I.aggregate function 0

/-- The valuation of the atoms by a group of rows of the input. -/
def groupValuation (I : Interpretation α) (surroundings : Row Variable α) (keys : List Variable)
    (group : List (Row Variable α)) : Atom → α
  | .column v => representative surroundings keys group v
  | .collected function arguments =>
    I.aggregate function (group.map fun row => arguments.map fun t => t.eval I.apply row)

namespace SetFunctionProcessor

variable {p : SetFunctionProcessor}

/-- The group keys are not among the arguments of set functions. -/
def KeysFresh (p : SetFunctionProcessor) : Prop :=
  ∀ a, p.aggregations = some a → ∀ k ∈ a.1, k ∉ p.argumentColumns.map Prod.fst

/-- The arguments of set functions keep the group keys. -/
theorem KeysFresh.projectRow (hfresh : p.KeysFresh) {a : List Variable × List AggregateColumn}
    (ha : p.aggregations = some a) (row : Row Variable α) :
    ∀ k ∈ a.1, Plan.projectRow I p.argumentColumns row k = row k := by
  intro k hk
  refine extend_of_notMem ?_
  rw [List.map_map]
  exact hfresh a ha k hk

theorem arguments_eval (hI : I.Realizes apply) (row : Row Variable α) (arguments : List Variable) :
    arguments.map (projectRow I p.argumentColumns row) =
      (arguments.map p.argumentTerms).map fun t => t.eval apply row := by
  have hself : Stands apply row Term.var row := fun _ => rfl
  rw [List.map_map]
  exact List.map_congr_left fun v _ => hself.projectRow hI p.argumentColumns v

/-! ### Rows and terms -/

theorem stands_row (hI : I.Realizes apply) (hnone : p.aggregations = none) (ρ : Atom → α) :
    Stands apply ρ p.rowTerms (projectRow I p.argumentColumns fun v => ρ (.column v)) := by
  have hcolumns : Stands apply ρ columnTerms fun v => ρ (.column v) := fun _ => rfl
  unfold rowTerms
  rw [hnone]
  exact hcolumns.projectRow hI p.argumentColumns

theorem stands_group {a : List Variable × List AggregateColumn} (ha : p.aggregations = some a)
    {ρ : Atom → α} {row : Row Variable α} (hrow : ∀ v, row v = ρ (.column v))
    {values : AggregateColumn → α}
    (hvalues : ∀ c ∈ a.2, values c =
      ρ (.collected c.function (c.arguments.map p.argumentTerms))) :
    Stands apply ρ p.rowTerms (extend row (a.2.map fun c => (c.destination, values c))) := by
  have hcolumns : Stands apply ρ columnTerms row := hrow
  unfold rowTerms
  rw [ha]
  refine hcolumns.extend ?_
  rw [List.map_map]
  exact List.map_congr_left fun c hc => congrArg (Prod.mk c.destination) (hvalues c hc)

variable [DecidableEq α] {surroundings : Row Variable α} {input : List (Row Variable α)}

/-- The valuations that an input gives rise to. -/
def Valuation (p : SetFunctionProcessor) (I : Interpretation α) (surroundings : Row Variable α)
    (input : List (Row Variable α)) (ρ : Atom → α) : Prop :=
  match p.aggregations with
  | none => ∃ row ∈ input, ρ = rowValuation I row
  | some a => ∃ group ∈ groups a.1 input, ρ = groupValuation I surroundings a.1 group

/-- The rows above the installed operators, of a grouped query, are those of the groups. -/
theorem mem_baseRows_iff (hfresh : p.KeysFresh) {a : List Variable × List AggregateColumn}
    (ha : p.aggregations = some a) {base : Row Variable α} :
    base ∈ p.baseRows I surroundings input ↔ ∃ group ∈ groups a.1 input,
      base = extend (representative surroundings a.1 group) (a.2.map fun c => (c.destination,
        I.aggregate c.function ((group.map (projectRow I p.argumentColumns)).map
          fun row => c.arguments.map row))) := by
  unfold baseRows argumentRows
  rw [ha]
  change base ∈ Relation.aggregate _ _ _ _ ↔ _
  rw [Relation.aggregate, groups_map (hfresh.projectRow ha), List.map_map, List.mem_map]
  refine exists_congr fun group => and_congr_right fun _ => ?_
  rw [Function.comp_apply, aggregateRow, representative_map (hfresh.projectRow ha), aggregates,
    List.map_map]
  exact eq_comm

theorem exists_stands (hfresh : p.KeysFresh) {base : Row Variable α}
    (hbase : base ∈ p.baseRows I surroundings input) :
    ∃ ρ, p.Valuation I surroundings input ρ ∧ Stands I.apply ρ p.rowTerms base := by
  have hI := I.apply_realizes
  unfold Valuation
  cases ha : p.aggregations with
  | none =>
    unfold baseRows argumentRows at hbase
    rw [ha] at hbase
    obtain ⟨row, hrow, rfl⟩ := List.mem_map.mp hbase
    exact ⟨_, ⟨row, hrow, rfl⟩, stands_row hI ha (rowValuation I row)⟩
  | some a =>
    obtain ⟨group, hgroup, rfl⟩ := (mem_baseRows_iff hfresh ha).mp hbase
    refine ⟨_, ⟨group, hgroup, rfl⟩, stands_group ha (fun _ => rfl) fun c _ => ?_⟩
    change I.aggregate _ _ = I.aggregate _ _
    rw [List.map_map]
    refine congrArg (fun rows : List (List α) => I.aggregate c.function rows) ?_
    exact List.map_congr_left fun row _ => arguments_eval hI row c.arguments

/-- The valuations of one input have the constants in common, and are identified by the keys. -/
theorem Valuation.related (hsurroundings : ∀ row ∈ input, ∀ v, v.isStream = false →
      row v = surroundings v) {ρ ρ' : Atom → α} (h : p.Valuation I surroundings input ρ)
    (h' : p.Valuation I surroundings input ρ') : Related p.Constant p.keyAtoms ρ ρ' := by
  unfold Valuation at h h'
  cases ha : p.aggregations with
  | none =>
    rw [ha] at h h'
    obtain ⟨row, hrow, rfl⟩ := h
    obtain ⟨row', hrow', rfl⟩ := h'
    refine ⟨fun atom hatom => ?_, fun ks hks _ => ?_⟩
    · cases atom with
      | collected function arguments => exact hatom.elim
      | column v =>
        obtain hv | ⟨a, hsome, -⟩ := hatom
        · exact (hsurroundings row hrow v hv).trans (hsurroundings row' hrow' v hv).symm
        · rw [ha] at hsome
          cases hsome
    · unfold keyAtoms at hks
      rw [ha] at hks
      cases hks
  | some a =>
    rw [ha] at h h'
    obtain ⟨group, hgroup, rfl⟩ := h
    obtain ⟨group', hgroup', rfl⟩ := h'
    have hstream : ∀ {g}, g ∈ groups a.1 input → ∀ v, v.isStream = false →
        representative surroundings a.1 g v = surroundings v := by
      intro g hg v hv
      by_cases hkey : v ∈ a.1
      · rw [representative, if_pos hkey]
        cases g with
        | nil => rfl
        | cons row g => exact hsurroundings row (mem_groups hg List.mem_cons_self) v hv
      · rw [representative, if_neg hkey]
    refine ⟨fun atom hatom => ?_, fun ks hks hkeys => ?_⟩
    · cases atom with
      | collected function arguments => exact hatom.elim
      | column v =>
        change representative _ _ _ v = representative _ _ _ v
        obtain hv | ⟨b, hsome, hkey⟩ := hatom
        · rw [hstream hgroup v hv, hstream hgroup' v hv]
        · obtain rfl := Option.some.inj (ha.symm.trans hsome)
          rw [representative, representative, if_neg hkey, if_neg hkey]
    · unfold keyAtoms at hks
      rw [ha] at hks
      obtain rfl := Option.some.inj hks
      rw [groups_inj hgroup hgroup' surroundings fun k hk => hkeys _ (List.mem_map_of_mem hk)]

end SetFunctionProcessor

/-! ### Two groups

A valuation keeps beside the value of an atom what it is made of, so that the values of set functions
can be told by their arguments; a group of one row takes them from one valuation, and a larger group
from another one. -/

/-- What an atom is made of. -/
def madeOf : Atom → Term Symbol Variable
  | .column v => .var v
  | .collected function arguments => .node (.aggregate function) arguments

/-- A valuation with what the atoms are made of. -/
def withMade (ρ : Atom → α) (atom : Atom) : α × Term Symbol Variable := (ρ atom, madeOf atom)

theorem eval_withMade (apply : Symbol → List α → α) (ρ : Atom → α) (t : Term Symbol Atom) :
    t.eval (Term.pair apply .node) (withMade ρ) =
      (t.eval apply ρ, t.eval .node madeOf) :=
  Term.eval_pair ..

/-- The set functions over groups of one row, and over larger ones. -/
noncomputable def collectMade (ρ ρ' : Atom → α) (function : AggregateDecl)
    (values : Multiset (List (α × Term Symbol Variable))) : α × Term Symbol Variable :=
  withMade (if values.card = 1 then ρ else ρ')
    (.collected function ((values.toList.headD []).map Prod.snd))

theorem collectMade_replicate (ρ ρ' : Atom → α) (function : AggregateDecl) (n : ℕ)
    (values : List (α × Term Symbol Variable)) :
    collectMade ρ ρ' function (Multiset.replicate (n + 1) values) =
      withMade (if n = 0 then ρ else ρ') (.collected function (values.map Prod.snd)) := by
  have hlist : (Multiset.replicate (n + 1) values).toList = List.replicate (n + 1) values := by
    refine List.perm_replicate.mp (Multiset.coe_eq_coe.mp ?_)
    rw [Multiset.coe_toList, Multiset.coe_replicate]
  have hcard : n + 1 = 1 ↔ n = 0 := by omega
  unfold collectMade
  rw [hlist, Multiset.card_replicate, List.replicate_succ, List.headD_cons]
  simp only [hcard]

/-- A row of columns with what they are made of. -/
def rowMade (ρ : Atom → α) : Row Variable (α × Term Symbol Variable) :=
  fun v => withMade ρ (.column v)

/-- One row of a valuation, and two rows of another. -/
def inputMade (ρ ρ' : Atom → α) : List (Row Variable (α × Term Symbol Variable)) :=
  [rowMade ρ, rowMade ρ', rowMade ρ']

/-- The groups of one row and of two, where the rows differ on the keys. -/
theorem replicate_mem_groups [DecidableEq (α × Term Symbol Variable)] {ρ ρ' : Atom → α}
    {keys : List Variable} (hkeys : keyValues keys (rowMade ρ) ≠ keyValues keys (rowMade ρ'))
    (n : Fin 2) : List.replicate (n + 1) (rowMade (if (n : ℕ) = 0 then ρ else ρ')) ∈
      groups keys (inputMade ρ ρ') := by
  have hne : keys ≠ [] := by
    rintro rfl
    exact hkeys rfl
  have hgroup : ∀ row ∈ inputMade ρ ρ',
      ((inputMade ρ ρ').filter fun row' => keyValues keys row' = keyValues keys row) ∈
        groups keys (inputMade ρ ρ') := fun row hrow => filter_mem_groups hne hrow
  match n with
  | 0 => simpa [inputMade, hkeys.symm] using hgroup (rowMade ρ) List.mem_cons_self
  | 1 =>
    simpa [inputMade, hkeys] using
      hgroup (rowMade ρ') (List.mem_cons_of_mem _ List.mem_cons_self)

theorem argumentTerms_made {p : SetFunctionProcessor}
    {I : Interpretation (α × Term Symbol Variable)} (hI : I.Realizes (Term.pair apply .node))
    (ρ : Atom → α) (arguments : List Variable) :
    (arguments.map (projectRow I p.argumentColumns (rowMade ρ))).map Prod.snd =
      arguments.map p.argumentTerms := by
  rw [SetFunctionProcessor.arguments_eval hI, List.map_map, List.map_map]
  refine List.map_congr_left fun v _ => ?_
  change ((p.argumentTerms v).eval (Term.pair apply .node) (rowMade ρ)).2 = _
  rw [Term.eval_pair]
  exact Term.eval_self _

/-- A set function over one or two equal rows. -/
theorem aggregate_made {p : SetFunctionProcessor} (ρ ρ' : Atom → α) (n : Fin 2)
    (c : AggregateColumn) :
    let I : Interpretation (α × Term Symbol Variable) :=
      .ofSymbols (Term.pair apply .node) (collectMade ρ ρ')
    let ρ'' := if (n : ℕ) = 0 then ρ else ρ'
    I.aggregate c.function (((List.replicate (n + 1) (rowMade ρ'')).map
        (projectRow I p.argumentColumns)).map fun row => c.arguments.map row) =
      withMade ρ'' (.collected c.function (c.arguments.map p.argumentTerms)) := by
  intro I ρ''
  have hI : I.Realizes (Term.pair apply .node) := Interpretation.ofSymbols_realizes _ _
  have hcard : (Multiset.replicate (n + 1 : ℕ)
      (c.arguments.map (projectRow I p.argumentColumns (rowMade ρ'')))).card ≠ 0 := by
    rw [Multiset.card_replicate]
    exact Nat.succ_ne_zero _
  rw [List.map_replicate, List.map_replicate, Multiset.coe_replicate,
    Interpretation.ofSymbols_aggregate _ hcard, collectMade_replicate, argumentTerms_made hI]

namespace DistinctOrder

variable {d : DistinctOrder}

/-! ### Two rows -/

section

variable {ρ : Atom → α} {base : Row Variable α}

theorem keys_eval (hI : I.Realizes apply) (h : Stands apply ρ d.processor.rowTerms base) :
    keyValues d.keys (projectRow I d.columns base) =
      (d.keys.map d.selectTerms).map fun t => t.eval apply ρ := by
  rw [List.map_map]
  exact List.map_congr_left fun k _ => h.projectRow hI d.columns k

theorem sortKeys_eval (hI : I.Realizes apply) (h : Stands apply ρ d.processor.rowTerms base) :
    keyValues (d.sort.keys.map Prod.fst)
        (projectRow I d.sort.columns (projectRow I d.columns base)) =
      (d.sort.keys.map Prod.fst).map fun k => (d.sortTerms k).eval apply ρ :=
  List.map_congr_left fun k _ => (h.projectRow hI d.columns).projectRow hI d.sort.columns k

end

variable [DecidableEq α] {surroundings : Row Variable α} {input : List (Row Variable α)}

/-- Where the choice does not matter, two rows of an input that look the same in the output have the
same sort keys. -/
theorem ChoiceFree.eval_eq (h : d.ChoiceFree) (hI : I.Realizes apply)
    (htrue : ∀ a, I.truth a = true) (hsurroundings : ∀ row ∈ input, ∀ v, v.isStream = false →
      row v = surroundings v) {base base' : Row Variable α} {ρ ρ' : Atom → α}
    (hbase : base ∈ d.processor.baseRows I surroundings input)
    (hbase' : base' ∈ d.processor.baseRows I surroundings input)
    (hstands : Stands apply ρ d.processor.rowTerms base)
    (hstands' : Stands apply ρ' d.processor.rowTerms base')
    (houtputs : ∀ u ∈ d.keys.map d.selectTerms, u.eval apply ρ = u.eval apply ρ')
    {k : Variable} (hk : k ∈ d.sort.keys.map Prod.fst) :
    (d.sortTerms k).eval apply ρ = (d.sortTerms k).eval apply ρ' := by
  have hperm := chooses_perm_iff.mp (h α I surroundings input _ hsurroundings
    (rowsAbove_below I surroundings input d))
  have hkeys : keyValues d.keys (projectRow I d.columns base) =
      keyValues d.keys (projectRow I d.columns base') := by
    rw [keys_eval hI hstands, keys_eval hI hstands', List.map_congr_left houtputs]
  have hsort := hperm _ (mem_rows_of_true htrue hbase) _ (mem_rows_of_true htrue hbase') hkeys
  rw [sortKeys_eval hI hstands, sortKeys_eval hI hstands'] at hsort
  exact List.map_inj_left.mp hsort k hk

/-- Determined sort keys do not depend on the choice. -/
theorem Determines.choiceFree (hfresh : d.processor.KeysFresh) (h : d.Determines) :
    d.ChoiceFree := by
  intro α _ I surroundings input rows hsurroundings hrows
  obtain rfl : d.rows I surroundings input = rows :=
    Option.some.inj ((rowsAbove_below I surroundings input d).symm.trans hrows)
  refine chooses_perm_iff.mpr fun row hrow row' hrow' hkeys => ?_
  obtain ⟨base, hbase, rfl⟩ := mem_rows hrow
  obtain ⟨base', hbase', rfl⟩ := mem_rows hrow'
  obtain ⟨ρ, hρ, hstands⟩ := SetFunctionProcessor.exists_stands hfresh hbase
  obtain ⟨ρ', hρ', hstands'⟩ := SetFunctionProcessor.exists_stands hfresh hbase'
  have hI := I.apply_realizes
  rw [keys_eval hI hstands, keys_eval hI hstands'] at hkeys
  rw [sortKeys_eval hI hstands, sortKeys_eval hI hstands']
  exact List.map_congr_left fun k hk =>
    (h k hk).eval_eq (hρ.related hsurroundings hρ') (List.map_inj_left.mp hkeys)

/-- Where there are no groups, any two valuations come from two rows. -/
theorem ChoiceFree.determines_of_none (hnone : d.processor.aggregations = none)
    (h : d.ChoiceFree) : d.Determines := by
  classical
  intro k hk
  by_contra hnot
  obtain ⟨α, apply, ρ, ρ', hrelated, houtputs, hne⟩ := exists_separation hnot
  let I : Interpretation α := .ofSymbols apply fun function _ => apply (.aggregate function) []
  have hI : I.Realizes apply := Interpretation.ofSymbols_realizes _ _
  let row : Row Variable α := fun v => ρ (.column v)
  let row' : Row Variable α := fun v => ρ' (.column v)
  have hsurroundings : ∀ r ∈ [row, row'], ∀ v, v.isStream = false → r v = row v := by
    intro r hr v hv
    obtain rfl | hr := List.mem_cons.mp hr
    · rfl
    · rw [List.mem_singleton.mp hr]
      exact (hrelated.constant (.column v) (Or.inl hv)).symm
  have hrows : d.processor.baseRows I row [row, row'] =
      [projectRow I d.processor.argumentColumns row,
        projectRow I d.processor.argumentColumns row'] := by
    unfold SetFunctionProcessor.baseRows
    rw [hnone]
    rfl
  refine hne (h.eval_eq hI (fun _ => rfl) hsurroundings ?_ ?_
    (SetFunctionProcessor.stands_row hI hnone ρ) (SetFunctionProcessor.stands_row hI hnone ρ')
    houtputs hk)
  · rw [hrows]
    exact List.mem_cons_self
  · rw [hrows]
    exact List.mem_cons_of_mem _ List.mem_cons_self

/-- Where there are groups, any two valuations come from two groups, one of one row and one of two
rows. -/
theorem ChoiceFree.determines_of_some (hfresh : d.processor.KeysFresh)
    {a : List Variable × List AggregateColumn} (ha : d.processor.aggregations = some a)
    (h : d.ChoiceFree) : d.Determines := by
  classical
  intro k hk
  by_contra hnot
  obtain ⟨α, apply, ρ, ρ', hrelated, houtputs, hne⟩ := exists_separation hnot
  have hconstant : ∀ v, d.processor.Constant (.column v) → rowMade ρ' v = rowMade ρ v :=
    fun v hv => congrArg (·, madeOf (.column v)) (hrelated.constant _ hv).symm
  let I : Interpretation (α × Term Symbol Variable) :=
    .ofSymbols (Term.pair apply .node) (collectMade ρ ρ')
  have hI : I.Realizes (Term.pair apply .node) := Interpretation.ofSymbols_realizes _ _
  have hsurroundings : ∀ r ∈ inputMade ρ ρ', ∀ v, v.isStream = false → r v = rowMade ρ v := by
    intro r hr v hv
    simp only [inputMade, List.mem_cons, List.not_mem_nil, or_false, or_self] at hr
    obtain rfl | rfl := hr
    · rfl
    · exact hconstant v (Or.inl hv)
  have hkeys : keyValues a.1 (rowMade ρ) ≠ keyValues a.1 (rowMade ρ') := by
    intro heq
    have hidentified : ρ = ρ' := by
      refine hrelated.identified (a.1.map Atom.column) (by rw [SetFunctionProcessor.keyAtoms, ha]; rfl)
        fun atom hatom => ?_
      obtain ⟨v, hv, rfl⟩ := List.mem_map.mp hatom
      exact congrArg Prod.fst (List.map_inj_left.mp heq v hv)
    exact hne (by rw [hidentified])
  have hbase : ∀ n : Fin 2, ∃ base ∈ d.processor.baseRows I (rowMade ρ) (inputMade ρ ρ'),
      Stands (Term.pair apply .node) (withMade (if (n : ℕ) = 0 then ρ else ρ'))
        d.processor.rowTerms base := by
    intro n
    refine ⟨_, (SetFunctionProcessor.mem_baseRows_iff hfresh ha).mpr
      ⟨_, replicate_mem_groups hkeys n, rfl⟩, ?_⟩
    refine SetFunctionProcessor.stands_group ha (fun v => ?_) fun c _ => ?_
    · by_cases hv : v ∈ a.1
      · rw [representative, if_pos hv]
        rfl
      · rw [representative, if_neg hv]
        split_ifs
        · rfl
        · exact (hconstant v (Or.inr ⟨a, ha, hv⟩)).symm
    · exact aggregate_made ρ ρ' n c
  obtain ⟨base, hmem, hstands⟩ := hbase 0
  obtain ⟨base', hmem', hstands'⟩ := hbase 1
  have heq := h.eval_eq hI (fun _ => rfl) hsurroundings hmem hmem' hstands hstands' ?_ hk
  · rw [eval_withMade, eval_withMade] at heq
    exact hne (congrArg Prod.fst heq)
  · intro u hu
    rw [eval_withMade, eval_withMade]
    exact congrArg (·, u.eval .node madeOf) (houtputs u hu)

/-- The choice of the distinct operator does not matter exactly when the output columns determine
the sort keys. -/
theorem choiceFree_iff_determines (hfresh : d.processor.KeysFresh) :
    d.ChoiceFree ↔ d.Determines := by
  refine ⟨fun h => ?_, Determines.choiceFree hfresh⟩
  cases ha : d.processor.aggregations with
  | none => exact h.determines_of_none ha
  | some a => exact h.determines_of_some hfresh ha

end DistinctOrder

end Mizugaki.Analyzer
