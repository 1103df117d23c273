import Mizugaki.Declaration.Column

/-! All columns of a table. Their drafts are numbered apart and named apart. When one of them
is declared the primary key, the columns are accepted as they are without that, if no other
column is one and the column is not said to be nullable, and only its nullity differs. -/

namespace Mizugaki.Analyzer

open Mizugaki.Ast Mizugaki.Plan Mizugaki.Control

variable {ρ : Type} {env : Environment ρ}

/-! ### The columns of a table -/

/-- The columns of a draft are numbered below the counter, apart, named apart, and they can be
referred to. -/
structure ColumnsDraft.WellFormed (d : ColumnsDraft) (n : Nat) : Prop where
  below : ∀ c ∈ d.columns, c.address < n
  addresses : (d.columns.map Column.address).Nodup
  names : (d.columns.map Column.simpleName).Nodup
  exported : ∀ c ∈ d.columns, c.hidden = false ∧ c.synthesized = false

theorem ColumnsDraft.wellFormed_nil (n : Nat) : (⟨[], none⟩ : ColumnsDraft).WellFormed n where
  below _ hc := nomatch hc
  addresses := List.nodup_nil
  names := List.nodup_nil
  exported _ hc := nomatch hc

/-- A column before its constraints. -/
def newColumn (env : Environment ρ) (definition : ColumnDefinition) (address : Nat)
    (type : TypeData) : Column where
  address := address
  simpleName := identifierOf env definition.name .variable
  type := type
  description := analyzeDescription env definition.description

section Column

variable {tableName : String} {d r : ColumnsDraft} {definition : ColumnDefinition}
  {s t : AnalyzerState ρ}

theorem processColumnDefinition_yields :
    processColumnDefinition env tableName d definition s = (some r, t) ↔
      ∃ type u x, analyzeType env definition.type s = (some type, u) ∧
        identifierOf env definition.name .variable ∉ d.columns.map Column.simpleName ∧
        processColumnConstraints env ⟨newColumn env definition u.fresh type, false, d.primaryKey⟩
          definition.constraints { u with fresh := u.fresh + 1 } = (some x, t) ∧
        r = ⟨d.columns ++ [x.prototype], x.primaryKey⟩ := by
  simp only [processColumnDefinition, Check.bind_yields]
  constructor
  · rintro ⟨type, u, htype, hrest⟩
    split_ifs at hrest with hname
    · simp at hrest
    · simp only [freshNumber, Check.bind_yields, Check.get_yields, Check.modify_yields,
        Check.pure_yields] at hrest
      obtain ⟨_, _, ⟨_, _, ⟨rfl, rfl⟩, -, _, rfl, rfl, rfl⟩, x, v, hx, rfl, rfl⟩ := hrest
      exact ⟨type, u, x, htype, hname, hx, rfl⟩
  · rintro ⟨type, u, x, htype, hname, hx, rfl⟩
    refine ⟨type, u, htype, ?_⟩
    rw [if_neg hname]
    simp only [freshNumber, Check.bind_yields, Check.get_yields, Check.modify_yields,
      Check.pure_yields]
    exact ⟨u.fresh, _, ⟨u, u, ⟨rfl, rfl⟩, (), _, rfl, rfl, rfl⟩, x, t, hx, rfl, rfl⟩

/-- One more column of a well formed draft. -/
theorem processColumnDefinition_wellFormed
    (h : processColumnDefinition env tableName d definition s = (some r, t))
    (hs : s.Sound) (hd : d.WellFormed s.fresh) :
    t.Sound ∧ s.fresh ≤ t.fresh ∧ r.WellFormed t.fresh ∧
      ∃ c, r.columns = d.columns ++ [c] ∧ s.fresh ≤ c.address ∧
        c.simpleName = identifierOf env definition.name .variable := by
  obtain ⟨type, u, x, htype, hname, hx, rfl⟩ := processColumnDefinition_yields.mp h
  have hu : Grows s u := analyzeType_quiet env _ htype
  obtain ⟨husound, hufresh⟩ := hu hs
  have hnumber : Grows u { u with fresh := u.fresh + 1 } := Numbering.number u
  obtain ⟨ht, htfresh⟩ := processColumnConstraints_grows _ _ hx (hnumber husound).1
  have hx := processColumnConstraints_prototype hx
  have haddress : x.prototype.address = u.fresh := by rw [hx]; rfl
  have hsimple : x.prototype.simpleName = identifierOf env definition.name .variable := by
    rw [hx]; rfl
  have hlt : u.fresh < t.fresh := htfresh
  refine ⟨ht, by omega, ⟨fun c hc => ?_, ?_, ?_, fun c hc => ?_⟩, x.prototype, rfl,
    by omega, hsimple⟩
  · obtain hc | hc := List.mem_append.mp hc
    · have := hd.below c hc
      omega
    · rw [List.mem_singleton.mp hc]
      omega
  · rw [List.map_append, List.map_singleton, ← List.concat_eq_append, List.nodup_concat]
    refine ⟨fun hmem => ?_, hd.addresses⟩
    obtain ⟨c, hc, hceq⟩ := List.mem_map.mp hmem
    have := hd.below c hc
    omega
  · rw [List.map_append, List.map_singleton, ← List.concat_eq_append, List.nodup_concat, hsimple]
    exact ⟨hname, hd.names⟩
  · obtain hc | hc := List.mem_append.mp hc
    · exact hd.exported c hc
    · rw [List.mem_singleton.mp hc, hx]
      exact ⟨rfl, rfl⟩

/-- A key column is not nullable. -/
def requireKey (address : Nat) (c : Column) : Column :=
  if c.address = address then { c with nullable := false } else c

@[simp] theorem requireKey_simpleName (address : Nat) (c : Column) :
    (requireKey address c).simpleName = c.simpleName := by
  unfold requireKey
  split_ifs <;> rfl

@[simp] theorem requireKey_address (address : Nat) (c : Column) :
    (requireKey address c).address = c.address := by
  unfold requireKey
  split_ifs <;> rfl

/-- The columns of a draft when one of them was made the primary key. -/
def ColumnsDraft.keyed (d : ColumnsDraft) (address : Nat) : ColumnsDraft :=
  ⟨d.columns.map (requireKey address), some address⟩

theorem processColumnDefinition_keyed (hd : d.primaryKey = none) {address : Nat}
    (ha : address < s.fresh) :
    processColumnDefinition env tableName (d.keyed address) definition s = (some r, t) ↔
      ∃ r', processColumnDefinition env tableName d definition s = (some r', t) ∧
        r'.primaryKey = none ∧ r = r'.keyed address := by
  have hnames : (d.keyed address).columns.map Column.simpleName = d.columns.map Column.simpleName := by
    rw [ColumnsDraft.keyed, List.map_map]
    exact List.map_congr_left fun c _ => requireKey_simpleName address c
  -- the new column is numbered later than the key
  have hnew {type : TypeData} {u : AnalyzerState ρ} {x : ColumnDraft}
      (htype : analyzeType env definition.type s = (some type, u))
      (hx : processColumnConstraints env ⟨newColumn env definition u.fresh type, false, none⟩
        definition.constraints { u with fresh := u.fresh + 1 } = (some x, t)) :
      requireKey address x.prototype = x.prototype := by
    have hquiet : Quiet s u := analyzeType_quiet env _ htype
    have hfresh := hquiet.fresh
    rw [requireKey, if_neg]
    rw [processColumnConstraints_prototype hx]
    change u.fresh ≠ address
    omega
  simp only [processColumnDefinition_yields, hnames, hd]
  constructor
  · rintro ⟨type, u, x, htype, hname, hx, rfl⟩
    obtain ⟨x, hx', hkey, rfl⟩ :=
      (processColumnConstraints_keyed (d := ⟨_, false, none⟩) rfl address).mp hx
    refine ⟨_, ⟨type, u, x, htype, hname, hx', rfl⟩, hkey, ?_⟩
    rw [ColumnsDraft.keyed, ColumnsDraft.keyed, List.map_append, List.map_singleton,
      hnew htype hx']
    rfl
  · rintro ⟨_, ⟨type, u, x, htype, hname, hx, rfl⟩, hkey, rfl⟩
    refine ⟨type, u, x.keyed address, htype, hname,
      (processColumnConstraints_keyed (d := ⟨_, false, none⟩) rfl address).mpr ⟨x, hx, hkey, rfl⟩, ?_⟩
    rw [ColumnsDraft.keyed, ColumnsDraft.keyed, List.map_append, List.map_singleton,
      hnew htype hx]
    rfl

/-- A column that is declared the primary key, against the column without that. -/
theorem processColumnDefinition_insert {before after : List Constraint} {key : KeyConstraint}
    (hd : d.WellFormed s.fresh) :
    processColumnDefinition env tableName d
        { definition with constraints := before ++ .primaryKey key :: after } s = (some r, t) ↔
      ∃ r', processColumnDefinition env tableName d
          { definition with constraints := before ++ after } s = (some r', t) ∧
        r'.primaryKey = none ∧ .null ∉ before ++ after ∧
        ∃ c ∈ r'.columns, s.fresh ≤ c.address ∧
          c.simpleName = identifierOf env definition.name .variable ∧ r = r'.keyed c.address := by
  have hnull (type : TypeData) (address : Nat) (primaryKey : Option Nat) :
      ¬ ColumnDraft.SaysNull ⟨newColumn env definition address type, false, primaryKey⟩ :=
    fun h => by cases h.1
  have hsame (constraints : List Constraint) :
      newColumn env { definition with constraints := constraints } = newColumn env definition := rfl
  have hkeep {c : Column} (hc : c ∈ d.columns) {address : Nat} (ha : s.fresh ≤ address) :
      requireKey address c = c := by
    have := hd.below c hc
    rw [requireKey, if_neg (by omega)]
  have hkeyed {x : ColumnDraft} (ha : s.fresh ≤ x.prototype.address) :
      (⟨d.columns ++ [x.setPrimaryKey.prototype], x.setPrimaryKey.primaryKey⟩ : ColumnsDraft) =
        ColumnsDraft.keyed ⟨d.columns ++ [x.prototype], x.primaryKey⟩ x.prototype.address := by
    rw [ColumnsDraft.keyed, List.map_append, List.map_singleton,
      List.map_congr_left fun c hc => hkeep hc ha, List.map_id', requireKey, if_pos rfl]
    rfl
  have haddress {type : TypeData} {u : AnalyzerState ρ} {x : ColumnDraft}
      (htype : analyzeType env definition.type s = (some type, u))
      (hx : processColumnConstraints env ⟨newColumn env definition u.fresh type, false, d.primaryKey⟩
        (before ++ after) { u with fresh := u.fresh + 1 } = (some x, t)) :
      s.fresh ≤ x.prototype.address ∧
        x.prototype.simpleName = identifierOf env definition.name .variable := by
    have hquiet : Quiet s u := analyzeType_quiet env _ htype
    rw [processColumnConstraints_prototype hx]
    exact ⟨hquiet.fresh, rfl⟩
  simp only [processColumnDefinition_yields, hsame, processColumnConstraints_insert (hnull _ _ _)]
  constructor
  · rintro ⟨type, u, x, htype, hname, ⟨x, hx, hkey, hnull, rfl⟩, rfl⟩
    obtain ⟨ha, hsimple⟩ := haddress htype hx
    exact ⟨_, ⟨type, u, x, htype, hname, hx, rfl⟩, hkey, hnull, x.prototype,
      List.mem_append_right _ List.mem_cons_self, ha, hsimple, hkeyed ha⟩
  · rintro ⟨_, ⟨type, u, x, htype, hname, hx, rfl⟩, hkey, hnull, c, hc, ha, hsimple, rfl⟩
    obtain ⟨hx', -⟩ := haddress htype hx
    obtain hold | hnew := List.mem_append.mp hc
    · have := hd.below c hold
      omega
    · obtain rfl := List.mem_singleton.mp hnew
      exact ⟨type, u, x.setPrimaryKey, htype, hname, ⟨x, hx, hkey, hnull, rfl⟩, (hkeyed ha).symm⟩

theorem processColumnDefinition_primaryKey
    (h : processColumnDefinition env tableName d definition s = (some r, t)) :
    r.primaryKey = none ↔
      d.primaryKey = none ∧ ∀ c ∈ definition.constraints, ¬ Constraint.IsPrimaryKey c := by
  obtain ⟨type, u, x, -, -, hx, rfl⟩ := processColumnDefinition_yields.mp h
  exact processColumnConstraints_primaryKey hx

end Column

section Columns

variable {tableName : String} {d r : ColumnsDraft} {elements : List TableElement}
  {s t : AnalyzerState ρ}

/-- The element declares a primary key. -/
def DeclaresKey : TableElement → Prop
  | .columnDefinition definition => ∃ c ∈ definition.constraints, Constraint.IsPrimaryKey c
  | .constraintDefinition body => Constraint.IsPrimaryKey body

/-- The element is a constraint of the table. -/
def isConstraint : TableElement → Bool
  | .columnDefinition _ => false
  | .constraintDefinition _ => true

theorem processColumnDefinitions_append (d : ColumnsDraft) (left right : List TableElement) :
    processColumnDefinitions env tableName d (left ++ right) =
      processColumnDefinitions env tableName d left >>= fun d =>
        processColumnDefinitions env tableName d right := by
  induction left generalizing d with
  | nil => rfl
  | cons element left ih =>
    cases element with
    | columnDefinition definition =>
      simp only [List.cons_append, processColumnDefinitions, ih, bind_assoc]
    | constraintDefinition body => exact ih d

theorem processColumnDefinitions_wellFormed
    (h : processColumnDefinitions env tableName d elements s = (some r, t)) (hs : s.Sound)
    (hd : d.WellFormed s.fresh) :
    t.Sound ∧ s.fresh ≤ t.fresh ∧ r.WellFormed t.fresh ∧ d.columns ⊆ r.columns := by
  induction elements generalizing d s with
  | nil =>
    obtain ⟨rfl, rfl⟩ := (Check.pure_yields ..).mp h
    exact ⟨hs, le_rfl, hd, List.Subset.refl _⟩
  | cons element elements ih =>
    cases element with
    | columnDefinition definition =>
      obtain ⟨d', u, hdefinition, hrest⟩ := (Check.bind_yields ..).mp h
      obtain ⟨hu, hfresh, hd', c, hcolumns, -⟩ :=
        processColumnDefinition_wellFormed hdefinition hs hd
      obtain ⟨ht, hfresh', hr, hsubset⟩ := ih hrest hu hd'
      refine ⟨ht, hfresh.trans hfresh', hr, fun column hcolumn => hsubset ?_⟩
      rw [hcolumns]
      exact List.mem_append_left _ hcolumn
    | constraintDefinition body => exact ih h hs hd

theorem processColumnDefinitions_primaryKey
    (h : processColumnDefinitions env tableName d elements s = (some r, t)) :
    r.primaryKey = none ↔ d.primaryKey = none ∧
      ∀ e ∈ elements, isConstraint e = false → ¬ DeclaresKey e := by
  induction elements generalizing d s with
  | nil =>
    obtain ⟨rfl, -⟩ := (Check.pure_yields ..).mp h
    simp
  | cons element elements ih =>
    cases element with
    | columnDefinition definition =>
      obtain ⟨d', u, hdefinition, hrest⟩ := (Check.bind_yields ..).mp h
      rw [ih hrest, processColumnDefinition_primaryKey hdefinition, List.forall_mem_cons, and_assoc]
      simp [isConstraint, DeclaresKey]
    | constraintDefinition body =>
      rw [ih h, List.forall_mem_cons]
      simp [isConstraint]

theorem processColumnDefinitions_keyed (hd : d.primaryKey = none) (hs : s.Sound)
    (hwf : d.WellFormed s.fresh) {address : Nat} (ha : address < s.fresh) :
    processColumnDefinitions env tableName (d.keyed address) elements s = (some r, t) ↔
      ∃ r', processColumnDefinitions env tableName d elements s = (some r', t) ∧
        r'.primaryKey = none ∧ r = r'.keyed address := by
  induction elements generalizing d s with
  | nil =>
    simp only [processColumnDefinitions, Check.pure_yields]
    constructor
    · rintro ⟨rfl, rfl⟩
      exact ⟨d, ⟨rfl, rfl⟩, hd, rfl⟩
    · rintro ⟨_, ⟨rfl, rfl⟩, -, rfl⟩
      exact ⟨rfl, rfl⟩
  | cons element elements ih =>
    cases element with
    | columnDefinition definition =>
      simp only [processColumnDefinitions, Check.bind_yields, processColumnDefinition_keyed hd ha]
      constructor
      · rintro ⟨_, u, ⟨d', hdefinition, hd', rfl⟩, hrest⟩
        obtain ⟨hu, hfresh, hwf', -⟩ := processColumnDefinition_wellFormed hdefinition hs hwf
        obtain ⟨r', hrest', hr'⟩ := (ih hd' hu hwf' (by omega)).mp hrest
        exact ⟨r', ⟨d', u, hdefinition, hrest'⟩, hr'⟩
      · rintro ⟨r', ⟨d', u, hdefinition, hrest⟩, hr', rfl⟩
        obtain ⟨hu, hfresh, hwf', -⟩ := processColumnDefinition_wellFormed hdefinition hs hwf
        have hd' := ((processColumnDefinitions_primaryKey hrest).mp hr').1
        exact ⟨_, u, ⟨d', hdefinition, hd', rfl⟩,
          (ih hd' hu hwf' (by omega)).mpr ⟨r', hrest, hr', rfl⟩⟩
    | constraintDefinition body => exact ih hd hs hwf ha

/-- All columns of a table, one of which is declared the primary key, against the columns without
that. -/
theorem processColumnDefinitions_insert {pre post : List TableElement}
    {definition : ColumnDefinition} {before after : List Constraint} {key : KeyConstraint}
    (hs : s.Sound) (hd : d.WellFormed s.fresh) :
    processColumnDefinitions env tableName d (pre ++ .columnDefinition
        { definition with constraints := before ++ .primaryKey key :: after } :: post) s =
        (some r, t) ↔
      ∃ r', processColumnDefinitions env tableName d (pre ++ .columnDefinition
          { definition with constraints := before ++ after } :: post) s = (some r', t) ∧
        r'.primaryKey = none ∧ .null ∉ before ++ after ∧
        ∃ c ∈ r'.columns, c.simpleName = identifierOf env definition.name .variable ∧
          r = r'.keyed c.address := by
  simp only [processColumnDefinitions_append, processColumnDefinitions, Check.bind_yields]
  constructor
  · rintro ⟨d₁, u, hpre, d₂, v, hcolumn, hpost⟩
    obtain ⟨hu, -, hwf₁, -⟩ := processColumnDefinitions_wellFormed hpre hs hd
    obtain ⟨d', hbare, hkey₂, hnull, c, hc, ha, hsimple, rfl⟩ :=
      (processColumnDefinition_insert hwf₁).mp hcolumn
    obtain ⟨hv, -, hwf₂, -⟩ := processColumnDefinition_wellFormed hbare hu hwf₁
    obtain ⟨r', hrest, hkey, rfl⟩ :=
      (processColumnDefinitions_keyed hkey₂ hv hwf₂ (hwf₂.below c hc)).mp hpost
    obtain ⟨-, -, -, hsubset⟩ := processColumnDefinitions_wellFormed hrest hv hwf₂
    exact ⟨r', ⟨d₁, u, hpre, d', v, hbare, hrest⟩, hkey, hnull, c, hsubset hc, hsimple, rfl⟩
  · rintro ⟨r', ⟨d₁, u, hpre, d₂, v, hcolumn, hpost⟩, hkey, hnull, c, hc, hsimple, rfl⟩
    obtain ⟨hu, -, hwf₁, -⟩ := processColumnDefinitions_wellFormed hpre hs hd
    obtain ⟨hv, -, hwf₂, c', hcolumns, ha, hsimple'⟩ :=
      processColumnDefinition_wellFormed hcolumn hu hwf₁
    obtain ⟨-, -, hwf, hsubset⟩ := processColumnDefinitions_wellFormed hpost hv hwf₂
    have hmem : c' ∈ d₂.columns := by
      rw [hcolumns]
      exact List.mem_append_right _ List.mem_cons_self
    obtain rfl : c = c' :=
      List.inj_on_of_nodup_map hwf.names hc (hsubset hmem) (hsimple.trans hsimple'.symm)
    have hkey₂ := ((processColumnDefinitions_primaryKey hpost).mp hkey).1
    exact ⟨d₁, u, hpre, d₂.keyed c.address, v,
      (processColumnDefinition_insert hwf₁).mpr
        ⟨d₂, hcolumn, hkey₂, hnull, c, hmem, ha, hsimple, rfl⟩,
      (processColumnDefinitions_keyed hkey₂ hv hwf₂ (hwf₂.below c hmem)).mpr
        ⟨r', hpost, hkey, rfl⟩⟩

/-- The column of a definition is among the columns of the table. -/
theorem processColumnDefinitions_mem {pre post : List TableElement} {definition : ColumnDefinition}
    (h : processColumnDefinitions env tableName d
      (pre ++ .columnDefinition definition :: post) s = (some r, t))
    (hs : s.Sound) (hd : d.WellFormed s.fresh) :
    ∃ c ∈ r.columns, c.simpleName = identifierOf env definition.name .variable := by
  simp only [processColumnDefinitions_append, processColumnDefinitions, Check.bind_yields] at h
  obtain ⟨d₁, u, hpre, d₂, v, hcolumn, hpost⟩ := h
  obtain ⟨hu, -, hwf₁, -⟩ := processColumnDefinitions_wellFormed hpre hs hd
  obtain ⟨hv, -, hwf₂, c, hcolumns, -, hsimple⟩ := processColumnDefinition_wellFormed hcolumn hu hwf₁
  obtain ⟨-, -, -, hsubset⟩ := processColumnDefinitions_wellFormed hpost hv hwf₂
  refine ⟨c, hsubset ?_, hsimple⟩
  rw [hcolumns]
  exact List.mem_append_right _ List.mem_cons_self

end Columns

end Mizugaki.Analyzer
