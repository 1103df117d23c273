import Mizugaki.Analyzer.Capture
import Mizugaki.Analyzer.NameResolution
import Mizugaki.Declaration.Outcome

/-! An index key that is the name of a column. In the scope of a table alone the name of a
column designates this column, and the expression analyzer has its type, since the columns
of the table were bound when the scope was built. -/

namespace Mizugaki.Analyzer

open Mizugaki.Ast Mizugaki.Plan Mizugaki.Control

/-- One element of a list has its key, when the keys differ. -/
theorem filter_eq_singleton {α κ : Type} [DecidableEq κ] {f : α → κ} {l : List α} {a : α}
    (h : (l.map f).Nodup) (ha : a ∈ l) : l.filter (fun b => f b = f a) = [a] := by
  induction l with
  | nil => cases ha
  | cons b l ih =>
    rw [List.map_cons, List.nodup_cons] at h
    obtain rfl | ha := List.mem_cons.mp ha
    · have hnone : l.filter (fun b => f b = f a) = [] := by
        refine List.filter_eq_nil_iff.mpr fun b hb heq => h.1 ?_
        rw [← of_decide_eq_true heq]
        exact List.mem_map_of_mem hb
      rw [List.filter_cons_of_pos (by simp), hnone]
    · have hne : f b ≠ f a := fun heq => h.1 (heq ▸ List.mem_map_of_mem ha)
      rw [List.filter_cons_of_neg (by simpa using hne), ih h.2 ha]

variable {ρ : Type} {env : Environment ρ}

/-- What the expression analyzer promises of references: a variable that was bound to a column stays
resolved, and a reference to a resolved variable has a type. -/
structure ResolvesReferences (env : Environment ρ) : Prop where
  bound : ∀ r v column,
    env.expressionAnalyzer.isResolved (env.expressionAnalyzer.bindColumn r v column) v = true
  kept : ∀ r v column w, env.expressionAnalyzer.isResolved r w = true →
    env.expressionAnalyzer.isResolved (env.expressionAnalyzer.bindColumn r v column) w = true
  reference : ∀ r v validate, env.expressionAnalyzer.isResolved r v = true →
    ∃ type u, env.expressionAnalyzer.resolveScalar r (.variableReference v) validate =
      (⟨[], some type⟩, u)

/-- The columns of a relation of a table that is not scanned are the columns of the table. -/
def plainColumns (columns : List Column) : List ColumnInfo :=
  columns.map fun c => tableColumnInfo c (.tableColumn c)

theorem buildColumns_plain (h : ResolvesReferences env) {columns : List Column}
    (hcolumns : ∀ c ∈ columns, c.synthesized = false) (info : RelationInfo) (s : AnalyzerState ρ) :
    ∃ resolution, buildColumns env false false info columns s =
        (some (info.addAll (plainColumns columns)), { s with resolution := resolution }) ∧
      (∀ v, env.expressionAnalyzer.isResolved s.resolution v = true →
        env.expressionAnalyzer.isResolved resolution v = true) ∧
      ∀ c ∈ columns, env.expressionAnalyzer.isResolved resolution (.tableColumn c) = true := by
  induction columns generalizing info s with
  | nil => exact ⟨s.resolution, rfl, fun _ hv => hv, fun _ hc => nomatch hc⟩
  | cons c columns ih =>
    obtain ⟨hc, hrest⟩ := List.forall_mem_cons.mp hcolumns
    let bound := env.expressionAnalyzer.bindColumn s.resolution (.tableColumn c) c
    obtain ⟨resolution, hrun, hkept, hbound⟩ :=
      ih hrest (info.add (tableColumnInfo c (.tableColumn c))) { s with resolution := bound }
    refine ⟨resolution, ?_, fun v hv => hkept v (h.kept _ _ _ _ hv),
      List.forall_mem_cons.mpr ⟨hkept _ (h.bound ..), hbound⟩⟩
    rw [buildColumns, if_neg (by simp [hc])]
    exact hrun

/-- The relation of a table exports its one column of a name. -/
theorem exportedNamed_plain {columns : List Column}
    (hexported : ∀ c ∈ columns, c.hidden = false ∧ c.synthesized = false)
    (hnames : (columns.map Column.simpleName).Nodup) {c : Column} (hc : c ∈ columns)
    (info : RelationInfo) (hinfo : info.columns = []) :
    ((info.addAll (plainColumns columns)).exportedNamed c.simpleName).map ColumnInfo.variable_ =
      [.tableColumn c] := by
  let f : ColumnInfo → Bool × Option String × Variable :=
    fun ci => (ci.exported, ci.identifier, ci.variable_)
  have hmap : (info.addAll (plainColumns columns)).columns.map f = (plainColumns columns).map f := by
    rw [RelationInfo.addAll_map fun _ _ => rfl, hinfo]
    rfl
  have hfilter (l : List ColumnInfo) :
      ((l.filter ColumnInfo.exported).filter fun ci => ci.identifier = some c.simpleName).map
          ColumnInfo.variable_ =
        ((l.map f).filter fun x => x.1 && decide (x.2.1 = some c.simpleName)).map (·.2.2) := by
    rw [List.filter_map, List.map_map, List.filter_filter]
    congr 1
    exact List.filter_congr fun ci _ => Bool.and_comm ..
  rw [RelationInfo.exportedNamed, RelationInfo.exportedColumns, hfilter, hmap, ← hfilter]
  have hall : (plainColumns columns).filter ColumnInfo.exported = plainColumns columns := by
    refine List.filter_eq_self.mpr fun ci hci => ?_
    obtain ⟨c', hc', rfl⟩ := List.mem_map.mp hci
    simp [tableColumnInfo, hexported c' hc']
  rw [hall, plainColumns, List.filter_map, List.map_map]
  have hone := filter_eq_singleton hnames hc
  have hsame : columns.filter ((fun ci => decide (ci.identifier = some c.simpleName)) ∘
      fun c => tableColumnInfo c (.tableColumn c)) = [c] := by
    rw [← hone]
    refine List.filter_congr fun b _ => ?_
    simp [tableColumnInfo]
  rw [hsame]
  rfl

/-- The name of a column of the only relation of the innermost scope designates this column. -/
theorem analyzeVariableName_plain {columns : List Column}
    (hexported : ∀ c ∈ columns, c.hidden = false ∧ c.synthesized = false)
    (hnames : (columns.map Column.simpleName).Nodup) {c : Column} (hc : c ∈ columns)
    {name : SimpleName} (hname : identifierOf env name .variable = c.simpleName)
    {info : RelationInfo} (hinfo : info.columns = []) (s : AnalyzerState ρ) :
    let scope := QueryScope.empty.add (info.addAll (plainColumns columns))
    analyzeVariableName env (.simple name) (s.enter scope) =
      (some (.variableReference (.tableColumn c)), s.enter scope) := by
  intro scope
  have hcolumns : (scope.exportedNamed c.simpleName).map ColumnInfo.variable_ = [.tableColumn c] := by
    have h := exportedNamed_plain hexported hnames hc info hinfo
    simpa [scope, QueryScope.exportedNamed, QueryScope.add, QueryScope.empty] using h
  obtain ⟨ci, hci, hvariable⟩ := List.map_eq_singleton_iff.mp hcolumns
  have hinnermost : Innermost (Exports (identifierOf env name .variable)) (scope :: s.scopes) 0
      scope := by
    refine innermost_zero ?_
    rw [Exports, hname, hci]
    simp
  have hsymbol := findSymbol_simple_innermost (s := s.enter scope) hinnermost
  rw [hname, hci] at hsymbol
  simp only [analyzeVariableName, Check.bind_run, Check.gets, AnalyzerState.enter] at hsymbol ⊢
  rw [hsymbol, hvariable]
  rfl

/-- A reference to a resolved variable passes the validation of scalar expressions. -/
theorem process_reference (h : ResolvesReferences env) {name : Name} {v : Variable}
    {s : AnalyzerState ρ} (hrun : analyzeVariableName env name s = (some (.variableReference v), s))
    (hv : env.expressionAnalyzer.isResolved s.resolution v = true) :
    ∃ resolution, process env (analyzeVariableName env name) s =
      (some (.variableReference v), { s with resolution := resolution }) := by
  simp only [process, Check.bind_yields]
  by_cases hvalidate : env.options.validateScalarExpressions = true
  · obtain ⟨type, u, hresolve⟩ := h.reference s.resolution v true hv
    refine ⟨u, .variableReference v, s, hrun, ?_⟩
    rw [if_pos hvalidate]
    simp only [resolve, Check.bind_run, Check.get, Check.modify, hresolve, conclude]
    rfl
  · refine ⟨s.resolution, .variableReference v, s, hrun, ?_⟩
    rw [if_neg hvalidate]
    rfl

/-- A key element that is the name of a column. -/
def columnKey (name : SimpleName) : SortElement := .mk (.variableReference (.simple name)) none none none

/-- The name of a column is an index key in ascending order. -/
theorem buildIndexKeys_columnKey (h : ResolvesReferences env) {table : Table}
    (hexported : ∀ c ∈ table.columns, c.hidden = false ∧ c.synthesized = false)
    (hnames : (table.columns.map Column.simpleName).Nodup) {c : Column} (hc : c ∈ table.columns)
    {name : SimpleName} (hname : identifierOf env name .variable = c.simpleName)
    (s : AnalyzerState ρ) :
    ∃ t, buildIndexKeys env table [columnKey name] s = (some [(c, .ascendant)], t) := by
  obtain ⟨resolution, hbuild, -, hbound⟩ := buildColumns_plain h
    (fun c hc => (hexported c hc).2) (.empty (some (.table table)) "") s
  let s₁ : AnalyzerState ρ := { s with resolution := resolution, sawAggregate := false }
  have hempty : (RelationInfo.empty (some (.table table)) "").columns = [] := rfl
  have hreference := analyzeVariableName_plain hexported hnames hc hname hempty s₁
  obtain ⟨resolution', hprocess⟩ := process_reference h hreference (hbound c hc)
  let scope := QueryScope.empty.add ((RelationInfo.empty (some (.table table)) "").addAll
    (plainColumns table.columns))
  have hscalar : ∃ t, analyzeScalarExpression (scalar env (.variableReference (.simple name)))
      .unspecified ({ s with resolution := resolution }.enter scope) =
        (some (.variableReference (.tableColumn c), false), t) := by
    simp only [analyzeScalarExpression, Check.bind_run, Check.gets, Check.modify, scalar]
    simp only [s₁, AnalyzerState.enter] at hprocess
    simp only [AnalyzerState.enter, scope, hprocess]
    exact ⟨_, rfl⟩
  obtain ⟨t, hscalar⟩ := hscalar
  let u : AnalyzerState ρ := { t with
    resolution := env.expressionAnalyzer.unbind t.resolution (.variableReference (.tableColumn c)) }
  have hkeys : processIndexKeys env [] [columnKey name]
      ({ s with resolution := resolution }.enter scope) = (some [(c, .ascendant)], u) := by
    rw [columnKey, processIndexKeys, if_neg (by simp)]
    simp only [Check.bind_yields]
    refine ⟨_, t, hscalar, (), u, rfl, c, u, rfl, ?_⟩
    rw [if_neg (by simp)]
    exact (Check.bind_yields ..).mpr ⟨[], u, rfl, rfl⟩
  refine ⟨u.leave, ?_⟩
  unfold buildIndexKeys
  simp only [Check.bind_yields]
  exact ⟨_, _, hbuild, _, _, (withScope_yields ..).mpr ⟨u, hkeys, rfl, rfl⟩, rfl⟩

end Mizugaki.Analyzer
