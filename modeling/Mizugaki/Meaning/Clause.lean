import Mizugaki.Meaning.Block
import Mizugaki.Meaning.Hygiene
import Mizugaki.Ordering.Distinct

/-! The clauses of a query block, as the analyzer builds them. Each expression of a clause evaluates
to what it says, reads no stream that was numbered after GROUP BY, and gets a fresh stream for its
value; an asterisk stands for columns that are there already. -/

namespace Mizugaki.Plan

/-- A variable that is no stream from a number on. -/
def Variable.Older (n : ℕ) (v : Variable) : Prop := ∀ k, v = .stream k → k < n

end Mizugaki.Plan

namespace Mizugaki.Analyzer

open Mizugaki.Ast Mizugaki.Plan Mizugaki.Control Mizugaki.Relation

variable {ρ α : Type} {env : Environment ρ} {I : Interpretation α} {L : Logic α}

theorem Numbered.notMem_of_older {n m : ℕ} {vs : List Variable} (h : Numbered n m vs)
    {v : Variable} (hv : v.Older n) : v ∉ vs := by
  intro hmem
  obtain ⟨k, rfl, hk, -⟩ := h.between v hmem
  exact absurd (hv k rfl) (Nat.not_lt.mpr hk)

/-- The parameters that can be read in a sound chain are frame variables. -/
theorem SoundChain.own_isFrame {n : ℕ} {scopes : List QueryScope} (h : SoundChain n scopes)
    {v : Variable} (hv : v ∈ own scopes) : v.isFrame = true := by
  induction scopes with
  | nil => cases hv
  | cons scope parents ih =>
    rw [own] at hv
    split_ifs at hv with hi hc
    · cases hv
    · obtain ⟨p, hp, rfl⟩ := List.mem_map.mp hv
      exact (h.1.frames p hp).1
    · exact ih h.2 hv

/-- The columns of a scope were numbered before it was left as it is; what else can be mentioned is
no stream. -/
theorem older_of_legible {base s : AnalyzerState ρ} (hbase : base.Sound) (hs : s.Sound)
    (h : Extends base s) {n : ℕ} {v : Variable} (hv : Legible s.scopes n v) :
    v.Older base.fresh := by
  rintro k rfl
  obtain (hcolumn | hown) | ⟨x, hx⟩ | ⟨j, -, hj⟩ := hv
  · have hsame : s.scope.variables = base.scope.variables := h.scopes.headD.columns
    have hmem : Variable.stream k ∈ base.scope.variables := hsame ▸ hcolumn
    exact hbase.chain.below (.inl (.inl hmem) : Legible base.scopes base.fresh (.stream k))
  · cases hs.chain.own_isFrame hown
  · cases hx
  · cases hj

/-! ### Expressions -/

/-- An expression of a clause: it has the value that the clause says, and reads only what was there
before a number. -/
structure Prepared (n : ℕ) (I : Interpretation α) (x : Scalar) (f : Meaning α) : Prop where
  evaluates : Evaluates I x f
  older : x.AllVariables (Variable.Older n)
  avoids : x.ArgumentsAvoid []

theorem AnalyzerState.Sound.unmarked {s : AnalyzerState ρ} (h : s.Sound) : s.unmarked.Sound :=
  ⟨h.chain, h.hidden⟩

/-- The expression is analyzed with the mark off, and the one from before is put back. -/
theorem analyzeScalarExpression_runs {a : ScalarAction ρ} {context : ValueContext}
    {s t : AnalyzerState ρ} {x : Scalar} {saw : Bool}
    (h : analyzeScalarExpression a context s = (some (x, saw), t)) :
    ∃ u, a context s.unmarked = (some x, u) ∧ t = { u with sawAggregate := s.sawAggregate } := by
  simp only [analyzeScalarExpression, Check.bind_yields, Check.gets_yields, Check.modify_yields,
    Check.pure_yields, Prod.mk.injEq] at h
  obtain ⟨_, _, ⟨rfl, rfl⟩, -, _, rfl, value, u, ha, _, _, ⟨rfl, rfl⟩, -, _, rfl, ⟨rfl, rfl⟩, rfl⟩ := h
  exact ⟨u, ha, rfl⟩

/-- What an expression of a clause is worth, and the state after it. -/
structure Expressed (env : Environment ρ) (I : Interpretation α) (L : Logic α)
    (base : AnalyzerState ρ) (e : ScalarExpression) (s t : AnalyzerState ρ) (x : Scalar)
    (f : Meaning α) : Prop where
  denotes : denote I L env e .unspecified s.unmarked = some f
  prepared : Prepared base.fresh I x f
  sound : t.Sound
  frame : Extends s t

theorem expressed (hI : I.Documented L) {base s t : AnalyzerState ρ} {e : ScalarExpression}
    {x : Scalar} {saw : Bool} (hbase : base.Sound) (hs : s.Sound) (hframe : Extends base s)
    (h : analyzeScalarExpression (scalar env e) .unspecified s = (some (x, saw), t)) :
    ∃ f, Expressed env I L base e s t x f := by
  have hreads := analyzeScalarExpression_reads ((scoping env).scalar e) h
  have ht := hreads.sound hs
  obtain ⟨u, hrun, -⟩ := analyzeScalarExpression_runs h
  obtain ⟨f, hf, hx⟩ := (valued_induction hI).scalar e .unspecified hs.unmarked hrun
  have hhygienic := hygiene_induction.scalar e .unspecified hs.unmarked hrun
  refine ⟨f, hf, ⟨hx, ?_, ?_⟩, ht, hreads.frame hs⟩
  · exact (hreads.scoped hs).1.mono fun v hv =>
      older_of_legible hbase ht (hframe.trans (hreads.frame hs)) hv
  · exact (hhygienic.hygienic x List.mem_cons_self).avoids [] fun v hv => by cases hv

/-! ### Projections -/

/-- The columns of a projection that were added between two states. -/
structure Projected (n : ℕ) (I : Interpretation α) (s t : AnalyzerState ρ)
    (columns : List (Variable × Scalar)) : Prop where
  sound : t.Sound
  frame : Extends s t
  names : Numbered s.fresh t.fresh (columns.map Prod.fst)
  prepared : ∀ c ∈ columns, ∃ f, Prepared n I c.2 f

namespace Projected

variable {n : ℕ} {s t u : AnalyzerState ρ} {columns columns' : List (Variable × Scalar)}

theorem nil (h : Extends s t) (ht : t.Sound) : Projected n I s t [] :=
  ⟨ht, h, .nil _ _, fun _ hc => by cases hc⟩

theorem trans (h : Projected n I s t columns) (k : Projected n I t u columns') :
    Projected n I s u (columns ++ columns') where
  sound := k.sound
  frame := h.frame.trans k.frame
  names := by
    rw [List.map_append]
    exact h.names.append k.names h.frame.fresh k.frame.fresh
  prepared := List.forall_mem_append.mpr ⟨h.prepared, k.prepared⟩

theorem trans_quiet (h : Projected n I s t columns) (k : Quiet t u) :
    Projected n I s u columns where
  sound := h.sound.of_quiet k
  frame := h.frame.trans k.extends
  names := h.names.widen le_rfl k.fresh
  prepared := h.prepared

/-- One expression, and a fresh variable for it. -/
theorem single {x : Scalar} {f : Meaning α} {v : Variable} (ht : t.Sound) (hst : Extends s t)
    (hx : Prepared n I x f) (hv : streamVariable t = (some v, u)) :
    Projected n I s u [(v, x)] := by
  have hquiet : Quiet t u := streamVariable_quiet hv
  obtain ⟨rfl, rfl⟩ := (streamVariable_yields ..).mp hv
  exact ⟨ht.of_quiet hquiet, hst.trans hquiet.extends,
    (Numbered.single t.fresh).widen hst.fresh le_rfl,
    List.forall_mem_singleton.mpr ⟨f, hx⟩⟩

end Projected

/-! ### The select list -/

/-- An output column: that of an expression, or one that was there before. -/
def Output (n : ℕ) (I : Interpretation α) (columns : List (Variable × Scalar)) (v : Variable)
    (f : Meaning α) : Prop :=
  (∃ x, (v, x) ∈ columns ∧ Prepared n I x f) ∨ (v.Older n ∧ f = fun _ row => row v)

theorem Output.mono {n : ℕ} {columns columns' : List (Variable × Scalar)}
    (hcolumns : columns ⊆ columns') {v : Variable} {f : Meaning α} (h : Output n I columns v f) :
    Output n I columns' v f :=
  h.imp_left fun ⟨x, hx, hf⟩ => ⟨x, hcolumns hx, hf⟩

/-- What an element of a select list adds: columns of the projection, and output columns. -/
structure Selected (n : ℕ) (I : Interpretation α) (l l' : SelectList) (s t : AnalyzerState ρ)
    (fs : List (Meaning α)) (added : List (Variable × Scalar)) (vs : List Variable) : Prop where
  projected : Projected n I s t added
  columns : l'.columns = l.columns ++ added
  relation : l'.info.variables = l.info.variables ++ vs
  outputs : List.Forall₂ (Output n I added) vs fs

/-- An asterisk adds output columns that were there before. -/
theorem Selected.columnMeanings {base s t : AnalyzerState ρ} {l : SelectList}
    {columns : List ColumnInfo} (ht : t.Sound) (hst : Extends s t)
    (hcolumns : ∀ c ∈ columns, c.variable_.Older base.fresh) :
    Selected base.fresh I l { l with info := l.info.addAll columns } s t
      (Analyzer.columnMeanings columns) [] (columns.map ColumnInfo.variable_) where
  projected := .nil hst ht
  columns := (List.append_nil _).symm
  relation := addAll_variables l.info columns
  outputs := by
    rw [Analyzer.columnMeanings, List.forall₂_map_left_iff, List.forall₂_map_right_iff,
      List.forall₂_same]
    exact fun c hc => .inr ⟨hcolumns c hc, rfl⟩

theorem afterColumn_eq {e : ScalarExpression} {s t u : AnalyzerState ρ} {x : Scalar × Bool}
    {v : Variable} (hx : analyzeScalarExpression (scalar env e) .unspecified s = (some x, t))
    (hv : streamVariable t = (some v, u)) : afterColumn env e s = u := by
  rw [afterColumn, hx, hv]

theorem processSelectColumn_selected (hI : I.Documented L) {base s t : AnalyzerState ρ}
    {value : ScalarExpression} {name : Option SimpleName} {l l' : SelectList} (hbase : base.Sound)
    (hs : s.Sound) (hframe : Extends base s)
    (h : processSelectColumn env value (scalar env value) name l s = (some l', t)) :
    ∃ f added vs, denote I L env value .unspecified s.unmarked = some f ∧
      afterColumn env value s = t ∧ Selected base.fresh I l l' s t [f] added vs := by
  simp only [processSelectColumn, Check.bind_yields, Check.pure_yields] at h
  obtain ⟨⟨x, saw⟩, u, hx, v, w, hv, rfl, rfl⟩ := h
  obtain ⟨f, hexpressed⟩ := expressed hI hbase hs hframe hx
  refine ⟨f, [(v, x)], [v], hexpressed.denotes, afterColumn_eq hx hv,
    .single hexpressed.sound hexpressed.frame hexpressed.prepared hv, rfl, ?_,
    .cons (.inl ⟨x, List.mem_cons_self, hexpressed.prepared⟩) .nil⟩
  exact addAll_variables l.info
    [{ variable_ := v, identifier := some (selectColumnName env value name) }]

/-- An element of a select list, with what it says. -/
theorem selectElement_selected (hI : I.Documented L) {base s t : AnalyzerState ρ}
    {e : SelectElement} {l l' : SelectList} (hbase : base.Sound) (hs : s.Sound)
    (hframe : Extends base s) (h : selectElement env e l s = (some l', t)) :
    ∃ fs added vs, denoteElement env I L e s = some fs ∧ afterElement env e s = t ∧
      Selected base.fresh I l l' s t fs added vs := by
  cases e with
  | selectColumn value name =>
    rw [selectElement] at h
    obtain ⟨f, added, vs, hf, ht, hselected⟩ := processSelectColumn_selected hI hbase hs hframe h
    exact ⟨[f], added, vs, by rw [denoteElement, hf]; rfl, ht, hselected⟩
  | selectAsterisk qualifier =>
    rw [selectElement] at h
    have holder : ∀ r ∈ s.scope.relations, ∀ c ∈ r.exportedColumns,
        c.variable_.Older base.fresh := by
      intro r hr c hc
      refine older_of_legible (n := s.fresh) hbase hs hframe (.inl (.inl ?_))
      exact QueryScope.mem_variables hr (exportedColumns_variables r (List.mem_map_of_mem hc))
    cases qualifier with
    | none =>
      simp only [processSelectAsterisk, Check.bind_yields, currentScope_yields] at h
      obtain ⟨_, _, ⟨rfl, rfl⟩, h⟩ := h
      generalize hcolumns : s.scope.relations.flatMap RelationInfo.exportedColumns = columns at h
      cases columns with
      | nil => cases h
      | cons column columns =>
        obtain ⟨rfl, rfl⟩ := (Check.pure_yields ..).mp h
        refine ⟨Analyzer.columnMeanings (column :: columns), [], _, ?_, rfl,
          .columnMeanings hs (.refl _) fun c hc => ?_⟩
        · rw [denoteElement, hcolumns]
        · rw [← hcolumns] at hc
          obtain ⟨r, hr, hc⟩ := List.mem_flatMap.mp hc
          exact holder r hr c hc
    | some q =>
      cases q with
      | variableReference name =>
        simp only [processSelectAsterisk, Check.bind_yields, Check.pure_yields] at h
        obtain ⟨found, u, hfound, rfl, rfl⟩ := h
        have hquiet : Quiet s u := analyzeRelationInfoName_quiet env _ hfound
        refine ⟨Analyzer.columnMeanings found.exportedColumns, [], _, ?_, ?_,
          .columnMeanings (hs.of_quiet hquiet) hquiet.extends
            (holder found (analyzeRelationInfoName_mem hfound))⟩
        · rw [denoteElement, hfound]
          rfl
        · rw [afterElement, hfound]
      | _ => cases h

theorem Selected.trans {n : ℕ} {l l' l'' : SelectList} {s t u : AnalyzerState ρ}
    {fs gs : List (Meaning α)} {added added' : List (Variable × Scalar)} {vs ws : List Variable}
    (h : Selected n I l l' s t fs added vs) (k : Selected n I l' l'' t u gs added' ws) :
    Selected n I l l'' s u (fs ++ gs) (added ++ added') (vs ++ ws) where
  projected := h.projected.trans k.projected
  columns := by rw [k.columns, h.columns, List.append_assoc]
  relation := by rw [k.relation, h.relation, List.append_assoc]
  outputs := List.rel_append
    (h.outputs.imp fun _ _ ho => ho.mono (List.subset_append_left _ _))
    (k.outputs.imp fun _ _ ho => ho.mono (List.subset_append_right _ _))

theorem selectElements_selected (hI : I.Documented L) {base s t : AnalyzerState ρ}
    {es : List SelectElement} {l l' : SelectList} (hbase : base.Sound) (hs : s.Sound)
    (hframe : Extends base s) (h : processSelectElements l (selectElements env es) s = (some l', t)) :
    ∃ fs added vs, denoteElements env I L es s = some fs ∧
      Selected base.fresh I l l' s t fs added vs := by
  induction es generalizing l s with
  | nil =>
    obtain ⟨rfl, rfl⟩ := (Check.pure_yields ..).mp h
    exact ⟨[], [], [], rfl, .nil (.refl _) hs, (List.append_nil _).symm,
      (List.append_nil _).symm, .nil⟩
  | cons e es ih =>
    simp only [selectElements, processSelectElements, Check.bind_yields] at h
    obtain ⟨middle, u, hmiddle, h⟩ := h
    obtain ⟨fs, added, vs, hfs, hu, hfirst⟩ := selectElement_selected hI hbase hs hframe hmiddle
    obtain ⟨gs, added', ws, hgs, hrest⟩ :=
      ih hfirst.projected.sound (hframe.trans hfirst.projected.frame) h
    refine ⟨fs ++ gs, added ++ added', vs ++ ws, ?_, hfirst.trans hrest⟩
    rw [denoteElements, hfs, hu, Option.bind_eq_bind, Option.bind_some, hgs]
    rfl

/-- The select list, with its output columns. -/
theorem processSelect_selected (hI : I.Documented L) {base s t : AnalyzerState ρ}
    {es : List SelectElement} {l : SelectList} (hbase : base.Sound) (hs : s.Sound)
    (hframe : Extends base s) (h : processSelect env (selectElements env es) s = (some l, t)) :
    ∃ fs, denoteElements env I L es s = some fs ∧ Projected base.fresh I s t l.columns ∧
      List.Forall₂ (Output base.fresh I l.columns) l.info.variables fs := by
  simp only [processSelect, Check.bind_yields, Check.pure_yields] at h
  obtain ⟨l', u, helements, _, v, hresolve, rfl, rfl⟩ := h
  obtain ⟨fs, added, vs, hfs, hselected⟩ := selectElements_selected hI hbase hs hframe helements
  have hcolumns := hselected.columns
  have hrelation := hselected.relation
  rw [List.nil_append] at hcolumns
  have hempty : (RelationInfo.empty : RelationInfo).variables = [] := rfl
  rw [hempty, List.nil_append] at hrelation
  rw [hcolumns, hrelation]
  exact ⟨fs, hfs, hselected.projected.trans_quiet (resolveOperator_quiet env _ rfl hresolve),
    hselected.outputs⟩

/-! ### ORDER BY -/

/-- A sort key: the column of an expression, in a direction. -/
def SortedBy (n : ℕ) (I : Interpretation α) (columns : List (Variable × Scalar))
    (key : Variable × SortDirection) (o : SortDirection × Meaning α) : Prop :=
  key.2 = o.1 ∧ ∃ x, (key.1, x) ∈ columns ∧ Prepared n I x o.2

theorem SortedBy.mono {n : ℕ} {columns columns' : List (Variable × Scalar)}
    (hcolumns : columns ⊆ columns') {key : Variable × SortDirection} {o : SortDirection × Meaning α}
    (h : SortedBy n I columns key o) : SortedBy n I columns' key o :=
  h.imp_right fun ⟨x, hx, hf⟩ => ⟨x, hcolumns hx, hf⟩

/-- What sort elements add: columns of the sort projection, and sort keys. -/
structure Sorted (n : ℕ) (I : Interpretation α) (l l' : SortList) (s t : AnalyzerState ρ)
    (os : List (SortDirection × Meaning α)) (added : List (Variable × Scalar))
    (ks : List (Variable × SortDirection)) : Prop where
  projected : Projected n I s t added
  columns : l'.columns = l.columns ++ added
  keys : l'.keys = l.keys ++ ks
  order : List.Forall₂ (SortedBy n I added) ks os

theorem processSortElement_sorted (hI : I.Documented L) {base s t : AnalyzerState ρ}
    {key : ScalarExpression} {collation : Option Name} {direction : Option OrderingSpecification}
    {nullLocation : Option NullOrderingSpecification} {l l' : SortList} (hbase : base.Sound)
    (hs : s.Sound) (hframe : Extends base s)
    (h : processSortElement (sortElement env (.mk key collation direction nullLocation)) l s =
      (some l', t)) :
    ∃ f added keys,
      denote I L env key .unspecified (reportNullLocation nullLocation s).2.unmarked = some f ∧
        afterColumn env key (reportNullLocation nullLocation s).2 = t ∧
          Sorted base.fresh I l l' s t [(convertOrdering direction, f)] added keys := by
  rw [sortElement] at h
  unfold processSortElement at h
  split_ifs at h
  · cases h
  · simp only [Check.bind_yields] at h
    obtain ⟨_, u, hreport, ⟨x, saw⟩, w, hx, h⟩ := h
    have hquiet : Quiet s u := reportNullLocation_quiet _ hreport
    have hu : (reportNullLocation nullLocation s).2 = u := by rw [hreport]
    rw [hu]
    obtain ⟨f, hexpressed⟩ :=
      expressed hI hbase (hs.of_quiet hquiet) (hframe.trans hquiet.extends) hx
    have hadd : ∀ {m}, (do
        let v ← streamVariable
        return { columns := l.columns ++ [(v, x)],
                 keys := l.keys ++ [(v, convertOrdering direction)],
                 sawAggregate := l.sawAggregate || saw } : Analysis ρ SortList) w = (some m, t) →
        ∃ f added keys, denote I L env key .unspecified u.unmarked = some f ∧
          afterColumn env key u = t ∧
            Sorted base.fresh I l m s t [(convertOrdering direction, f)] added keys := by
      intro m hm
      simp only [Check.bind_yields, Check.pure_yields] at hm
      obtain ⟨v, z, hv, rfl, rfl⟩ := hm
      exact ⟨f, [(v, x)], [(v, convertOrdering direction)], hexpressed.denotes,
        afterColumn_eq hx hv, .single hexpressed.sound (hquiet.extends.trans hexpressed.frame)
          hexpressed.prepared hv, rfl, rfl,
        .cons ⟨rfl, x, List.mem_cons_self, hexpressed.prepared⟩ .nil⟩
    cases x with
    | immediate => cases h
    | _ => exact hadd h

theorem Sorted.trans {n : ℕ} {l l' l'' : SortList} {s t u : AnalyzerState ρ}
    {order order' : List (SortDirection × Meaning α)} {added added' : List (Variable × Scalar)}
    {keys keys' : List (Variable × SortDirection)} (h : Sorted n I l l' s t order added keys)
    (k : Sorted n I l' l'' t u order' added' keys') :
    Sorted n I l l'' s u (order ++ order') (added ++ added') (keys ++ keys') where
  projected := h.projected.trans k.projected
  columns := by rw [k.columns, h.columns, List.append_assoc]
  keys := by rw [k.keys, h.keys, List.append_assoc]
  order := List.rel_append
    (h.order.imp fun _ _ ho => ho.mono (List.subset_append_left _ _))
    (k.order.imp fun _ _ ho => ho.mono (List.subset_append_right _ _))

theorem processSortElements_sorted (hI : I.Documented L) {base s t : AnalyzerState ρ}
    {es : List SortElement} {l l' : SortList} (hbase : base.Sound) (hs : s.Sound)
    (hframe : Extends base s) (h : processSortElements l (sortElements env es) s = (some l', t)) :
    ∃ order added keys, denoteOrder env I L es s = some order ∧
      Sorted base.fresh I l l' s t order added keys := by
  induction es generalizing l s with
  | nil =>
    obtain ⟨rfl, rfl⟩ := (Check.pure_yields ..).mp h
    exact ⟨[], [], [], rfl, .nil (.refl _) hs, (List.append_nil _).symm,
      (List.append_nil _).symm, .nil⟩
  | cons e es ih =>
    obtain ⟨key, collation, direction, nullLocation⟩ := e
    simp only [sortElements, processSortElements, Check.bind_yields] at h
    obtain ⟨middle, u, hmiddle, h⟩ := h
    obtain ⟨f, added, keys, hf, hu, hfirst⟩ :=
      processSortElement_sorted hI hbase hs hframe hmiddle
    obtain ⟨order, added', keys', horder, hrest⟩ :=
      ih hfirst.projected.sound (hframe.trans hfirst.projected.frame) h
    refine ⟨(convertOrdering direction, f) :: order, added ++ added', keys ++ keys', ?_,
      hfirst.trans hrest⟩
    simp only [denoteOrder, hf, hu, Option.bind_eq_bind, Option.bind_some, horder]
    rfl

/-- ORDER BY, with its keys; without it there are none. -/
theorem processOrderBy_sorted (hI : I.Documented L) {base s t : AnalyzerState ρ}
    {es : List SortElement} {sort : Option SortList} (hbase : base.Sound) (hs : s.Sound)
    (hframe : Extends base s) (h : processOrderBy env (sortElements env es) s = (some sort, t)) :
    ∃ order, denoteOrder env I L es s = some order ∧
      Projected base.fresh I s t (sortColumns sort) ∧
      List.Forall₂ (SortedBy base.fresh I (sortColumns sort)) (sortKeys sort) order := by
  cases es with
  | nil =>
    obtain ⟨rfl, rfl⟩ := (Check.pure_yields ..).mp h
    exact ⟨[], rfl, .nil (.refl _) hs, .nil⟩
  | cons e es =>
    have hne : sortElements env (e :: es) = sortElement env e :: sortElements env es := by
      rw [sortElements]
    rw [hne] at h
    simp only [processOrderBy, Check.bind_yields, Check.pure_yields] at h
    rw [← hne] at h
    obtain ⟨l, u, hl, _, v, hproject, _, w, hlimit, rfl, rfl⟩ := h
    obtain ⟨order, added, keys, horder, hsorted⟩ :=
      processSortElements_sorted hI hbase hs hframe hl
    have hcolumns := hsorted.columns
    have hkeys := hsorted.keys
    rw [List.nil_append] at hcolumns hkeys
    refine ⟨order, horder, ?_, ?_⟩
    · change Projected base.fresh I s w l.columns
      rw [hcolumns]
      exact (hsorted.projected.trans_quiet (resolveOperator_quiet env _ rfl hproject)).trans_quiet
        (resolveOperator_quiet env _ rfl hlimit)
    · change List.Forall₂ (SortedBy base.fresh I l.columns) l.keys order
      rw [hcolumns, hkeys]
      exact hsorted.order

/-! ### LIMIT -/

/-- A literal is a constant of its number when no type is asked for. -/
theorem analyzeLiteral_exactNumeric {sign : Option Sign} {n : ExactNumeric}
    {s t : AnalyzerState ρ} {x : Scalar}
    (h : analyzeLiteral env (.exactNumeric sign n) {} s = (some x, t)) :
    ∃ value type, x = .immediate value type ∧
      numberOf value = some (ExactNumeric.signedValue sign n) := by
  simp only [analyzeLiteral, processLiteral, Check.bind_yields, Check.pure_yields] at h
  obtain ⟨r, u, hr, rfl, -⟩ := h
  obtain ⟨hdigits, hscale⟩ := processExactNumeric_yields hr
  rw [processExactNumeric_run sign hdigits hscale] at hr
  cases hr
  exact ⟨_, _, rfl, (exactImmediate_eq sign n).1⟩

theorem extractIntValue_numberOf {value : ValueData} {k : Int}
    (h : extractIntValue value = some k) : numberOf value = some (k : ℚ) := by
  cases value <;> cases h <;> rfl

/-- The size of a constant is its number. -/
theorem extractSize_immediate {value : ValueData} {type : TypeData} {s t : AnalyzerState ρ} {n : ℕ}
    (h : extractSize env (.immediate value type) s = (some n, t)) :
    numberOf value = some (n : ℚ) := by
  simp only [extractSize, Check.bind_yields] at h
  obtain ⟨_, u, -, h⟩ := h
  rcases hvalue : extractIntValue value with _ | (k | k)
  · rw [hvalue] at h
    exact ((reject_yields ..).mp h).elim
  · rw [hvalue] at h
    obtain ⟨rfl, -⟩ := (Check.pure_yields ..).mp h
    exact extractIntValue_numberOf hvalue
  · rw [hvalue] at h
    exact ((reject_yields ..).mp h).elim

theorem processLimit_literal {sign : Option Sign} {n : ExactNumeric} {sorted : Bool}
    {count : Option ℕ} {s t : AnalyzerState ρ}
    (h : processLimit env (some (scalar env (.literalExpression (.exactNumeric sign n)))) sorted s =
      (some count, t)) :
    count.map (Nat.cast : ℕ → ℚ) = some (ExactNumeric.signedValue sign n) := by
  simp only [processLimit, Check.bind_yields] at h
  obtain ⟨⟨x, saw⟩, u, hx, k, v, hk, h⟩ := h
  obtain ⟨w, hliteral, -⟩ := analyzeScalarExpression_runs hx
  obtain ⟨w', hliteral, -⟩ := process_runs hliteral
  obtain ⟨value, type, rfl, hvalue⟩ := analyzeLiteral_exactNumeric hliteral
  have hcount : count = some k := by
    cases sorted with
    | true => exact ((Check.pure_yields ..).mp h).1.symm
    | false =>
      simp only [Bool.false_eq_true, if_false, Check.bind_yields, Check.pure_yields] at h
      obtain ⟨_, _, -, rfl, -⟩ := h
      rfl
  rw [hcount, Option.map_some, ← extractSize_immediate hk, hvalue]

end Mizugaki.Analyzer
