import Mizugaki.Meaning.Engine
import Mizugaki.Plan.Hygiene

/-! Local variables of accepted expressions. The lets that the analyzer introduces bind variables
that were not used before, each once, and nothing outside of a let reads what it binds; a set
function inside of one takes nothing of it. -/

namespace Mizugaki.Analyzer

open Mizugaki.Ast Mizugaki.Plan Mizugaki.Control

variable {ρ : Type} {env : Environment ρ}

/-- Different local variables that were numbered from `n` up to `m`. -/
structure LocalsBetween (n m : Nat) (vs : List Variable) : Prop where
  nodup : vs.Nodup
  between : ∀ v ∈ vs, ∃ k, v = .localVariable k ∧ n ≤ k ∧ k < m

namespace LocalsBetween

variable {n m l : Nat} {vs ws : List Variable}

theorem nil (n m : Nat) : LocalsBetween n m [] := ⟨.nil, fun _ hv => by cases hv⟩

theorem widen (h : LocalsBetween n m vs) {j : Nat} (hj : m ≤ j) : LocalsBetween n j vs :=
  ⟨h.nodup, fun v hv => by
    obtain ⟨k, rfl, hn, hm⟩ := h.between v hv
    exact ⟨k, rfl, hn, hm.trans_le hj⟩⟩

theorem append (h : LocalsBetween n m vs) (hw : LocalsBetween m l ws) (hnm : n ≤ m)
    (hml : m ≤ l) : LocalsBetween n l (vs ++ ws) where
  nodup := by
    refine List.nodup_append.mpr ⟨h.nodup, hw.nodup, fun v hv w hws heq => ?_⟩
    obtain ⟨i, rfl, -, hi⟩ := h.between v hv
    obtain ⟨j, rfl, hj, -⟩ := hw.between w hws
    cases heq
    omega
  between v hv := by
    obtain hv | hv := List.mem_append.mp hv
    · obtain ⟨k, rfl, hn, hm⟩ := h.between v hv
      exact ⟨k, rfl, hn, hm.trans_le hml⟩
    · obtain ⟨k, rfl, hm, hl⟩ := hw.between v hv
      exact ⟨k, rfl, hnm.trans hm, hl⟩

theorem perm (h : LocalsBetween n m vs) (hperm : ws.Perm vs) : LocalsBetween n m ws :=
  ⟨hperm.nodup_iff.mpr h.nodup, fun v hv => h.between v (hperm.mem_iff.mp hv)⟩

end LocalsBetween

/-- Between two states expressions were built that are hygienic, and local variables were numbered
for a let around them. -/
structure Hygiene (s t : AnalyzerState ρ) (vs : List Variable) (es : List Scalar) : Prop where
  counter : s.fresh ≤ t.fresh
  hygienic : ∀ e ∈ es, e.Hygienic []
  binds : LocalsBetween s.fresh t.fresh (vs ++ bindsList es)

namespace Hygiene

variable {s t u : AnalyzerState ρ} {vs ws : List Variable} {es es' : List Scalar} {x : Scalar}

theorem of_counter (h : s.fresh ≤ t.fresh) : Hygiene s t [] [] :=
  ⟨h, fun _ he => (by cases he), .nil _ _⟩

theorem trans (h : Hygiene s t vs es) (k : Hygiene t u ws es') :
    Hygiene s u (vs ++ ws) (es ++ es') where
  counter := h.counter.trans k.counter
  hygienic := List.forall_mem_append.mpr ⟨h.hygienic, k.hygienic⟩
  binds := by
    refine (h.binds.append k.binds h.counter k.counter).perm (List.perm_iff_count.mpr fun v => ?_)
    simp only [bindsList_append, List.count_append]
    omega

theorem quiet_trans (h : Quiet s t) (k : Hygiene t u vs es) : Hygiene s u vs es :=
  (of_counter h.fresh).trans k

theorem trans_quiet (h : Hygiene s t vs es) (k : Quiet t u) : Hygiene s u vs es :=
  { h with
    counter := h.counter.trans k.fresh
    binds := h.binds.widen k.fresh }

/-- A fresh local variable for a let. -/
theorem localVariable {v : Variable} (h : Hygiene s t vs es)
    (hv : Analyzer.localVariable t = (some v, u)) : Hygiene s u (vs ++ [v]) es := by
  obtain ⟨rfl, rfl⟩ := localVariable_yields hv
  have hone : Hygiene t { t with fresh := t.fresh + 1 } [.localVariable t.fresh] [] :=
    ⟨Nat.le_succ _, fun _ he => (by cases he), List.nodup_singleton _, fun v hmem =>
      ⟨t.fresh, List.mem_singleton.mp hmem, le_rfl, Nat.lt_succ_self _⟩⟩
  have hall := h.trans hone
  rwa [List.append_nil] at hall

/-- An expression that is built of others, and binds the variables that were numbered for it. -/
theorem build (h : Hygiene s t vs es) (hx : (∀ e ∈ es, e.Hygienic []) → x.Hygienic [])
    (hbinds : x.binds.Perm (vs ++ bindsList es)) : Hygiene s t [] [x] where
  counter := h.counter
  hygienic := List.forall_mem_singleton.mpr (hx h.hygienic)
  binds := h.binds.perm (by simpa using hbinds)

/-- An expression without lets. -/
theorem leaf (h : s.fresh ≤ t.fresh) (hx : x.Hygienic []) (hbinds : x.binds = []) :
    Hygiene s t [] [x] :=
  (of_counter h).build (fun _ => hx) (by rw [hbinds]; exact List.Perm.refl [])

end Hygiene

variable (env) in
/-- From a sound state, what is built for an expression is hygienic. -/
def Hygienizes (e : ScalarExpression) : Prop :=
  ∀ context ⦃s t x⦄, s.Sound → scalar env e context s = (some x, t) → Hygiene s t [] [x]

theorem scalar_fresh {e : ScalarExpression} {context : ValueContext} {s t : AnalyzerState ρ}
    {x : Scalar} (h : scalar env e context s = (some x, t)) (hs : s.Sound) : s.fresh ≤ t.fresh :=
  (((scoping env).scalar e context h).frame hs).fresh

/-! ### Leaves -/

/-- An expression without lets and set functions that reads no local variable. -/
theorem hygienizes_leaf {e : ScalarExpression}
    (h : ∀ context ⦃s t x⦄, s.Sound → scalar env e context s = (some x, t) →
      x.Hygienic [] ∧ x.binds = []) : Hygienizes env e := by
  intro context s t x hs hrun
  obtain ⟨hx, hbinds⟩ := h context hs hrun
  exact .leaf (scalar_fresh hrun hs) hx hbinds

theorem literal_hygienizes (value : Literal) : Hygienizes env (.literalExpression value) := by
  refine hygienizes_leaf fun context s t x hs h => ?_
  rw [scalar] at h
  obtain ⟨u, h, -⟩ := process_runs h
  simp only [analyzeLiteral, Check.bind_yields] at h
  obtain ⟨⟨value, type⟩, v, -, h⟩ := h
  cases htype : (context.find 0).type with
  | none =>
    simp only [htype, Check.pure_yields] at h
    obtain ⟨rfl, -⟩ := h
    exact ⟨hygienic_immediate _ _, rfl⟩
  | some type' =>
    simp only [htype] at h
    split_ifs at h
    · obtain ⟨rfl, -⟩ := (Check.pure_yields ..).mp h
      exact ⟨hygienic_cast.mpr (hygienic_immediate _ _), rfl⟩
    · obtain ⟨rfl, -⟩ := (Check.pure_yields ..).mp h
      exact ⟨hygienic_immediate _ _, rfl⟩

theorem hygienic_reference {v : Variable} (hv : v.isLocal = false) :
    (Scalar.variableReference v).Hygienic [] ∧ (Scalar.variableReference v).binds = [] := by
  refine ⟨hygienic_variableReference.mpr fun hl => ?_, rfl⟩
  rw [hv] at hl
  cases hl

theorem variableName_hygienizes (name : Name) : Hygienizes env (.variableReference name) := by
  refine hygienizes_leaf fun context s t x hs h => ?_
  rw [scalar] at h
  obtain ⟨u, h, -⟩ := process_runs h
  obtain ⟨hu, -, v, rfl, hv⟩ := analyzeVariableName_scoped env hs h
  refine hygienic_reference ?_
  obtain hv | ⟨x, rfl⟩ := hv
  · exact isLocal_of_isColumn (hu.chain.isColumn hv)
  · rfl

theorem findPlaceholder_hygienic {identifier : String} {message : List Fragment}
    {s t : AnalyzerState ρ} {x : Scalar}
    (h : findPlaceholder env identifier message s = (some x, t)) :
    x.Hygienic [] ∧ x.binds = [] := by
  unfold findPlaceholder at h
  rcases hvalue : env.placeholders identifier with _ | ⟨value, type⟩
  · rcases hvariable : env.hostParameters identifier with _ | v
    · simp only [hvalue, hvariable] at h
      cases h
    · simp only [hvalue, hvariable, Check.pure_yields] at h
      obtain ⟨rfl, -⟩ := h
      exact hygienic_reference rfl
  · simp only [hvalue, Check.pure_yields] at h
    obtain ⟨rfl, -⟩ := h
    exact ⟨hygienic_immediate _ _, rfl⟩

theorem subquery_hygienizes (q : QueryExpression) (contextKind : ExpressionContextKind) :
    Hygienizes env (.subquery q contextKind) := by
  refine hygienizes_leaf fun context s t x hs h => ?_
  have hscoped := scalar_scoped h hs
  have ht := scalar_sound h hs
  rw [scalar] at h
  obtain ⟨u, h, -⟩ := process_runs h
  cases contextKind with
  | row => cases h
  | scalar =>
    simp only [processSubquery, Check.bind_yields, Check.pure_yields] at h
    obtain ⟨⟨result, parameters⟩, _, -, column, _, -, rfl, -⟩ := h
    exact ⟨hygienic_subquery (parameters_notLocal ht (scoped_subquery.mp hscoped)) column, rfl⟩

theorem tablePredicate_hygienizes (op : TableOperator) (operand : QueryExpression) :
    Hygienizes env (.tablePredicate op operand) := by
  refine hygienizes_leaf fun context s t x hs h => ?_
  have hscoped := scalar_scoped h hs
  have ht := scalar_sound h hs
  rw [scalar] at h
  obtain ⟨u, h, -⟩ := process_runs h
  cases op with
  | unique => cases h
  | exists_ =>
    simp only [processTablePredicate, Check.bind_yields, Check.pure_yields] at h
    obtain ⟨⟨result, parameters⟩, _, -, rfl, -⟩ := h
    exact ⟨hygienic_exists (parameters_notLocal ht (scoped_exists.mp hscoped)), rfl⟩

/-! ### Lists of operands -/

theorem option_hygiene {o : Option ScalarExpression} (h : ∀ e ∈ o, Hygienizes env e)
    {context : ValueContext} {s t : AnalyzerState ρ} {x : Option Scalar} (hs : s.Sound)
    (hrun : Check.option ((scalarOption env o).map (· context)) s = (some x, t)) :
    Hygiene s t [] x.toList := by
  cases o with
  | none =>
    obtain ⟨rfl, rfl⟩ := (Check.pure_yields ..).mp hrun
    exact .of_counter le_rfl
  | some e =>
    simp only [scalarOption, Option.map_some, Check.option, Check.bind_yields,
      Check.pure_yields] at hrun
    obtain ⟨y, u, hy, rfl, rfl⟩ := hrun
    exact h e rfl context hs hy

theorem analyzeAll_hygiene {es : List ScalarExpression} (h : ∀ e ∈ es, Hygienizes env e)
    {s t : AnalyzerState ρ} {xs : List Scalar} (hs : s.Sound)
    (hrun : analyzeAll (scalars env es) s = (some xs, t)) : Hygiene s t [] xs := by
  induction es generalizing s t xs with
  | nil =>
    obtain ⟨rfl, rfl⟩ := (Check.pure_yields ..).mp hrun
    exact .of_counter le_rfl
  | cons e es ih =>
    obtain ⟨he, hes⟩ := List.forall_mem_cons.mp h
    simp only [scalars, analyzeAll, Check.bind_yields, Check.pure_yields] at hrun
    obtain ⟨x, u, hx, rest, v, hrest, rfl, rfl⟩ := hrun
    exact (he .unspecified hs hx).trans (ih hes (scalar_sound hx hs) hrest)

theorem analyzeArguments_hygiene {es : List ScalarExpression} (h : ∀ e ∈ es, Hygienizes env e)
    {s t : AnalyzerState ρ} {args : List (Scalar × TypeData)} (hs : s.Sound)
    (hrun : analyzeArguments env (scalars env es) s = (some args, t)) :
    Hygiene s t [] (args.map Prod.fst) := by
  induction es generalizing s t args with
  | nil =>
    obtain ⟨rfl, rfl⟩ := (Check.pure_yields ..).mp hrun
    exact .of_counter le_rfl
  | cons e es ih =>
    obtain ⟨he, hes⟩ := List.forall_mem_cons.mp h
    simp only [scalars, analyzeArguments, Check.bind_yields, Check.pure_yields] at hrun
    obtain ⟨x, u, hx, type, v, htype, rest, w, hrest, rfl, rfl⟩ := hrun
    have hquiet : Quiet u v := resolve_quiet env _ _ htype
    have hv := (scalar_sound hx hs).of_quiet hquiet
    exact ((he .unspecified hs hx).trans_quiet hquiet).trans (ih hes hv hrest)

theorem processWhenClauses_hygiene {clauses : List (ScalarExpression × ScalarExpression)}
    (h : ∀ p ∈ clauses, Hygienizes env p.1 ∧ Hygienizes env p.2) {v : Option Variable}
    {context : ValueContext} {s t : AnalyzerState ρ} {pairs : List (Scalar × Scalar)}
    (hs : s.Sound)
    (hrun : processWhenClauses v context (scalarPairs env clauses) s = (some pairs, t)) :
    t.Sound ∧ ∃ parts, Hygiene s t [] (pairExpressions parts) ∧
      pairs = parts.map (caseAlternative v) := by
  induction clauses generalizing s t pairs with
  | nil =>
    obtain ⟨rfl, rfl⟩ := (Check.pure_yields ..).mp hrun
    exact ⟨hs, [], .of_counter le_rfl, rfl⟩
  | cons clause clauses ih =>
    obtain ⟨⟨hwhen, hthen⟩, hclauses⟩ := List.forall_mem_cons.mp h
    obtain ⟨when_, then_⟩ := clause
    simp only [scalarPairs, processWhenClauses, Check.bind_yields, Check.pure_yields] at hrun
    obtain ⟨w, u₁, hw, e, u₂, he, rest, u₃, hrest, rfl, rfl⟩ := hrun
    have hu₁ := scalar_sound hw hs
    obtain ⟨ht, parts, hparts, rfl⟩ := ih hclauses (scalar_sound he hu₁) hrest
    exact ⟨ht, (w, e) :: parts,
      (hwhen .unspecified hs hw).trans ((hthen context hu₁ he).trans hparts), rfl⟩

theorem bindsPairs_caseAlternative (v : Option Variable) (parts : List (Scalar × Scalar)) :
    bindsPairs (parts.map (caseAlternative v)) = bindsList (pairExpressions parts) := by
  induction parts with
  | nil => rfl
  | cons p parts ih =>
    have hfirst : (caseAlternative v p).1.binds = p.1.binds := by cases v <;> rfl
    change (caseAlternative v p).1.binds ++ ((caseAlternative v p).2.binds ++ bindsPairs _) = _
    rw [hfirst, ih]
    rfl

theorem bindsOption_toList (d : Option Scalar) : bindsOption d = bindsList d.toList := by
  cases d with
  | none => rfl
  | some e => exact (List.append_nil _).symm

/-- The alternatives of a case expression, where the variable of its operand may be read. -/
theorem hygienic_alternatives {allowed : List Variable} {v : Option Variable}
    {parts : List (Scalar × Scalar)} {d : Option Scalar} (hv : ∀ w ∈ v, w ∈ allowed)
    (hparts : ∀ e ∈ pairExpressions parts, e.Hygienic []) (hd : ∀ e ∈ d.toList, e.Hygienic []) :
    (Scalar.conditional (parts.map (caseAlternative v)) d).Hygienic allowed := by
  rw [hygienic_conditional]
  refine ⟨fun p hp => ?_, fun e he => (hd e (Option.mem_toList.mpr he)).anywhere⟩
  obtain ⟨q, hq, rfl⟩ := List.mem_map.mp hp
  refine ⟨?_, (hparts _ (mem_pairExpressions hq).2).anywhere⟩
  have hfirst : q.1.Hygienic allowed := (hparts _ (mem_pairExpressions hq).1).anywhere
  cases v with
  | none => exact hfirst
  | some v => exact hygienic_compare.mpr ⟨hygienic_variableReference.mpr fun _ => hv v rfl, hfirst⟩

/-! ### Operators -/

theorem unary_hygienizes {operand : ScalarExpression} (h : Hygienizes env operand)
    (op : Ast.UnaryOperator) : Hygienizes env (.unaryExpression op operand) := by
  intro context s t x hs hrun
  rw [scalar] at hrun
  obtain ⟨u, hrun, hquiet⟩ := process_runs hrun
  simp only [processUnary, Check.bind_yields, Check.pure_yields] at hrun
  obtain ⟨op', v, hop, y, w, hy, rfl, rfl⟩ := hrun
  have hv : Quiet s v := convertUnaryOperator_quiet op hop
  refine Hygiene.trans_quiet (.build (.quiet_trans hv (h .unspecified (hs.of_quiet hv) hy))
    (fun hes => ?_) ?_) hquiet
  · exact hygienic_unary.mpr (hes y List.mem_cons_self)
  · simp

theorem cast_hygienizes {operand : ScalarExpression} (h : Hygienizes env operand)
    (op : CastOperator) (type : TypeNode) : Hygienizes env (.castExpression op operand type) := by
  intro context s t x hs hrun
  rw [scalar] at hrun
  obtain ⟨u, hrun, hquiet⟩ := process_runs hrun
  simp only [processCast, Check.bind_yields, Check.pure_yields] at hrun
  obtain ⟨_, v, hreport, y, w, hy, type', u, htype, rfl, rfl⟩ := hrun
  have hv : Quiet s v := reportCastOperator_quiet op hreport
  have hw : Quiet w u := analyzeType_quiet env type htype
  refine Hygiene.trans_quiet (.build (.trans_quiet (.quiet_trans hv
    (h .unspecified (hs.of_quiet hv) hy)) hw) (fun hes => ?_) ?_) hquiet
  · exact hygienic_cast.mpr (hes y List.mem_cons_self)
  · simp

theorem is_hygiene {left : ScalarExpression} (h : Hygienizes env left) {isNot : Bool}
    {right : ScalarExpression} {s t : AnalyzerState ρ} {x : Scalar} (hs : s.Sound)
    (hrun : processIs (scalar env left) isNot right s = (some x, t)) : Hygiene s t [] [x] := by
  unfold processIs at hrun
  split at hrun
  · simp only [Check.bind_yields, Check.pure_yields] at hrun
    obtain ⟨op, u, hop, y, v, hy, rfl, rfl⟩ := hrun
    have hu : Quiet s u := convertIsRight_quiet _ hop
    refine .build (.quiet_trans hu (h .unspecified (hs.of_quiet hu) hy)) (fun hes => ?_) ?_
    · cases isNot <;> simpa using hes
    · cases isNot <;> simp
  · cases hrun

theorem binary_hygienizes {left right : ScalarExpression} (hl : Hygienizes env left)
    (hr : Hygienizes env right) (op : Ast.BinaryOperator) :
    Hygienizes env (.binaryExpression left op right) := by
  intro context s t x hs hrun
  rw [scalar] at hrun
  obtain ⟨u, hrun, hquiet⟩ := process_runs hrun
  unfold processBinary at hrun
  split at hrun
  · exact (is_hygiene hl hs hrun).trans_quiet hquiet
  · exact (is_hygiene hl hs hrun).trans_quiet hquiet
  · simp only [Check.bind_yields, Check.pure_yields] at hrun
    obtain ⟨op', v, hop, l, w, hl', r, u, hr', rfl, rfl⟩ := hrun
    have hv : Quiet s v := convertBinaryOperator_quiet op hop
    have hw := hs.of_quiet hv
    refine Hygiene.trans_quiet (.build (.quiet_trans hv ((hl .unspecified hw hl').trans
      (hr .unspecified (scalar_sound hl' hw) hr'))) (fun hes => ?_) ?_) hquiet
    · simpa using hes
    · simp

theorem comparison_hygienizes {left right : ScalarExpression} (hl : Hygienizes env left)
    (hr : Hygienizes env right) (op : Ast.ComparisonOperator) :
    Hygienizes env (.comparisonPredicate left op right) := by
  intro context s t x hs hrun
  rw [scalar] at hrun
  obtain ⟨u, hrun, hquiet⟩ := process_runs hrun
  simp only [processComparison, Check.bind_yields, Check.pure_yields] at hrun
  obtain ⟨l, v, hl', r, w, hr', rfl, rfl⟩ := hrun
  refine Hygiene.trans_quiet (.build ((hl .unspecified hs hl').trans
    (hr .unspecified (scalar_sound hl' hs) hr')) (fun hes => ?_) ?_) hquiet
  · simpa using hes
  · simp

/-! ### Predicates -/

theorem negateIf_binds (isNot : Bool) (x : Scalar) : (negateIf isNot x).binds = x.binds := by
  cases isNot <;> rfl

theorem hygienic_negateIf {allowed : List Variable} {isNot : Bool} {x : Scalar} :
    (negateIf isNot x).Hygienic allowed ↔ x.Hygienic allowed := by
  cases isNot
  · exact Iff.rfl
  · exact hygienic_unary

theorem between_hygienizes {target left right : ScalarExpression} (ht : Hygienizes env target)
    (hl : Hygienizes env left) (hr : Hygienizes env right) (isNot : Bool)
    (op : Option BetweenOperator) :
    Hygienizes env (.betweenPredicate target isNot op left right) := by
  intro context s t x hs hrun
  rw [scalar] at hrun
  obtain ⟨u, hrun, hquiet⟩ := process_runs hrun
  simp only [processBetween, Check.bind_yields] at hrun
  obtain ⟨y, u₁, hy, l, u₂, hl', r, u₃, hr', hrun⟩ := hrun
  have hu₁ := scalar_sound hy hs
  have hall := (ht .unspecified hs hy).trans ((hl .unspecified hu₁ hl').trans
    (hr .unspecified (scalar_sound hl' hu₁) hr'))
  refine Hygiene.trans_quiet ?_ hquiet
  split at hrun
  · simp only [Check.bind_yields, Check.pure_yields] at hrun
    obtain ⟨vt, v₁, hvt, vl, v₂, hvl, vr, v₃, hvr, rfl, rfl⟩ := hrun
    refine (((hall.localVariable hvt).localVariable hvl).localVariable hvr).build
      (fun hes => ?_) (List.perm_iff_count.mpr fun v => ?_)
    · obtain ⟨rfl, -⟩ := localVariable_yields hvt
      obtain ⟨rfl, -⟩ := localVariable_yields hvl
      obtain ⟨rfl, -⟩ := localVariable_yields hvr
      simp only [List.cons_append, List.nil_append, List.forall_mem_cons] at hes
      refine hygienic_negateIf.mpr (hygienic_let ?_ ?_)
      · simpa using ⟨⟨rfl, hes.1⟩, ⟨rfl, hes.2.1⟩, ⟨rfl, hes.2.2.1⟩⟩
      · simp
    · rw [negateIf_binds]
      simp only [Scalar.binds, bindsBindings, bindsList, List.count_append, List.count_cons,
        List.nil_append, List.cons_append, List.append_nil]
      omega
  · simp only [Check.bind_yields, Check.pure_yields] at hrun
    obtain ⟨vt, v₁, hvt, rfl, rfl⟩ := hrun
    refine (hall.localVariable hvt).build (fun hes => ?_) (List.perm_iff_count.mpr fun v => ?_)
    · obtain ⟨rfl, -⟩ := localVariable_yields hvt
      simp only [List.cons_append, List.nil_append, List.forall_mem_cons] at hes
      refine hygienic_negateIf.mpr (hygienic_let ?_ ?_)
      · simpa using ⟨rfl, hes.1⟩
      · simpa using ⟨hes.2.1.anywhere, hes.2.2.1.anywhere⟩
    · rw [negateIf_binds]
      simp only [Scalar.binds, bindsBindings, bindsList, List.count_append, List.count_cons,
        List.nil_append, List.cons_append, List.append_nil]

theorem patternMatch_hygienizes {input pattern : ScalarExpression}
    {escape : Option ScalarExpression} (hi : Hygienizes env input) (hp : Hygienizes env pattern)
    (he : ∀ e ∈ escape, Hygienizes env e) (isNot : Bool) (op : PatternMatchOperator) :
    Hygienizes env (.patternMatchPredicate input isNot op pattern escape) := by
  intro context s t x hs hrun
  rw [scalar] at hrun
  obtain ⟨u, hrun, hquiet⟩ := process_runs hrun
  simp only [processPatternMatch, Check.bind_yields, Check.pure_yields] at hrun
  obtain ⟨y, u₁, hy, z, u₂, hz, w, u₃, hw, rfl, rfl⟩ := hrun
  have hu₁ := scalar_sound hy hs
  have hall := (hi .unspecified hs hy).trans ((hp .unspecified hu₁ hz).trans
    (option_hygiene he (scalar_sound hz hu₁) hw))
  refine Hygiene.trans_quiet (hall.build (fun hes => ?_) ?_) hquiet
  · refine hygienic_negateIf.mpr ?_
    cases w <;> simpa using hes
  · rw [negateIf_binds]
    cases w <;> simp

/-- A comparison with a query binds what its operand binds. -/
theorem quantifiedCompare_hygiene {left : ScalarExpression} (hl : Hygienizes env left)
    {right : QueryExpression} {op : Plan.ComparisonOperator} {quantifier : Plan.Quantifier}
    {s t : AnalyzerState ρ} {x : Scalar} (hs : s.Sound)
    (hrun : quantifiedCompare op quantifier (scalar env left) (query env right) s
      = (some x, t)) : Hygiene s t [] [x] := by
  have hreads := quantifiedCompare_scoped ((scoping env).scalar left)
    ((scoping env).queryExpression right) op quantifier .unspecified hrun
  have hscoped := hreads.expressions hs x List.mem_cons_self
  have ht := hreads.sound hs
  simp only [quantifiedCompare, Check.bind_yields, Check.pure_yields] at hrun
  obtain ⟨l, u₁, hl', ⟨result, parameters⟩, u₂, hquery, column, u₃, hcolumn, rfl, rfl⟩ := hrun
  have hu₁ := scalar_sound hl' hs
  have hcounter : u₁.fresh ≤ u₃.fresh :=
    ((analyzeSubquery_reads ((scoping env).queryExpression right) hquery).frame hu₁).fresh.trans
      (Quiet.fresh (singleColumn_quiet _ hcolumn))
  have hp := parameters_notLocal ht (scoped_quantifiedCompare.mp hscoped).2
  refine ((hl .unspecified hs hl').trans (.of_counter hcounter)).build (fun hes => ?_) ?_
  · exact hygienic_quantifiedCompare (hes l (by simp)) hp column
  · simp

theorem quantified_hygienizes {left : ScalarExpression} (hl : Hygienizes env left)
    (op : Ast.ComparisonOperator) (quantifier : Ast.Quantifier) (right : QueryExpression) :
    Hygienizes env (.quantifiedComparisonPredicate left op quantifier right) := by
  intro context s t x hs hrun
  rw [scalar] at hrun
  obtain ⟨u, hrun, hquiet⟩ := process_runs hrun
  exact (quantifiedCompare_hygiene hl hs hrun).trans_quiet hquiet

theorem compareAny_binds (v : Variable) (first : Scalar) (rest : List Scalar) :
    (compareAny v first rest).binds = first.binds ++ bindsList rest := by
  have hfold : ∀ (rest : List Scalar) (body : Scalar), (rest.foldl (fun body e =>
      Scalar.binary .conditionalOr body (.compare .equal (.variableReference v) e)) body).binds =
        body.binds ++ bindsList rest := by
    intro rest
    induction rest with
    | nil => exact fun body => (List.append_nil _).symm
    | cons e rest ih =>
      intro body
      rw [List.foldl_cons, ih, bindsList, ← List.append_assoc]
      rfl
  exact hfold rest _

theorem hygienic_compareAny {allowed : List Variable} {v : Variable} {first : Scalar}
    {rest : List Scalar} (hv : v ∈ allowed) (hfirst : first.Hygienic allowed)
    (hrest : ∀ e ∈ rest, e.Hygienic allowed) : (compareAny v first rest).Hygienic allowed := by
  have hfold : ∀ (rest : List Scalar) (body : Scalar), (∀ e ∈ rest, e.Hygienic allowed) →
      body.Hygienic allowed → (rest.foldl (fun body e => Scalar.binary .conditionalOr body
        (.compare .equal (.variableReference v) e)) body).Hygienic allowed := by
    intro rest
    induction rest with
    | nil => exact fun _ _ hbody => hbody
    | cons e rest ih =>
      intro body hes hbody
      obtain ⟨he, hes⟩ := List.forall_mem_cons.mp hes
      exact ih _ hes (by simp [hbody, hv, he])
  exact hfold rest _ hrest (by simp [hv, hfirst])

theorem in_hygienizes {left : ScalarExpression} {right : QueryExpression}
    (hl : Hygienizes env left)
    (hr : ∀ elements, right = .tableValueConstructor elements → ∀ e ∈ elements, Hygienizes env e)
    (isNot : Bool) : Hygienizes env (.inPredicate left isNot right) := by
  intro context s t x hs hrun
  rw [scalar] at hrun
  obtain ⟨u, hrun, hquiet⟩ := process_runs hrun
  refine Hygiene.trans_quiet ?_ hquiet
  have hquery : processInQuery (scalar env left) isNot (query env right) s = (some x, u) →
      Hygiene s u [] [x] := by
    intro hrun
    cases isNot with
    | false => exact quantifiedCompare_hygiene hl hs hrun
    | true => exact quantifiedCompare_hygiene hl hs hrun
  cases right with
  | tableValueConstructor elements =>
    cases elements with
    | nil => cases hrun
    | cons e es =>
      simp only [inValues, processIn, scalars, processInValues, Check.bind_yields,
        Check.pure_yields] at hrun
      obtain ⟨l, u₁, hl', y, u₂, hy, ys, u₃, hys, v, u₄, hv, rfl, rfl⟩ := hrun
      obtain ⟨he, hes⟩ := List.forall_mem_cons.mp (hr (e :: es) rfl)
      have hu₁ := scalar_sound hl' hs
      have hall := (hl .unspecified hs hl').trans ((he .unspecified hu₁ hy).trans
        (analyzeAll_hygiene hes (scalar_sound hy hu₁) hys))
      refine (hall.localVariable hv).build (fun hes => ?_) (List.perm_iff_count.mpr fun w => ?_)
      · obtain ⟨rfl, -⟩ := localVariable_yields hv
        simp only [List.cons_append, List.nil_append, List.forall_mem_cons] at hes
        refine hygienic_negateIf.mpr (hygienic_let ?_ ?_)
        · simpa using ⟨rfl, hes.1⟩
        · exact hygienic_compareAny List.mem_cons_self hes.2.1.anywhere
            fun e he => (hes.2.2 e he).anywhere
      · rw [negateIf_binds]
        simp only [Scalar.binds, bindsBindings, bindsList, compareAny_binds, List.count_append,
          List.count_cons, List.nil_append, List.cons_append, List.append_nil]
  | query => exact hquery hrun
  | tableReference => exact hquery hrun
  | binaryExpression => exact hquery hrun
  | withExpression => exact hquery hrun

/-! ### Case expressions -/

theorem case_hygienizes {operand default_ : Option ScalarExpression}
    {clauses : List (ScalarExpression × ScalarExpression)} (ho : ∀ e ∈ operand, Hygienizes env e)
    (hc : ∀ p ∈ clauses, Hygienizes env p.1 ∧ Hygienizes env p.2)
    (hd : ∀ e ∈ default_, Hygienizes env e) :
    Hygienizes env (.caseExpression operand clauses default_) := by
  intro context s t x hs hrun
  rw [scalar] at hrun
  obtain ⟨u, hrun, hquiet⟩ := process_runs hrun
  refine Hygiene.trans_quiet ?_ hquiet
  generalize hactions : scalarPairs env clauses = actions at hrun
  cases actions with
  | nil => cases hrun
  | cons action actions =>
    cases operand with
    | none =>
      simp only [scalarOption, processCase, Check.bind_yields, Check.pure_yields] at hrun
      obtain ⟨as, u₁, has, d, u₂, hde, rfl, rfl⟩ := hrun
      rw [← hactions] at has
      obtain ⟨hu₁, parts, hparts, rfl⟩ := processWhenClauses_hygiene hc hs has
      refine (hparts.trans (option_hygiene hd hu₁ hde)).build (fun hes => ?_) ?_
      · obtain ⟨hes, hdefault⟩ := List.forall_mem_append.mp hes
        exact hygienic_alternatives (fun _ hv => by cases hv) hes hdefault
      · rw [Scalar.binds, bindsPairs_caseAlternative, bindsOption_toList, bindsList_append]
        exact List.Perm.refl _
    | some operand =>
      simp only [scalarOption, processCase, Check.bind_yields, Check.pure_yields] at hrun
      obtain ⟨y, u₁, hy, v, u₂, hv, as, u₃, has, d, u₄, hde, rfl, rfl⟩ := hrun
      rw [← hactions] at has
      have hu₂ := (scalar_sound hy hs).of_quiet (localVariable_quiet hv)
      obtain ⟨hu₃, parts, hparts, rfl⟩ := processWhenClauses_hygiene hc hu₂ has
      have hall := ((ho operand rfl .unspecified hs hy).localVariable hv).trans
        (hparts.trans (option_hygiene hd hu₃ hde))
      refine hall.build (fun hes => ?_) (List.perm_iff_count.mpr fun w => ?_)
      · obtain ⟨rfl, -⟩ := localVariable_yields hv
        simp only [List.forall_mem_append, List.forall_mem_singleton] at hes
        refine hygienic_let (by simpa using ⟨rfl, hes.1⟩)
          (hygienic_alternatives (fun w hw => ?_) hes.2.1 hes.2.2)
        exact List.mem_singleton.mpr (Option.some.inj hw).symm
      · simp only [Scalar.binds, bindsPairs_caseAlternative, bindsOption_toList, bindsList_append,
          bindsBindings, bindsList, List.count_append, List.count_cons, List.nil_append,
          List.append_nil, List.count_nil]
        omega

/-! ### Functions -/

theorem function_hygiene {args : List Scalar} {s t : AnalyzerState ρ} {x : Scalar}
    (h : Hygiene s t [] args)
    (hx : (∃ function, x = .functionCall function args) ∨
      ∃ function, x = .aggregateFunctionCall function args) : Hygiene s t [] [x] := by
  obtain ⟨function, rfl⟩ | ⟨function, rfl⟩ := hx
  · exact h.build (fun hes => hygienic_functionCall.mpr hes) (List.Perm.refl _)
  · exact h.build hygienic_aggregate (List.Perm.refl _)

theorem callAggregate_fresh {function : AggregateDecl} {arguments : List Scalar}
    {s t : AnalyzerState ρ} {x : Scalar}
    (h : callAggregate function arguments s = (some x, t)) : t.fresh = s.fresh := by
  simp only [callAggregate, Check.bind_yields, Check.modify_yields, Check.pure_yields] at h
  obtain ⟨-, _, rfl, -, rfl⟩ := h
  rfl

theorem function_hygienizes {arguments : List ScalarExpression}
    (h : ∀ e ∈ arguments, Hygienizes env e) (name : Name) :
    Hygienizes env (.functionInvocation name arguments) := by
  intro context s t x hs hrun
  rw [scalar] at hrun
  obtain ⟨u, hrun, hquiet⟩ := process_runs hrun
  simp only [processFunctionInvocation, Check.bind_yields] at hrun
  obtain ⟨args, u₁, hargs, functions, u₂, hfunctions, hrun⟩ := hrun
  have hall := (analyzeArguments_hygiene h hs hargs).trans_quiet
    (analyzeFunctionName_quiet env _ _ hfunctions)
  refine Hygiene.trans_quiet ?_ hquiet
  cases hscalar : applicableFunctions env (args.map Prod.snd) functions with
  | cons f rest =>
    simp only [hscalar, Check.bind_yields, Check.pure_yields] at hrun
    obtain ⟨target, u₃, htarget, rfl, rfl⟩ := hrun
    exact function_hygiene (hall.trans_quiet (resolveOverload_quiet env _ _ _ htarget))
      (.inl ⟨target, rfl⟩)
  | nil =>
    simp only [hscalar, Check.bind_yields] at hrun
    obtain ⟨aggregates, u₃, haggregates, hrun⟩ := hrun
    have hall := hall.trans_quiet (analyzeAggregationName_quiet env _ _ haggregates)
    cases happlicable : applicableAggregates env (args.map Prod.snd) aggregates with
    | nil =>
      simp only [happlicable] at hrun
      cases hrun
    | cons a rest =>
      simp only [happlicable, Check.bind_yields] at hrun
      obtain ⟨target, u₄, htarget, hrun⟩ := hrun
      have hall := function_hygiene (hall.trans_quiet (resolveOverload_quiet env _ _ _ htarget))
        (.inr ⟨target, callAggregate_yields hrun⟩)
      have hfresh := callAggregate_fresh hrun
      exact ⟨hfresh ▸ hall.counter, hall.hygienic, hfresh ▸ hall.binds⟩

theorem builtinSetFunction_hygienizes {arguments : List ScalarExpression}
    (h : ∀ e ∈ arguments, Hygienizes env e) (function : BuiltinSetFunctionKind)
    (quantifier : Option Ast.SetQuantifier) :
    Hygienizes env (.builtinSetFunctionInvocation function quantifier arguments) := by
  intro context s t x hs hrun
  rw [scalar] at hrun
  obtain ⟨u, hrun, hquiet⟩ := process_runs hrun
  simp only [processBuiltinSetFunction, Check.bind_yields] at hrun
  obtain ⟨args, u₁, hargs, hrun⟩ := hrun
  have hall := analyzeArguments_hygiene h hs hargs
  refine Hygiene.trans_quiet ?_ hquiet
  generalize applicableAggregates env (args.map Prod.snd) _ = candidates at hrun
  cases candidates with
  | nil => cases hrun
  | cons a rest =>
    simp only [Check.bind_yields] at hrun
    obtain ⟨target, u₂, htarget, hrun⟩ := hrun
    have hall := function_hygiene (hall.trans_quiet (resolveOverload_quiet env _ _ _ htarget))
      (.inr ⟨target, callAggregate_yields hrun⟩)
    have hfresh := callAggregate_fresh hrun
    exact ⟨hfresh ▸ hall.counter, hall.hygienic, hfresh ▸ hall.binds⟩

theorem nullif_hygiene {arguments : List ScalarExpression}
    (h : ∀ e ∈ arguments, Hygienizes env e) {s t : AnalyzerState ρ} {x : Scalar} (hs : s.Sound)
    (hrun : processNullif env (scalars env arguments) s = (some x, t)) : Hygiene s t [] [x] := by
  rcases arguments with _ | ⟨left, _ | ⟨right, _ | ⟨third, rest⟩⟩⟩
  · cases hrun
  · cases hrun
  · simp only [scalars, processNullif, Check.bind_yields, Check.pure_yields] at hrun
    obtain ⟨l, u₁, hl, r, u₂, hr, type, u₃, htype, v, u₄, hv, rfl, rfl⟩ := hrun
    have hall := ((h left (by simp) .unspecified hs hl).trans
      (h right (by simp) .unspecified (scalar_sound hl hs) hr)).trans_quiet
      (resolve_quiet env _ _ htype)
    refine (hall.localVariable hv).build (fun hes => ?_) (List.perm_iff_count.mpr fun w => ?_)
    · obtain ⟨rfl, -⟩ := localVariable_yields hv
      simp only [List.cons_append, List.nil_append, List.forall_mem_cons] at hes
      refine hygienic_let (by simpa using ⟨rfl, hes.1⟩) ?_
      simpa using hes.2.1.anywhere
    · simp only [Scalar.binds, bindsBindings, bindsList, bindsPairs, bindsOption,
        List.count_append, List.count_cons, List.nil_append, List.cons_append, List.append_nil]
  · cases hrun

theorem declaredBuiltin_hygiene {arguments : List ScalarExpression}
    (h : ∀ e ∈ arguments, Hygienizes env e) {function : BuiltinFunctionKind}
    {s t : AnalyzerState ρ} {x : Scalar} (hs : s.Sound)
    (hrun : processDeclaredBuiltin env function (scalars env arguments) s = (some x, t)) :
    Hygiene s t [] [x] := by
  simp only [processDeclaredBuiltin, Check.bind_yields] at hrun
  obtain ⟨args, u₁, hargs, hrun⟩ := hrun
  have hall := analyzeArguments_hygiene h hs hargs
  generalize applicableFunctions env (args.map Prod.snd) _ = candidates at hrun
  cases candidates with
  | nil => cases hrun
  | cons f rest =>
    simp only [Check.bind_yields, Check.pure_yields] at hrun
    obtain ⟨target, u₂, htarget, rfl, rfl⟩ := hrun
    exact function_hygiene (hall.trans_quiet (resolveOverload_quiet env _ _ _ htarget))
      (.inl ⟨target, rfl⟩)

theorem coalesce_hygiene {arguments : List ScalarExpression}
    (h : ∀ e ∈ arguments, Hygienizes env e) {s t : AnalyzerState ρ} {x : Scalar} (hs : s.Sound)
    (hrun : processCoalesce (scalars env arguments) s = (some x, t)) : Hygiene s t [] [x] := by
  cases arguments with
  | nil => cases hrun
  | cons e arguments =>
    simp only [scalars, processCoalesce, Check.bind_yields, Check.pure_yields] at hrun
    obtain ⟨es, u, hes, rfl, rfl⟩ := hrun
    exact (analyzeAll_hygiene h hs hes).build (fun hes => hygienic_coalesce.mpr hes)
      (List.Perm.refl _)

theorem builtinFunction_hygienizes {arguments : List ScalarExpression}
    (h : ∀ e ∈ arguments, Hygienizes env e) (function : BuiltinFunctionKind) :
    Hygienizes env (.builtinFunctionInvocation function arguments) := by
  intro context s t x hs hrun
  rw [scalar] at hrun
  obtain ⟨u, hrun, hquiet⟩ := process_runs hrun
  refine Hygiene.trans_quiet ?_ hquiet
  unfold processBuiltinFunction at hrun
  split at hrun
  · exact nullif_hygiene h hs hrun
  · exact coalesce_hygiene h hs hrun
  all_goals first | exact declaredBuiltin_hygiene h hs hrun | cases hrun

theorem extract_hygienizes {operand : ScalarExpression} (h : Hygienizes env operand)
    (field : ExtractFieldKind) (digits : Option Nat) :
    Hygienizes env (.extractExpression field digits operand) := by
  intro context s t x hs hrun
  rw [scalar] at hrun
  obtain ⟨u, hrun, hquiet⟩ := process_runs hrun
  simp only [processExtract, Check.bind_yields] at hrun
  obtain ⟨e, u₁, he, type, u₂, htype, _, u₃, hvalid, functions, u₄, hfunctions, hrun⟩ := hrun
  have hall := (((h .unspecified hs he).trans_quiet (resolve_quiet env _ _ htype)).trans_quiet
    (validateExtractField_quiet _ _ hvalid)).trans_quiet
    (analyzeFunctionName_quiet env _ _ hfunctions)
  refine Hygiene.trans_quiet ?_ hquiet
  generalize applicableFunctions env _ functions = candidates at hrun
  cases candidates with
  | nil => cases hrun
  | cons f rest =>
    simp only [Check.bind_yields, Check.pure_yields] at hrun
    obtain ⟨target, u₅, htarget, rfl, rfl⟩ := hrun
    refine (hall.trans_quiet (resolveOverload_quiet env _ _ _ htarget)).build (fun hes => ?_) ?_
    · have he' := hes e List.mem_cons_self
      split_ifs <;> simp [he', extractSecondPrecision]
    · split_ifs <;> simp [extractSecondPrecision]

/-! ### Every expression -/

theorem rejected_hygienizes {e : ScalarExpression} {code : Code} {message : List Fragment}
    (he : ∀ context, scalar env e context = process env (reject code message)) :
    Hygienizes env e := by
  intro context s t x hs hrun
  rw [he] at hrun
  obtain ⟨u, hrun, -⟩ := process_runs hrun
  cases hrun

theorem hygiene_induction : SyntaxInduction (Hygienizes env) (fun _ => True) (fun _ => True)
    (fun _ => True) (fun _ => True) (fun _ => True) where
  literal := literal_hygienizes
  variableReference := variableName_hygienizes
  hostParameter name := hygienizes_leaf fun context s t x _ h => by
    rw [scalar] at h
    obtain ⟨u, h, -⟩ := process_runs h
    exact findPlaceholder_hygienic h
  case_ ho hc hd := case_hygienizes ho hc hd
  cast op type h := cast_hygienizes h op type
  unary op h := unary_hygienizes h op
  binary op hl hr := binary_hygienizes hl hr op
  extract field digits h := extract_hygienizes h field digits
  valueConstructor _ _ := rejected_hygienizes fun _ => by rw [scalar]
  subquery {q} contextKind _ := subquery_hygienizes q contextKind
  comparison op hl hr := comparison_hygienizes hl hr op
  quantified {_ right} op quantifier hl _ := quantified_hygienizes hl op quantifier right
  between isNot op ht hl hr := between_hygienizes ht hl hr isNot op
  in_ isNot hl hr _ := in_hygienizes hl hr isNot
  patternMatch isNot op hi hp he := patternMatch_hygienizes hi hp he isNot op
  tablePredicate {operand} op _ := tablePredicate_hygienizes op operand
  function name h := function_hygienizes h name
  builtinFunction kind h := builtinFunction_hygienizes h kind
  builtinSetFunction kind quantifier h := builtinSetFunction_hygienizes h kind quantifier
  placeholder index := hygienizes_leaf fun context s t x _ h => by
    rw [scalar] at h
    obtain ⟨u, h, -⟩ := process_runs h
    exact findPlaceholder_hygienic h
  unsupported _ := rejected_hygienizes fun _ => by rw [scalar]
  query _ _ _ _ _ _ _ _ := trivial
  relationReference _ := trivial
  values _ := trivial
  binaryQuery _ _ _ _ _ := trivial
  with_ _ _ _ := trivial
  selectColumn _ _ := trivial
  selectAsterisk _ := trivial
  groupingColumn _ _ := trivial
  tableReference _ _ _ := trivial
  unnest _ _ _ := trivial
  join _ _ _ _ := trivial
  tableSubquery _ _ _ := trivial
  apply _ _ _ _ _ := trivial
  joinCondition _ := trivial
  joinColumns _ := trivial

/-- The lets of an accepted expression bind different local variables that were not numbered before;
no local variable is read outside of its let, and no argument of a set function reads one that is
bound around the call. -/
theorem scalar_hygienic (e : ScalarExpression) (context : ValueContext) {s t : AnalyzerState ρ}
    {x : Scalar} (hs : s.Sound) (h : scalar env e context s = (some x, t)) :
    x.binds.Nodup ∧ (∀ v ∈ x.binds, ∃ k, v = .localVariable k ∧ s.fresh ≤ k ∧ k < t.fresh) ∧
      (∀ v ∈ x.free, v.isLocal = false) ∧ x.ArgumentsAvoid x.binds := by
  have hygiene := hygiene_induction.scalar e context hs h
  have hx := hygiene.hygienic x List.mem_cons_self
  have hbinds : LocalsBetween s.fresh t.fresh x.binds :=
    hygiene.binds.perm (by simp [bindsList])
  refine ⟨hbinds.nodup, hbinds.between, fun v hv => ?_, hx.avoids _ fun v hv => ?_⟩
  · cases hl : v.isLocal with
    | false => rfl
    | true => cases hx.reads v hv hl
  · obtain ⟨k, rfl, -, -⟩ := hbinds.between v hv
    rfl

/-- `NULLIF(1, max(NULLIF(5, 3)))`. -/
def nestedNullif : ScalarExpression :=
  let number (n : Nat) : ScalarExpression :=
    .literalExpression (.exactNumeric none (.ofDigits [n]))
  .builtinFunctionInvocation .nullif [number 1, .builtinSetFunctionInvocation .max none
    [.builtinFunctionInvocation .nullif [number 5, number 3]]]

/-- The first operand of each `NULLIF` is bound once, and the set function reads the one inside. -/
theorem scalar_hygienic_nested :
    let max : AggregateDecl :=
      { definitionId := 0, name := "max", returnType := .int8, parameterTypes := [.int8] }
    let env := Environment.ofSchema (.ofTables [] [max])
    ∃ x t, scalar env nestedNullif .unspecified (.initial []) = (some x, t) ∧
      x.hasAggregate = true ∧ x.binds = [.localVariable 1, .localVariable 0] ∧ x.binds.Nodup ∧
      x.ArgumentsAvoid x.binds := by
  intro max env
  have hanalyzed : (scalar env nestedNullif .unspecified (.initial [])).1.map (fun x =>
      (x.hasAggregate, x.binds)) = some (true, [.localVariable 1, .localVariable 0]) := by
    decide +kernel
  generalize hrun : scalar env nestedNullif .unspecified (.initial []) = run at hanalyzed
  obtain ⟨x, t⟩ := run
  obtain ⟨x, rfl, hx⟩ := Option.map_eq_some_iff.mp hanalyzed
  obtain ⟨hnodup, -, -, havoids⟩ := scalar_hygienic nestedNullif .unspecified (initial_sound []) hrun
  rw [Prod.mk.injEq] at hx
  exact ⟨x, t, rfl, hx.1, hx.2, hnodup, havoids⟩

end Mizugaki.Analyzer
