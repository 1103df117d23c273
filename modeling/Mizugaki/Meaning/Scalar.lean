import Mizugaki.Meaning.Desugaring
import Mizugaki.Scoping.Reference

/-! Every scalar expression that the analyzer accepts is worth what it is as it is written: the
value of the expression that is built is the value of the source expression in three-valued logic,
at every place of a plan and for whatever its local variables hold. -/

namespace Mizugaki.Analyzer

open Mizugaki.Ast Mizugaki.Plan Mizugaki.Control Mizugaki.Relation Mizugaki.Data.Kleene

variable {ρ α : Type} (env : Environment ρ) (I : Interpretation α) (L : Logic α)

/-- From a sound state, what is built for an expression evaluates to what it is worth. -/
def Valued (e : ScalarExpression) : Prop :=
  ∀ context ⦃s t x⦄, s.Sound → scalar env e context s = (some x, t) →
    ∃ f, denote I L env e context s = some f ∧ Evaluates I x f

variable {env I L}

theorem process_runs {m : Analysis ρ Scalar} {s t : AnalyzerState ρ} {x : Scalar}
    (h : process env m s = (some x, t)) : ∃ u, m s = (some x, u) ∧ Quiet u t := by
  simp only [process, Check.bind_yields] at h
  obtain ⟨x', u, hm, h⟩ := h
  split at h
  · simp only [Check.bind_yields, Check.pure_yields] at h
    obtain ⟨_, v, hresolve, rfl, rfl⟩ := h
    exact ⟨u, hm, resolve_quiet env _ _ hresolve⟩
  · obtain ⟨rfl, rfl⟩ := (Check.pure_yields ..).mp h
    exact ⟨u, hm, Check.Frame.refl u⟩

theorem scalar_sound {e : ScalarExpression} {context : ValueContext} {s t : AnalyzerState ρ}
    {x : Scalar} (h : scalar env e context s = (some x, t)) (hs : s.Sound) : t.Sound :=
  ((scoping env).scalar e context h).sound hs

theorem afterOperand_eq {e : ScalarExpression} {context : ValueContext} {s t : AnalyzerState ρ}
    {x : Scalar} (h : scalar env e context s = (some x, t)) : afterOperand env e context s = t := by
  rw [afterOperand, h]

/-! ### Leaves -/

theorem isLocal_of_isColumn {v : Variable} (h : v.isColumn = true) : v.isLocal = false := by
  cases v with
  | localVariable k => cases h
  | tableColumn c => rfl
  | stream k => rfl
  | frame k => rfl
  | external x => rfl

/-- What a subquery takes is no local variable. -/
theorem parameters_notLocal {t : AnalyzerState ρ} (ht : t.Sound) {node : SubqueryNode}
    (h : NodeScoped t.scopes node) : ∀ p ∈ node.parameters, p.1.isLocal = false :=
  fun p hp => isLocal_of_isColumn (ht.chain.isColumn (h.2 p hp))

/-- An expression that stands for itself does, when it reads no local variable. -/
theorem valued_leaf {e : ScalarExpression}
    (hd : ∀ context s, denote I L env e context s = leafMeaning I (scalar env e context s).1)
    (hx : ∀ context ⦃s t x⦄, s.Sound → scalar env e context s = (some x, t) →
      Evaluates I x fun group row => x.eval I group [] row) : Valued env I L e := by
  intro context s t x hs h
  exact ⟨_, by rw [hd, h]; rfl, hx context hs h⟩

theorem literal_valued (value : Literal) : Valued env I L (.literalExpression value) := by
  refine valued_leaf (fun _ _ => by rw [denote]) fun context s t x hs h => ?_
  rw [scalar] at h
  obtain ⟨u, h, -⟩ := process_runs h
  simp only [analyzeLiteral, Check.bind_yields] at h
  obtain ⟨⟨value, type⟩, v, -, h⟩ := h
  cases htype : (context.find 0).type with
  | none =>
    simp only [htype, Check.pure_yields] at h
    obtain ⟨rfl, -⟩ := h
    exact evaluates_immediate _ _
  | some type' =>
    simp only [htype] at h
    split_ifs at h
    · obtain ⟨rfl, -⟩ := (Check.pure_yields ..).mp h
      exact (evaluates_immediate value type).cast type' _
    · obtain ⟨rfl, -⟩ := (Check.pure_yields ..).mp h
      exact evaluates_immediate value type

theorem variableName_valued (name : Name) : Valued env I L (.variableReference name) := by
  refine valued_leaf (fun _ _ => by rw [denote]) fun context s t x hs h => ?_
  rw [scalar] at h
  obtain ⟨u, h, -⟩ := process_runs h
  obtain ⟨hu, -, v, rfl, hv⟩ := analyzeVariableName_scoped env hs h
  refine evaluates_reference ?_
  obtain hv | ⟨x, rfl⟩ := hv
  · exact isLocal_of_isColumn (hu.chain.isColumn hv)
  · rfl

theorem findPlaceholder_evaluates {identifier : String} {message : List Fragment}
    {s t : AnalyzerState ρ} {x : Scalar}
    (h : findPlaceholder env identifier message s = (some x, t)) :
    Evaluates I x fun group row => x.eval I group [] row := by
  unfold findPlaceholder at h
  rcases hvalue : env.placeholders identifier with _ | ⟨value, type⟩
  · rcases hvariable : env.hostParameters identifier with _ | v
    · simp only [hvalue, hvariable] at h
      cases h
    · simp only [hvalue, hvariable, Check.pure_yields] at h
      obtain ⟨rfl, -⟩ := h
      exact evaluates_reference rfl
  · simp only [hvalue, Check.pure_yields] at h
    obtain ⟨rfl, -⟩ := h
    exact evaluates_immediate _ _

theorem hostParameter_valued (name : SimpleName) :
    Valued env I L (.hostParameterReference name) := by
  refine valued_leaf (fun _ _ => by rw [denote]) fun context s t x hs h => ?_
  rw [scalar] at h
  obtain ⟨u, h, -⟩ := process_runs h
  exact findPlaceholder_evaluates h

theorem placeholder_valued (index : Nat) : Valued env I L (.placeholderReference index) := by
  refine valued_leaf (fun _ _ => by rw [denote]) fun context s t x hs h => ?_
  rw [scalar] at h
  obtain ⟨u, h, -⟩ := process_runs h
  exact findPlaceholder_evaluates h

/-- The expression that is built is legible in the scopes it leaves. -/
theorem scalar_scoped {e : ScalarExpression} {context : ValueContext} {s t : AnalyzerState ρ}
    {x : Scalar} (h : scalar env e context s = (some x, t)) (hs : s.Sound) :
    Scoped t.scopes t.fresh x :=
  ((scoping env).scalar e context h).expressions hs x List.mem_cons_self

theorem subquery_valued (q : QueryExpression) (contextKind : ExpressionContextKind) :
    Valued env I L (.subquery q contextKind) := by
  refine valued_leaf (fun _ _ => by rw [denote]) fun context s t x hs h => ?_
  have hscoped := scalar_scoped h hs
  have ht := scalar_sound h hs
  rw [scalar] at h
  obtain ⟨u, h, -⟩ := process_runs h
  cases contextKind with
  | row => cases h
  | scalar =>
    simp only [processSubquery, Check.bind_yields, Check.pure_yields] at h
    obtain ⟨⟨result, parameters⟩, _, -, column, _, -, rfl, -⟩ := h
    exact evaluates_subquery (parameters_notLocal ht (scoped_subquery.mp hscoped)) column

theorem tablePredicate_valued (op : TableOperator) (operand : QueryExpression) :
    Valued env I L (.tablePredicate op operand) := by
  refine valued_leaf (fun _ _ => by rw [denote]) fun context s t x hs h => ?_
  have hscoped := scalar_scoped h hs
  have ht := scalar_sound h hs
  rw [scalar] at h
  obtain ⟨u, h, -⟩ := process_runs h
  cases op with
  | unique => cases h
  | exists_ =>
    simp only [processTablePredicate, Check.bind_yields, Check.pure_yields] at h
    obtain ⟨⟨result, parameters⟩, _, -, rfl, -⟩ := h
    exact evaluates_exists (parameters_notLocal ht (scoped_exists.mp hscoped))

/-! ### Operators -/

theorem convertUnaryOperator_yields (hI : I.Documented L) {op : Ast.UnaryOperator}
    {op' : Plan.UnaryOperator} {s t : AnalyzerState ρ}
    (h : convertUnaryOperator op s = (some op', t)) :
    s = t ∧ ∃ m, unaryMeaning I L op = some m ∧ ∀ a, I.unary op' a = m a := by
  cases op with
  | atLocal => cases h
  | referenceResolution => cases h
  | plus =>
    obtain ⟨rfl, rfl⟩ := (Check.pure_yields ..).mp h
    exact ⟨rfl, _, rfl, fun _ => rfl⟩
  | minus =>
    obtain ⟨rfl, rfl⟩ := (Check.pure_yields ..).mp h
    exact ⟨rfl, _, rfl, fun _ => rfl⟩
  | not_ =>
    obtain ⟨rfl, rfl⟩ := (Check.pure_yields ..).mp h
    exact ⟨rfl, _, rfl, hI.conditionalNot⟩

theorem convertBinaryOperator_yields (hI : I.Documented L) {op : Ast.BinaryOperator}
    {op' : Plan.BinaryOperator} {s t : AnalyzerState ρ}
    (h : convertBinaryOperator op s = (some op', t)) :
    s = t ∧ ∃ m, binaryMeaning I L op = some m ∧ ∀ a b, I.binary op' a b = m a b := by
  cases op
  case and_ =>
    obtain ⟨rfl, rfl⟩ := (Check.pure_yields ..).mp h
    exact ⟨rfl, _, rfl, hI.conditionalAnd⟩
  case or_ =>
    obtain ⟨rfl, rfl⟩ := (Check.pure_yields ..).mp h
    exact ⟨rfl, _, rfl, hI.conditionalOr⟩
  case plus | minus | asterisk | solidus | percent | concatenation =>
    obtain ⟨rfl, rfl⟩ := (Check.pure_yields ..).mp h
    exact ⟨rfl, _, rfl, fun _ _ => rfl⟩
  all_goals cases h

theorem convertIsRight_yields (hI : I.Documented L) {literal : Literal} {op : Plan.UnaryOperator}
    {s t : AnalyzerState ρ} (h : convertIsRight literal s = (some op, t)) :
    s = t ∧ ∃ test, L.test literal = some test ∧ ∀ a, I.unary op a = L.ofTruth (test a) := by
  unfold convertIsRight at h
  split at h
  · obtain ⟨rfl, rfl⟩ := (Check.pure_yields ..).mp h
    exact ⟨rfl, _, rfl, hI.isNull⟩
  · obtain ⟨rfl, rfl⟩ := (Check.pure_yields ..).mp h
    exact ⟨rfl, _, rfl, hI.isTrue⟩
  · obtain ⟨rfl, rfl⟩ := (Check.pure_yields ..).mp h
    exact ⟨rfl, _, rfl, hI.isFalse⟩
  · obtain ⟨rfl, rfl⟩ := (Check.pure_yields ..).mp h
    exact ⟨rfl, _, rfl, hI.isUnknown⟩
  · cases h

theorem unary_valued (hI : I.Documented L) {operand : ScalarExpression}
    (h : Valued env I L operand) (op : Ast.UnaryOperator) :
    Valued env I L (.unaryExpression op operand) := by
  intro context s t x hs hrun
  rw [scalar] at hrun
  obtain ⟨u, hrun, -⟩ := process_runs hrun
  simp only [processUnary, Check.bind_yields, Check.pure_yields] at hrun
  obtain ⟨op', _, hop, y, v, hy, rfl, -⟩ := hrun
  obtain ⟨rfl, m, hm, hvalue⟩ := convertUnaryOperator_yields hI hop
  obtain ⟨f, hf, hfy⟩ := h .unspecified hs hy
  refine ⟨fun group row => m (f group row), by rw [denote, hm, hf]; rfl, ?_⟩
  simpa only [hvalue] using hfy.unary op'

theorem cast_valued {operand : ScalarExpression} (h : Valued env I L operand) (op : CastOperator)
    (type : TypeNode) : Valued env I L (.castExpression op operand type) := by
  intro context s t x hs hrun
  have hscalar := hrun
  rw [scalar] at hrun
  obtain ⟨u, hrun, -⟩ := process_runs hrun
  simp only [processCast, Check.bind_yields, Check.pure_yields] at hrun
  obtain ⟨_, v, hreport, y, w, hy, type', w', htype, rfl, -⟩ := hrun
  obtain ⟨f, hf, hfy⟩ := h .unspecified (hs.of_quiet (reportCastOperator_quiet op hreport)) hy
  refine ⟨fun group row => I.cast type' .ignore (f group row), ?_, hfy.cast type' .ignore⟩
  rw [denote, hreport, hf, hscalar]
  rfl

theorem is_valued (hI : I.Documented L) {left right : ScalarExpression}
    (h : Valued env I L left) {isNot : Bool} {s t : AnalyzerState ρ} {x : Scalar} (hs : s.Sound)
    (hrun : processIs (scalar env left) isNot right s = (some x, t)) :
    ∃ f m, denote I L env left .unspecified s = some f ∧ isMeaning L isNot right f = some m ∧
      Evaluates I x m := by
  unfold processIs at hrun
  split at hrun
  · simp only [Check.bind_yields, Check.pure_yields] at hrun
    obtain ⟨op, _, hop, y, v, hy, rfl, -⟩ := hrun
    obtain ⟨rfl, test, htest, hvalue⟩ := convertIsRight_yields hI hop
    obtain ⟨f, hf, hfy⟩ := h .unspecified hs hy
    refine ⟨f, _, hf, by rw [isMeaning, htest]; rfl, ?_⟩
    have hunary : Evaluates I (.unary op y) fun group row => L.ofTruth (test (f group row)) := by
      simpa only [hvalue] using hfy.unary op
    exact hunary.predicate hI isNot
  · cases hrun

theorem binary_valued (hI : I.Documented L) {left right : ScalarExpression}
    (hl : Valued env I L left) (hr : Valued env I L right) (op : Ast.BinaryOperator) :
    Valued env I L (.binaryExpression left op right) := by
  intro context s t x hs hrun
  rw [scalar] at hrun
  obtain ⟨u, hrun, -⟩ := process_runs hrun
  unfold processBinary at hrun
  split at hrun
  · obtain ⟨f, m, hf, hm, hx⟩ := is_valued hI hl hs hrun
    exact ⟨m, by rw [denote, hf]; exact hm, hx⟩
  · obtain ⟨f, m, hf, hm, hx⟩ := is_valued hI hl hs hrun
    exact ⟨m, by rw [denote, hf]; exact hm, hx⟩
  · rename_i his hisNot
    simp only [Check.bind_yields, Check.pure_yields] at hrun
    obtain ⟨op', _, hop, l, v, hl', r, w, hr', rfl, -⟩ := hrun
    obtain ⟨rfl, m, hm, hvalue⟩ := convertBinaryOperator_yields hI hop
    obtain ⟨f, hf, hfl⟩ := hl .unspecified hs hl'
    obtain ⟨g, hg, hgr⟩ := hr .unspecified (scalar_sound hl' hs) hr'
    refine ⟨fun group row => m (f group row) (g group row), ?_, ?_⟩
    · rw [denote_binary his hisNot, hm, hf, afterOperand_eq hl', hg]
      rfl
    · simpa only [hvalue] using hfl.binary hgr op'

theorem comparison_valued (hI : I.Documented L) {left right : ScalarExpression}
    (hl : Valued env I L left) (hr : Valued env I L right) (op : Ast.ComparisonOperator) :
    Valued env I L (.comparisonPredicate left op right) := by
  intro context s t x hs hrun
  rw [scalar] at hrun
  obtain ⟨u, hrun, -⟩ := process_runs hrun
  simp only [processComparison, Check.bind_yields, Check.pure_yields] at hrun
  obtain ⟨l, v, hl', r, w, hr', rfl, -⟩ := hrun
  obtain ⟨f, hf, hfl⟩ := hl .unspecified hs hl'
  obtain ⟨g, hg, hgr⟩ := hr .unspecified (scalar_sound hl' hs) hr'
  refine ⟨fun group row => L.ofTruth (L.compares op (f group row) (g group row)), ?_, ?_⟩
  · rw [denote, hf, afterOperand_eq hl', hg]
    rfl
  · simpa only [L.compare_convert] using hfl.compare hI hgr (convertComparisonOperator op)

end Mizugaki.Analyzer
