import Mizugaki.Analyzer.QuerySimulation
import Mizugaki.Analyzer.Statement
import Mizugaki.Tracking.Traversal

/-! Which operators of a plan passed the expression analyzer. The analyzer is made to record the
operators that it accepts; every operator of an accepted query is on the record as it is placed,
except those of EXCEPT and INTERSECT, which are never handed to it. -/

namespace Mizugaki.Plan

/-- An operator apart from the count of a limit, which is no expression, column or mapping. -/
def Operator.withoutCount : Operator → Operator
  | limit _ groupKeys sortKeys => limit none groupKeys sortKeys
  | op => op

/-- A property of an operator and of all that are nested in it. -/
inductive Operator.Hereditary (P : Operator → Prop) : Operator → Prop where
  | intro {op : Operator} (here : P op)
      (inside : ∀ inner ∈ placed op.nested, Hereditary P inner) : Hereditary P op

/-- The operators of a graph and of all graphs that are nested in it. -/
inductive Graph.Places : Graph → Operator → Prop where
  | here {g : Graph} {op : Operator} : op ∈ g.operators → Places g op
  | inside {g : Graph} {op inner : Operator} {n : SubqueryNode} :
      op ∈ g.operators → n ∈ op.nested → Places n.graph inner → Places g inner

theorem Graph.owner_mem (g : Graph) : g.owner ∈ g.operators := by
  cases g <;> exact List.mem_cons_self

theorem Operator.isDifference_withoutCount (op : Operator) :
    op.withoutCount.isDifference = op.isDifference := by
  cases op <;> rfl

namespace Operator.Hereditary

variable {P Q : Operator → Prop} {op : Operator}

theorem here (h : op.Hereditary P) : P op := by
  cases h with
  | intro here _ => exact here

theorem inside (h : op.Hereditary P) {inner : Operator} (hinner : inner ∈ placed op.nested) :
    inner.Hereditary P := by
  cases h with
  | intro _ inside => exact inside inner hinner

theorem mono (hPQ : ∀ op, P op → Q op) (h : op.Hereditary P) : op.Hereditary Q := by
  induction h with
  | intro here _ ih => exact .intro (hPQ _ here) ih

/-- What holds of the operators of a graph and all that is nested holds of those it places. -/
theorem of_places {g : Graph} (h : ∀ op ∈ g.operators, op.Hereditary P) (hop : g.Places op) :
    P op := by
  induction hop with
  | here hop => exact (h _ hop).here
  | inside hop hn _ ih =>
    exact ih fun inner hinner =>
      (h _ hop).inside (List.mem_flatMap.mpr ⟨_, hn, hinner⟩)

end Operator.Hereditary

end Mizugaki.Plan

namespace Mizugaki.Analyzer

open Mizugaki.Ast Mizugaki.Plan Mizugaki.Control

variable {ρ : Type}

/-! ### The record -/

/-- A result without diagnostics. -/
def Resolution.passes {α : Type} (r : Resolution α) : Bool :=
  r.diagnostics.isEmpty && r.result.isSome

/-- An operator that passed the expression analyzer in a state. -/
structure Pass (env : Environment ρ) where
  before : ρ
  operator_ : Operator
  validate : Bool
  passes : (env.expressionAnalyzer.resolveOperator before operator_ validate).1.passes = true

/-- An environment whose expression analyzer records the operators that pass it. -/
def Environment.recording (env : Environment ρ) : Environment (ρ × List (Pass env)) where
  options := env.options
  placeholders := env.placeholders
  hostParameters := env.hostParameters
  expressionAnalyzer :=
    { resolveScalar := fun r e validate =>
        let result := env.expressionAnalyzer.resolveScalar r.1 e validate
        (result.1, result.2, r.2)
      resolveOperator := fun r op validate =>
        let result := env.expressionAnalyzer.resolveOperator r.1 op validate
        (result.1, result.2,
          if h : result.1.passes = true then r.2 ++ [⟨r.1, op, validate, h⟩] else r.2)
      isResolved := fun r v => env.expressionAnalyzer.isResolved r.1 v
      bindColumn := fun r v column => (env.expressionAnalyzer.bindColumn r.1 v column, r.2)
      bindAlias := fun r v source => (env.expressionAnalyzer.bindAlias r.1 v source, r.2)
      clearExpressions := fun r => (env.expressionAnalyzer.clearExpressions r.1, r.2)
      unbind := fun r e => (env.expressionAnalyzer.unbind r.1 e, r.2) }
  isParameterApplicationConvertible := env.isParameterApplicationConvertible
  parsers := env.parsers
  source := env.source
  nameSuffixDistinct := env.nameSuffixDistinct

theorem Environment.over_recording (env : Environment ρ) :
    env.over env.recording.expressionAnalyzer = env.recording := rfl

variable {env : Environment ρ}

/-- The recording analyzer answers as the one it is made of. -/
instance : ExpressionAnalyzer.Follows Prod.fst env.recording.expressionAnalyzer
    env.expressionAnalyzer where
  resolveScalar _ _ _ := rfl
  resolveOperator _ _ _ := rfl
  isResolved _ _ := rfl
  bindColumn _ _ _ := rfl
  bindAlias _ _ _ := rfl
  unbind _ _ := rfl

/-- The analysis of a query with a record is the one without, apart from the record. -/
theorem analyzeQueryExpression_recording (env : Environment ρ) (expression : QueryExpression)
    (context : List ScalarValueContext) :
    Simulated Prod.fst (analyzeQueryExpression env.recording expression context)
      (analyzeQueryExpression env expression context) :=
  analyzeQueryExpression_over (a := env.recording.expressionAnalyzer) env expression context

/-- The record of a state. -/
def AnalyzerState.passed (s : AnalyzerState (ρ × List (Pass env))) : List (Pass env) :=
  s.resolution.2

/-- An operator on the record. -/
def Passed (log : List (Pass env)) (op : Operator) : Prop :=
  ∃ p ∈ log, p.operator_.withoutCount = op.withoutCount

theorem Passed.mono {log log' : List (Pass env)} (h : log ⊆ log') {op : Operator}
    (hop : Passed log op) : Passed log' op := by
  obtain ⟨p, hp, heq⟩ := hop
  exact ⟨p, h hp, heq⟩

/-- What is accepted passes. -/
theorem conclude_passes {σ α : Type} {r : Resolution α} {s t : AnalyzerState σ} {a : α}
    (h : conclude r s = (some a, t)) : r.passes = true ∧ s = t := by
  obtain ⟨diagnostics, result⟩ := r
  cases diagnostics with
  | cons d ds => cases h
  | nil =>
    cases result with
    | none => cases h
    | some b =>
      obtain ⟨-, rfl⟩ := (Check.pure_yields ..).mp h
      exact ⟨rfl, rfl⟩

/-- An operator that is resolved is recorded. -/
theorem resolveOperator_passed {op : Operator} {s t : AnalyzerState (ρ × List (Pass env))} {a : Unit}
    (h : resolveOperator env.recording op s = (some a, t)) :
    t.scopes = s.scopes ∧ ∃ p, p.operator_ = op ∧ t.passed = s.passed ++ [p] := by
  simp only [resolveOperator, Check.bind_yields, Check.get_yields, Check.modify_yields] at h
  obtain ⟨_, _, ⟨rfl, rfl⟩, _, _, rfl, h⟩ := h
  obtain ⟨hpasses, rfl⟩ := conclude_passes h
  exact ⟨rfl, ⟨_, op, false, hpasses⟩, rfl, dif_pos hpasses⟩

/-! ### What a run records -/

/-- An operator on the record, or one of EXCEPT or INTERSECT when these may be placed. -/
def Resolved (merging : Prop) (log : List (Pass env)) (op : Operator) : Prop :=
  Passed log op ∨ merging ∧ op.isDifference = true

theorem resolved_mono {merging : Prop} {log log' : List (Pass env)} (h : log ⊆ log') {op : Operator}
    (hop : op.Hereditary (Resolved merging log)) : op.Hereditary (Resolved merging log') :=
  hop.mono fun _ hresolved => hresolved.imp_left (Passed.mono h)

/-- The record of a state has no operators of EXCEPT and INTERSECT, and those of the queries that its
scopes declare are on it. -/
structure AnalyzerState.Settled (merging : Prop) (s : AnalyzerState (ρ × List (Pass env))) : Prop where
  recorded : ∀ p ∈ s.passed, p.operator_.isDifference = false
  declared : ∀ scope ∈ s.scopes, ∀ name q, scope.queryMap name = some q →
    ∀ op ∈ q.queryGraph.operators, op.Hereditary (Resolved merging s.passed)

namespace AnalyzerState.Settled

variable {merging : Prop} {s t : AnalyzerState (ρ × List (Pass env))}

/-- Before anything happened. -/
theorem of_nothing (hpassed : s.passed = [])
    (hscopes : ∀ scope ∈ s.scopes, scope.queryMap = fun _ => none) : s.Settled merging where
  recorded p hp := by
    rw [hpassed] at hp
    cases hp
  declared scope hscope name q hq := by
    rw [hscopes scope hscope] at hq
    cases hq

/-- The record and the queries of the scopes are the same. -/
theorem congr (h : s.Settled merging) (hpassed : t.passed = s.passed)
    (hscopes : ∀ scope ∈ t.scopes, ∃ x ∈ s.scopes, scope.queryMap = x.queryMap) :
    t.Settled merging where
  recorded := by
    rw [hpassed]
    exact h.recorded
  declared scope hscope name q hq := by
    obtain ⟨x, hx, hmap⟩ := hscopes scope hscope
    rw [hmap] at hq
    rw [hpassed]
    exact h.declared x hx name q hq

end AnalyzerState.Settled

/-- A run from a state to another that placed operators. -/
structure Recorded (merging : Prop) (os : List Operator)
    (s t : AnalyzerState (ρ × List (Pass env))) : Prop where
  grows : s.passed ⊆ t.passed
  settled : s.Settled merging → t.Settled merging
  resolved : s.Settled merging → ∀ op ∈ os, op.Hereditary (Resolved merging t.passed)

namespace Recorded

variable {merging : Prop} {s t : AnalyzerState (ρ × List (Pass env))}

/-- A step after which the record and the queries of the scopes are the same. -/
theorem of_same (hpassed : t.passed = s.passed)
    (hscopes : ∀ scope ∈ t.scopes, ∃ x ∈ s.scopes, scope.queryMap = x.queryMap) :
    Recorded merging [] s t where
  grows := by
    rw [hpassed]
    exact List.Subset.refl _
  settled h := h.congr hpassed hscopes
  resolved _ _ hop := by cases hop

theorem of_scopes (hpassed : t.passed = s.passed) (hscopes : t.scopes = s.scopes) :
    Recorded merging [] s t :=
  .of_same hpassed fun scope hscope => ⟨scope, hscopes ▸ hscope, rfl⟩

/-- A step that records one operator more, which is not one of EXCEPT or INTERSECT. -/
theorem of_pass {p : Pass env} (hp : p.operator_.isDifference = false)
    (hpassed : t.passed = s.passed ++ [p]) (hscopes : t.scopes = s.scopes) :
    Recorded merging [] s t := by
  have hgrows : s.passed ⊆ t.passed := by
    rw [hpassed]
    exact List.subset_append_left _ _
  refine ⟨hgrows, fun h => ⟨?_, fun scope hscope name q hq op hop => ?_⟩, fun _ _ hop => by cases hop⟩
  · rw [hpassed, List.forall_mem_append]
    exact ⟨h.recorded, List.forall_mem_singleton.mpr hp⟩
  · rw [hscopes] at hscope
    exact resolved_mono hgrows (h.declared scope hscope name q hq op hop)

/-- A run after another: what the first placed stays on the record. -/
theorem append {os ps : List Operator} {u : AnalyzerState (ρ × List (Pass env))}
    (h : Recorded merging os s t) (k : Recorded merging ps t u) :
    Recorded merging (os ++ ps) s u where
  grows := List.Subset.trans h.grows k.grows
  settled := k.settled ∘ h.settled
  resolved hs := List.forall_mem_append.mpr
    ⟨fun op hop => resolved_mono k.grows (h.resolved hs op hop), k.resolved (h.settled hs)⟩

end Recorded

variable {merging : Prop}

instance : Numbering (Recorded merging [] :
    AnalyzerState (ρ × List (Pass env)) → AnalyzerState (ρ × List (Pass env)) → Prop) where
  refl s := .of_scopes rfl rfl
  trans h k :=
    { grows := List.Subset.trans h.grows k.grows
      settled := k.settled ∘ h.settled
      resolved := fun _ _ hop => by cases hop }
  report s diagnostics := .of_scopes rfl rfl
  number s := .of_scopes rfl rfl

instance : Resolving env.recording (Recorded merging []) where
  scalar _ _ _ := .of_scopes rfl rfl
  column _ _ _ := .of_scopes rfl rfl
  aliased _ _ _ := .of_scopes rfl rfl
  unbind _ _ := .of_scopes rfl rfl

instance : Placing env.recording (Recorded merging []) where
  operator s op h := by
    by_cases hpasses :
        (env.expressionAnalyzer.resolveOperator s.resolution.1 op false).1.passes = true
    · exact .of_pass (p := ⟨_, op, false, hpasses⟩) h (dif_pos hpasses) rfl
    · exact .of_scopes (dif_neg hpasses) rfl

/-- The operators that a run placed are on the record. -/
theorem recorded_tracks : Tracks env.recording merging (Recorded merging) where
  append := Recorded.append
  subset h hps := ⟨h.grows, h.settled, fun hs op hop => h.resolved hs op (hps hop)⟩
  mark s b := .of_scopes rfl rfl
  modify s i g hg := by
    refine .of_same rfl fun scope hscope => ?_
    obtain ⟨j, hj, rfl⟩ := List.mem_iff_getElem.mp hscope
    rw [List.length_modify] at hj
    refine ⟨s.scopes[j], List.getElem_mem hj, ?_⟩
    rw [List.getElem_modify]
    split_ifs
    · exact hg _
    · rfl
  entered {os s t scope} hscope h := by
    have henter : s.Settled merging → (s.enter scope).Settled merging := fun hs =>
      ⟨hs.recorded, List.forall_mem_cons.mpr ⟨fun name q hq => (by
        rw [hscope] at hq
        cases hq), hs.declared⟩⟩
    refine ⟨h.grows, fun hs => (h.settled (henter hs)).congr rfl fun x hx =>
      ⟨x, List.mem_of_mem_tail hx, rfl⟩, fun hs => h.resolved (henter hs)⟩
  resolved {op os s t u a} h hnested hop hresolve := by
    obtain ⟨hscopes, p, rfl, hpassed⟩ := resolveOperator_passed hresolve
    have hall := h.append (.of_pass hop hpassed hscopes)
    rw [List.append_nil] at hall
    refine ⟨hall.grows, hall.settled, fun hs => List.forall_mem_cons.mpr
      ⟨.intro (.inl ⟨p, ?_, rfl⟩) fun inner hinner => hall.resolved hs inner (hnested hinner),
        hall.resolved hs⟩⟩
    rw [hpassed]
    exact List.mem_append_right _ (List.mem_singleton_self p)
  counted {c c' keys sort os s t} h := by
    refine ⟨h.grows, h.settled, fun hs => ?_⟩
    obtain ⟨hlimit, hall⟩ := List.forall_mem_cons.mp (h.resolved hs)
    refine List.forall_mem_cons.mpr ⟨.intro ?_ fun inner hinner => (List.not_mem_nil hinner).elim, hall⟩
    exact hlimit.here.imp id fun h => ⟨h.1, h.2⟩
  merged hmerging {op} hop s := by
    have hstay : Recorded merging [] s s := Check.Frame.refl s
    refine ⟨hstay.grows, hstay.settled, fun hs => List.forall_mem_singleton.mpr
      (.intro (.inr ⟨hmerging, hop⟩) fun inner hinner => ?_)⟩
    cases op with
    | difference quantifier pairs => cases hinner
    | intersection quantifier pairs => cases hinner
    | _ => cases hop
  referred {s scope name q} hscope hq := by
    have hstay : Recorded merging [] s s := Check.Frame.refl s
    exact ⟨hstay.grows, hstay.settled, fun hs => hs.declared scope hscope name q hq⟩
  declared {s t u name q a} h hadd := by
    obtain ⟨hstate, hqueries⟩ := addQuery_queries _ hadd
    have hpassed : u.passed = t.passed := by rw [hstate]; rfl
    refine ⟨by rw [hpassed]; exact h.grows, fun hs => ⟨?_, fun scope hscope n q' hq => ?_⟩,
      fun _ _ hop => by cases hop⟩
    · rw [hpassed]
      exact (h.settled hs).recorded
    · rw [hpassed]
      obtain rfl | ⟨x, hx, hq⟩ := hqueries scope hscope n q' hq
      · exact h.resolved hs
      · exact (h.settled hs).declared x hx n q' hq

/-! ### Accepted queries -/

/-- No operator of EXCEPT or INTERSECT gets on the record. -/
theorem difference_not_passed {expression : QueryExpression} {context : List ScalarValueContext}
    {s t : AnalyzerState (ρ × List (Pass env))} {r : QueryResult} (hs : s.Settled True)
    (h : analyzeQueryExpression env.recording expression context s = (some r, t)) {op : Operator}
    (hop : Passed t.passed op) : op.isDifference = false := by
  have hrun := query_tracked (recorded_tracks : Tracks env.recording True _) (fun _ _ _ => trivial)
    context false h
  obtain ⟨p, hp, heq⟩ := hop
  rw [← op.isDifference_withoutCount, ← heq, p.operator_.isDifference_withoutCount]
  exact (hrun.settled hs).recorded p hp

/-- An operator of an accepted query passed the expression analyzer as it is placed if and only if it is
not one of EXCEPT or INTERSECT; where none is written, all of them did. The query is accepted with the
same result when nothing is recorded. -/
theorem analyzeQueryExpression_passed_iff (env : Environment ρ) {expression : QueryExpression}
    {context : List ScalarValueContext} {s t : AnalyzerState (ρ × List (Pass env))} {r : QueryResult}
    (hs : s.Settled True)
    (h : analyzeQueryExpression env.recording expression context s = (some r, t)) :
    analyzeQueryExpression env expression context (s.mapNotes Prod.fst) =
        (some r, t.mapNotes Prod.fst) ∧
      (∀ op, r.output.Places op → (Passed t.passed op ↔ op.isDifference = false)) ∧
      (s.Settled False → (∀ o ∈ expression.setOperations, o.isDifference = false) →
        ∀ op, r.output.Places op → Passed t.passed op) := by
  refine ⟨?_, ?_, ?_⟩
  · rw [(analyzeQueryExpression_recording env expression context).run s, h]
  · intro op hop
    have hrun := query_tracked (recorded_tracks : Tracks env.recording True _)
      (fun _ _ _ => trivial) context false h
    refine ⟨difference_not_passed hs h, fun hdifference => ?_⟩
    obtain hpassed | ⟨-, hmerging⟩ := Operator.Hereditary.of_places (hrun.resolved hs) hop
    · exact hpassed
    · rw [hmerging] at hdifference
      cases hdifference
  · intro hs hoperations op hop
    have hrun := query_tracked (recorded_tracks : Tracks env.recording False _)
      (fun o ho hmerging => by rw [hoperations o ho] at hmerging; cases hmerging) context false h
    obtain hpassed | ⟨hfalse, -⟩ := Operator.Hereditary.of_places (hrun.resolved hs) hop
    · exact hpassed
    · exact hfalse.elim

/-- No tables, and an expression analyzer that checks the columns of set operations. -/
def typeChecked : Environment Types := .ofSchema (.ofTables [] [])

/-- `VALUES (left) operator_ VALUES (right)`. -/
def valuesOperation (operator_ : QueryOperator) (left right : Literal) : QueryExpression :=
  let row (value : Literal) : QueryExpression :=
    .tableValueConstructor [.valueConstructor .row [.literalExpression value]]
  .binaryExpression (row left) operator_ none none (row right)

/-- Nothing is recorded or declared before a statement. -/
theorem initial_settled {merging : Prop} (resolution : ρ) :
    (AnalyzerState.initial (resolution, ([] : List (Pass env)))).Settled merging :=
  .of_nothing rfl fun _ hscope => by cases hscope

theorem analyzeQueryExpression_passed_iff_union :
    let run := analyzeQueryExpression typeChecked.recording
      (valuesOperation .union_ (.boolean .true_) (.boolean .false_)) [] (.initial ([], []))
    ∃ r ∈ run.1, analyzeQueryExpression typeChecked
        (valuesOperation .union_ (.boolean .true_) (.boolean .false_)) [] (.initial []) =
          (some r, run.2.mapNotes Prod.fst) ∧
      (∀ op, r.output.Places op → (Passed run.2.passed op ↔ op.isDifference = false)) ∧
      ∀ op, r.output.Places op → Passed run.2.passed op := by
  intro run
  obtain ⟨r, hr⟩ := Option.isSome_iff_exists.mp (by decide : run.1.isSome = true)
  have hrun : run = (some r, run.2) := by rw [← hr]
  obtain ⟨hplain, hpassed, hall⟩ :=
    analyzeQueryExpression_passed_iff typeChecked (initial_settled []) hrun
  exact ⟨r, hr, hplain, hpassed, hall (initial_settled []) (by decide)⟩

/-- A boolean and a string are no columns of UNION, but they are of EXCEPT and INTERSECT, whose
operators never passed. -/
theorem analyzeQueryExpression_differenceNotPassed :
    let run (operator_ : QueryOperator) := analyzeQueryExpression typeChecked.recording
      (valuesOperation operator_ (.boolean .true_) (.string .characterString "'a'".toList []))
      [] (.initial ([], []))
    (run .union_).1.isNone = true ∧
    ∀ operator_ ∈ [QueryOperator.except, .intersect], ∃ r ∈ (run operator_).1,
      ∃ op, r.output.Places op ∧ ¬ Passed (run operator_).2.passed op := by
  intro run
  have hfound : ∀ operator_ ∈ [QueryOperator.except, .intersect],
      ((run operator_).1.any fun r => r.output.owner.isDifference) = true := by decide
  refine ⟨by decide, fun operator_ hoperator => ?_⟩
  obtain ⟨r, hr, howner⟩ := (Option.any_eq_true _ _).mp (hfound operator_ hoperator)
  have hrun : run operator_ = (some r, (run operator_).2) := by rw [← hr]
  refine ⟨r, hr, r.output.owner, .here r.output.owner_mem, fun hpassed => ?_⟩
  rw [difference_not_passed (initial_settled []) hrun hpassed] at howner
  cases howner

end Mizugaki.Analyzer
