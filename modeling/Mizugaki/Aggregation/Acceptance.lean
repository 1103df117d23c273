import Mizugaki.Analyzer.Statement
import Mizugaki.Plan.Variables

/-! Which expressions the set function processor accepts. It wants no set function in the arguments
of another one, and checks the variables that the expression reads: outside of set functions
they must be group keys or aggregated columns, inside they must not be aggregated columns.
A variable reference is only checked when it is a stream variable, the source of a parameter
of a subquery is checked whatever it is. -/

namespace Mizugaki.Plan

/-- A variable that an expression reads: in the arguments of a set function or not, as the source of a
parameter of a subquery or directly. -/
structure VariableRead where
  inside : Bool
  parameter : Bool
  variable_ : Variable

def parameterReads (inside : Bool) (parameters : List (Variable × Variable)) : List VariableRead :=
  parameters.map fun p => ⟨inside, true, p.1⟩

mutual

/-- The variables that an expression reads; `inside` tells that it is in the arguments of a set
function. -/
def Scalar.reads (inside : Bool) : Scalar → List VariableRead
  | .immediate _ _ => []
  | .variableReference v => [⟨inside, false, v⟩]
  | .cast _ _ operand => operand.reads inside
  | .unary _ operand => operand.reads inside
  | .binary _ left right => left.reads inside ++ right.reads inside
  | .compare _ left right => left.reads inside ++ right.reads inside
  | .match_ _ input pattern escape =>
    input.reads inside ++ (pattern.reads inside ++ escape.reads inside)
  | .conditional alternatives default_ => readsPairs inside alternatives ++ readsOption inside default_
  | .coalesce alternatives => readsList inside alternatives
  | .let_ variables_ body => readsBindings inside variables_ ++ body.reads inside
  | .functionCall _ arguments => readsList inside arguments
  | .aggregateFunctionCall _ arguments => readsList true arguments
  | .subquery _ parameters _ => parameterReads inside parameters
  | .exists_ _ parameters => parameterReads inside parameters
  | .quantifiedCompare _ _ left _ parameters _ =>
    parameterReads inside parameters ++ left.reads inside
termination_by structural e => e

def readsList (inside : Bool) : List Scalar → List VariableRead
  | [] => []
  | e :: es => e.reads inside ++ readsList inside es
termination_by structural es => es

def readsOption (inside : Bool) : Option Scalar → List VariableRead
  | none => []
  | some e => e.reads inside
termination_by structural e => e

def readsPairs (inside : Bool) : List (Scalar × Scalar) → List VariableRead
  | [] => []
  | (a, b) :: rest => a.reads inside ++ (b.reads inside ++ readsPairs inside rest)
termination_by structural pairs => pairs

def readsBindings (inside : Bool) : List (Variable × Scalar) → List VariableRead
  | [] => []
  | (_, e) :: rest => e.reads inside ++ readsBindings inside rest
termination_by structural bindings => bindings

end

mutual

/-- A set function is called in the arguments of another one. -/
def Scalar.nests (inside : Bool) : Scalar → Bool
  | .immediate _ _ => false
  | .variableReference _ => false
  | .cast _ _ operand => operand.nests inside
  | .unary _ operand => operand.nests inside
  | .binary _ left right => left.nests inside || right.nests inside
  | .compare _ left right => left.nests inside || right.nests inside
  | .match_ _ input pattern escape =>
    input.nests inside || (pattern.nests inside || escape.nests inside)
  | .conditional alternatives default_ => nestsPairs inside alternatives || nestsOption inside default_
  | .coalesce alternatives => nestsList inside alternatives
  | .let_ variables_ body => nestsBindings inside variables_ || body.nests inside
  | .functionCall _ arguments => nestsList inside arguments
  | .aggregateFunctionCall _ arguments => inside || nestsList true arguments
  | .subquery _ _ _ => false
  | .exists_ _ _ => false
  | .quantifiedCompare _ _ left _ _ _ => left.nests inside
termination_by structural e => e

def nestsList (inside : Bool) : List Scalar → Bool
  | [] => false
  | e :: es => e.nests inside || nestsList inside es
termination_by structural es => es

def nestsOption (inside : Bool) : Option Scalar → Bool
  | none => false
  | some e => e.nests inside
termination_by structural e => e

def nestsPairs (inside : Bool) : List (Scalar × Scalar) → Bool
  | [] => false
  | (a, b) :: rest => a.nests inside || (b.nests inside || nestsPairs inside rest)
termination_by structural pairs => pairs

def nestsBindings (inside : Bool) : List (Variable × Scalar) → Bool
  | [] => false
  | (_, e) :: rest => e.nests inside || nestsBindings inside rest
termination_by structural bindings => bindings

end

end Mizugaki.Plan

namespace Mizugaki.Analyzer

open Mizugaki.Plan Mizugaki.Control

variable {ρ α β : Type} {env : Environment ρ}

namespace SetFunctionProcessor

/-- A read that the processor checks and that it does not accept stops it. -/
def Admits (p : SetFunctionProcessor) (r : VariableRead) : Prop :=
  r.parameter = true ∨ r.variable_.isStream = true → p.accepts r.inside r.variable_ = true

/-- A later processor accepts the same of the variables that were numbered before. -/
structure Follows (p : SetFunctionProcessor) (n : Nat) (q : SetFunctionProcessor) (m : Nat) : Prop where
  counter : n ≤ m
  grouping : q.groupingColumns = p.groupingColumns
  aggregated : ∀ v, v.Below n → (v ∈ q.aggregatedColumns ↔ v ∈ p.aggregatedColumns)

namespace Follows

variable {p q r : SetFunctionProcessor} {n m l : Nat}

theorem refl (p : SetFunctionProcessor) (n : Nat) : p.Follows n p n := ⟨le_rfl, rfl, fun _ _ => .rfl⟩

theorem trans (h : p.Follows n q m) (k : q.Follows m r l) : p.Follows n r l where
  counter := h.counter.trans k.counter
  grouping := k.grouping.trans h.grouping
  aggregated v hv := (k.aggregated v (hv.mono h.counter)).trans (h.aggregated v hv)

theorem admits_iff (h : p.Follows n q m) {r : VariableRead} (hr : r.variable_.Below n) :
    q.Admits r ↔ p.Admits r := by
  unfold Admits accepts
  rw [h.grouping]
  simp only [h.aggregated _ hr]

end Follows

end SetFunctionProcessor

/-- A part of the processor accepts exactly when there is no nesting in it and all of its reads are
admitted; afterwards the same reads are admitted. -/
structure Judged (reads : List VariableRead) (nests : Bool)
    (m : SetFunctionProcessor → Analysis ρ (β × SetFunctionProcessor)) (p : SetFunctionProcessor)
    (s : AnalyzerState ρ) : Prop where
  accepts_iff : (∃ b q t, m p s = (some (b, q), t)) ↔ nests = false ∧ ∀ r ∈ reads, p.Admits r
  follows : ∀ b q t, m p s = (some (b, q), t) → p.Follows s.fresh q t.fresh

/-- So it does in every state where the variables it reads exist. -/
def Judges (reads : List VariableRead) (nests : Bool)
    (m : SetFunctionProcessor → Analysis ρ (β × SetFunctionProcessor)) : Prop :=
  ∀ p s, (∀ r ∈ reads, r.variable_.Below s.fresh) → Judged reads nests m p s

namespace Judges

variable {rs rs' : List VariableRead} {n n' : Bool}
  {m : SetFunctionProcessor → Analysis ρ (α × SetFunctionProcessor)}

theorem pure (b : β) : Judges [] false fun p => (pure (b, p) : Analysis ρ _) := by
  intro p s _
  refine ⟨⟨fun _ => ⟨rfl, fun _ hr => nomatch hr⟩, fun _ => ⟨b, p, s, rfl⟩⟩, fun c q t h => ?_⟩
  simp only [Check.pure_yields, Prod.mk.injEq] at h
  obtain ⟨⟨rfl, rfl⟩, rfl⟩ := h
  exact .refl p s.fresh

/-- One part after another: what the first leaves admits the same reads. -/
theorem bind (hm : Judges rs n m)
    {f : α × SetFunctionProcessor → Analysis ρ (β × SetFunctionProcessor)}
    (hf : ∀ a, Judges rs' n' fun p => f (a, p)) :
    Judges (rs ++ rs') (n || n') fun p => m p >>= f := by
  intro p s hbelow
  obtain ⟨hfirst, hrest⟩ := List.forall_mem_append.mp hbelow
  have hm := hm p s hfirst
  constructor
  · rw [Bool.or_eq_false_iff, List.forall_mem_append]
    constructor
    · rintro ⟨b, q, t, h⟩
      obtain ⟨⟨a, r⟩, u, ha, hb⟩ := (Check.bind_yields ..).mp h
      obtain ⟨hn, hrs⟩ := hm.accepts_iff.mp ⟨a, r, u, ha⟩
      have hfollows := hm.follows a r u ha
      have hf := hf a r u fun v hv => (hrest v hv).mono hfollows.counter
      obtain ⟨hn', hrs'⟩ := hf.accepts_iff.mp ⟨b, q, t, hb⟩
      exact ⟨⟨hn, hn'⟩, hrs, fun v hv => (hfollows.admits_iff (hrest v hv)).mp (hrs' v hv)⟩
    · rintro ⟨⟨hn, hn'⟩, hrs, hrs'⟩
      obtain ⟨a, r, u, ha⟩ := hm.accepts_iff.mpr ⟨hn, hrs⟩
      have hfollows := hm.follows a r u ha
      have hf := hf a r u fun v hv => (hrest v hv).mono hfollows.counter
      obtain ⟨b, q, t, hb⟩ := hf.accepts_iff.mpr
        ⟨hn', fun v hv => (hfollows.admits_iff (hrest v hv)).mpr (hrs' v hv)⟩
      exact ⟨b, q, t, (Check.bind_yields ..).mpr ⟨(a, r), u, ha, hb⟩⟩
  · intro b q t h
    obtain ⟨⟨a, r⟩, u, ha, hb⟩ := (Check.bind_yields ..).mp h
    have hfollows := hm.follows a r u ha
    have hf := hf a r u fun v hv => (hrest v hv).mono hfollows.counter
    exact hfollows.trans (hf.follows b q t hb)

/-- The result put together. -/
theorem map (hm : Judges rs n m)
    {f : α × SetFunctionProcessor → Analysis ρ (β × SetFunctionProcessor)} {g : α → β}
    (hf : ∀ a p, f (a, p) = Pure.pure (g a, p)) : Judges rs n fun p => m p >>= f := by
  have hall := hm.bind (f := f) fun a => (funext fun p => hf a p : (fun p => f (a, p)) = _) ▸ pure (g a)
  rw [List.append_nil, Bool.or_false] at hall
  exact hall

/-- Reads that are checked first. -/
theorem check {c : SetFunctionProcessor → Analysis ρ Unit}
    (hc : ∀ p s t, c p s = (some (), t) ↔ (∀ r ∈ rs, p.Admits r) ∧ s = t) (hm : Judges rs' n m) :
    Judges (rs ++ rs') n fun p => c p >>= fun _ => m p := by
  intro p s hbelow
  obtain ⟨-, hrest⟩ := List.forall_mem_append.mp hbelow
  have hm := hm p s hrest
  have hrun : ∀ a t, (c p >>= fun _ => m p) s = (some a, t) ↔
      (∀ r ∈ rs, p.Admits r) ∧ m p s = (some a, t) := by
    intro a t
    rw [Check.bind_yields]
    constructor
    · rintro ⟨⟨⟩, u, hu, h⟩
      obtain ⟨hadmits, rfl⟩ := (hc p s u).mp hu
      exact ⟨hadmits, h⟩
    · rintro ⟨hadmits, h⟩
      exact ⟨(), s, (hc p s s).mpr ⟨hadmits, rfl⟩, h⟩
  constructor
  · rw [List.forall_mem_append]
    constructor
    · rintro ⟨a, q, t, h⟩
      obtain ⟨hadmits, h⟩ := (hrun ..).mp h
      obtain ⟨hn, hrs⟩ := hm.accepts_iff.mp ⟨a, q, t, h⟩
      exact ⟨hn, hadmits, hrs⟩
    · rintro ⟨hn, hadmits, hrs⟩
      obtain ⟨a, q, t, h⟩ := hm.accepts_iff.mpr ⟨hn, hrs⟩
      exact ⟨a, q, t, (hrun ..).mpr ⟨hadmits, h⟩⟩
  · intro a q t h
    exact hm.follows a q t ((hrun ..).mp h).2

end Judges

/-! ### The parts of the processor -/

theorem checkVariable_iff (p : SetFunctionProcessor) (inside : Bool) (v : Variable)
    (s t : AnalyzerState ρ) :
    checkVariable p inside v s = (some (), t) ↔ p.accepts inside v = true ∧ s = t := by
  unfold checkVariable
  cases p.accepts inside v with
  | true => simp
  | false => simp [fail]

theorem checkReference_iff (p : SetFunctionProcessor) (inside : Bool) (v : Variable)
    (s t : AnalyzerState ρ) : checkReference p inside v s = (some (), t) ↔
      (∀ r ∈ [(⟨inside, false, v⟩ : VariableRead)], p.Admits r) ∧ s = t := by
  unfold checkReference SetFunctionProcessor.Admits
  cases hv : v.isStream with
  | true => simp [checkVariable_iff, hv]
  | false => simp [hv]

theorem checkParameters_iff (inside : Bool) (parameters : List (Variable × Variable))
    (p : SetFunctionProcessor) (s t : AnalyzerState ρ) :
    checkParameters p inside parameters s = (some (), t) ↔
      (∀ r ∈ parameterReads inside parameters, p.Admits r) ∧ s = t := by
  induction parameters with
  | nil => simp [checkParameters, parameterReads]
  | cons parameter rest ih =>
    have hhead : p.Admits ⟨inside, true, parameter.1⟩ ↔ p.accepts inside parameter.1 = true := by
      simp [SetFunctionProcessor.Admits]
    have hreads : parameterReads inside (parameter :: rest) =
        ⟨inside, true, parameter.1⟩ :: parameterReads inside rest := rfl
    rw [checkParameters, hreads, List.forall_mem_cons, hhead]
    cases p.accepts inside parameter.1 with
    | true => simpa using ih
    | false => simp [fail]

/-- The arguments of a call get fresh variables. -/
theorem replaceArguments_follows (arguments : List Scalar) (p : SetFunctionProcessor)
    (s : AnalyzerState ρ) : ∃ rs q t, replaceArguments p arguments s = (some (rs, q), t) ∧
      p.Follows s.fresh q t.fresh := by
  induction arguments generalizing p s with
  | nil => exact ⟨[], p, s, rfl, .refl p s.fresh⟩
  | cons e es ih =>
    obtain ⟨rs, q, t, hrun, hfollows⟩ :=
      ih { p with arguments := some (p.argumentColumns ++ [(.stream s.fresh, e)]) }
        { s with fresh := s.fresh + 1 }
    refine ⟨.stream s.fresh :: rs, q, t, ?_, ?_⟩
    · simp only [replaceArguments, Check.bind_yields, Check.pure_yields, streamVariable_yields]
      exact ⟨_, _, ⟨rfl, rfl⟩, _, t, hrun, rfl, rfl⟩
    · exact
        { counter := s.fresh.le_succ.trans hfollows.counter
          grouping := hfollows.grouping
          aggregated := fun v hv => hfollows.aggregated v (hv.mono s.fresh.le_succ) }

/-- A call is consumed, and at most a fresh column is aggregated by it. -/
theorem consume_follows (function : AggregateDecl) (arguments : List Scalar)
    (p : SetFunctionProcessor) (s : AnalyzerState ρ) :
    ∃ e q t, consume env p function arguments s = (some (e, q), t) ∧
      p.Follows s.fresh q t.fresh := by
  let cleared : AnalyzerState ρ := { s with
    resolution := env.expressionAnalyzer.unbind s.resolution (.aggregateFunctionCall function arguments) }
  obtain ⟨rs, q, t, hrun, hfollows⟩ := replaceArguments_follows arguments p.activate cleared
  have hclear : clearExpressionResolution env (.aggregateFunctionCall function arguments) s =
      (some (), cleared) := rfl
  simp only [consume, Check.bind_yields]
  cases hfind : q.findAggregation function rs with
  | some existing =>
    refine ⟨.variableReference existing, { q with aggregations := some q.aggregationsStore }, t,
      ⟨(), cleared, hclear, (rs, q), t, hrun, ?_⟩, ?_⟩
    · simp only [hfind]
      rfl
    · exact ⟨hfollows.counter, hfollows.grouping, hfollows.aggregated⟩
  | none =>
    refine ⟨.variableReference (.stream t.fresh),
      { q with
        aggregations := some (q.aggregationsStore.1,
          q.aggregationsStore.2 ++ [⟨function, rs, .stream t.fresh⟩])
        aggregatedColumns := q.aggregatedColumns ++ [.stream t.fresh] },
      { t with fresh := t.fresh + 1 }, ⟨(), cleared, hclear, (rs, q), t, hrun, ?_⟩, ?_⟩
    · simp only [hfind]
      rfl
    · refine ⟨hfollows.counter.trans t.fresh.le_succ, hfollows.grouping, fun v hv => ?_⟩
      have hne : v ≠ .stream t.fresh := by
        rintro rfl
        exact absurd (Nat.lt_of_lt_of_le hv hfollows.counter) (Nat.lt_irrefl _)
      rw [List.mem_append, List.mem_singleton, hfollows.aggregated v hv]
      exact or_iff_left hne

theorem consume_judges (function : AggregateDecl) (arguments : List Scalar) :
    Judges [] false fun p => consume env p function arguments := by
  intro p s _
  obtain ⟨e, q, t, hrun, hfollows⟩ : ∃ e q t, consume env p function arguments s =
    (some (e, q), t) ∧ p.Follows s.fresh q t.fresh := consume_follows function arguments p s
  refine ⟨⟨fun _ => ⟨rfl, fun _ hr => nomatch hr⟩, fun _ => ⟨e, q, t, hrun⟩⟩, fun b r u h => ?_⟩
  rw [hrun] at h
  cases h
  exact hfollows

/-- A set function in the arguments of another one is rejected. -/
theorem reject_judges (reads : List VariableRead) (code : Code) (message : List Fragment) :
    Judges reads true fun _ => (reject code message : Analysis ρ (β × SetFunctionProcessor)) := by
  intro p s _
  refine ⟨⟨?_, ?_⟩, ?_⟩
  · rintro ⟨b, q, t, h⟩
    cases h
  · rintro ⟨h, -⟩
    cases h
  · intro b q t h
    cases h

/-! ### The processor -/

mutual

theorem processSetFunctions_judges (inside : Bool) : ∀ e : Scalar,
    Judges (e.reads inside) (e.nests inside) (processSetFunctions env inside e)
  | .immediate value type => .pure _
  | .variableReference v => .check (checkReference_iff · inside v) (.pure _)
  | .cast type policy operand => (processSetFunctions_judges inside operand).map fun _ _ => rfl
  | .unary op operand => (processSetFunctions_judges inside operand).map fun _ _ => rfl
  | .binary op left right =>
    (processSetFunctions_judges inside left).bind fun _ =>
      (processSetFunctions_judges inside right).map fun _ _ => rfl
  | .compare op left right =>
    (processSetFunctions_judges inside left).bind fun _ =>
      (processSetFunctions_judges inside right).map fun _ _ => rfl
  | .match_ op input pattern escape =>
    (processSetFunctions_judges inside input).bind fun _ =>
      (processSetFunctions_judges inside pattern).bind fun _ =>
        (processSetFunctions_judges inside escape).map fun _ _ => rfl
  | .conditional alternatives default_ =>
    (processAlternatives_judges inside alternatives).bind fun _ =>
      (processDefault_judges inside default_).map fun _ _ => rfl
  | .coalesce alternatives => (processOperands_judges inside alternatives).map fun _ _ => rfl
  | .let_ variables_ body =>
    (processLetVariables_judges inside variables_).bind fun _ =>
      (processSetFunctions_judges inside body).map fun _ _ => rfl
  | .functionCall function arguments =>
    (processOperands_judges inside arguments).map fun _ _ => rfl
  | .aggregateFunctionCall function arguments => by
    cases inside with
    | true =>
      have h : Judges (readsList true arguments) true fun _ => (reject .unsupportedFeature
          [.text "nested aggregation is not supported"] :
          Analysis ρ (Scalar × SetFunctionProcessor)) :=
        reject_judges _ _ _
      exact h
    | false =>
      have h := (processOperands_judges true arguments).bind
        (f := fun r => consume env r.2 function r.1) fun es => consume_judges function es
      rw [List.append_nil, Bool.or_false] at h
      exact h
  | .subquery graph parameters outputColumn => by
    have h : Judges (parameterReads inside parameters ++ []) false
        (processSetFunctions env inside (.subquery graph parameters outputColumn)) :=
      .check (checkParameters_iff inside parameters) (.pure _)
    rwa [List.append_nil] at h
  | .exists_ graph parameters => by
    have h : Judges (parameterReads inside parameters ++ []) false
        (processSetFunctions env inside (.exists_ graph parameters)) :=
      .check (checkParameters_iff inside parameters) (.pure _)
    rwa [List.append_nil] at h
  | .quantifiedCompare op quantifier left graph parameters rightColumn =>
    .check (checkParameters_iff inside parameters)
      ((processSetFunctions_judges inside left).map fun _ _ => rfl)
termination_by structural e => e

theorem processOperands_judges (inside : Bool) : ∀ es : List Scalar,
    Judges (readsList inside es) (nestsList inside es) (processOperands env inside es)
  | [] => .pure _
  | e :: es =>
    (processSetFunctions_judges inside e).bind fun _ =>
      (processOperands_judges inside es).map fun _ _ => rfl
termination_by structural es => es

theorem processAlternatives_judges (inside : Bool) : ∀ as : List (Scalar × Scalar),
    Judges (readsPairs inside as) (nestsPairs inside as) (processAlternatives env inside as)
  | [] => .pure _
  | (condition, body) :: rest =>
    (processSetFunctions_judges inside condition).bind fun _ =>
      (processSetFunctions_judges inside body).bind fun _ =>
        (processAlternatives_judges inside rest).map fun _ _ => rfl
termination_by structural as => as

theorem processDefault_judges (inside : Bool) : ∀ o : Option Scalar,
    Judges (readsOption inside o) (nestsOption inside o) (processDefault env inside o)
  | none => .pure _
  | some e => (processSetFunctions_judges inside e).map fun _ _ => rfl
termination_by structural o => o

theorem processLetVariables_judges (inside : Bool) : ∀ vs : List (Variable × Scalar),
    Judges (readsBindings inside vs) (nestsBindings inside vs) (processLetVariables env inside vs)
  | [] => .pure _
  | (_, value) :: rest =>
    (processSetFunctions_judges inside value).bind fun _ =>
      (processLetVariables_judges inside rest).map fun _ _ => rfl
termination_by structural vs => vs

end

/-! ### The rule -/

/-- `set_function_processor::process` accepts an expression. -/
def Accepts (env : Environment ρ) (p : SetFunctionProcessor) (s : AnalyzerState ρ) (e : Scalar) :
    Prop :=
  ∃ e' q t, processSetFunctions env false e p s = (some (e', q), t)

/-- The rule of aggregation: no set function is in the arguments of another one, the stream variables
that are read outside of set functions are group keys or aggregated columns, and those that
are read inside are not aggregated columns. -/
structure SetFunctionProcessor.Conforms (p : SetFunctionProcessor) (e : Scalar) : Prop where
  flat : e.nests false = false
  outside : ∀ r ∈ e.reads false, r.variable_.isStream = true → r.inside = false →
    r.variable_ ∈ p.groupingColumns ∨ r.variable_ ∈ p.aggregatedColumns
  inside : ∀ r ∈ e.reads false, r.variable_.isStream = true → r.inside = true →
    r.variable_ ∉ p.aggregatedColumns

theorem SetFunctionProcessor.conforms_iff (p : SetFunctionProcessor) (e : Scalar) :
    p.Conforms e ↔ e.nests false = false ∧
      ∀ r ∈ e.reads false, r.variable_.isStream = true → p.accepts r.inside r.variable_ = true := by
  constructor
  · intro h
    refine ⟨h.flat, fun r hr hstream => ?_⟩
    unfold accepts
    cases hinside : r.inside with
    | true => simpa using h.inside r hr hstream hinside
    | false => simpa using h.outside r hr hstream hinside
  · rintro ⟨hflat, hreads⟩
    refine ⟨hflat, fun r hr hstream hinside => ?_, fun r hr hstream hinside => ?_⟩
    · have haccepts := hreads r hr hstream
      simpa [accepts, hinside] using haccepts
    · have haccepts := hreads r hr hstream
      simpa [accepts, hinside] using haccepts

/-- The processor follows the rule exactly when the parameters of subqueries that are no stream variables
are accepted like stream variables, if nothing else is against the rule. -/
theorem accepts_iff_conforms_iff (p : SetFunctionProcessor) (s : AnalyzerState ρ) (e : Scalar)
    (hbelow : ∀ r ∈ e.reads false, r.variable_.Below s.fresh) :
    (Accepts env p s e ↔ p.Conforms e) ↔
      (p.Conforms e → ∀ r ∈ e.reads false, r.parameter = true → r.variable_.isStream = false →
        p.accepts r.inside r.variable_ = true) := by
  have hjudges : Judges (e.reads false) (e.nests false) (processSetFunctions env false e) :=
    processSetFunctions_judges false e
  have haccepts := (hjudges p s hbelow).accepts_iff
  unfold Accepts
  rw [haccepts]
  constructor
  · intro h hconforms r hr hparameter _
    exact (h.mpr hconforms).2 r hr (.inl hparameter)
  · intro h
    rw [p.conforms_iff] at h ⊢
    constructor
    · rintro ⟨hflat, hadmits⟩
      exact ⟨hflat, fun r hr hstream => hadmits r hr (.inr hstream)⟩
    · rintro ⟨hflat, hreads⟩
      refine ⟨hflat, fun r hr hchecked => ?_⟩
      cases hstream : r.variable_.isStream with
      | true => exact hreads r hr hstream
      | false =>
        have hparameter := hchecked.resolve_right (by rw [hstream]; exact Bool.false_ne_true)
        exact h ⟨hflat, hreads⟩ r hr hparameter hstream

/-- A scalar subquery that takes a frame variable, a parameter of the query around, as its own
parameter. -/
def forwardingSubquery : Scalar :=
  .subquery (.source (.values [.stream 2] [[.variableReference (.frame 1)]])) [(.frame 0, .frame 1)]
    (.stream 2)

/-- The rule says nothing about a parameter of the query around, but the processor rejects it as the
source of a parameter. -/
theorem processSetFunctions_rejects_forwarding :
    let env := Environment.ofSchema (.ofTables [] [])
    let s : AnalyzerState Types := { AnalyzerState.initial [] with fresh := 3 }
    let p : SetFunctionProcessor := { active := true }
    p.Conforms forwardingSubquery ∧ ¬ Accepts env p s forwardingSubquery := by
  intro env s p
  constructor
  · refine (p.conforms_iff _).mpr ⟨rfl, fun r hr hstream => ?_⟩
    obtain rfl : r = ⟨false, true, .frame 0⟩ := List.mem_singleton.mp hr
    cases hstream
  · rintro ⟨e, q, t, h⟩
    have hrejected : (processSetFunctions env false forwardingSubquery p s).1 = none := rfl
    rw [h] at hrejected
    cases hrejected

/-- A subquery over a group key follows the rule. -/
theorem accepts_iff_conforms_groupKey :
    let env := Environment.ofSchema (.ofTables [] [])
    let s : AnalyzerState Types := { AnalyzerState.initial [] with fresh := 3 }
    let p : SetFunctionProcessor := { active := true, groupingColumns := [.stream 0] }
    let e := Scalar.exists_ (.source (.values [] [])) [(.stream 0, .frame 1)]
    Accepts env p s e ↔ p.Conforms e := by
  intro env s p e
  have hreads : ∀ r ∈ e.reads false, r = ⟨false, true, .stream 0⟩ :=
    fun r hr => List.mem_singleton.mp hr
  refine (accepts_iff_conforms_iff p s e fun r hr => ?_).mpr fun _ r hr _ hstream => ?_
  · rw [hreads r hr]
    exact Nat.zero_lt_succ 2
  · rw [hreads r hr] at hstream
    cases hstream

end Mizugaki.Analyzer
