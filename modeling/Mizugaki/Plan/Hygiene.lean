import Mizugaki.Aggregation.Rewrite

/-! Local variables in expressions. An expression is hygienic when it reads no local variable but
those it binds, and no argument of a set function reads one that is bound around the call, so that
it can be put under any binding of local variables and its set functions can be taken out of it. -/

namespace Mizugaki.Plan

mutual

/-- The variables that the lets of an expression bind. -/
def Scalar.binds : Scalar → List Variable
  | .immediate _ _ => []
  | .variableReference _ => []
  | .cast _ _ operand => operand.binds
  | .unary _ operand => operand.binds
  | .binary _ left right => left.binds ++ right.binds
  | .compare _ left right => left.binds ++ right.binds
  | .match_ _ input pattern escape => input.binds ++ (pattern.binds ++ escape.binds)
  | .conditional alternatives default_ => bindsPairs alternatives ++ bindsOption default_
  | .coalesce alternatives => bindsList alternatives
  | .let_ variables_ body => bindsBindings variables_ ++ body.binds
  | .functionCall _ arguments => bindsList arguments
  | .aggregateFunctionCall _ arguments => bindsList arguments
  | .subquery _ _ _ => []
  | .exists_ _ _ => []
  | .quantifiedCompare _ _ left _ _ _ => left.binds
termination_by structural e => e

def bindsList : List Scalar → List Variable
  | [] => []
  | e :: es => e.binds ++ bindsList es
termination_by structural es => es

def bindsOption : Option Scalar → List Variable
  | none => []
  | some e => e.binds
termination_by structural e => e

def bindsPairs : List (Scalar × Scalar) → List Variable
  | [] => []
  | (a, b) :: rest => a.binds ++ (b.binds ++ bindsPairs rest)
termination_by structural pairs => pairs

def bindsBindings : List (Variable × Scalar) → List Variable
  | [] => []
  | (v, e) :: rest => v :: (e.binds ++ bindsBindings rest)
termination_by structural bindings => bindings

end

attribute [simp] Scalar.binds bindsList bindsOption bindsPairs bindsBindings

theorem bindsList_append (es es' : List Scalar) :
    bindsList (es ++ es') = bindsList es ++ bindsList es' := by
  induction es with
  | nil => rfl
  | cons e es ih => simp [ih]

/-- An expression reads no local variables but some, and the arguments of its set functions read
none that is bound around them. -/
structure Scalar.Hygienic (allowed : List Variable) (e : Scalar) : Prop where
  reads : ∀ v ∈ e.free, v.isLocal = true → v ∈ allowed
  avoids : ∀ bound : List Variable, (∀ v ∈ bound, v.isLocal = true) → e.ArgumentsAvoid bound

theorem mem_freeList {es : List Scalar} {v : Variable} : v ∈ freeList es ↔ ∃ e ∈ es, v ∈ e.free := by
  induction es with
  | nil => simp [freeList]
  | cons e es ih => simp [freeList, ih]

theorem mem_freePairs {pairs : List (Scalar × Scalar)} {v : Variable} :
    v ∈ freePairs pairs ↔ ∃ p ∈ pairs, v ∈ p.1.free ∨ v ∈ p.2.free := by
  induction pairs with
  | nil => simp [freePairs]
  | cons p pairs ih => simp [freePairs, ih, or_assoc]

theorem argumentsAvoidList_iff {bound : List Variable} {es : List Scalar} :
    ArgumentsAvoidList bound es ↔ ∀ e ∈ es, e.ArgumentsAvoid bound := by
  induction es with
  | nil => simp [ArgumentsAvoidList]
  | cons e es ih => simp [ArgumentsAvoidList, ih]

theorem argumentsAvoidPairs_iff {bound : List Variable} {pairs : List (Scalar × Scalar)} :
    ArgumentsAvoidPairs bound pairs ↔
      ∀ p ∈ pairs, p.1.ArgumentsAvoid bound ∧ p.2.ArgumentsAvoid bound := by
  induction pairs with
  | nil => simp [ArgumentsAvoidPairs]
  | cons p pairs ih => simp [ArgumentsAvoidPairs, ih, and_assoc]

variable {allowed : List Variable}

theorem Scalar.Hygienic.mono {more : List Variable} {e : Scalar} (h : e.Hygienic allowed)
    (hmore : allowed ⊆ more) : e.Hygienic more :=
  ⟨fun v hv hl => hmore (h.reads v hv hl), h.avoids⟩

/-- An expression that reads no local variable from around it can be put anywhere. -/
theorem Scalar.Hygienic.anywhere {e : Scalar} (h : e.Hygienic []) : e.Hygienic allowed :=
  h.mono (List.nil_subset _)

@[simp] theorem hygienic_immediate (value : ValueData) (type : TypeData) :
    (Scalar.immediate value type).Hygienic allowed :=
  ⟨fun _ hv => (by cases hv), fun _ _ => trivial⟩

@[simp] theorem hygienic_variableReference {v : Variable} :
    (Scalar.variableReference v).Hygienic allowed ↔ (v.isLocal = true → v ∈ allowed) :=
  ⟨fun h => h.reads v List.mem_cons_self,
    fun h => ⟨fun w hw => by rw [List.mem_singleton.mp hw]; exact h, fun _ _ => trivial⟩⟩

@[simp] theorem hygienic_cast {type : TypeData} {policy : CastLossPolicy} {e : Scalar} :
    (Scalar.cast type policy e).Hygienic allowed ↔ e.Hygienic allowed :=
  ⟨fun h => ⟨h.reads, h.avoids⟩, fun h => ⟨h.reads, h.avoids⟩⟩

@[simp] theorem hygienic_unary {op : UnaryOperator} {e : Scalar} :
    (Scalar.unary op e).Hygienic allowed ↔ e.Hygienic allowed :=
  ⟨fun h => ⟨h.reads, h.avoids⟩, fun h => ⟨h.reads, h.avoids⟩⟩

@[simp] theorem hygienic_binary {op : BinaryOperator} {l r : Scalar} :
    (Scalar.binary op l r).Hygienic allowed ↔ l.Hygienic allowed ∧ r.Hygienic allowed := by
  constructor
  · intro h
    exact ⟨⟨fun v hv => h.reads v (List.mem_append_left _ hv), fun b hb => (h.avoids b hb).1⟩,
      ⟨fun v hv => h.reads v (List.mem_append_right _ hv), fun b hb => (h.avoids b hb).2⟩⟩
  · rintro ⟨hl, hr⟩
    exact ⟨fun v hv => (List.mem_append.mp hv).elim (hl.reads v) (hr.reads v),
      fun b hb => ⟨hl.avoids b hb, hr.avoids b hb⟩⟩

@[simp] theorem hygienic_compare {op : ComparisonOperator} {l r : Scalar} :
    (Scalar.compare op l r).Hygienic allowed ↔ l.Hygienic allowed ∧ r.Hygienic allowed := by
  constructor
  · intro h
    exact ⟨⟨fun v hv => h.reads v (List.mem_append_left _ hv), fun b hb => (h.avoids b hb).1⟩,
      ⟨fun v hv => h.reads v (List.mem_append_right _ hv), fun b hb => (h.avoids b hb).2⟩⟩
  · rintro ⟨hl, hr⟩
    exact ⟨fun v hv => (List.mem_append.mp hv).elim (hl.reads v) (hr.reads v),
      fun b hb => ⟨hl.avoids b hb, hr.avoids b hb⟩⟩

/-- Expressions in a list read what each of them reads. -/
theorem hygienic_list {e : Scalar} {es : List Scalar} (hfree : e.free = freeList es)
    (havoid : ∀ bound, e.ArgumentsAvoid bound ↔ ArgumentsAvoidList bound es) :
    e.Hygienic allowed ↔ ∀ x ∈ es, x.Hygienic allowed := by
  constructor
  · intro h x hx
    refine ⟨fun v hv => h.reads v ?_, fun b hb => ?_⟩
    · rw [hfree, mem_freeList]
      exact ⟨x, hx, hv⟩
    · exact argumentsAvoidList_iff.mp ((havoid b).mp (h.avoids b hb)) x hx
  · intro h
    refine ⟨fun v hv => ?_, fun b hb => ?_⟩
    · rw [hfree, mem_freeList] at hv
      obtain ⟨x, hx, hv⟩ := hv
      exact (h x hx).reads v hv
    · exact (havoid b).mpr (argumentsAvoidList_iff.mpr fun x hx => (h x hx).avoids b hb)

@[simp] theorem hygienic_coalesce {es : List Scalar} :
    (Scalar.coalesce es).Hygienic allowed ↔ ∀ e ∈ es, e.Hygienic allowed :=
  hygienic_list rfl fun _ => Iff.rfl

@[simp] theorem hygienic_functionCall {function : FunctionDecl} {es : List Scalar} :
    (Scalar.functionCall function es).Hygienic allowed ↔ ∀ e ∈ es, e.Hygienic allowed :=
  hygienic_list rfl fun _ => Iff.rfl

@[simp] theorem hygienic_match {op : MatchOperator} {i p e : Scalar} :
    (Scalar.match_ op i p e).Hygienic allowed ↔
      i.Hygienic allowed ∧ p.Hygienic allowed ∧ e.Hygienic allowed := by
  have hlist : (Scalar.match_ op i p e).Hygienic allowed ↔
      ∀ x ∈ [i, p, e], x.Hygienic allowed := by
    refine hygienic_list ?_ fun b => ?_
    · simp [Scalar.free, freeList]
    · simp [Scalar.ArgumentsAvoid, ArgumentsAvoidList]
  simpa using hlist

/-- The arguments of a set function read no local variable at all. -/
theorem hygienic_aggregate {function : AggregateDecl} {es : List Scalar}
    (h : ∀ e ∈ es, e.Hygienic []) : (Scalar.aggregateFunctionCall function es).Hygienic allowed := by
  have hlocal : ∀ v ∈ freeList es, v.isLocal = false := by
    intro v hv
    obtain ⟨e, he, hv⟩ := mem_freeList.mp hv
    cases hl : v.isLocal with
    | false => rfl
    | true => cases (h e he).reads v hv hl
  refine ⟨fun v hv hl => ?_, fun bound hbound v hv hmem => ?_⟩
  · have hnot := hlocal v hv
    rw [hl] at hnot
    cases hnot
  · have hnot := hlocal v hv
    rw [hbound v hmem] at hnot
    cases hnot

@[simp] theorem hygienic_conditional {alternatives : List (Scalar × Scalar)} {d : Option Scalar} :
    (Scalar.conditional alternatives d).Hygienic allowed ↔
      (∀ p ∈ alternatives, p.1.Hygienic allowed ∧ p.2.Hygienic allowed) ∧
        ∀ e ∈ d, e.Hygienic allowed := by
  constructor
  · intro h
    have havoid := fun b hb => (h.avoids b hb).1
    refine ⟨fun p hp => ⟨⟨fun v hv => ?_, fun b hb => ?_⟩, fun v hv => ?_, fun b hb => ?_⟩, ?_⟩
    · exact h.reads v (List.mem_append_left _ (mem_freePairs.mpr ⟨p, hp, .inl hv⟩))
    · exact (argumentsAvoidPairs_iff.mp (havoid b hb) p hp).1
    · exact h.reads v (List.mem_append_left _ (mem_freePairs.mpr ⟨p, hp, .inr hv⟩))
    · exact (argumentsAvoidPairs_iff.mp (havoid b hb) p hp).2
    · rintro e ⟨⟩
      exact ⟨fun v hv => h.reads v (List.mem_append_right _ hv), fun b hb => (h.avoids b hb).2⟩
  · rintro ⟨hpairs, hd⟩
    refine ⟨fun v hv hl => ?_, fun b hb => ⟨?_, ?_⟩⟩
    · obtain hv | hv := List.mem_append.mp hv
      · obtain ⟨p, hp, hv | hv⟩ := mem_freePairs.mp hv
        · exact (hpairs p hp).1.reads v hv hl
        · exact (hpairs p hp).2.reads v hv hl
      · cases d with
        | none => cases hv
        | some e => exact (hd e rfl).reads v hv hl
    · exact argumentsAvoidPairs_iff.mpr fun p hp =>
        ⟨(hpairs p hp).1.avoids b hb, (hpairs p hp).2.avoids b hb⟩
    · cases d with
      | none => trivial
      | some e => exact (hd e rfl).avoids b hb

theorem hygienic_subquery {graph : Graph} {parameters : List (Variable × Variable)}
    (h : ∀ p ∈ parameters, p.1.isLocal = false) (column : Variable) :
    (Scalar.subquery graph parameters column).Hygienic allowed := by
  refine ⟨fun v hv hl => ?_, fun _ _ => trivial⟩
  obtain ⟨p, hp, rfl⟩ := List.mem_map.mp hv
  rw [h p hp] at hl
  cases hl

theorem hygienic_exists {graph : Graph} {parameters : List (Variable × Variable)}
    (h : ∀ p ∈ parameters, p.1.isLocal = false) :
    (Scalar.exists_ graph parameters).Hygienic allowed := by
  refine ⟨fun v hv hl => ?_, fun _ _ => trivial⟩
  obtain ⟨p, hp, rfl⟩ := List.mem_map.mp hv
  rw [h p hp] at hl
  cases hl

theorem hygienic_quantifiedCompare {op : ComparisonOperator} {q : Quantifier} {l : Scalar}
    {graph : Graph} {parameters : List (Variable × Variable)} (hl : l.Hygienic allowed)
    (h : ∀ p ∈ parameters, p.1.isLocal = false) (column : Variable) :
    (Scalar.quantifiedCompare op q l graph parameters column).Hygienic allowed := by
  refine ⟨fun v hv hlocal => ?_, hl.avoids⟩
  obtain hv | hv := List.mem_append.mp hv
  · exact hl.reads v hv hlocal
  · obtain ⟨p, hp, rfl⟩ := List.mem_map.mp hv
    rw [h p hp] at hlocal
    cases hlocal

/-- A let of operands that are hygienic by themselves: the body may read what is bound. -/
theorem hygienic_let {bindings : List (Variable × Scalar)} {body : Scalar}
    (hbindings : ∀ b ∈ bindings, b.1.isLocal = true ∧ b.2.Hygienic [])
    (hbody : body.Hygienic (bindings.map Prod.fst)) :
    (Scalar.let_ bindings body).Hygienic allowed := by
  have hreads : ∀ (bs : List (Variable × Scalar)) (read : List Variable),
      (∀ b ∈ bs, b.1.isLocal = true ∧ b.2.Hygienic []) →
      ∀ v ∈ freeBindings bs read, v.isLocal = true → v ∈ read ∧ v ∉ bs.map Prod.fst := by
    intro bs
    induction bs with
    | nil => exact fun read _ v hv _ => ⟨hv, List.not_mem_nil⟩
    | cons b bs ih =>
      intro read h v hv hl
      obtain ⟨hb, hbs⟩ := List.forall_mem_cons.mp h
      obtain hv | hv := List.mem_append.mp hv
      · cases hb.2.reads v hv hl
      · obtain ⟨hv, hne⟩ := List.mem_filter.mp hv
        obtain ⟨hread, hnot⟩ := ih read hbs v hv hl
        refine ⟨hread, ?_⟩
        rw [List.map_cons, List.mem_cons, not_or]
        exact ⟨of_decide_eq_true hne, hnot⟩
  have havoids : ∀ (bs : List (Variable × Scalar)) (bound : List Variable),
      (∀ b ∈ bs, b.1.isLocal = true ∧ b.2.Hygienic []) → (∀ v ∈ bound, v.isLocal = true) →
      ArgumentsAvoidBindings bound bs := by
    intro bs
    induction bs with
    | nil => exact fun _ _ _ => trivial
    | cons b bs ih =>
      intro bound h hbound
      obtain ⟨hb, hbs⟩ := List.forall_mem_cons.mp h
      exact ⟨hb.2.avoids bound hbound, ih (bound ++ [b.1]) hbs
        (List.forall_mem_append.mpr ⟨hbound, List.forall_mem_singleton.mpr hb.1⟩)⟩
  refine ⟨fun v hv hl => ?_, fun bound hbound => ⟨havoids bindings bound hbindings hbound, ?_⟩⟩
  · obtain ⟨hread, hnot⟩ := hreads bindings body.free hbindings v hv hl
    exact absurd (hbody.reads v hread hl) hnot
  · refine hbody.avoids _ (List.forall_mem_append.mpr ⟨hbound, fun v hv => ?_⟩)
    obtain ⟨b, hb, rfl⟩ := List.mem_map.mp hv
    exact (hbindings b hb).1

end Mizugaki.Plan
