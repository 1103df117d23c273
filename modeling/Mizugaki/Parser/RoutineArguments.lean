import Mizugaki.Data.Separated
import Mizugaki.Parser.Keyword

/-! Arguments of routines. The rule of a list of them goes on from a list that may be empty, so that
what is read is a list with commas between its arguments, or one with a further comma before it. -/

namespace Mizugaki.Parser

open Mizugaki.Ast Mizugaki.Data

/-! ### Grammar -/

/-- `sql_driver::validate_count`, on the limit of a kind of elements. -/
def validateCount (limit : Option Nat) (size : Nat) : Bool :=
  match limit with
  | none => true
  | some limit => !(limit != 0 && decide (limit < size))

/-- The derivations of a data type, which are left open. -/
abbrev DataType := List Token → TypeNode → Prop

section Grammar

variable (valueExpression : ValueExpression) (dataType : DataType) (limit : Option Nat)

/-- `sql_argument`. -/
inductive SqlArgument : List Token → ScalarExpression → Prop
  | value {w : List Token} {e : ScalarExpression} : valueExpression w e → SqlArgument w e
  | generalize {w t : List Token} {e : ScalarExpression} {type : TypeNode} :
      valueExpression w e → dataType t type →
      SqlArgument (w ++ ⟨.as_, none⟩ :: t) (.castExpression .generalize e type)

mutual

/-- `sql_argument_list_opt`. -/
inductive SqlArgumentListOpt : List Token → List ScalarExpression → Prop
  | empty : SqlArgumentListOpt [] []
  | list {w : List Token} {es : List ScalarExpression} :
      SqlArgumentList w es → SqlArgumentListOpt w es

/-- `sql_argument_list`. -/
inductive SqlArgumentList : List Token → List ScalarExpression → Prop
  | comma {w a : List Token} {es : List ScalarExpression} {e : ScalarExpression} :
      SqlArgumentListOpt w es → SqlArgument valueExpression dataType a e →
      validateCount limit (es ++ [e]).length →
      SqlArgumentList (w ++ ⟨.comma, none⟩ :: a) (es ++ [e])
  | argument {a : List Token} {e : ScalarExpression} :
      SqlArgument valueExpression dataType a e → SqlArgumentList a [e]

end

/-- `routine_invocation_arguments`. -/
inductive RoutineInvocationArguments : List Token → List ScalarExpression → Prop
  | parens {w : List Token} {es : List ScalarExpression} :
      SqlArgumentListOpt valueExpression dataType limit w es →
      RoutineInvocationArguments (⟨.leftParen, none⟩ :: (w ++ [⟨.rightParen, none⟩])) es

/-- Arguments between parentheses, with a comma between any two of them and none before, behind or
beside another. -/
def SeparatedArguments (w : List Token) (es : List ScalarExpression) : Prop :=
  ∃ list, w = ⟨.leftParen, none⟩ :: (list ++ [⟨.rightParen, none⟩]) ∧
    Separated ⟨.comma, none⟩ (fun part e => SqlArgument valueExpression dataType part e ∧
      Delimited ⟨.comma, none⟩ part) list es

end Grammar

variable {valueExpression : ValueExpression} {dataType : DataType} {limit : Option Nat}
  {w : List Token} {es : List ScalarExpression} {e : ScalarExpression}

theorem validateCount_of_le {n m : Nat} (h : validateCount limit m) (hle : n ≤ m) :
    validateCount limit n := by
  cases limit with
  | none => rfl
  | some limit =>
    simp only [validateCount, Bool.not_eq_true', Bool.and_eq_false_iff, bne_eq_false_iff_eq,
      decide_eq_false_iff_not] at h ⊢
    omega

/-! ### Derivations of lists -/

/-- A separated list that is not empty, behind a comma. -/
def Led (element : List Token → ScalarExpression → Prop) (w : List Token)
    (es : List ScalarExpression) : Prop :=
  ∃ list, w = ⟨.comma, none⟩ :: list ∧ es ≠ [] ∧ Separated ⟨.comma, none⟩ element list es

/-- The lists of arguments that are read: separated ones, and ones behind a comma. -/
def Accepted (element : List Token → ScalarExpression → Prop) (limit : Option Nat)
    (w : List Token) (es : List ScalarExpression) : Prop :=
  (Separated ⟨.comma, none⟩ element w es ∧ (es.length ≤ 1 ∨ validateCount limit es.length)) ∨
    (Led element w es ∧ validateCount limit es.length)

/-- The comma before an argument separates, unless nothing is before it. -/
theorem Accepted.comma {element : List Token → ScalarExpression → Prop} {a : List Token}
    (h : Accepted element limit w es) (ha : element a e)
    (hlimit : validateCount limit (es ++ [e]).length) :
    Accepted element limit (w ++ ⟨.comma, none⟩ :: a) (es ++ [e]) := by
  rcases h with ⟨h, -⟩ | ⟨⟨list, rfl, hne, h⟩, -⟩
  · by_cases hne : es = []
    · rw [hne] at h hlimit
      rw [hne, h.eq_nil]
      exact .inr ⟨⟨a, rfl, List.cons_ne_nil _ _, .singleton ha⟩, hlimit⟩
    · exact .inl ⟨h.concat hne ha, .inr hlimit⟩
  · exact .inr ⟨⟨list ++ ⟨.comma, none⟩ :: a, rfl, by simp, h.concat hne ha⟩, hlimit⟩

/-- The two kinds of lists are one induction. -/
theorem SqlArgumentListOpt.accepted (h : SqlArgumentListOpt valueExpression dataType limit w es) :
    Accepted (SqlArgument valueExpression dataType) limit w es := by
  refine @SqlArgumentListOpt.rec valueExpression dataType limit
    (fun w es _ => Accepted (SqlArgument valueExpression dataType) limit w es)
    (fun w es _ => Accepted (SqlArgument valueExpression dataType) limit w es)
    ?empty ?list ?comma ?argument w es h
  case empty => exact .inl ⟨.nil, .inl (Nat.zero_le _)⟩
  case list => exact fun _ ih => ih
  case comma => exact fun _ ha hlimit ih => ih.comma ha hlimit
  case argument => exact fun ha => .inl ⟨.singleton ha, .inl (Nat.le_refl _)⟩

/-- A separated list is derived, if it is not longer than the limit. -/
theorem sqlArgumentListOpt_of_separated
    (h : Separated ⟨.comma, none⟩ (SqlArgument valueExpression dataType) w es)
    (hlimit : es.length ≤ 1 ∨ validateCount limit es.length) :
    SqlArgumentListOpt valueExpression dataType limit w es := by
  induction es using List.reverseRecOn generalizing w with
  | nil => exact h.eq_nil ▸ .empty
  | append_singleton values value ih =>
    rcases h.cases_concat with ⟨-, hnil⟩ | ⟨e, he, hone⟩ | ⟨w', a, es', e, hne, hw', ha, rfl, hes⟩
    · simp at hnil
    · rw [hone]
      exact .list (.argument he)
    · obtain ⟨rfl, hlast⟩ := List.append_inj' hes rfl
      obtain rfl := List.singleton_inj.mp hlast
      rw [List.length_append, List.length_singleton] at hlimit
      have hcount := hlimit.resolve_left (by have := List.length_pos_iff.mpr hne; omega)
      refine .list (.comma (ih hw' (.inr (validateCount_of_le hcount (by omega)))) ha ?_)
      rwa [List.length_append, List.length_singleton]

/-- So is one behind a comma. -/
theorem sqlArgumentList_of_led (h : Led (SqlArgument valueExpression dataType) w es)
    (hlimit : validateCount limit es.length) :
    SqlArgumentList valueExpression dataType limit w es := by
  obtain ⟨list, rfl, hne, h⟩ := h
  induction es using List.reverseRecOn generalizing list with
  | nil => exact absurd rfl hne
  | append_singleton values value ih =>
    rcases h.cases_concat with ⟨-, hnil⟩ | ⟨e, he, hone⟩ | ⟨w', a, es', e, hne', hw', ha, rfl, hes⟩
    · simp at hnil
    · rw [hone] at hlimit ⊢
      exact .comma .empty he hlimit
    · obtain ⟨rfl, hlast⟩ := List.append_inj' hes rfl
      obtain rfl := List.singleton_inj.mp hlast
      refine .comma (.list (ih (validateCount_of_le hlimit ?_) w' hne' hw')) ha hlimit
      rw [List.length_append]
      omega

/-- The accepted lists are those that are derived. -/
theorem sqlArgumentListOpt_iff :
    SqlArgumentListOpt valueExpression dataType limit w es ↔
      Accepted (SqlArgument valueExpression dataType) limit w es := by
  refine ⟨SqlArgumentListOpt.accepted, fun h => ?_⟩
  rcases h with ⟨h, hlimit⟩ | ⟨h, hlimit⟩
  · exact sqlArgumentListOpt_of_separated h hlimit
  · exact .list (sqlArgumentList_of_led h hlimit)

/-! ### Where the commas are -/

theorem SqlArgument.delimited
    (hvalue : ∀ w e, valueExpression w e → Delimited ⟨.comma, none⟩ w)
    (htype : ∀ w type, dataType w type → Delimited ⟨.comma, none⟩ w)
    (h : SqlArgument valueExpression dataType w e) : Delimited ⟨.comma, none⟩ w := by
  cases h with
  | value h => exact hvalue _ _ h
  | @generalize w t e type h ht =>
    obtain ⟨first, hfirst, hne⟩ := (hvalue _ _ h).head
    obtain ⟨last, hlast, hne'⟩ := (htype _ _ ht).last
    have ht' : t ≠ [] := by
      rintro rfl
      cases hlast
    refine ⟨⟨first, ?_, hne⟩, ⟨last, ?_, hne'⟩⟩
    · rw [List.head?_append, hfirst, Option.some_or]
    · rw [List.getLast?_append_of_ne_nil _ (List.cons_ne_nil _ _), List.getLast?_cons_of_ne_nil ht',
        hlast]

/-- No comma is right behind the parenthesis of separated arguments. -/
theorem SeparatedArguments.second (h : SeparatedArguments valueExpression dataType w es) :
    w[1]? ≠ some ⟨.comma, none⟩ := by
  obtain ⟨list, rfl, hlist⟩ := h
  have hhead := hlist.head fun _ _ h => h.2
  cases list with
  | nil => exact fun h => (by cases h)
  | cons first list => exact hhead

/-- The arguments of a routine are separated by commas, as many as there are and in their order,
exactly when no comma is right behind the parenthesis. -/
theorem routineInvocationArguments_separated_iff
    (hvalue : ∀ w e, valueExpression w e → Delimited ⟨.comma, none⟩ w)
    (htype : ∀ w type, dataType w type → Delimited ⟨.comma, none⟩ w)
    (h : RoutineInvocationArguments valueExpression dataType limit w es) :
    SeparatedArguments valueExpression dataType w es ↔ w[1]? ≠ some ⟨.comma, none⟩ := by
  cases h with
  | @parens w _ h =>
    refine ⟨SeparatedArguments.second, fun hcomma => ?_⟩
    rcases h.accepted with ⟨h, -⟩ | ⟨⟨list, rfl, -, -⟩, -⟩
    · exact ⟨w, rfl, h.imp fun _ _ ha => ⟨ha, ha.delimited hvalue htype⟩⟩
    · exact absurd rfl hcomma

/-! ### Arguments that are truth values -/

/-- `TRUE`, as a value expression. -/
def trueExpression : ValueExpression := fun w e =>
  w = [⟨.true_, none⟩] ∧ e = .literalExpression (.boolean .true_)

/-- `BOOLEAN`, as a data type. -/
def booleanType : DataType := fun w type => w = [⟨.boolean, none⟩] ∧ type = .simple .boolean

theorem trueExpression_delimited {w : List Token} {e : ScalarExpression} (h : trueExpression w e) :
    Delimited ⟨.comma, none⟩ w := by
  rw [h.1]
  exact ⟨⟨_, rfl, by decide⟩, ⟨_, rfl, by decide⟩⟩

theorem booleanType_delimited {w : List Token} {type : TypeNode} (h : booleanType w type) :
    Delimited ⟨.comma, none⟩ w := by
  rw [h.1]
  exact ⟨⟨_, rfl, by decide⟩, ⟨_, rfl, by decide⟩⟩

theorem sqlArgument_true : SqlArgument trueExpression booleanType [⟨.true_, none⟩]
    (.literalExpression (.boolean .true_)) :=
  .value ⟨rfl, rfl⟩

theorem sqlArgument_true_as_boolean : SqlArgument trueExpression booleanType
    [⟨.true_, none⟩, ⟨.as_, none⟩, ⟨.boolean, none⟩]
    (.castExpression .generalize (.literalExpression (.boolean .true_)) (.simple .boolean)) := by
  have hvalue : trueExpression [⟨.true_, none⟩] (.literalExpression (.boolean .true_)) :=
    ⟨rfl, rfl⟩
  have htype : booleanType [⟨.boolean, none⟩] (.simple .boolean) := ⟨rfl, rfl⟩
  exact .generalize hvalue htype

/-- Two arguments, the second of them with a type. -/
theorem routineInvocationArguments_separated_iff_two :
    SeparatedArguments trueExpression booleanType
      [⟨.leftParen, none⟩, ⟨.true_, none⟩, ⟨.comma, none⟩, ⟨.true_, none⟩, ⟨.as_, none⟩,
        ⟨.boolean, none⟩, ⟨.rightParen, none⟩]
      [.literalExpression (.boolean .true_), .castExpression .generalize
        (.literalExpression (.boolean .true_)) (.simple .boolean)] := by
  have hlist : SqlArgumentListOpt trueExpression booleanType none
      [⟨.true_, none⟩, ⟨.comma, none⟩, ⟨.true_, none⟩, ⟨.as_, none⟩, ⟨.boolean, none⟩]
      [.literalExpression (.boolean .true_), .castExpression .generalize
        (.literalExpression (.boolean .true_)) (.simple .boolean)] :=
    .list (.comma (.list (.argument sqlArgument_true)) sqlArgument_true_as_boolean rfl)
  exact (routineInvocationArguments_separated_iff (fun _ _ h => trueExpression_delimited h)
    (fun _ _ h => booleanType_delimited h) (.parens hlist)).mpr (by decide)

/-- A comma before the only argument is read. -/
theorem routineInvocationArguments_leadingComma :
    RoutineInvocationArguments trueExpression booleanType none
        [⟨.leftParen, none⟩, ⟨.comma, none⟩, ⟨.true_, none⟩, ⟨.rightParen, none⟩]
        [.literalExpression (.boolean .true_)] ∧
      ¬ SeparatedArguments trueExpression booleanType
        [⟨.leftParen, none⟩, ⟨.comma, none⟩, ⟨.true_, none⟩, ⟨.rightParen, none⟩]
        [.literalExpression (.boolean .true_)] := by
  refine ⟨.parens (.list (.comma .empty sqlArgument_true rfl)), fun h => ?_⟩
  exact h.second rfl

end Mizugaki.Parser
