import Mizugaki.Syntax.Class

/-! Equality of syntax tree objects: the member lists of the hand-written `operator==`, the
identity shortcut each of them begins with, and the entry points that a comparison can be
made through. -/

namespace Mizugaki.Syntax

open RecordTree (Same Everywhere Settled agrees agreesAll agrees_record)

namespace Class

/-- The members that `operator==` compares whatever they hold, in its order. -/
def comparedMembers : Class → List Member
  | sortElement => [.key, .collation, .direction, .nullLocation]
  | targetElement => [.target, .indicator]
  | correspondingClause => [.columnNames]
  | groupByClause => [.elements]
  | withElement => [.name, .expression, .columnNames]
  | caseWhenClause => [.when, .result]
  | columnConstraintDefinition => [.name, .body]
  | privilegeAction => [.actionKind]
  | privilegeObject => [.objectKind, .objectName]
  | privilegeUser => [.userKind]
  | setElement => [.target, .value]
  | storageParameter => [.name, .value]
  | correlationClause => [.correlationName, .columnNames]
  | fieldDefinition => [.name, .type, .collation]
  | literalBoolean => [.value]
  | literalDatetime => [.valueKind, .value]
  | literalInterval => [.sign, .value]
  | literalNumeric => [.valueKind, .sign, .unsignedValue]
  | literalString => [.valueKind, .value, .concatenations]
  | literalNull | literalEmpty | literalDefault => []
  | nameSimple => [.identifier, .identifierKind]
  | nameQualified => [.last, .qualifier]
  | query => [.elements, .from_, .where_, .groupBy, .having, .orderBy, .limit, .quantifier]
  | queryTableReference => [.name]
  | tableValueConstructor => [.elements]
  | queryBinaryExpression => [.operatorKind, .left, .right, .quantifier, .corresponding]
  | withExpression => [.elements, .expression, .isRecursive]
  | selectColumn => [.value, .name]
  | selectAsterisk => [.qualifier]
  | groupingColumn => [.column, .collation]
  | literalExpression => [.value]
  | variableReference | hostParameterReference => [.name]
  | fieldReference => [.operatorKind, .value, .name]
  | caseExpression => [.operand, .whenClauses, .defaultResult]
  | castExpression => [.operatorKind, .operand, .type]
  | unaryExpression => [.operatorKind, .operand]
  | scalarBinaryExpression => [.operatorKind, .left, .right]
  | extractExpression => [.field, .subsecondDigits, .operand]
  | trimExpression => [.specification, .character, .source]
  | valueConstructor => [.operatorKind, .elements]
  | scalarSubquery => [.query, .contextKind]
  | comparisonPredicate => [.operatorKind, .left, .right]
  | quantifiedComparisonPredicate => [.operatorKind, .left, .right, .quantifier]
  | betweenPredicate => [.target, .left, .right, .operatorKind, .isNot]
  | inPredicate => [.left, .right, .isNot]
  | patternMatchPredicate => [.operatorKind, .matchValue, .pattern, .escape, .isNot]
  | tablePredicate => [.operatorKind, .operand]
  | functionInvocation => [.name, .arguments]
  | builtinFunctionInvocation => [.function, .arguments]
  | builtinSetFunctionInvocation => [.function, .quantifier, .arguments]
  | newInvocation => [.type, .arguments]
  | methodInvocation => [.operatorKind, .value, .name, .arguments]
  | staticMethodInvocation => [.type, .name, .arguments]
  | currentOfCursor => [.name]
  | placeholderReference => [.index]
  | emptyStatement => []
  | selectStatement => [.expression, .targets]
  | insertStatement => [.tableName, .columns, .expression, .options]
  | updateStatement => [.tableName, .aliasName, .elements, .where_]
  | deleteStatement => [.tableName, .aliasName, .where_]
  | tableDefinition => [.name, .elements, .options, .parameters]
  | indexDefinition => [.name, .tableName, .keys, .values, .predicate, .options, .parameters]
  | viewDefinition => [.name, .columns, .query, .options, .parameters]
  | sequenceDefinition => [.name, .type, .initialValue, .incrementValue, .minValue, .maxValue,
      .owner, .options]
  | schemaDefinition => [.name, .userName, .elements, .options]
  | alterTableStatement | alterIndexStatement => [.ifExists, .name, .action]
  | dropStatement => [.statementKind, .name, .options]
  | truncateTableStatement => [.name, .identityColumnOption]
  | grantPrivilegeStatement | revokePrivilegeStatement => [.actions, .objects, .users]
  | columnDefinition => [.name, .type, .constraints]
  | tableConstraintDefinition => [.name, .body]
  | simpleConstraint => [.constraintKind]
  | expressionConstraint => [.constraintKind, .expression]
  | keyConstraint => [.constraintKind, .key, .values, .parameters]
  | referentialConstraint => [.columns, .target, .targetColumns, .onUpdate, .onDelete]
  | identityConstraint => [.generation, .initialValue, .incrementValue, .minValue, .maxValue,
      .cycle]
  | renameTableAction => [.replacement]
  | renameColumnAction => [.ifExists, .columnName, .replacement]
  | renameIndexAction => [.replacement]
  -- `is_only_` of the left object is compared with itself
  | tableReference => [.name, .correlation]
  | unnest => [.expression, .withOrdinality, .correlation]
  | join => [.operatorKind, .left, .right, .specification]
  | tableSubquery => [.expression, .correlation, .isLateral]
  | apply => [.operatorKind, .name, .arguments, .correlation]
  | joinCondition => [.expression]
  | joinColumns => [.columns]
  | typeSimple => [.typeKind]
  | characterString | bitString | octetString => [.typeKind, .length]
  | decimal => [.typeKind, .precision, .scale]
  | binaryNumeric => [.typeKind, .precision]
  | typeDatetime => [.typeKind, .hasTimeZone]
  | typeInterval => []
  | row => [.elements]
  | userDefined => [.name]
  | collection => [.element, .length]

/-- What `operator==` returns at once for two arguments at one address. -/
def shortcut : Class → Option Bool
  | literalDatetime | literalInterval | literalNumeric | literalString | literalNull
  | literalEmpty | literalDefault | emptyStatement | tableDefinition | indexDefinition
  | viewDefinition | sequenceDefinition | schemaDefinition | tableConstraintDefinition
  | simpleConstraint | expressionConstraint | keyConstraint | referentialConstraint
  | identityConstraint | typeInterval => none
  | correlationClause | literalBoolean | nameSimple | nameQualified | placeholderReference
  | selectStatement | insertStatement | updateStatement | deleteStatement | alterTableStatement
  | alterIndexStatement | dropStatement | truncateTableStatement | grantPrivilegeStatement
  | revokePrivilegeStatement | columnDefinition | renameTableAction | renameColumnAction
  | renameIndexAction | tableReference | unnest | join | tableSubquery | apply | typeSimple
  | characterString | bitString | octetString | decimal | binaryNumeric | typeDatetime
  | collection => some true
  | sortElement | targetElement | correspondingClause | groupByClause | withElement
  | caseWhenClause | columnConstraintDefinition | privilegeAction | privilegeObject
  | privilegeUser | setElement | storageParameter | fieldDefinition | query | queryTableReference
  | tableValueConstructor | queryBinaryExpression | withExpression | selectColumn
  | selectAsterisk | groupingColumn | literalExpression | variableReference
  | hostParameterReference | fieldReference | caseExpression | castExpression | unaryExpression
  | scalarBinaryExpression | extractExpression | trimExpression | valueConstructor
  | scalarSubquery | comparisonPredicate | quantifiedComparisonPredicate | betweenPredicate
  | inPredicate | patternMatchPredicate | tablePredicate | functionInvocation
  | builtinFunctionInvocation | builtinSetFunctionInvocation | newInvocation | methodInvocation
  | staticMethodInvocation | currentOfCursor | joinCondition | joinColumns | row | userDefined
    => some false

end Class

/-- The `operator==` of the base class tests the addresses before it calls `equals`. -/
def Base.shortcut : Base → Bool
  | .name | .statement | .tableElement | .constraint | .alterTableAction | .alterIndexAction =>
    true
  | .literal | .queryExpression | .groupingElement | .selectElement | .scalarExpression
  | .tableExpression | .joinSpecification | .type => false

/-- The members that `operator==` compares: the identifier of a privilege user only for the
user kind `identifier`. -/
def compared (c : Class) (get : Member → Value) : List Member :=
  if c = .privilegeUser ∧ namesUser get = true then
    c.comparedMembers ++ [.authorizationIdentifier]
  else
    c.comparedMembers

/-- The objects that exist at one moment, by address. -/
abbrev Heap := Nat → Object

/-- `eq` of `compare_utils.h` on a member of two objects. Every object has one owner, so that
two parts are at one address exactly when the objects compared are. -/
def eqPart (same : Bool) (a b : Value) : Bool := same || agrees compared a b

/-- The `operator==` of the class. -/
def operatorEq (heap : Heap) (x y : Nat) : Bool :=
  if x = y ∧ (heap x).cls.shortcut.isSome then
    (heap x).cls.shortcut == some true
  else
    (heap x).cls = (heap y).cls &&
      (compared (heap x).cls (heap x).get).all fun m =>
        eqPart (x = y) ((heap x).get m) ((heap y).get m)

/-- `equals`, with its test of the node kind. -/
def equals (heap : Heap) (x y : Nat) : Bool :=
  (heap y).cls = (heap x).cls && operatorEq heap x y

/-- The `operator==` of the base class; an element has none but its own. -/
def baseEq (heap : Heap) (x y : Nat) : Bool :=
  match (heap x).cls.base with
  | none => operatorEq heap x y
  | some b => b.shortcut && x = y || equals heap x y

/-- `eq` of `compare_utils.h` on two objects. -/
def eq (heap : Heap) (x y : Nat) : Bool := x = y || baseEq heap x y

/-- The ways to compare two objects. -/
inductive Entry where
  | operatorEq | equals | baseEq | eq
  deriving DecidableEq, Repr

namespace Entry

def compare : Entry → Heap → Nat → Nat → Bool
  | operatorEq => Syntax.operatorEq
  | equals => Syntax.equals
  | baseEq => Syntax.baseEq
  | eq => Syntax.eq

/-- The entry point meets a shortcut that returns false for an object of the class and itself. -/
def denies (entry : Entry) (c : Class) : Bool :=
  match entry with
  | operatorEq | equals => c.shortcut == some false
  | baseEq => c.shortcut == some false && !c.base.any Base.shortcut
  | eq => false

end Entry

/-! ### The tables -/

theorem comparedMembers_subset (c : Class) : c.comparedMembers ⊆ c.members := by
  cases c <;> decide

theorem compared_subset (c : Class) (get : Member → Value) : compared c get ⊆ c.members := by
  unfold compared
  split
  · rename_i h
    obtain ⟨rfl, -⟩ := h
    decide
  · exact comparedMembers_subset c

theorem mem_compared_of_always {c : Class} {m : Member} (h : m ∈ c.comparedMembers)
    (get : Member → Value) : m ∈ compared c get := by
  unfold compared
  split
  · exact List.mem_append_left _ h
  · exact h

theorem namesUser_congr {f g : Member → Value}
    (h : agrees compared (f .userKind) (g .userKind) = true) : namesUser g = namesUser f := by
  unfold namesUser
  cases hf : f .userKind with
  | leaf a r =>
    cases hg : g .userKind with
    | leaf b s =>
      rw [hf, hg] at h
      have hab : a = b := by simpa [agrees] using h
      subst hab
      cases a with
      | privilegeUserKind kind => cases kind <;> rfl
      | _ => rfl
    | _ => simp [hf, hg, agrees] at h
  | _ =>
    cases hg : g .userKind with
    | leaf b s => simp [hf, hg, agrees] at h
    | _ => rfl

/-- Two objects that agree in what is compared have the same members compared. -/
theorem compared_settled : Settled compared := by
  intro c f g h
  by_cases hc : c = .privilegeUser
  · subst hc
    have hk : Member.userKind ∈ compared .privilegeUser f :=
      mem_compared_of_always (by decide) f
    have hn := namesUser_congr (h _ hk)
    simp only [compared, hn]
  · simp [compared, hc]

/-! ### Completeness -/

theorem operatorEq_self (heap : Heap) (x : Nat) :
    operatorEq heap x x = !((heap x).cls.shortcut == some false) := by
  unfold operatorEq
  cases h : (heap x).cls.shortcut with
  | none => simp [eqPart]
  | some r => cases r <;> simp

theorem operatorEq_of_ne (heap : Heap) {x y : Nat} (hxy : x ≠ y) :
    operatorEq heap x y = agrees compared (heap x).value (heap y).value := by
  simp [operatorEq, hxy, eqPart, Object.value, agrees]

theorem equals_of_ne (heap : Heap) {x y : Nat} (hxy : x ≠ y) :
    equals heap x y = agrees compared (heap x).value (heap y).value := by
  unfold equals
  rw [operatorEq_of_ne heap hxy]
  by_cases hc : (heap x).cls = (heap y).cls
  · simp [hc]
  · simp [Object.value, agrees, hc]

theorem compare_self (entry : Entry) (heap : Heap) (x : Nat) :
    entry.compare heap x x = !entry.denies (heap x).cls := by
  cases entry with
  | operatorEq => exact operatorEq_self heap x
  | equals => simp [Entry.compare, Entry.denies, equals, operatorEq_self]
  | baseEq =>
    simp only [Entry.compare, Entry.denies, baseEq]
    cases (heap x).cls.base with
    | none => simp [operatorEq_self]
    | some b => simp [equals, operatorEq_self, Bool.or_comm]
  | eq => simp [Entry.compare, Entry.denies, eq]

theorem compare_of_ne (entry : Entry) (heap : Heap) {x y : Nat} (hxy : x ≠ y) :
    entry.compare heap x y = agrees compared (heap x).value (heap y).value := by
  have hbase : baseEq heap x y = agrees compared (heap x).value (heap y).value := by
    unfold baseEq
    cases (heap x).cls.base with
    | none => exact operatorEq_of_ne heap hxy
    | some b => simp [hxy, equals_of_ne]
  cases entry with
  | operatorEq => exact operatorEq_of_ne heap hxy
  | equals => exact equals_of_ne heap hxy
  | baseEq => exact hbase
  | eq => simpa [Entry.compare, eq, hxy] using hbase

/-- Structurally identical objects compare equal, and the comparison is an equivalence,
exactly when the class has no shortcut that answers false on the way. -/
theorem compare_complete_iff (entry : Entry) (heap : Heap) (x : Nat) :
    ((∀ y, Same Class.members (heap x).value (heap y).value → entry.compare heap x y = true) ∧
      (∀ y, entry.compare heap x y = true → entry.compare heap y x = true) ∧
      (∀ y z, entry.compare heap x y = true → entry.compare heap y z = true →
        entry.compare heap x z = true)) ↔
    entry.denies (heap x).cls = false := by
  have hself := compare_self entry heap x
  constructor
  · intro ⟨hcomplete, _, _⟩
    have h := hcomplete x (Same.refl _)
    rw [hself] at h
    simpa using h
  · intro hd
    have hrefl : entry.compare heap x x = true := by simp [hself, hd]
    refine ⟨fun y hs => ?_, fun y h => ?_, fun y z h h' => ?_⟩
    · by_cases hxy : x = y
      · exact hxy ▸ hrefl
      · rw [compare_of_ne entry heap hxy]
        exact hs.agrees compared_subset
    · by_cases hxy : x = y
      · exact hxy ▸ hrefl
      · rw [compare_of_ne entry heap hxy] at h
        rw [compare_of_ne entry heap (Ne.symm hxy)]
        exact RecordTree.agrees_symm compared_settled _ _ h
    · by_cases hxz : x = z
      · exact hxz ▸ hrefl
      by_cases hxy : x = y
      · exact hxy ▸ h'
      by_cases hyz : y = z
      · exact hyz ▸ h
      rw [compare_of_ne entry heap hxy] at h
      rw [compare_of_ne entry heap hyz] at h'
      rw [compare_of_ne entry heap hxz]
      exact RecordTree.agrees_trans compared_settled _ _ _ h h'

/-- The `*` of a select list. -/
def asterisk : Object where
  cls := .selectAsterisk
  region := ⟨0, 1⟩
  get _ := .null
  formed := by
    refine .object _ _ fun field h => ?_
    obtain rfl : field = (.qualifier, .pointer .scalarExpression) := by
      simpa [Class.fields] using h
    exact .nullPointer _

/-- `*` is unequal to itself. -/
theorem asterisk_ne_self : ¬ ∀ (entry : Entry) (heap : Heap) (x y : Nat),
    Same Class.members (heap x).value (heap y).value → entry.compare heap x y = true := by
  intro h
  have hself := h .operatorEq (fun _ => asterisk) 0 0 (Same.refl _)
  have hfalse : Entry.operatorEq.compare (fun _ => asterisk) 0 0 = false := by decide
  simp [hfalse] at hself

/-! ### Soundness -/

/-- Objects with a member that `operator==` does not compare: the operand of an APPLY, the flag of
a table reference, or the identifier of a privilege user of another kind than `identifier`. -/
def Overlooks (c : Class) (get : Member → Value) : Prop :=
  c = .apply ∨ c = .tableReference ∨ c = .privilegeUser ∧ namesUser get = false

/-- No object of the tree has such a member. -/
def NothingOverlooked (v : Value) : Prop :=
  Everywhere Class.members (fun c get => ¬ Overlooks c get) v

/-- A member of an object that is not compared. -/
def Ignored (c : Class) (get : Member → Value) (m : Member) : Prop :=
  m ∈ c.members ∧ m ∉ compared c get

instance (c : Class) (get : Member → Value) (m : Member) : Decidable (Ignored c get m) :=
  inferInstanceAs (Decidable (_ ∧ _))

theorem members_compared (c : Class) :
    ∀ m ∈ c.members, m ∈ c.comparedMembers ∨ (c = .apply ∧ m = .operand) ∨
      (c = .tableReference ∧ m = .isOnly) ∨
        (c = .privilegeUser ∧ m = .authorizationIdentifier) := by
  cases c <;> decide

theorem ignored_cases {c : Class} {get : Member → Value} {m : Member} (h : Ignored c get m) :
    (c = .apply ∧ m = .operand) ∨ (c = .tableReference ∧ m = .isOnly) ∨
      (c = .privilegeUser ∧ m = .authorizationIdentifier ∧ namesUser get = false) := by
  obtain hm | hm | hm | ⟨rfl, rfl⟩ := members_compared c m h.1
  · exact absurd (mem_compared_of_always hm get) h.2
  · exact .inl hm
  · exact .inr (.inl hm)
  · refine .inr (.inr ⟨rfl, rfl, ?_⟩)
    by_contra hname
    exact h.2 (by simp [compared, hname])

/-- The member that is overlooked. -/
theorem Overlooks.ignored {c : Class} {get : Member → Value} (h : Overlooks c get) :
    ∃ m, Ignored c get m := by
  obtain rfl | rfl | ⟨rfl, hname⟩ := h
  · exact ⟨.operand, by decide, by simp [compared, Class.comparedMembers]⟩
  · exact ⟨.isOnly, by decide, by simp [compared, Class.comparedMembers]⟩
  · exact ⟨.authorizationIdentifier, by decide, by simp [compared, Class.comparedMembers, hname]⟩

theorem members_subset_compared {c : Class} {get : Member → Value} (h : ¬ Overlooks c get) :
    c.members ⊆ compared c get := by
  intro m hm
  by_contra hno
  obtain ⟨hc, -⟩ | ⟨hc, -⟩ | ⟨hc, -, hname⟩ := ignored_cases ⟨hm, hno⟩
  · exact h (.inl hc)
  · exact h (.inr (.inl hc))
  · exact h (.inr (.inr ⟨hc, hname⟩))

theorem same_of_agrees {v w : Value} (hv : NothingOverlooked v)
    (h : agrees compared v w = true) : Same Class.members v w :=
  RecordTree.same_of_agrees (fun _ _ hc => members_subset_compared hc) v w hv h

/-! A tree that differs from a given one in the members that are overlooked. -/

def tableNamed (identifier : String) : Value :=
  .record .tableReference ⟨0, 0⟩ fun
    | .isOnly => .leaf (.flag false) ⟨0, 0⟩
    | .name => nameValue identifier
    | _ => .null

theorem tableNamed_formed (identifier : String) :
    Formed (.pointer .tableExpression) (tableNamed identifier) := by
  refine .pointer (c := .tableReference) rfl (.object _ _ fun field h => ?_)
  simp only [Class.fields, List.mem_cons, List.not_mem_nil, or_false] at h
  obtain rfl | rfl | rfl := h
  · exact .plain _ _
  · exact .pointer rfl (nameValue_formed identifier)
  · exact .empty _

/-- A value that is not the given one, of two that differ. -/
def otherOf (first second v : Value) : Value := if agrees compared v first then second else first

theorem not_same_otherOf {first second : Value} (h : agrees compared first second = false)
    (v : Value) : ¬ Same Class.members v (otherOf first second v) := by
  intro hsame
  have hagrees := hsame.agrees compared_subset
  unfold otherOf at hagrees
  split at hagrees
  next hfirst =>
    have hfirst' := RecordTree.agrees_symm compared_settled _ _ hfirst
    have hboth := RecordTree.agrees_trans compared_settled _ _ _ hfirst' hagrees
    rw [h] at hboth
    cases hboth
  next hfirst => exact hfirst hagrees

/-- Another value of a member that is overlooked. -/
def otherMember (c : Class) : Value → Value :=
  match c with
  | .apply => otherOf (tableNamed "t") (tableNamed "u")
  | .tableReference => otherOf (.leaf (.flag false) ⟨0, 0⟩) (.leaf (.flag true) ⟨0, 0⟩)
  | _ => otherOf .null (nameValue "u")

theorem not_same_otherMember (c : Class) (v : Value) :
    ¬ Same Class.members v (otherMember c v) := by
  unfold otherMember
  split
  · exact not_same_otherOf (by decide) v
  · exact not_same_otherOf (by decide) v
  · exact not_same_otherOf (by decide) v

theorem otherOf_formed {s : Shape} {first second : Value} (hfirst : Formed s first)
    (hsecond : Formed s second) (v : Value) : Formed s (otherOf first second v) := by
  unfold otherOf
  split
  · exact hsecond
  · exact hfirst

theorem otherMember_formed {c : Class} {get : Member → Value} {field : Member × Shape}
    (hfield : field ∈ c.fields) (h : Ignored c get field.1) (v : Value) :
    Formed field.2 (otherMember c v) := by
  obtain ⟨rfl, hm⟩ | ⟨rfl, hm⟩ | ⟨rfl, hm, -⟩ := ignored_cases h
  · have hshape : ∀ field ∈ Class.fields .apply, field.1 = .operand →
        field.2 = .pointer .tableExpression := by decide
    rw [hshape field hfield hm]
    exact otherOf_formed (tableNamed_formed "t") (tableNamed_formed "u") v
  · have hshape : ∀ field ∈ Class.fields .tableReference, field.1 = .isOnly →
        field.2 = .plain := by decide
    rw [hshape field hfield hm]
    exact otherOf_formed (.plain _ _) (.plain _ _) v
  · have hshape : ∀ field ∈ Class.fields .privilegeUser, field.1 = .authorizationIdentifier →
        field.2 = .simpleName := by decide
    rw [hshape field hfield hm]
    exact otherOf_formed .nullName (.simpleName (nameValue_formed "u")) v

mutual

def swapIgnored : Value → Value
  | .null => .null
  | .leaf a r => .leaf a r
  | .list vs => .list (swapAllIgnored vs)
  | .record c r get => .record c r fun m =>
      if Ignored c get m then otherMember c (get m) else swapIgnored (get m)

def swapAllIgnored : List Value → List Value
  | [] => []
  | v :: vs => swapIgnored v :: swapAllIgnored vs

end

theorem Formed.swapIgnored {s : Shape} {v : Value} (h : Formed s v) :
    Formed s (swapIgnored v) := by
  induction h with
  | plain a r => exact .plain a r
  | empty s => exact .empty s
  | present _ ih => exact .present ih
  | nil s => exact .nil s
  | cons _ _ hv hvs =>
    simp only [Syntax.swapIgnored, swapAllIgnored] at hvs ⊢
    exact .cons hv hvs
  | nullPointer b => exact .nullPointer b
  | pointer hb _ ih => exact .pointer hb ih
  | nullName => exact .nullName
  | simpleName _ ih => exact .simpleName ih
  | object c r _ ih =>
    simp only [Syntax.swapIgnored]
    refine .object c r fun field hfield => ?_
    split
    next hignored => exact otherMember_formed hfield hignored _
    next => exact ih field hfield

mutual

theorem agrees_swapIgnored : ∀ v : Value, agrees compared v (swapIgnored v) = true
  | .null => rfl
  | .leaf a r => by simp [swapIgnored, agrees]
  | .list vs => by
    simp only [swapIgnored, agrees]
    exact agreesAll_swapAllIgnored vs
  | .record c r get => by
    simp only [swapIgnored]
    refine agrees_record.mpr ⟨rfl, fun m hm => ?_⟩
    rw [if_neg fun hignored => hignored.2 hm]
    exact agrees_swapIgnored (get m)

theorem agreesAll_swapAllIgnored :
    ∀ vs : List Value, agreesAll compared vs (swapAllIgnored vs) = true
  | [] => rfl
  | v :: vs => by
    simp only [swapAllIgnored, agreesAll, Bool.and_eq_true]
    exact ⟨agrees_swapIgnored v, agreesAll_swapAllIgnored vs⟩

end

mutual

/-- The two trees are identical only where nothing is overlooked. -/
theorem nothingOverlooked_of_same :
    ∀ v : Value, Same Class.members v (swapIgnored v) → NothingOverlooked v
  | .null, _ => trivial
  | .leaf _ _, _ => trivial
  | .list vs, h => nothingOverlooked_of_same_all vs (by simpa [swapIgnored] using h)
  | .record c r get, h => by
    simp only [swapIgnored] at h
    cases h with
    | record _ _ _ hmembers =>
      have hkept : ∀ m ∈ c.members, ¬ Ignored c get m := by
        intro m hm hignored
        exact not_same_otherMember c (get m) (by simpa [hignored] using hmembers m hm)
      refine ⟨fun hoverlooks => ?_, fun m hm => nothingOverlooked_of_same (get m) ?_⟩
      · obtain ⟨m, hignored⟩ := hoverlooks.ignored
        exact hkept m hignored.1 hignored
      · simpa [hkept m hm] using hmembers m hm

theorem nothingOverlooked_of_same_all :
    ∀ vs : List Value, Same Class.members (.list vs) (.list (swapAllIgnored vs)) →
      NothingOverlooked (.list vs)
  | [], _ => trivial
  | v :: vs, h => by
    simp only [swapAllIgnored] at h
    cases h with
    | cons hv hvs =>
      exact ⟨nothingOverlooked_of_same v hv, nothingOverlooked_of_same_all vs hvs⟩

end

/-- The object with other members where they are overlooked. -/
def Object.swapIgnored (o : Object) : Object where
  cls := o.cls
  region := o.region
  get m := if Ignored o.cls o.get m then otherMember o.cls (o.get m)
    else Syntax.swapIgnored (o.get m)
  formed := by
    have h := o.formed.swapIgnored
    simpa only [Syntax.swapIgnored] using h

theorem Object.swapIgnored_value (o : Object) :
    o.swapIgnored.value = Syntax.swapIgnored o.value := by
  simp only [Object.value, Object.swapIgnored, Syntax.swapIgnored]

/-- An object that compares equal is structurally identical, and replacing one child by an
unequal one makes it unequal, exactly when nothing in its tree is overlooked. -/
theorem compare_sound_iff (a : Object) :
    ((∀ (entry : Entry) (heap : Heap) (x y : Nat), heap x = a →
        entry.compare heap x y = true → Same Class.members a.value (heap y).value) ∧
      (∀ (entry : Entry) (heap : Heap) (x y : Nat) (m : Member), heap x = a →
        (heap y).cls = a.cls → m ∈ a.cls.members →
        (∀ n ∈ a.cls.members, n ≠ m → (heap y).get n = a.get n) →
        eqPart false (a.get m) ((heap y).get m) = false → entry.compare heap x y = false)) ↔
    NothingOverlooked a.value := by
  constructor
  · intro ⟨hsound, _⟩
    let heap : Heap := fun n => if n = 0 then a else a.swapIgnored
    have hagrees : agrees compared a.value a.swapIgnored.value = true := by
      rw [Object.swapIgnored_value]
      exact agrees_swapIgnored _
    have hcompare : Entry.operatorEq.compare heap 0 1 = true := by
      rw [compare_of_ne .operatorEq heap Nat.zero_ne_one]
      exact hagrees
    have hsame := hsound .operatorEq heap 0 1 rfl hcompare
    apply nothingOverlooked_of_same
    rw [← Object.swapIgnored_value]
    exact hsame
  · intro hnothing
    have hsound : ∀ (entry : Entry) (heap : Heap) (x y : Nat), heap x = a →
        entry.compare heap x y = true → Same Class.members a.value (heap y).value := by
      intro entry heap x y hx h
      by_cases hxy : x = y
      · subst hxy
        rw [hx]
        exact Same.refl _
      · rw [compare_of_ne entry heap hxy, hx] at h
        exact same_of_agrees hnothing h
    refine ⟨hsound, fun entry heap x y m hx _ hm _ hne => ?_⟩
    by_contra h
    have hsame := hsound entry heap x y hx (by simpa using h)
    have hpart := ((RecordTree.same_record hsame).2 m hm).agrees compared_subset
    simp [eqPart, hpart] at hne

/-- `operand CROSS APPLY f() AS r`. -/
def applyTo (operand : String) : Object where
  cls := .apply
  region := ⟨0, 0⟩
  get
    | .operand => tableNamed operand
    | .name => nameValue "f"
    | .arguments => .list []
    | .correlation => .record .correlationClause ⟨0, 0⟩ fun
        | .correlationName => nameValue "r"
        | .columnNames => .list []
        | _ => .null
    | _ => .null
  formed := by
    refine .object _ _ fun field h => ?_
    simp only [Class.fields, List.mem_cons, List.not_mem_nil, or_false] at h
    obtain rfl | rfl | rfl | rfl | rfl := h
    · exact tableNamed_formed operand
    · exact .empty _
    · exact .pointer rfl (nameValue_formed "f")
    · exact .nil _
    · refine .object _ _ fun field h => ?_
      simp only [Class.fields, List.mem_cons, List.not_mem_nil, or_false] at h
      obtain rfl | rfl := h
      · exact .simpleName (nameValue_formed "r")
      · exact .nil _

/-- Applications to different tables compare equal. -/
theorem apply_ignores_operand : ¬ ∀ (entry : Entry) (heap : Heap) (x y : Nat),
    entry.compare heap x y = true → Same Class.members (heap x).value (heap y).value := by
  intro h
  let heap : Heap := fun n => if n = 0 then applyTo "t" else applyTo "u"
  have hcompare : Entry.operatorEq.compare heap 0 1 = true := by decide
  have hsame := RecordTree.same_record (h .operatorEq heap 0 1 hcompare)
  have hoperand := (hsame.2 .operand (by decide)).agrees compared_subset
  have hne : agrees compared (tableNamed "t") (tableNamed "u") = false := by decide
  exact absurd hoperand (by simp [heap, applyTo, hne])

end Mizugaki.Syntax
