import Mizugaki.Syntax.Class

/-! The tree validator of the parser: it walks over the parts that its visitors name and
stops when a limit on the number or on the depth of nodes is exceeded. -/

namespace Mizugaki.Syntax

open Mizugaki.Ast (NodeRegion)
open RecordTree (Everywhere preorder preorderAll inner)

namespace Class

/-- The members that the visitor of a node accepts, in its order. A member that holds elements
stands for the loop over them; the row of an element is the body of that loop, which is the
same in every visitor. -/
def visited : Class → List Member
  | sortElement => [.key, .collation]
  | targetElement => [.target, .indicator]
  | correspondingClause => [.columnNames]
  | groupByClause => [.elements]
  | withElement => [.name, .columnNames, .expression]
  | caseWhenClause => [.when, .result]
  | columnConstraintDefinition => [.name, .body]
  | privilegeAction => []
  | privilegeObject => [.objectName]
  | privilegeUser => [.authorizationIdentifier]
  | setElement => [.target, .value]
  | storageParameter => [.name, .value]
  | correlationClause => [.correlationName, .columnNames]
  | fieldDefinition => [.name, .type, .collation]
  | literalBoolean | literalDatetime | literalInterval | literalNumeric | literalString
  | literalNull | literalEmpty | literalDefault => []
  | nameSimple => []
  | nameQualified => [.qualifier, .last]
  | query => [.elements, .from_, .where_, .groupBy, .having, .orderBy, .limit]
  | queryTableReference => [.name]
  | tableValueConstructor => [.elements]
  | queryBinaryExpression => [.left, .corresponding, .right]
  | withExpression => [.elements, .expression]
  | selectColumn => [.value, .name]
  | selectAsterisk => [.qualifier]
  | groupingColumn => [.column, .collation]
  | literalExpression => [.value]
  | variableReference | hostParameterReference => [.name]
  | fieldReference => [.value, .name]
  | caseExpression => [.operand, .whenClauses, .defaultResult]
  | castExpression => [.operand, .type]
  | unaryExpression => [.operand]
  | scalarBinaryExpression => [.left, .right]
  | extractExpression => [.operand]
  | trimExpression => [.character, .source]
  | valueConstructor => [.elements]
  | scalarSubquery => [.query]
  | comparisonPredicate => [.left, .right]
  | quantifiedComparisonPredicate => [.left, .right]
  | betweenPredicate => [.target, .left, .right]
  | inPredicate => [.left, .right]
  | patternMatchPredicate => [.matchValue, .pattern, .escape]
  | tablePredicate => [.operand]
  | functionInvocation => [.arguments]
  | builtinFunctionInvocation => [.arguments]
  | builtinSetFunctionInvocation => [.arguments]
  | newInvocation => [.type, .arguments]
  | methodInvocation => [.value, .name, .arguments]
  | staticMethodInvocation => [.type, .name, .arguments]
  | currentOfCursor => [.name]
  | placeholderReference => []
  | emptyStatement => []
  | selectStatement => [.expression, .targets]
  | insertStatement => [.tableName, .columns, .expression]
  | updateStatement => [.tableName, .elements, .where_]
  | deleteStatement => [.tableName, .where_]
  | tableDefinition => [.name, .elements, .parameters]
  | indexDefinition => [.name, .tableName, .keys, .values, .predicate, .parameters]
  | viewDefinition => [.name, .columns, .query, .parameters]
  | sequenceDefinition =>
      [.name, .type, .initialValue, .incrementValue, .minValue, .maxValue, .owner]
  | schemaDefinition => [.name, .userName, .elements]
  | alterTableStatement | alterIndexStatement => [.name, .action]
  | dropStatement | truncateTableStatement => [.name]
  | grantPrivilegeStatement | revokePrivilegeStatement => [.objects, .users]
  | columnDefinition => [.name, .type, .constraints]
  | tableConstraintDefinition => [.name, .body]
  | simpleConstraint => []
  | expressionConstraint => [.expression]
  | keyConstraint => [.key, .values, .parameters]
  | referentialConstraint => [.columns, .target, .targetColumns]
  | identityConstraint => [.initialValue, .incrementValue, .minValue, .maxValue]
  | renameTableAction => [.replacement]
  | renameColumnAction => [.columnName, .replacement]
  | renameIndexAction => [.replacement]
  | tableReference => [.name, .correlation]
  | unnest => [.expression, .correlation]
  | join => [.left, .right, .specification]
  | tableSubquery => [.expression, .correlation]
  | apply => [.name, .arguments, .correlation]
  | joinCondition => [.expression]
  | joinColumns => [.columns]
  | typeSimple | characterString | bitString | octetString | decimal | binaryNumeric
  | typeDatetime | typeInterval => []
  | row => [.elements]
  | userDefined => [.name]
  | collection => [.element]

end Class

/-- `ast::compilation_unit`, without the comment regions and the document. -/
structure CompilationUnit where
  statements : List Value
  formed : Formed (.vector (.pointer .statement)) (.list statements)

/-- The limits of the validator; zero stands for no limit. -/
structure Limits where
  nodeLimit : Nat
  depthLimit : Nat
  deriving DecidableEq, Repr

/-- A diagnostic with the code `exceed_number_of_elements`. The text goes on with the number
and the kind of the node. -/
structure Diagnostic where
  text : String
  number : Nat
  kind : Class
  region : NodeRegion
  deriving DecidableEq, Repr

/-- The state of the `engine`. -/
structure Engine where
  nodeCount : Nat
  maxDepth : Nat
  result : Option Diagnostic
  deriving DecidableEq, Repr

/-- `engine::clear`. -/
def Engine.clear : Engine := ⟨0, 0, none⟩

/-- The macro `ACCEPT`: a step that fails ends the visitor. -/
def andThen (first next : Engine → Bool × Engine) (e : Engine) : Bool × Engine :=
  match first e with
  | (true, e') => next e'
  | (false, e') => (false, e')

/-- `engine::check`. -/
def check (limits : Limits) (kind : Class) (region : NodeRegion) (depth : Nat) (e : Engine) :
    Bool × Engine :=
  let count := e.nodeCount + 1
  let deepest := max depth e.maxDepth
  if limits.nodeLimit > 0 ∧ count > limits.nodeLimit then
    (false, ⟨count, deepest, some {
      text := "exceeds the max number of elements in the SQL syntax tree: count="
      number := count
      kind := kind
      region := region }⟩)
  else if limits.depthLimit > 0 ∧ depth > limits.depthLimit then
    (false, ⟨count, deepest, some {
      text := "exceeds the max depth of the SQL syntax tree: depth="
      number := depth
      kind := kind
      region := region }⟩)
  else
    (true, ⟨count, deepest, e.result⟩)

mutual

/-- `engine::accept` and the visitor of the node. An element is no node: its owner accepts the
parts of it at its own depth. -/
def accept (limits : Limits) : Value → Nat → Engine → Bool × Engine
  | .null, _ => fun e => (true, e)
  | .leaf _ _, _ => fun e => (true, e)
  | .list vs, depth => acceptAll limits vs depth
  | .record c r get, depth =>
    if c.isNode then
      andThen (check limits c r (depth + 1))
        ((c.visited.map fun m => accept limits (get m) (depth + 1)).foldr andThen fun e => (true, e))
    else
      (c.visited.map fun m => accept limits (get m) depth).foldr andThen fun e => (true, e)

def acceptAll (limits : Limits) : List Value → Nat → Engine → Bool × Engine
  | [], _ => fun e => (true, e)
  | v :: vs, depth => andThen (accept limits v depth) (acceptAll limits vs depth)

end

/-- `engine::process`. -/
def process (limits : Limits) (unit : CompilationUnit) (depth : Nat) : Engine :=
  (acceptAll limits unit.statements depth .clear).2

/-- `sql_tree_validator::operator()`, with the counters it leaves. -/
def validate (limits : Limits) (unit : CompilationUnit) : Option Diagnostic × Nat × Nat :=
  if limits.nodeLimit > 0 ∨ limits.depthLimit > 0 then
    let e := process limits unit 0
    (e.result, e.nodeCount, e.maxDepth)
  else
    (none, 0, 0)

/-! ### The walk as a list of nodes -/

/-- A node of the tree, with its region and its depth. -/
abbrev NodeAt := Class × NodeRegion × Nat

/-- All nodes of the value, below `depth` nodes. -/
def nodes (depth : Nat) (v : Value) : List NodeAt := preorder Class.members Class.isNode depth v

/-- The nodes that the validator meets. -/
def visits (depth : Nat) (v : Value) : List NodeAt := preorder Class.visited Class.isNode depth v

def checkAll (limits : Limits) : List NodeAt → Engine → Bool × Engine
  | [] => fun e => (true, e)
  | n :: ns => andThen (check limits n.1 n.2.1 n.2.2) (checkAll limits ns)

theorem andThen_assoc (f g h : Engine → Bool × Engine) :
    andThen (andThen f g) h = andThen f (andThen g h) := by
  funext e
  unfold andThen
  obtain ⟨ok, e'⟩ := f e
  cases ok <;> rfl

theorem andThen_fails {f : Engine → Bool × Engine} {e : Engine} (h : (f e).1 = false)
    (next : Engine → Bool × Engine) : andThen f next e = f e := by
  unfold andThen
  cases hf : f e with
  | mk ok e' =>
    rw [hf] at h
    simp only at h
    rw [h]

theorem checkAll_append (limits : Limits) (ns ns' : List NodeAt) :
    checkAll limits (ns ++ ns') = andThen (checkAll limits ns) (checkAll limits ns') := by
  induction ns with
  | nil => rfl
  | cons n ns ih => rw [List.cons_append, checkAll, ih, checkAll, andThen_assoc]

theorem foldr_andThen (limits : Limits) {ms : List Member}
    {run : Member → Engine → Bool × Engine} {walk : Member → List NodeAt}
    (h : ∀ m, run m = checkAll limits (walk m)) :
    (ms.map run).foldr andThen (fun e => (true, e)) = checkAll limits (ms.flatMap walk) := by
  induction ms with
  | nil => rfl
  | cons m ms ih =>
    rw [List.map_cons, List.foldr_cons, ih, List.flatMap_cons, checkAll_append, h m]

mutual

/-- The engine checks one node after the other. -/
theorem accept_eq_checkAll (limits : Limits) :
    ∀ (v : Value) (depth : Nat), accept limits v depth = checkAll limits (visits depth v)
  | .null, _ => by simp [accept, visits, preorder, checkAll]
  | .leaf _ _, _ => by simp [accept, visits, preorder, checkAll]
  | .list vs, depth => by
    simp only [accept, visits, preorder]
    exact acceptAll_eq_checkAll limits vs depth
  | .record c r get, depth => by
    simp only [accept, visits, preorder]
    split
    next hc =>
      rw [foldr_andThen limits fun m => accept_eq_checkAll limits (get m) (depth + 1)]
      simp only [RecordTree.inner, hc, visits, if_true, List.singleton_append, checkAll]
    next hc =>
      rw [foldr_andThen limits fun m => accept_eq_checkAll limits (get m) depth]
      simp only [RecordTree.inner, hc, visits, if_false, List.nil_append, Bool.false_eq_true]

theorem acceptAll_eq_checkAll (limits : Limits) :
    ∀ (vs : List Value) (depth : Nat),
      acceptAll limits vs depth =
        checkAll limits (preorderAll Class.visited Class.isNode depth vs)
  | [], _ => by simp [acceptAll, preorderAll, checkAll]
  | v :: vs, depth => by
    rw [acceptAll, preorderAll, checkAll_append, accept_eq_checkAll limits v depth,
      acceptAll_eq_checkAll limits vs depth]
    rfl

end

/-! ### The limits -/

/-- The nodes are within the limits when `count` nodes were met before. -/
def Within (limits : Limits) (count : Nat) (ns : List NodeAt) : Prop :=
  (limits.nodeLimit = 0 ∨ count + ns.length ≤ limits.nodeLimit) ∧
    (limits.depthLimit = 0 ∨ ∀ n ∈ ns, n.2.2 ≤ limits.depthLimit)

/-- The greatest depth of the nodes, or `depth`. -/
def deepest (depth : Nat) (ns : List NodeAt) : Nat := ns.foldl (fun d n => max n.2.2 d) depth

/-- What `check` does with one node. -/
theorem check_spec (limits : Limits) (n : NodeAt) (e : Engine) :
    (Within limits e.nodeCount [n] ∧ check limits n.1 n.2.1 n.2.2 e =
      (true, ⟨e.nodeCount + 1, max n.2.2 e.maxDepth, e.result⟩)) ∨
    (¬ Within limits e.nodeCount [n] ∧ (check limits n.1 n.2.1 n.2.2 e).1 = false ∧
      (check limits n.1 n.2.1 n.2.2 e).2.result.isSome) := by
  by_cases hcount : limits.nodeLimit > 0 ∧ e.nodeCount + 1 > limits.nodeLimit
  · refine .inr ⟨fun h => ?_, by simp only [check, if_pos hcount],
      by simp only [check, if_pos hcount, Option.isSome_some]⟩
    have := h.1
    simp only [List.length_singleton] at this
    omega
  by_cases hdepth : limits.depthLimit > 0 ∧ n.2.2 > limits.depthLimit
  · refine .inr ⟨fun h => ?_, by simp only [check, if_neg hcount, if_pos hdepth],
      by simp only [check, if_neg hcount, if_pos hdepth, Option.isSome_some]⟩
    have := h.2
    simp only [List.mem_singleton, forall_eq] at this
    omega
  · refine .inl ⟨⟨?_, ?_⟩, by simp only [check, if_neg hcount, if_neg hdepth]⟩
    · simp only [List.length_singleton]
      omega
    · simp only [List.mem_singleton, forall_eq]
      omega

/-- A walk within the limits counts every node; a walk beyond them leaves a diagnostic. -/
theorem checkAll_spec (limits : Limits) (ns : List NodeAt) (e : Engine)
    (he : limits.nodeLimit = 0 ∨ e.nodeCount ≤ limits.nodeLimit) :
    (Within limits e.nodeCount ns ∧ checkAll limits ns e =
      (true, ⟨e.nodeCount + ns.length, deepest e.maxDepth ns, e.result⟩)) ∨
    (¬ Within limits e.nodeCount ns ∧ (checkAll limits ns e).2.result.isSome) := by
  induction ns generalizing e with
  | nil => exact .inl ⟨⟨by simpa using he, .inr (by simp)⟩, rfl⟩
  | cons n ns ih =>
    have hsplit : Within limits e.nodeCount (n :: ns) ↔
        Within limits e.nodeCount [n] ∧ Within limits (e.nodeCount + 1) ns := by
      simp only [Within, List.length_cons, List.length_nil, List.forall_mem_cons,
        List.not_mem_nil, false_implies, implies_true, and_true]
      grind
    obtain ⟨hn, hc⟩ | ⟨hn, hc, hs⟩ := check_spec limits n e
    · have hrun : checkAll limits (n :: ns) e = checkAll limits ns
          ⟨e.nodeCount + 1, max n.2.2 e.maxDepth, e.result⟩ := by
        simp only [checkAll, andThen, hc]
      obtain ⟨hw, hs⟩ | ⟨hw, hs⟩ := ih ⟨e.nodeCount + 1, max n.2.2 e.maxDepth, e.result⟩ hn.1
      · refine .inl ⟨hsplit.mpr ⟨hn, hw⟩, ?_⟩
        rw [hrun, hs]
        simp only [List.length_cons, deepest, List.foldl_cons]
        rw [Nat.add_assoc, Nat.add_comm 1]
      · refine .inr ⟨fun h => hw (hsplit.mp h).2, ?_⟩
        rw [hrun]
        exact hs
    · refine .inr ⟨fun h => hn (hsplit.mp h).1, ?_⟩
      rw [checkAll, andThen_fails hc]
      exact hs

/-- The nodes of a compilation unit. -/
def CompilationUnit.nodes (unit : CompilationUnit) : List NodeAt :=
  Syntax.nodes 0 (.list unit.statements)

/-- The nodes of a compilation unit that the validator meets. -/
def CompilationUnit.visits (unit : CompilationUnit) : List NodeAt :=
  Syntax.visits 0 (.list unit.statements)

theorem process_eq (limits : Limits) (unit : CompilationUnit) :
    process limits unit 0 = (checkAll limits unit.visits .clear).2 := by
  unfold process
  rw [acceptAll_eq_checkAll]
  rfl

/-- The walk ends without a diagnostic exactly when the nodes it meets are within the limits,
and then its counters are theirs. -/
theorem process_spec (limits : Limits) (unit : CompilationUnit) :
    (Within limits 0 unit.visits ∧
      process limits unit 0 = ⟨unit.visits.length, deepest 0 unit.visits, none⟩) ∨
    (¬ Within limits 0 unit.visits ∧ (process limits unit 0).result.isSome) := by
  rw [process_eq]
  obtain ⟨hw, hs⟩ | h := checkAll_spec limits unit.visits .clear (.inr (Nat.zero_le _))
  · refine .inl ⟨hw, ?_⟩
    rw [hs]
    simp [Engine.clear]
  · exact .inr h

/-! ### The nodes that are not visited -/

/-- The members that hold a node and that no visitor accepts. -/
def Class.overlooked : Class → List Member
  | apply => [.operand]
  | updateStatement | deleteStatement => [.aliasName]
  | functionInvocation => [.name]
  | _ => []

/-- A value of the type holds no node. -/
def Shape.nodeFree : Shape → Bool
  | plain => true
  | optional s | vector s => s.nodeFree
  | pointer _ | simpleName => false
  | object c => c = .privilegeAction

/-- The members of types that hold no node. -/
def Class.plainMembers (c : Class) : List Member :=
  (c.fields.filter fun field => field.2.nodeFree).map Prod.fst

theorem members_perm (c : Class) :
    c.members.Perm (c.visited ++ c.overlooked ++ c.plainMembers) := by
  cases c <;> decide

theorem fields_overlooked (c : Class) : ∀ field ∈ c.fields, field.1 ∈ c.overlooked →
    field.2 = .simpleName ∨ field.2 = .pointer .name ∨ field.2 = .pointer .tableExpression := by
  cases c <;> decide

/-- Every member that a visitor overlooks is empty. -/
def Covered (v : Value) : Prop :=
  Everywhere Class.members (fun c get => ∀ m ∈ c.overlooked, get m = .null) v

theorem nodes_of_nodeFree {s : Shape} {v : Value} (h : Formed s v) (hs : s.nodeFree = true)
    (depth : Nat) : nodes depth v = [] := by
  induction h with
  | plain | empty | nil | nullPointer | nullName => rfl
  | present _ ih => exact ih hs
  | cons _ _ hv hvs =>
    have hvs' := hvs hs
    simp only [nodes, preorder, preorderAll] at hv hvs' ⊢
    rw [hv hs, hvs']
    rfl
  | pointer => cases hs
  | simpleName => cases hs
  | object c r _ ih =>
    obtain rfl : c = .privilegeAction := by simpa [Shape.nodeFree] using hs
    have h := ih (.actionKind, .plain) (by decide) rfl
    simpa [nodes, preorder, Class.isNode, Class.base, Class.members, Class.fields,
      RecordTree.inner] using h

theorem length_flatMap_members (c : Class) (walk : Member → List NodeAt) :
    (c.members.flatMap walk).length =
      (c.visited.map fun m => (walk m).length).sum +
        (c.overlooked.map fun m => (walk m).length).sum +
        (c.plainMembers.map fun m => (walk m).length).sum := by
  rw [((members_perm c).flatMap_right walk).length_eq]
  simp only [List.flatMap_append, List.length_append, List.length_flatMap]

theorem mem_members_of_visited {c : Class} {m : Member} (h : m ∈ c.visited) : m ∈ c.members :=
  (members_perm c).mem_iff.mpr (by simp [h])

theorem exists_field {c : Class} {m : Member} (h : m ∈ c.members) :
    ∃ shape, (m, shape) ∈ c.fields := by
  obtain ⟨field, hf, rfl⟩ := List.mem_map.mp h
  exact ⟨field.2, hf⟩

theorem length_nodes_record (depth : Nat) (c : Class) (r : NodeRegion) (get : Member → Value) :
    (nodes depth (.record c r get)).length = (if c.isNode then 1 else 0) +
      ((c.visited.map fun m => (nodes (inner Class.isNode c depth) (get m)).length).sum +
        (c.overlooked.map fun m => (nodes (inner Class.isNode c depth) (get m)).length).sum +
        (c.plainMembers.map fun m => (nodes (inner Class.isNode c depth) (get m)).length).sum) := by
  rw [nodes, preorder, List.length_append, length_flatMap_members]
  split <;> rfl

theorem length_visits_record (depth : Nat) (c : Class) (r : NodeRegion) (get : Member → Value) :
    (visits depth (.record c r get)).length = (if c.isNode then 1 else 0) +
      (c.visited.map fun m => (visits (inner Class.isNode c depth) (get m)).length).sum := by
  rw [visits, preorder, List.length_append, List.length_flatMap]
  split <;> rfl

/-- The validator meets at most the nodes there are. -/
theorem length_visits_le {s : Shape} {v : Value} (h : Formed s v) (depth : Nat) :
    (visits depth v).length ≤ (nodes depth v).length := by
  induction h generalizing depth with
  | plain | empty | nil | nullPointer | nullName => exact Nat.le_refl _
  | present _ ih | pointer _ _ ih | simpleName _ ih => exact ih depth
  | cons _ _ hv hvs =>
    have hv' := hv depth
    have hvs' := hvs depth
    simp only [visits, nodes, preorder, preorderAll, List.length_append] at hv' hvs' ⊢
    omega
  | @object c r get _ ih =>
    have hle : ∀ m ∈ c.visited, (visits (inner Class.isNode c depth) (get m)).length ≤
        (nodes (inner Class.isNode c depth) (get m)).length := by
      intro m hm
      obtain ⟨shape, hf⟩ := exists_field (mem_members_of_visited hm)
      exact ih _ hf _
    have hsum := List.sum_le_sum hle
    rw [length_visits_record, length_nodes_record]
    omega

/-- A pointer to a node counts. -/
theorem null_of_nodes_eq_nil {s : Shape} {v : Value} (h : Formed s v)
    (hs : s = .simpleName ∨ ∃ b, s = .pointer b) {depth : Nat} (hn : nodes depth v = []) :
    v = .null := by
  cases h with
  | nullPointer | nullName => rfl
  | pointer hb hv =>
    cases hv with
    | object c r _ => simp [nodes, preorder, Class.isNode, hb] at hn
  | simpleName hv =>
    cases hv with
    | object c r _ => simp [nodes, preorder, Class.isNode, Class.base] at hn
  | _ => simp at hs

/-- It meets as many only when no overlooked member holds a node. -/
theorem covered_of_length {s : Shape} {v : Value} (h : Formed s v) (depth : Nat)
    (hlen : (nodes depth v).length ≤ (visits depth v).length) : Covered v := by
  induction h generalizing depth with
  | plain | empty | nil | nullPointer | nullName => trivial
  | present _ ih | pointer _ _ ih | simpleName _ ih => exact ih depth hlen
  | @cons _ v vs hfv hfvs hv hvs =>
    have hlev := length_visits_le hfv depth
    have hlevs := length_visits_le hfvs depth
    simp only [visits, nodes, preorder, preorderAll, List.length_append] at hv hvs hlev hlevs hlen
    exact ⟨hv depth (by omega), hvs depth (by omega)⟩
  | @object c r get hget ih =>
    have hle : ∀ m ∈ c.members, (visits (inner Class.isNode c depth) (get m)).length ≤
        (nodes (inner Class.isNode c depth) (get m)).length := by
      intro m hm
      obtain ⟨shape, hf⟩ := exists_field hm
      exact length_visits_le (hget _ hf) _
    have hsum := List.sum_le_sum fun m hm => hle m (mem_members_of_visited hm)
    rw [length_visits_record, length_nodes_record] at hlen
    have heq := RecordTree.eq_of_sum_map_le (fun m hm => hle m (mem_members_of_visited hm))
      (by omega)
    have hover : ∀ m ∈ c.overlooked, (nodes (inner Class.isNode c depth) (get m)).length = 0 := by
      have hzero : (c.overlooked.map fun m =>
          (nodes (inner Class.isNode c depth) (get m)).length).sum = 0 := by omega
      exact fun m hm => List.sum_eq_zero_iff.mp hzero _ (List.mem_map_of_mem hm)
    have hplain : ∀ m ∈ c.plainMembers,
        (nodes (inner Class.isNode c depth) (get m)).length = 0 := by
      have hzero : (c.plainMembers.map fun m =>
          (nodes (inner Class.isNode c depth) (get m)).length).sum = 0 := by omega
      exact fun m hm => List.sum_eq_zero_iff.mp hzero _ (List.mem_map_of_mem hm)
    constructor
    · intro m hm
      have hmem : m ∈ c.members := (members_perm c).mem_iff.mpr (by simp [hm])
      obtain ⟨shape, hf⟩ := exists_field hmem
      have hs := fields_overlooked c _ hf hm
      refine null_of_nodes_eq_nil (hget _ hf) ?_ (List.length_eq_zero_iff.mp (hover m hm))
      obtain hs | hs | hs := hs
      · exact .inl hs
      · exact .inr ⟨_, hs⟩
      · exact .inr ⟨_, hs⟩
    · intro m hm
      obtain ⟨shape, hf⟩ := exists_field hm
      refine ih _ hf (inner Class.isNode c depth) ?_
      have hcases := (members_perm c).mem_iff.mp hm
      simp only [List.mem_append] at hcases
      obtain (hv | ho) | hp := hcases
      · exact (heq m hv).ge
      · rw [hover m ho]
        exact Nat.zero_le _
      · rw [hplain m hp]
        exact Nat.zero_le _

/-- With nothing overlooked the validator meets every node exactly once. -/
theorem visits_perm {s : Shape} {v : Value} (h : Formed s v) (hc : Covered v) (depth : Nat) :
    (visits depth v).Perm (nodes depth v) := by
  induction h generalizing depth with
  | plain | empty | nil | nullPointer | nullName => exact .refl _
  | present _ ih | pointer _ _ ih | simpleName _ ih => exact ih hc depth
  | cons _ _ hv hvs =>
    have hvs' := hvs hc.2 depth
    simp only [visits, nodes, preorder, preorderAll] at hv hvs' ⊢
    exact (hv hc.1 depth).append hvs'
  | @object c r get hget ih =>
    obtain ⟨hover, hbelow⟩ := hc
    have hplain : ∀ m ∈ c.plainMembers, nodes (inner Class.isNode c depth) (get m) = [] := by
      intro m hm
      obtain ⟨field, hf, rfl⟩ := List.mem_map.mp hm
      rw [List.mem_filter] at hf
      exact nodes_of_nodeFree (hget field hf.1) hf.2 _
    have hrest : (c.overlooked ++ c.plainMembers).flatMap
        (fun m => nodes (inner Class.isNode c depth) (get m)) = [] := by
      simp only [List.flatMap_eq_nil_iff, List.mem_append]
      intro m hm
      obtain hm | hm := hm
      · rw [hover m hm]
        rfl
      · exact hplain m hm
    have hmembers : (c.visited.flatMap fun m => nodes (inner Class.isNode c depth) (get m)).Perm
        (c.members.flatMap fun m => nodes (inner Class.isNode c depth) (get m)) := by
      have hp := ((members_perm c).flatMap_right
        fun m => nodes (inner Class.isNode c depth) (get m)).symm
      rw [List.append_assoc, List.flatMap_append, hrest, List.append_nil] at hp
      exact hp
    have hvisited : (c.visited.flatMap fun m => visits (inner Class.isNode c depth) (get m)).Perm
        (c.visited.flatMap fun m => nodes (inner Class.isNode c depth) (get m)) := by
      refine List.Perm.flatMap_left _ fun m hm => ?_
      obtain ⟨shape, hf⟩ := exists_field (mem_members_of_visited hm)
      exact ih _ hf (hbelow m (mem_members_of_visited hm)) _
    rw [visits, nodes, preorder, preorder]
    exact (hvisited.trans hmembers).append_left _

theorem deepest_perm {ns ns' : List NodeAt} (h : ns.Perm ns') (depth : Nat) :
    deepest depth ns = deepest depth ns' := by
  have hcomm : RightCommutative fun (d : Nat) (n : NodeAt) => max n.2.2 d :=
    ⟨fun d n n' => Nat.max_left_comm _ _ _⟩
  exact h.foldl_eq depth

theorem within_perm {ns ns' : List NodeAt} (h : ns.Perm ns') (limits : Limits) (count : Nat) :
    Within limits count ns ↔ Within limits count ns' := by
  simp only [Within, h.length_eq, h.mem_iff]

/-- A compilation unit whose nodes are all out of sight has none. -/
theorem nodes_eq_nil_of_visits {b : Base} {vs : List Value}
    (h : Formed (.vector (.pointer b)) (.list vs)) (depth : Nat)
    (hv : visits depth (.list vs) = []) : nodes depth (.list vs) = [] := by
  induction vs with
  | nil => rfl
  | cons v vs ih =>
    cases h with
    | cons hfv hfvs =>
      simp only [visits, preorder, preorderAll, List.append_eq_nil_iff] at hv ih
      have hnull : v = .null := by
        cases hfv with
        | nullPointer => rfl
        | pointer hb hobject =>
          cases hobject with
          | object c r _ => simp [preorder, Class.isNode, hb] at hv
      subst hnull
      simpa [nodes, preorder, preorderAll] using ih hfvs hv.2

theorem process_none_iff (limits : Limits) (unit : CompilationUnit) :
    (process limits unit 0).result = none ↔ Within limits 0 unit.visits := by
  obtain ⟨hw, hs⟩ | ⟨hw, hs⟩ := process_spec limits unit
  · simp [hw, hs]
  · simp only [hw, iff_false]
    intro h
    simp [h] at hs

theorem validate_none_iff (limits : Limits) (unit : CompilationUnit) :
    (validate limits unit).1 = none ↔ Within limits 0 unit.visits := by
  unfold validate
  split
  · exact process_none_iff limits unit
  next h => exact iff_of_true rfl ⟨.inl (by omega), .inl (by omega)⟩

/-- The limits are kept exactly, and the nodes counted exactly, when the tree has no `apply`,
no alias of an `UPDATE` or `DELETE` and no name of a function invocation. -/
theorem validate_exact_iff (unit : CompilationUnit) :
    ((∀ limits, (validate limits unit).1 = none ↔ Within limits 0 unit.nodes) ↔
      Covered (.list unit.statements)) ∧
    ((∀ limits, (process limits unit 0).result = none →
        (process limits unit 0).nodeCount = unit.nodes.length ∧
          (process limits unit 0).maxDepth = deepest 0 unit.nodes ∧
          unit.visits.Perm unit.nodes) ↔
      Covered (.list unit.statements)) := by
  have hperm : Covered (.list unit.statements) → unit.visits.Perm unit.nodes :=
    fun hc => visits_perm unit.formed hc 0
  refine ⟨⟨fun h => ?_, fun hc limits => ?_⟩, ⟨fun h => ?_, fun hc limits hnone => ?_⟩⟩
  · apply covered_of_length unit.formed 0
    by_cases hzero : unit.visits.length = 0
    · have hnodes := nodes_eq_nil_of_visits unit.formed 0 (List.length_eq_zero_iff.mp hzero)
      simp [hnodes]
    · have hvisits : Within ⟨unit.visits.length, 0⟩ 0 unit.visits :=
        ⟨.inr (Nat.zero_add _).le, .inl rfl⟩
      have hwithin := (h _).mp ((validate_none_iff _ unit).mpr hvisits)
      obtain hz | hle := hwithin.1
      · exact absurd hz hzero
      · rw [Nat.zero_add] at hle
        exact hle
  · rw [validate_none_iff]
    exact within_perm (hperm hc) limits 0
  · apply covered_of_length unit.formed 0
    have hunlimited : Within ⟨0, 0⟩ 0 unit.visits := ⟨.inl rfl, .inl rfl⟩
    have hcount := (h ⟨0, 0⟩ ((process_none_iff _ unit).mpr hunlimited)).1
    obtain ⟨_, hs⟩ | ⟨hw, _⟩ := process_spec ⟨0, 0⟩ unit
    · rw [hs] at hcount
      exact hcount.ge
    · exact absurd hunlimited hw
  · obtain ⟨_, hs⟩ | ⟨hw, _⟩ := process_spec limits unit
    · rw [hs]
      exact ⟨(hperm hc).length_eq, deepest_perm (hperm hc) 0, hperm hc⟩
    · exact absurd ((process_none_iff limits unit).mp hnone) hw

/-- `DELETE FROM t AS a`. -/
def deleteWithAlias : CompilationUnit where
  statements := [.record .deleteStatement ⟨0, 18⟩ fun
    | .tableName => nameValue "t"
    | .aliasName => nameValue "a"
    | _ => .null]
  formed := by
    refine .cons (.pointer rfl (.object _ _ fun field h => ?_)) (.nil _)
    simp only [Class.fields, List.mem_cons, List.not_mem_nil, or_false] at h
    obtain rfl | rfl | rfl := h
    · exact .pointer rfl (nameValue_formed "t")
    · exact .simpleName (nameValue_formed "a")
    · exact .nullPointer _

/-- A tree of three nodes passes a limit of two. -/
theorem validate_overlooks_alias : ¬ ∀ (limits : Limits) (unit : CompilationUnit),
    (validate limits unit).1 = none ↔ Within limits 0 unit.nodes := by
  intro h
  have hnone : (validate ⟨2, 0⟩ deleteWithAlias).1 = none := by decide
  have hwithin := (h ⟨2, 0⟩ deleteWithAlias).mp hnone
  have hlength : deleteWithAlias.nodes.length = 3 := by decide
  have hcount := hwithin.1
  simp [hlength] at hcount

end Mizugaki.Syntax
