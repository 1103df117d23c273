import Mizugaki.Data.Distinct
import Mizugaki.Declaration.Outcome
import Mizugaki.Scoping.Reference

/-! GRANT and REVOKE. What a statement says does not change when a table, an action or a user is
mentioned again. The analyzer leaves out tables and named users that were seen before, but neither
actions nor the other kinds of users, so a statement that repeats one of those says it twice. -/

namespace Mizugaki.Analyzer

open Mizugaki.Ast Mizugaki.Plan Mizugaki.Control Mizugaki.Data.Distinct

variable {ρ : Type} {env : Environment ρ}

/-! ### What a statement says -/

/-- The kind and the identifier of a user that gets an entry of its own. -/
def userKey : PrivilegeUser → Option (AuthorizationUserKind × String)
  | .identifier n => some (.specified, n.identifier)
  | .allUsers => some (.allUsers, "")
  | .currentUser => some (.currentUser, "")
  | .public_ => none

def entryOf (actions : List TableActionKind) (user : AuthorizationUserKind × String) :
    AuthorizationEntry := ⟨user.1, user.2, actions⟩

/-- The privileges on one table: every action and every user once, in order of first occurrence. -/
def distinctPrivileges (statement : PrivilegeStatement) (table : Table) : TablePrivilegeElement :=
  let actions := (distinctBy id statement.actions).map convertPrivilegeAction
  { table := table
    defaultPrivileges := if .public_ ∈ statement.users then actions else []
    authorizationEntries := ((distinctBy userKey statement.users).filterMap userKey).map
      (entryOf actions) }

/-- The privileges of a statement on its tables: every table once. -/
def distinctElements (statement : PrivilegeStatement) (tables : List Table) :
    List TablePrivilegeElement :=
  (distinctBy Table.address tables).map (distinctPrivileges statement)

/-- Nothing but tables and named users comes again. -/
structure Repeatless (statement : PrivilegeStatement) : Prop where
  actions : statement.actions.Nodup
  currentUser : statement.users.count .currentUser ≤ 1
  allUsers : statement.users.count .allUsers ≤ 1

theorem convertPrivilegeAction_injective : Function.Injective convertPrivilegeAction := by
  intro a b h
  cases a <;> cases b <;> first | rfl | cases h

/-! ### Users -/

/-- The users that get an entry: those that were not seen, and all that have no name. -/
def enteredUsers (sawUsers : List String) :
    List PrivilegeUser → List (AuthorizationUserKind × String)
  | [] => []
  | .identifier n :: users =>
    if n.identifier ∈ sawUsers then enteredUsers sawUsers users
    else (.specified, n.identifier) :: enteredUsers (n.identifier :: sawUsers) users
  | .public_ :: users => enteredUsers sawUsers users
  | .allUsers :: users => (.allUsers, "") :: enteredUsers sawUsers users
  | .currentUser :: users => (.currentUser, "") :: enteredUsers sawUsers users

theorem processPrivilegeUsers_yields {acceptAllUsers : Bool} {actions : List TableActionKind}
    {sawUsers : List String} {element result : TablePrivilegeElement} {users : List PrivilegeUser}
    {s t : AnalyzerState ρ}
    (h : processPrivilegeUsers acceptAllUsers actions sawUsers element users s = (some result, t)) :
    s = t ∧ result =
      { table := element.table
        defaultPrivileges := if .public_ ∈ users then actions else element.defaultPrivileges
        authorizationEntries := element.authorizationEntries ++
          (enteredUsers sawUsers users).map (entryOf actions) } := by
  induction users generalizing sawUsers element with
  | nil =>
    obtain ⟨rfl, rfl⟩ := (Check.pure_yields ..).mp h
    simp [enteredUsers]
  | cons user users ih =>
    cases user with
    | identifier n =>
      rw [processPrivilegeUsers] at h
      dsimp only at h
      by_cases hsaw : n.identifier ∈ sawUsers
      · rw [if_pos hsaw] at h
        obtain ⟨rfl, rfl⟩ := ih h
        simp [enteredUsers, hsaw]
      · rw [if_neg hsaw] at h
        obtain ⟨rfl, rfl⟩ := ih h
        simp [enteredUsers, hsaw, entryOf]
    | public_ =>
      rw [processPrivilegeUsers] at h
      obtain ⟨rfl, rfl⟩ := ih h
      simp [enteredUsers]
    | allUsers =>
      rw [processPrivilegeUsers] at h
      cases acceptAllUsers with
      | false => cases h
      | true =>
        obtain ⟨rfl, rfl⟩ := ih h
        simp [enteredUsers, entryOf]
    | currentUser =>
      rw [processPrivilegeUsers] at h
      obtain ⟨rfl, rfl⟩ := ih h
      simp [enteredUsers, entryOf]

theorem count_enteredUsers {sawUsers : List String} {users : List PrivilegeUser} :
    (enteredUsers sawUsers users).count (.currentUser, "") = users.count .currentUser ∧
      (enteredUsers sawUsers users).count (.allUsers, "") = users.count .allUsers := by
  induction users generalizing sawUsers with
  | nil => exact ⟨rfl, rfl⟩
  | cons user users ih =>
    cases user with
    | identifier n =>
      rw [enteredUsers]
      by_cases hsaw : n.identifier ∈ sawUsers
      · rw [if_pos hsaw]
        simpa using ih
      · rw [if_neg hsaw]
        simpa using ih
    | public_ => simpa [enteredUsers] using ih
    | allUsers => simpa [enteredUsers] using ih
    | currentUser => simpa [enteredUsers] using ih

/-- The users without a name come once. -/
def OnceFrom (seen : List (Option (AuthorizationUserKind × String))) (user : PrivilegeUser)
    (users : List PrivilegeUser) : Prop :=
  users.count user ≤ 1 ∧ (userKey user ∈ seen → user ∉ users)

theorem OnceFrom.tail {seen : List (Option (AuthorizationUserKind × String))}
    {user other : PrivilegeUser} {users : List PrivilegeUser}
    (h : OnceFrom seen user (other :: users)) : OnceFrom seen user users :=
  ⟨List.count_le_count_cons.trans h.1, fun hseen hmem => h.2 hseen (List.mem_cons_of_mem _ hmem)⟩

theorem OnceFrom.enter {seen : List (Option (AuthorizationUserKind × String))}
    {user other : PrivilegeUser} {users : List PrivilegeUser}
    (h : OnceFrom seen user (other :: users))
    (hother : userKey other = userKey user → other = user) :
    OnceFrom (userKey other :: seen) user users := by
  refine ⟨h.tail.1, fun hseen hmem => ?_⟩
  obtain heq | hseen := List.mem_cons.mp hseen
  · obtain rfl := hother heq.symm
    have hcount := h.1
    rw [List.count_cons_self] at hcount
    have hpos := List.count_pos_iff.mpr hmem
    omega
  · exact h.tail.2 hseen hmem

/-- Leaving out named users only leaves out all users that come again, when no others do. -/
theorem enteredUsers_eq {sawUsers : List String} {users : List PrivilegeUser}
    {seen : List (Option (AuthorizationUserKind × String))}
    (hnames : ∀ n, some (.specified, n) ∈ seen ↔ n ∈ sawUsers)
    (hcurrent : OnceFrom seen .currentUser users) (hall : OnceFrom seen .allUsers users) :
    enteredUsers sawUsers users = (distinctFrom userKey seen users).filterMap userKey := by
  induction users generalizing sawUsers seen with
  | nil => rfl
  | cons user users ih =>
    cases user with
    | identifier n =>
      rw [enteredUsers]
      by_cases hsaw : n.identifier ∈ sawUsers
      · have hold : userKey (.identifier n) ∈ seen := (hnames _).mpr hsaw
        rw [if_pos hsaw, distinctFrom_cons_seen hold]
        exact ih hnames hcurrent.tail hall.tail
      · have hnew : userKey (.identifier n) ∉ seen := fun h => hsaw ((hnames _).mp h)
        rw [if_neg hsaw, distinctFrom_cons_new hnew, List.filterMap_cons]
        refine congrArg (List.cons _) (ih (fun m => ?_) (hcurrent.enter ?_) (hall.enter ?_))
        · simp [userKey, hnames]
        · intro h
          cases h
        · intro h
          cases h
    | public_ =>
      rw [enteredUsers]
      by_cases hsaw : userKey .public_ ∈ seen
      · rw [distinctFrom_cons_seen hsaw]
        exact ih hnames hcurrent.tail hall.tail
      · rw [distinctFrom_cons_new hsaw, List.filterMap_cons]
        refine ih (fun m => ?_) (hcurrent.enter ?_) (hall.enter ?_)
        · simp [userKey, hnames]
        · intro h
          cases h
        · intro h
          cases h
    | allUsers =>
      have hnew : userKey .allUsers ∉ seen := fun h => hall.2 h List.mem_cons_self
      rw [enteredUsers, distinctFrom_cons_new hnew, List.filterMap_cons]
      refine congrArg (List.cons _) (ih (fun m => ?_) (hcurrent.enter ?_) (hall.enter fun _ => rfl))
      · simp [userKey, hnames]
      · intro h
        cases h
    | currentUser =>
      have hnew : userKey .currentUser ∉ seen := fun h => hcurrent.2 h List.mem_cons_self
      rw [enteredUsers, distinctFrom_cons_new hnew, List.filterMap_cons]
      refine congrArg (List.cons _) (ih (fun m => ?_) (hcurrent.enter fun _ => rfl) (hall.enter ?_))
      · simp [userKey, hnames]
      · intro h
        cases h

theorem enteredUsers_eq_iff {users : List PrivilegeUser} :
    enteredUsers [] users = (distinctBy userKey users).filterMap userKey ↔
      users.count .currentUser ≤ 1 ∧ users.count .allUsers ≤ 1 := by
  constructor
  · intro h
    have hnodup : (enteredUsers [] users).Nodup := by
      have hkeys : ((distinctBy userKey users).map userKey).Nodup := distinctFrom_nodup
      have hfilter := hkeys.filterMap (f := id) fun a b c ha hb =>
        (Option.mem_def.mp ha).trans (Option.mem_def.mp hb).symm
      rw [List.filterMap_map] at hfilter
      rw [h]
      exact hfilter
    obtain ⟨hcurrent, hall⟩ : (enteredUsers [] users).count (.currentUser, "") = _ ∧ _ :=
      count_enteredUsers
    rw [← hcurrent, ← hall]
    exact ⟨List.nodup_iff_count_le_one.mp hnodup _, List.nodup_iff_count_le_one.mp hnodup _⟩
  · rintro ⟨hcurrent, hall⟩
    refine enteredUsers_eq (fun n => ?_) ⟨hcurrent, ?_⟩ ⟨hall, ?_⟩
    · simp
    · simp
    · simp

/-! ### Tables -/

variable (env) in
/-- The tables that the names of objects designate, one after another. -/
inductive ObjectTables :
    List PrivilegeObject → List Table → AnalyzerState ρ → AnalyzerState ρ → Prop
  | nil (s : AnalyzerState ρ) : ObjectTables [] [] s s
  | cons {object : PrivilegeObject} {objects : List PrivilegeObject} {schema : Schema}
      {table : Table} {tables : List Table} {s t u : AnalyzerState ρ}
      (head : analyzeTableName env object.objectName true s = (some (some (schema, table)), t))
      (tail : ObjectTables objects tables t u) :
      ObjectTables (object :: objects) (table :: tables) s u

theorem ObjectTables.length_eq {objects : List PrivilegeObject} {tables : List Table}
    {s t : AnalyzerState ρ} (h : ObjectTables env objects tables s t) :
    tables.length = objects.length := by
  induction h with
  | nil => rfl
  | cons _ _ ih => rw [List.length_cons, List.length_cons, ih]

/-- What is entered for a table. -/
def enteredPrivileges (statement : PrivilegeStatement) (table : Table) : TablePrivilegeElement :=
  let actions := statement.actions.map convertPrivilegeAction
  { table := table
    defaultPrivileges := if .public_ ∈ statement.users then actions else []
    authorizationEntries := (enteredUsers [] statement.users).map (entryOf actions) }

/-- Tables that were seen are left out. -/
theorem processPrivilegeObjects_yields {acceptAllUsers : Bool} {statement : PrivilegeStatement}
    {sawTables : List Nat} {objects : List PrivilegeObject}
    {elements : List TablePrivilegeElement} {s t : AnalyzerState ρ}
    (h : processPrivilegeObjects env acceptAllUsers statement sawTables objects s
      = (some elements, t)) :
    ∃ tables, ObjectTables env objects tables s t ∧
      elements =
        (distinctFrom Table.address sawTables tables).map (enteredPrivileges statement) := by
  induction objects generalizing sawTables elements s with
  | nil =>
    obtain ⟨rfl, rfl⟩ := (Check.pure_yields ..).mp h
    exact ⟨[], .nil s, rfl⟩
  | cons object objects ih =>
    rw [processPrivilegeObjects, Check.bind_yields] at h
    obtain ⟨found, u, hfound, h⟩ := h
    cases found with
    | none => cases h
    | some declared =>
      obtain ⟨schema, table⟩ := declared
      dsimp only at h
      by_cases hsaw : table.address ∈ sawTables
      · rw [if_pos hsaw] at h
        obtain ⟨tables, htables, rfl⟩ := ih h
        refine ⟨table :: tables, .cons hfound htables, ?_⟩
        rw [distinctFrom_cons_seen hsaw]
      · rw [if_neg hsaw] at h
        simp only [Check.bind_yields, Check.pure_yields] at h
        obtain ⟨element, v, helement, rest, w, hrest, rfl, rfl⟩ := h
        obtain ⟨rfl, rfl⟩ := processPrivilegeUsers_yields helement
        obtain ⟨tables, htables, rfl⟩ := ih hrest
        refine ⟨table :: tables, .cons hfound htables, ?_⟩
        rw [distinctFrom_cons_new hsaw]
        rfl

/-! ### The statements -/

/-- The two statements about privileges. -/
inductive PrivilegeKind where
  | grant | revoke
  deriving DecidableEq, Repr

namespace PrivilegeKind

def statement : PrivilegeKind → PrivilegeStatement → Ast.Statement
  | grant => .grantPrivilegeStatement
  | revoke => .revokePrivilegeStatement

def result : PrivilegeKind → List TablePrivilegeElement → Plan.Statement
  | grant => .grantTable
  | revoke => .revokeTable

theorem result_injective (kind : PrivilegeKind) : Function.Injective kind.result := by
  intro a b h
  cases kind with
  | grant => exact Statement.grantTable.inj h
  | revoke => exact Statement.revokeTable.inj h

end PrivilegeKind

theorem extractPrivilegeObjectKind_yields {objects : List PrivilegeObject}
    {result kind : Option PrivilegeObjectKind} {s t : AnalyzerState ρ}
    (h : extractPrivilegeObjectKind result objects s = (some kind, t)) : s = t := by
  induction objects generalizing result with
  | nil => exact ((Check.pure_yields ..).mp h).2
  | cons object objects ih =>
    cases result with
    | none => exact ih h
    | some first =>
      rw [extractPrivilegeObjectKind] at h
      split_ifs at h
      · exact ih h
      · cases h

theorem processPrivilege_yields {build : List TablePrivilegeElement → Plan.Statement}
    {acceptAllUsers : Bool} {statement : PrivilegeStatement} {s t : AnalyzerState ρ}
    {r : StatementResult}
    (h : processPrivilege env build acceptAllUsers statement s = (some r, t)) :
    statement.objects ≠ [] ∧ statement.users ≠ [] ∧
      ∃ elements, processPrivilegeObjects env acceptAllUsers statement [] statement.objects s
        = (some elements, t) ∧ r = .statement (build elements) := by
  unfold processPrivilege at h
  split_ifs at h with hactions hobjects husers
  · cases h
  · cases h
  · cases h
  · rw [List.isEmpty_iff] at hobjects husers
    refine ⟨hobjects, husers, ?_⟩
    rw [Check.bind_yields] at h
    obtain ⟨kind, u, hkind, h⟩ := h
    obtain rfl := extractPrivilegeObjectKind_yields hkind
    cases kind with
    | none => cases h
    | some kind =>
      cases kind with
      | schema => cases h
      | table =>
        simp only [Check.bind_yields, Check.pure_yields] at h
        obtain ⟨elements, v, helements, rfl, rfl⟩ := h
        exact ⟨elements, helements, rfl⟩

theorem exists_mem_enteredUsers {users : List PrivilegeUser} (husers : users ≠ [])
    (hpublic : .public_ ∉ users) : ∃ user, user ∈ enteredUsers [] users := by
  cases users with
  | nil => exact absurd rfl husers
  | cons user users =>
    cases user with
    | identifier n => exact ⟨(.specified, n.identifier), by simp [enteredUsers]⟩
    | allUsers => exact ⟨(.allUsers, ""), by simp [enteredUsers]⟩
    | currentUser => exact ⟨(.currentUser, ""), by simp [enteredUsers]⟩
    | public_ => exact absurd List.mem_cons_self hpublic

/-- What is entered for a table is what the statement says, exactly when nothing but tables and
named users comes again. -/
theorem enteredPrivileges_eq_iff {statement : PrivilegeStatement} (husers : statement.users ≠ [])
    (table : Table) :
    enteredPrivileges statement table = distinctPrivileges statement table ↔
      Repeatless statement := by
  have hactions : statement.actions.map convertPrivilegeAction
      = (distinctBy id statement.actions).map convertPrivilegeAction ↔ statement.actions.Nodup := by
    rw [(List.map_injective_iff.mpr convertPrivilegeAction_injective).eq_iff, eq_comm,
      distinctBy_eq_self_iff, List.map_id]
  constructor
  · intro h
    obtain ⟨-, hdefault, hentries⟩ := TablePrivilegeElement.mk.inj h
    have hkeys := congrArg (List.map fun e => (e.userKind, e.authorizationIdentifier)) hentries
    rw [List.map_map, List.map_map] at hkeys
    have hentered : enteredUsers [] statement.users
        = (distinctBy userKey statement.users).filterMap userKey := by
      simpa [Function.comp_def, entryOf] using hkeys
    obtain ⟨hcurrent, hall⟩ := enteredUsers_eq_iff.mp hentered
    refine ⟨hactions.mp ?_, hcurrent, hall⟩
    by_cases hpublic : .public_ ∈ statement.users
    · rwa [if_pos hpublic, if_pos hpublic] at hdefault
    · -- the first user has an entry
      obtain ⟨user, hmem⟩ := exists_mem_enteredUsers husers hpublic
      have hprivileges := congrArg (List.map AuthorizationEntry.privileges) hentries
      rw [← hentered, List.map_map, List.map_map] at hprivileges
      exact List.map_inj_left.mp hprivileges user hmem
  · rintro ⟨hnodup, hcurrent, hall⟩
    unfold enteredPrivileges distinctPrivileges
    rw [enteredUsers_eq_iff.mpr ⟨hcurrent, hall⟩, hactions.mpr hnodup]

/-- A statement about privileges that is accepted says what it mentions once, exactly when nothing
but tables and named users comes again. -/
theorem SqlAnalyzer.process_privilege_iff (env : Environment ρ) (resolution : ρ)
    (kind : PrivilegeKind) (statement : PrivilegeStatement)
    (h : (process env resolution (kind.statement statement)).Accepted) :
    ∃ tables t, ObjectTables env statement.objects tables (.initial resolution) t ∧
      (process env resolution (kind.statement statement)
          = .statement (kind.result (distinctElements statement tables)) ↔
        Repeatless statement) := by
  obtain ⟨r, t, hrun⟩ := (process_accepted_iff resolution _).mp h
  have hprivilege : ∃ acceptAllUsers,
      processPrivilege env kind.result acceptAllUsers statement (.initial resolution)
        = (some r, t) := by
    cases kind with
    | grant => exact ⟨false, hrun⟩
    | revoke => exact ⟨true, hrun⟩
  obtain ⟨acceptAllUsers, hprivilege⟩ := hprivilege
  obtain ⟨hobjects, husers, elements, helements, rfl⟩ := processPrivilege_yields hprivilege
  obtain ⟨tables, htables, rfl⟩ := processPrivilegeObjects_yields helements
  refine ⟨tables, t, htables, ?_⟩
  have hresult : process env resolution (kind.statement statement) = .statement (kind.result
      ((distinctBy Table.address tables).map (enteredPrivileges statement))) :=
    (process_statement_iff resolution _ _).mpr ⟨t, hrun⟩
  rw [hresult, AnalyzerResult.statement.injEq, (kind.result_injective).eq_iff, distinctElements,
    List.map_inj_left]
  have htablesNe : tables ≠ [] := by
    rw [← List.length_pos_iff, htables.length_eq]
    exact List.length_pos_iff.mpr hobjects
  obtain ⟨table, rest, rfl⟩ := List.exists_cons_of_ne_nil htablesNe
  have hfirst : table ∈ distinctBy Table.address (table :: rest) := by
    rw [distinctBy, distinctFrom_cons_new List.not_mem_nil]
    exact List.mem_cons_self
  constructor
  · intro hall
    exact (enteredPrivileges_eq_iff husers table).mp (hall table hfirst)
  · intro hrepeatless other _
    exact (enteredPrivileges_eq_iff husers other).mpr hrepeatless

/-- A statement on the table `t`. -/
def privilegesOnTable (actions : List PrivilegeActionKind) (users : List PrivilegeUser) :
    PrivilegeStatement :=
  let object : PrivilegeObject := ⟨some .table, .simple ⟨"t", .delimited⟩⟩
  { actions := actions, objects := [object, object], users := users }

/-- `GRANT SELECT ON TABLE t, TABLE t TO alice, PUBLIC, alice`. -/
theorem SqlAnalyzer.process_privilege_named :
    let env := Environment.ofSchema (.ofTables [singleTable] [])
    let alice := PrivilegeUser.identifier ⟨"alice", .regular⟩
    let statement := privilegesOnTable [.select] [alice, .public_, alice]
    ∃ tables, process env [] (.grantPrivilegeStatement statement)
      = .statement (.grantTable (distinctElements statement tables)) ∧ tables.length = 2 := by
  intro env alice statement
  have haccepted : (process env [] (PrivilegeKind.grant.statement statement)).Accepted := trivial
  obtain ⟨tables, t, htables, hiff⟩ := process_privilege_iff env [] .grant statement haccepted
  refine ⟨tables, hiff.mpr ⟨?_, ?_, ?_⟩, htables.length_eq⟩
  · exact List.nodup_singleton _
  · decide
  · decide

/-- `GRANT SELECT, SELECT ON TABLE t, TABLE t TO CURRENT_USER, CURRENT_USER`: two entries of two
actions each. -/
theorem SqlAnalyzer.process_privilege_repeated :
    let env := Environment.ofSchema (.ofTables [singleTable] [])
    let statement := privilegesOnTable [.select, .select] [.currentUser, .currentUser]
    let entry : AuthorizationEntry := ⟨.currentUser, "", [.select, .select]⟩
    process env [] (.grantPrivilegeStatement statement)
        = .statement (.grantTable [⟨singleTable, [], [entry, entry]⟩]) ∧
      ∀ tables, process env [] (.grantPrivilegeStatement statement)
        ≠ .statement (.grantTable (distinctElements statement tables)) := by
  intro env statement entry
  have hresult : process env [] (.grantPrivilegeStatement statement)
      = .statement (.grantTable [⟨singleTable, [], [entry, entry]⟩]) := rfl
  refine ⟨hresult, fun tables h => ?_⟩
  rw [hresult] at h
  have helements := Statement.grantTable.inj (AnalyzerResult.statement.inj h)
  obtain ⟨table, -, htable⟩ := List.map_eq_singleton_iff.mp helements.symm
  have hentries := congrArg (fun e => e.authorizationEntries.length) htable
  have hone : (distinctPrivileges statement table).authorizationEntries.length = 1 := rfl
  dsimp only at hentries
  rw [hone] at hentries
  cases hentries

end Mizugaki.Analyzer
