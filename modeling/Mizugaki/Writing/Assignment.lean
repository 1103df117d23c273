import Mizugaki.Aggregation.StatementMark
import Mizugaki.Meaning.Assignment
import Mizugaki.Writing.Insert

/-! Plans in single assignment form. The plan of a statement reads, writes and emits columns that
its own operators define, each of them by one; the values of `UPDATE SET` are projected to columns
beside those that are scanned. -/

namespace Mizugaki.Plan

/-- A plan in single assignment form: its operators define different columns, and what one of them
reads, or hands to a graph nested in it, is among these. -/
structure Graph.Assigned (g : Graph) : Prop where
  once : g.defines.Nodup
  closed : (SubqueryNode.mk g []).Closed

/-- An operator on top that only names columns from below. -/
theorem Graph.Scoped.consume {op : Operator} {g : Graph} {n : ℕ} (h : g.Scoped [] n)
    (hexpressions : op.expressions = []) (hnested : op.nested = []) (hdefines : op.defines = [])
    (hreferences : op.references ⊆ g.defines) : (Graph.unary op g).Scoped [] n := by
  refine .unary ⟨fun v hv _ => ?_, fun node hnode => ?_, ?_, fun v hv => ?_⟩ h
  · rw [Operator.reads, hexpressions, List.flatMap_nil, List.append_nil] at hv
    rw [List.append_nil]
    exact hreferences hv
  · rw [hnested] at hnode
    cases hnode
  · exact Operator.separate_of_nested (by rw [hnested, hexpressions, List.flatMap_nil])
  · rw [hdefines] at hv
    cases hv

theorem Graph.Scoped.assigned {g : Graph} {n : ℕ} (h : g.Scoped [] n) (honce : g.defines.Nodup) :
    g.Assigned where
  once := honce
  closed := Graph.Scoped.closed h (fun _ hp => by cases hp) .nil .nil

end Mizugaki.Plan

namespace Mizugaki.Analyzer

open Mizugaki.Ast Mizugaki.Plan Mizugaki.Control

variable {ρ : Type} {env : Environment ρ}

/-- A graph that takes only its own columns takes nothing. -/
theorem closeScoped {ins : List Variable} {n : ℕ} {g : Graph} (h : g.Scoped ins n)
    (hins : ins ⊆ g.defines) : g.Scoped [] n := by
  refine Graph.Scoped.reduce h ?_
  rwa [List.append_nil]

/-! ### Queries on their own -/

/-- A query at the top of a statement is built of its own columns. -/
theorem analyzeQueryExpression_assigned {q : QueryExpression} {context : List ScalarValueContext}
    {s t : AnalyzerState ρ} {r : QueryResult} (hs : s.Sound) (hscopes : s.scopes = [])
    (h : analyzeQueryExpression env q context s = (some r, t)) :
    r.output.defines.Nodup ∧ r.output.Scoped [] t.fresh ∧
      r.relation.variables ⊆ r.output.defines := by
  have hanswers := (scoping env).queryExpression q context false h hs fun hc => by cases hc
  have hnumbered := (assignment env).queryExpression q context false h hs
  have hgraph := hanswers.graph
  have hnil : t.scopes = [] := by
    have hlater := hanswers.widens.scopes
    rw [hscopes] at hlater
    generalize t.scopes = later at hlater
    cases hlater
    rfl
  rw [hnil] at hgraph
  exact ⟨hnumbered.nodup, hgraph, hanswers.columns⟩

theorem processSelectStatement_assigned {q : QueryExpression} {targets : List Name}
    {s t : AnalyzerState ρ} {g : Graph} (hs : s.Sound) (hscopes : s.scopes = [])
    (h : processSelectStatement env q targets s = (some (.plan g), t)) : g.Assigned := by
  cases targets with
  | cons target targets => cases h
  | nil =>
    simp only [processSelectStatement, Check.bind_yields, Check.pure_yields,
      StatementResult.plan.injEq] at h
    obtain ⟨r, u, hquery, rfl, rfl⟩ := h
    obtain ⟨honce, hscoped, hcolumns⟩ := analyzeQueryExpression_assigned hs hscopes hquery
    refine (hscoped.consume rfl rfl rfl ?_).assigned ?_
    · rw [Operator.references, List.map_map]
      exact List.Subset.trans (exportedColumns_variables r.relation) hcolumns
    · rw [Graph.defines_unary, Operator.defines, List.nil_append]
      exact honce

/-! ### INSERT -/

theorem InsertParts.plan_assigned {p : InsertParts} {n : ℕ} (honce : p.output.defines.Nodup)
    (hscoped : p.output.Scoped [] n) (hsources : p.variables_ ⊆ p.output.defines) :
    p.plan.Assigned := by
  refine (hscoped.consume rfl rfl rfl ?_).assigned ?_
  · have hperm := splitTuples_perm (keyPositions p.index p.destinations)
      (p.variables_.zip p.destinations)
    change p.split.1.map Prod.fst ++ p.split.2.map Prod.fst ⊆ p.output.defines
    rw [← List.map_append]
    intro v hv
    obtain ⟨pair, hpair, rfl⟩ := List.mem_map.mp hv
    exact hsources (List.of_mem_zip (hperm.mem_iff.mp hpair)).1
  · have hdefines := Graph.defines_unary (.write p.kind p.index p.split.1 p.split.2) p.output
    rw [Operator.defines, List.nil_append] at hdefines
    rwa [← hdefines] at honce

theorem processInsertStatement_assigned {tableName : Name} {names : List SimpleName}
    {expression : Option QueryExpression} {options : List InsertStatementOption}
    {s t : AnalyzerState ρ} {g : Graph} (hs : s.Sound) (hscopes : s.scopes = [])
    (h : processInsertStatement env tableName names expression options s = (some (.plan g), t)) :
    g.Assigned := by
  rw [processInsertStatement_eq, Check.bind_yields] at h
  obtain ⟨p, u, hparts, h⟩ := h
  have hplan : p.plan = g := by
    have hresult := ((Check.pure_yields ..).mp h).1
    unfold InsertParts.result at hresult
    split at hresult
    · cases hresult
    · exact StatementResult.plan.inj hresult
  subst hplan
  simp only [insertParts, Check.bind_yields] at hparts
  obtain ⟨target, u₁, htarget, destinations, u₂, hdestinations, hparts⟩ := hparts
  have hquiet : Quiet s u₂ := Check.Frame.trans (extractTable_quiet _ _ htarget)
    (destinationColumns_quiet _ _ hdestinations)
  cases expression with
  | none =>
    simp only [Check.bind_yields, Check.pure_yields] at hparts
    obtain ⟨kind, u₃, -, rfl, -⟩ := hparts
    have hvalues : (Graph.source (.values [] [[]])).Scoped [] u₂.fresh := by
      refine .source ⟨fun v hv => ?_, fun node hnode => ?_, trivial, fun v hv => ?_⟩
      · cases hv
      · cases hnode
      · cases hv
    exact InsertParts.plan_assigned .nil hvalues (List.nil_subset _)
  | some q =>
    simp only [Check.bind_yields] at hparts
    obtain ⟨source, u₃, hsource, hparts⟩ := hparts
    split_ifs at hparts with hlength
    · cases hparts
    · simp only [Check.bind_yields, Check.pure_yields] at hparts
      obtain ⟨kind, u₄, -, rfl, -⟩ := hparts
      obtain ⟨honce, hscoped, hcolumns⟩ := analyzeQueryExpression_assigned (hs.of_quiet hquiet)
        (hquiet.scopes.trans hscopes) hsource
      exact InsertParts.plan_assigned honce hscoped hcolumns

/-! ### Tables to write -/

/-- All columns of a table to write are scanned, each to a column of its own. -/
theorem extractTable_scans {tableName : Name} {aliasName : Option SimpleName}
    {s t : AnalyzerState ρ} {target : WriteTarget}
    (h : extractTable env tableName aliasName s = (some target, t)) :
    (Graph.source (.scan target.index (scanColumns target.info))).defines = target.info.variables ∧
      Numbered s.fresh t.fresh target.info.variables := by
  have hquiet : Quiet s t := extractTable_quiet _ _ h
  simp only [extractTable, Check.bind_yields] at h
  obtain ⟨found, u, hfound, h⟩ := h
  have hfoundQuiet : Quiet s u := by
    have hname : IsQuiet (analyzeTableName env tableName true) := by
      unfold analyzeTableName analyzeDeclName
      grind
    exact hname hfound
  rcases found with _ | ⟨schema, table⟩
  · cases h
  · simp only [Check.bind_yields] at h
    obtain ⟨info, v, hinfo, h⟩ := h
    cases hindex : info.primaryIndex with
    | none =>
      rw [hindex] at h
      cases h
    | some index =>
      simp only [hindex, Check.pure_yields] at h
      obtain ⟨rfl, rfl⟩ := h
      obtain ⟨hdefines, hnumbered⟩ := scan_numbered hinfo index
      have halias := hnumbered.widen hfoundQuiet.fresh le_rfl
      cases aliasName <;> exact ⟨hdefines, halias⟩

/-- Under the scope of its table alone the scan is a graph as a FROM clause builds it. -/
theorem scanTarget_builds {tableName : Name} {aliasName : Option SimpleName}
    {s t : AnalyzerState ρ} {target : WriteTarget} (ht : t.Sound)
    (h : extractTable env tableName aliasName s = (some target, t)) :
    Builds (t.enter .empty) (t.enter (QueryScope.empty.add target.info))
      (.source (.scan target.index (scanColumns target.info))) := by
  obtain ⟨hdefines, hnumbered⟩ := extractTable_scans h
  have hadd : addRelation target.info (t.enter .empty) =
      (some (), t.enter (QueryScope.empty.add target.info)) := rfl
  refine ⟨?_, .source (operator_scoped (fun e he => ?_) rfl rfl fun v hv => ?_)⟩
  · rw [hdefines]
    exact addRelation_adds hadd (ht.enterEmpty rfl) hnumbered.streams
  · cases he
  · rw [← Graph.defines_source, hdefines] at hv
    exact hnumbered.streams v hv

theorem scanAndFilter_builds {target : WriteTarget} {where_ : Option ScalarExpression}
    {s t u : AnalyzerState ρ} {g : Graph}
    (hbuilds : Builds s t (.source (.scan target.index (scanColumns target.info))))
    (h : scanAndFilter env target where_ t = (some g, u)) :
    Builds s u g ∧
      g.defines = (Graph.source (.scan target.index (scanColumns target.info))).defines := by
  cases where_ with
  | none =>
    obtain ⟨rfl, rfl⟩ := (Check.pure_yields ..).mp h
    exact ⟨hbuilds, rfl⟩
  | some e =>
    simp only [scanAndFilter, Check.bind_yields] at h
    obtain ⟨⟨predicate, sawAggregate⟩, v, hpredicate, h⟩ := h
    have hreads := analyzeScalarExpression_reads ((scoping env).scalar e) hpredicate
    split at h
    case isTrue => cases h
    case isFalse =>
      obtain ⟨rfl, rfl⟩ := (Check.pure_yields ..).mp h
      have ht := hbuilds.adds.sound
      have hdefines := Graph.defines_unary (.filter predicate)
        (.source (.scan target.index (scanColumns target.info)))
      rw [Operator.defines, List.nil_append] at hdefines
      have hadds := hbuilds.adds.trans (.of_reads ht hreads)
      rw [List.append_nil, ← hdefines] at hadds
      refine ⟨⟨hadds, .unary ?_ (hbuilds.later (hreads.frame ht).widens)⟩, hdefines⟩
      refine Operator.Scoped.mono ?_ (List.subset_append_right _ _) le_rfl
      refine operator_scoped (fun x hx => ?_) rfl rfl fun _ hv => by cases hv
      rw [List.mem_singleton.mp hx]
      exact hreads.scoped ht

/-- What is visible under the scope of the table is scanned. -/
theorem Builds.inputs_subset {s t u : AnalyzerState ρ} {g : Graph} (h : Builds (s.enter .empty) t g)
    (hscopes : s.scopes = []) (hlater : Extends t u) : inputs u.scopes ⊆ g.defines := by
  have hwidened := (h.adds.widens.trans hlater.widens).scopes
  have hcolumns : u.scope.variables ⊆ g.defines := by
    have hadded := h.adds.columns
    have hsame : u.scope.variables = t.scope.variables := hlater.scopes.headD.columns
    rw [hsame]
    exact hadded
  change Widened (.empty :: s.scopes) u.scopes at hwidened
  rw [hscopes] at hwidened
  rw [inputs, AnalyzerState.scope] at *
  generalize u.scopes = later at hwidened hcolumns
  cases hwidened with
  | cons hscope hparents =>
    cases hparents
    have hfeatures := hscope.features
    rw [own_of_plain (by rw [hfeatures]; rfl) (by rw [hfeatures]; rfl), own, List.append_nil]
    exact hcolumns

theorem writeKeys_variables {info : RelationInfo} {keys : List (Column × SortDirection)}
    {ks : List (Variable × Column)} (h : writeKeys info keys = .ok ks) :
    ks.map Prod.fst ⊆ info.variables := by
  induction keys generalizing ks with
  | nil =>
    cases h
    exact List.nil_subset _
  | cons k keys ih =>
    rw [writeKeys] at h
    cases hfound : findByDeclaration info k.1 with
    | none =>
      rw [hfound] at h
      cases h
    | some c =>
      cases hrest : writeKeys info keys with
      | error missing =>
        rw [hfound, hrest] at h
        cases h
      | ok rest =>
        rw [hfound, hrest] at h
        cases h
        refine List.cons_subset.mpr ⟨List.mem_map_of_mem ?_, ih hrest⟩
        unfold findByDeclaration at hfound
        split at hfound
        · exact List.mem_of_getElem? hfound
        · cases hfound

theorem buildWriteKeys_variables {target : WriteTarget} {s t : AnalyzerState ρ}
    {keys : List (Variable × Column)} (h : buildWriteKeys target s = (some keys, t)) :
    keys.map Prod.fst ⊆ target.info.variables := by
  unfold buildWriteKeys at h
  cases hkeys : writeKeys target.info target.index.keys with
  | error missing =>
    rw [hkeys] at h
    simp only [Check.bind_yields, Check.pure_yields] at h
    obtain ⟨_, _, -, rfl, -⟩ := h
    exact List.nil_subset _
  | ok ks =>
    rw [hkeys] at h
    cases ks with
    | nil =>
      simp only [Check.bind_yields, Check.pure_yields] at h
      obtain ⟨_, _, -, rfl, -⟩ := h
      exact List.nil_subset _
    | cons k ks =>
      obtain ⟨rfl, -⟩ := (Check.pure_yields ..).mp h
      exact writeKeys_variables hkeys

/-! ### UPDATE and DELETE -/

/-- Each value of `UPDATE SET` gets a column of its own. -/
theorem processSetElements_numbered {target : WriteTarget} {elements : List SetElement}
    {saw : List ℕ} {writes : List (Variable × Scalar × Column)} {s t : AnalyzerState ρ}
    (hs : s.Sound) (h : processSetElements env target saw elements s = (some writes, t)) :
    Reads s t (writes.map fun w => w.2.1) ∧
      Numbered s.fresh t.fresh (writes.map fun w => w.1) := by
  induction elements generalizing saw s writes with
  | nil =>
    obtain ⟨rfl, rfl⟩ := (Check.pure_yields ..).mp h
    exact ⟨.refl s, .nil _ _⟩
  | cons element elements ih =>
    simp only [processSetElements, Check.bind_yields, Check.pure_yields] at h
    obtain ⟨column, u, hcolumn, v, w, hv, ⟨value, saw'⟩, x, hvalue, rest, y, helements, rfl, rfl⟩ := h
    have htarget : Quiet s u := updateTarget_quiet _ _ _ hcolumn
    have hquiet : Quiet s w := Check.Frame.trans htarget (streamVariable_quiet hv)
    have hreads := analyzeScalarExpression_reads ((scoping env).scalar element.value) hvalue
    have hw := hs.of_quiet hquiet
    have hx := hreads.sound hw
    obtain ⟨hrest, hnumbered⟩ := ih hx helements
    refine ⟨((Reads.of_quiet hquiet).trans hreads).trans hrest, ?_⟩
    obtain ⟨rfl, rfl⟩ := (streamVariable_yields ..).mp hv
    have hafter := (hreads.frame hw).fresh
    exact ((Numbered.single u.fresh).widen htarget.fresh hafter).append hnumbered
      (htarget.fresh.trans (u.fresh.le_succ.trans hafter)) (hrest.frame hx).fresh

theorem processUpdateStatement_assigned {tableName : Name} {aliasName : Option SimpleName}
    {elements : List SetElement} {where_ : Option ScalarExpression} {s t : AnalyzerState ρ}
    {g : Graph} (hs : s.Sound) (hscopes : s.scopes = [])
    (h : processUpdateStatement env tableName aliasName elements where_ s = (some (.plan g), t)) :
    g.Assigned := by
  cases elements with
  | nil => cases h
  | cons element elements =>
    simp only [processUpdateStatement, Check.bind_yields, Check.pure_yields,
      StatementResult.plan.injEq] at h
    obtain ⟨target, u, htarget, ⟨graph, left⟩, v, hgraph, rfl, -⟩ := h
    obtain ⟨w, hnested, -, rfl⟩ := (withScope_yields ..).mp hgraph
    simp only [Check.bind_yields, Check.pure_yields] at hnested
    obtain ⟨source, x, hsource, keys, y, hkeys, writes, z, hwrites, rfl, rfl⟩ := hnested
    have hquiet : Quiet s u := extractTable_quiet _ _ htarget
    have hu := hs.of_quiet hquiet
    obtain ⟨hscan, hcolumns⟩ := extractTable_scans htarget
    obtain ⟨hbuilds, hdefines⟩ := scanAndFilter_builds (scanTarget_builds hu htarget) hsource
    have hkeysQuiet : Quiet x y := buildWriteKeys_quiet target hkeys
    obtain ⟨hreads, hnumbered⟩ :=
      processSetElements_numbered (hbuilds.adds.sound.of_quiet hkeysQuiet) hwrites
    have hx := hbuilds.adds.sound
    have hvalues := (Reads.of_quiet hkeysQuiet).trans hreads
    have hextends := hvalues.frame hx
    have hinputs := hbuilds.inputs_subset (hquiet.scopes.trans hscopes) hextends
    have hnames : (Operator.project (writes.map fun w => (w.1, w.2.1))).defines =
        writes.map fun w => w.1 := by
      rw [Operator.defines, List.map_map]
      rfl
    have hproject : (Graph.unary (.project (writes.map fun w => (w.1, w.2.1))) source).Scoped
        (inputs z.scopes) z.fresh := by
      refine .unary (.mono (operator_scoped (fun e he => ?_) rfl rfl fun v hv => ?_)
        (List.subset_append_right _ _) le_rfl) (hbuilds.later hextends.widens)
      · rw [Operator.expressions, List.map_map] at he
        exact hvalues.expressions hx e he
      · rw [hnames] at hv
        exact hnumbered.streams v hv
    have hall := closeScoped hproject (by
      rw [Graph.defines_unary]
      exact List.Subset.trans hinputs (List.subset_append_right _ _))
    refine (hall.consume rfl rfl rfl ?_).assigned ?_
    · rw [Graph.defines_unary, hnames, Operator.references, List.map_map]
      refine List.append_subset.mpr ⟨?_, List.subset_append_left _ _⟩
      rw [hdefines, hscan]
      exact List.Subset.trans (buildWriteKeys_variables hkeys) (List.subset_append_right _ _)
    · rw [Graph.defines_unary, Operator.defines, List.nil_append, Graph.defines_unary, hnames,
        hdefines, hscan]
      refine Numbered.nodup (n := s.fresh) (m := z.fresh) ?_
      refine (hcolumns.append (hnumbered.widen ?_ le_rfl) hquiet.fresh ?_).perm
        List.perm_append_comm
      · exact hbuilds.adds.widens.fresh.trans hkeysQuiet.fresh
      · exact hbuilds.adds.widens.fresh.trans hextends.fresh

theorem processDeleteStatement_assigned {tableName : Name} {aliasName : Option SimpleName}
    {where_ : Option ScalarExpression} {s t : AnalyzerState ρ} {g : Graph} (hs : s.Sound)
    (hscopes : s.scopes = [])
    (h : processDeleteStatement env tableName aliasName where_ s = (some (.plan g), t)) :
    g.Assigned := by
  simp only [processDeleteStatement, Check.bind_yields, Check.pure_yields,
    StatementResult.plan.injEq] at h
  obtain ⟨target, u, htarget, ⟨graph, left⟩, v, hgraph, rfl, -⟩ := h
  obtain ⟨w, hnested, -, rfl⟩ := (withScope_yields ..).mp hgraph
  simp only [Check.bind_yields, Check.pure_yields] at hnested
  obtain ⟨source, x, hsource, keys, y, hkeys, rfl, rfl⟩ := hnested
  have hquiet : Quiet s u := extractTable_quiet _ _ htarget
  obtain ⟨hscan, hcolumns⟩ := extractTable_scans htarget
  obtain ⟨hbuilds, hdefines⟩ :=
    scanAndFilter_builds (scanTarget_builds (hs.of_quiet hquiet) htarget) hsource
  have hinputs := hbuilds.inputs_subset (hquiet.scopes.trans hscopes) (.refl x)
  have hall := closeScoped hbuilds.graph hinputs
  refine (hall.consume rfl rfl rfl ?_).assigned ?_
  · rw [Operator.references, List.map_nil, List.append_nil, hdefines, hscan]
    exact buildWriteKeys_variables hkeys
  · rw [Graph.defines_unary, Operator.defines, List.nil_append, hdefines, hscan]
    exact hcolumns.nodup

/-! ### Statements without a plan -/

/-- An analysis that never results in a plan. -/
def Unplanned (m : Analysis ρ StatementResult) : Prop :=
  Check.Returns (fun r => ∀ g : Graph, r ≠ .plan g) m

namespace Unplanned

@[grind ←] theorem statement (s : Plan.Statement) :
    Unplanned (pure (.statement s) : Analysis ρ StatementResult) :=
  .pure fun _ h => by cases h

@[grind ←] theorem reject (code : Code) (message : List Fragment) :
    Unplanned (reject code message : Analysis ρ StatementResult) :=
  .after fun _ => .stop

@[grind ←] theorem fail : Unplanned (fail : Analysis ρ StatementResult) := .stop

@[grind ←] theorem after {α : Type} {m : Analysis ρ α} {f : α → Analysis ρ StatementResult}
    (hf : ∀ a, Unplanned (f a)) : Unplanned (m >>= f) :=
  Check.Returns.after hf

@[grind ←] theorem withDeclaration {α : Type} {find : Bool → Analysis ρ (Option α)}
    {ifExists : Bool} {f : α → Analysis ρ StatementResult} (hf : ∀ a, Unplanned (f a)) :
    Unplanned (withDeclaration find ifExists f) := by
  unfold Analyzer.withDeclaration
  grind

@[grind ←] theorem definedAlready (ifNotExists : Bool) (code : Code) (kind : String) (name : Name) :
    Unplanned (definedAlready ifNotExists code kind name : Analysis ρ StatementResult) := by
  unfold Analyzer.definedAlready
  grind

@[grind ←] theorem defineTable (definition : TableDefinition) :
    Unplanned (defineTable env definition) := by
  unfold Analyzer.defineTable
  grind

theorem processTableDefinition (definition : TableDefinition) :
    Unplanned (processTableDefinition env definition) := by
  unfold Analyzer.processTableDefinition
  grind

@[grind ←] theorem defineIndex (definition : IndexDefinition) :
    Unplanned (defineIndex env definition) := by
  unfold Analyzer.defineIndex
  grind

theorem processIndexDefinition (definition : IndexDefinition) :
    Unplanned (processIndexDefinition env definition) := by
  unfold Analyzer.processIndexDefinition
  grind

theorem processAlterTable (name : Name) (action : AlterTableAction) (ifExists : Bool) :
    Unplanned (processAlterTable env name action ifExists) := by
  unfold Analyzer.processAlterTable processRenameTable processRenameColumn
  grind

theorem processAlterIndex (name : Name) (action : AlterIndexAction) (ifExists : Bool) :
    Unplanned (processAlterIndex env name action ifExists) := by
  unfold Analyzer.processAlterIndex processRenameIndex
  grind

theorem processDrop (kind : DropStatementKind) (name : Name) (options : List DropStatementOption) :
    Unplanned (processDrop env kind name options) := by
  unfold Analyzer.processDrop processDropTable processDropIndex rejectStatement
  grind

theorem processPrivilege (build : List TablePrivilegeElement → Plan.Statement)
    (acceptAllUsers : Bool) (statement : PrivilegeStatement) :
    Unplanned (processPrivilege env build acceptAllUsers statement) := by
  unfold Analyzer.processPrivilege
  grind

theorem processTruncateTable (name : Name) (identityColumnOption : Option IdentityColumnRestartOption) :
    Unplanned (processTruncateTable env name identityColumnOption) := by
  unfold Analyzer.processTruncateTable
  grind

end Unplanned

/-! ### All statements -/

theorem analyzeStatement_assigned {statement : Ast.Statement} {s t : AnalyzerState ρ} {g : Graph}
    (hs : s.Sound) (hscopes : s.scopes = [])
    (h : analyzeStatement env statement s = (some (.plan g), t)) : g.Assigned := by
  cases statement with
  | selectStatement expression targets => exact processSelectStatement_assigned hs hscopes h
  | insertStatement tableName columns expression options =>
    exact processInsertStatement_assigned hs hscopes h
  | updateStatement tableName aliasName elements where_ =>
    exact processUpdateStatement_assigned hs hscopes h
  | deleteStatement tableName aliasName where_ =>
    exact processDeleteStatement_assigned hs hscopes h
  | tableDefinition definition => exact absurd rfl (Unplanned.processTableDefinition _ h g)
  | indexDefinition definition => exact absurd rfl (Unplanned.processIndexDefinition _ h g)
  | alterTableStatement name action ifExists =>
    exact absurd rfl (Unplanned.processAlterTable _ _ _ h g)
  | alterIndexStatement name action ifExists =>
    exact absurd rfl (Unplanned.processAlterIndex _ _ _ h g)
  | dropStatement kind name options => exact absurd rfl (Unplanned.processDrop _ _ _ h g)
  | truncateTableStatement name identityColumnOption =>
    exact absurd rfl (Unplanned.processTruncateTable _ _ h g)
  | grantPrivilegeStatement statement => exact absurd rfl (Unplanned.processPrivilege _ _ _ h g)
  | revokePrivilegeStatement statement => exact absurd rfl (Unplanned.processPrivilege _ _ _ h g)
  | emptyStatement => cases h
  | unsupported kind => cases h

/-- Every plan that the analyzer makes of a statement is in single assignment form: the columns that
its operators define differ, and those that its operators read, write and emit are among them. -/
theorem SqlAnalyzer.process_assigned {resolution : ρ} {statement : Ast.Statement} {g : Graph}
    (h : SqlAnalyzer.process env resolution statement = .executionPlan g) : g.Assigned := by
  rcases hrun : analyzeStatement env statement (.initial resolution) with ⟨_ | r, t⟩
  · rw [process, hrun] at h
    cases h
  · rw [process, hrun] at h
    cases r with
    | statement s => cases h
    | plan graph =>
      obtain rfl := AnalyzerResult.executionPlan.inj h
      exact analyzeStatement_assigned (initial_sound resolution) rfl hrun

/-- `UPDATE t SET c = c WHERE EXISTS (SELECT * FROM t)` updates a scan of the table by a column
beside it. -/
theorem SqlAnalyzer.process_assigned_update :
    let env := Environment.ofSchema maxSchema
    let c : Name := .simple ⟨"c", .delimited⟩
    let t : Name := .simple ⟨"t", .delimited⟩
    let rows := QueryExpression.query none [.selectAsterisk none] [.tableReference false t none] none
      none none [] none
    ∃ g, SqlAnalyzer.process env [] (.updateStatement t none [⟨c, .variableReference c⟩]
        (some (.tablePredicate .exists_ rows))) = .executionPlan g ∧
      g.defines = [.stream 2, .stream 0] ∧ g.Assigned := by
  intro env c t rows
  have hplan : ∃ g, SqlAnalyzer.process env [] (.updateStatement t none [⟨c, .variableReference c⟩]
      (some (.tablePredicate .exists_ rows))) = .executionPlan g ∧ g.defines = [.stream 2, .stream 0] :=
    ⟨_, rfl, rfl⟩
  obtain ⟨g, hg, hdefines⟩ := hplan
  exact ⟨g, hg, hdefines, SqlAnalyzer.process_assigned hg⟩

end Mizugaki.Analyzer
