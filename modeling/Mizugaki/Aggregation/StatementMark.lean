import Mizugaki.Aggregation.EngineMark
import Mizugaki.Aggregation.Presence
import Mizugaki.Analyzer.WriteSimulation
import Mizugaki.Tracking.Passed

/-! Calls of set functions in the results of statements. The expressions of a query are checked
for them, except for the rows of table values and the arguments of an APPLY; the values of
`UPDATE SET` are not checked either. When none of these is analyzed to an expression that calls
a set function, the statement results in a plan or a statement without any call of one. -/

namespace Mizugaki.Plan

/-- No set function is called in the operators of a graph and in those of the graphs nested in it. -/
def Graph.AggregateFree (g : Graph) : Prop :=
  ∀ op, g.Places op → ∀ e ∈ op.expressions, e.hasAggregate = false

/-- No set function is called in an expression and in the operators of its subqueries. -/
def Scalar.AggregateFree (e : Scalar) : Prop :=
  e.hasAggregate = false ∧ ∀ n ∈ e.subqueries, n.graph.AggregateFree

/-- No set function is called in the expressions of an operator and in the graphs nested in it. -/
def Operator.AggregateFree (op : Operator) : Prop :=
  (∀ e ∈ op.expressions, e.hasAggregate = false) ∧ ∀ n ∈ op.nested, n.graph.AggregateFree

theorem Graph.aggregateFree_iff (g : Graph) :
    g.AggregateFree ↔ ∀ op ∈ g.operators, op.AggregateFree := by
  constructor
  · intro h op hop
    exact ⟨h op (.here hop), fun n hn inner hinner => h inner (.inside hop hn hinner)⟩
  · intro h op hop
    cases hop with
    | here hop => exact (h op hop).1
    | inside hop hn hinner => exact (h _ hop).2 _ hn op hinner

theorem Graph.AggregateFree.unary {op : Operator} {g : Graph} (h : op.AggregateFree)
    (hg : g.AggregateFree) : (Graph.unary op g).AggregateFree :=
  (Graph.aggregateFree_iff _).mpr (List.forall_mem_cons.mpr ⟨h, g.aggregateFree_iff.mp hg⟩)

theorem Graph.AggregateFree.source {op : Operator} (h : op.AggregateFree) :
    (Graph.source op).AggregateFree :=
  (Graph.aggregateFree_iff _).mpr (List.forall_mem_singleton.mpr h)

/-- An operator without expressions that stands for no other graph. -/
theorem Operator.AggregateFree.of_nil {op : Operator} (he : op.expressions = [])
    (hn : op.nested = []) : op.AggregateFree :=
  ⟨fun _ h => (by rw [he] at h; cases h), fun _ h => (by rw [hn] at h; cases h)⟩

/-- The checked operators of a confined graph and of the graphs nested in it call no set functions. -/
theorem SubqueryNode.Confined.checked {n : SubqueryNode} (h : n.Confined) {op : Operator}
    (hop : n.graph.Places op) (hchecked : op.isUnchecked = false) :
    ∀ e ∈ op.expressions, e.hasAggregate = false := by
  obtain ⟨g, parameters⟩ := n
  change g.Places op at hop
  induction hop generalizing parameters with
  | here hop => exact ((SubqueryNode.confined_iff _).mp h _ hop).1 hchecked
  | @inside g op inner n hop hn _ ih =>
    exact ih hchecked n.parameters (((SubqueryNode.confined_iff _).mp h _ hop).2 n hn)

/-- The expressions of a statement. -/
def Statement.expressions : Statement → List Scalar
  | .write _ _ _ tuples => tuples.flatten
  | _ => []

end Mizugaki.Plan

namespace Mizugaki.Analyzer

open Mizugaki.Ast Mizugaki.Plan Mizugaki.Control

variable {ρ : Type} {env : Environment ρ}

/-- No call of a set function is anywhere in a result: in the operators of a plan and of the graphs
nested in them, or in the expressions of a statement. -/
def StatementResult.AggregateFree : StatementResult → Prop
  | .plan graph => graph.AggregateFree
  | .statement s => ∀ e ∈ s.expressions, e.AggregateFree

def AnalyzerResult.AggregateFree : AnalyzerResult → Prop
  | .erroneous _ => True
  | .executionPlan graph => graph.AggregateFree
  | .statement s => ∀ e ∈ s.expressions, e.AggregateFree

/-! ### Values that are not checked -/

/-- The values of the elements of `UPDATE SET`. -/
def analyzeSetValues (env : Environment ρ) (tableName : Name) (aliasName : Option SimpleName)
    (elements : List SetElement) (where_ : Option ScalarExpression) : Analysis ρ (List Scalar) := do
  let target ← extractTable env tableName aliasName
  let (writes, _) ← withScope (QueryScope.empty.add target.info) do
    let _ ← scanAndFilter env target where_
    let _ ← buildWriteKeys target
    processSetElements env target [] elements
  return writes.map fun w => w.2.1

/-- The values that the elements of `UPDATE SET` of a statement are analyzed to. -/
def setValues (env : Environment ρ) (resolution : ρ) : Ast.Statement → List Scalar
  | .updateStatement tableName aliasName elements where_ =>
    (analyzeSetValues env tableName aliasName elements where_ (.initial resolution)).1.getD []
  | _ => []

/-- The elements of the rows of table values and the arguments of an APPLY on a record. -/
def uncheckedPassed (log : List (Pass env)) : List Scalar :=
  (log.filter fun p => p.operator_.isUnchecked).flatMap fun p => p.operator_.expressions

/-- What the expressions in a statement that are not checked for set functions are analyzed to. -/
def uncheckedValues (env : Environment ρ) (resolution : ρ) (statement : Ast.Statement) :
    List Scalar :=
  setValues env resolution statement ++
    uncheckedPassed (analyzeStatement env.recording statement (.initial (resolution, []))).2.passed

/-! ### Runs that are recorded -/

/-- A run that is recorded, and whose result nests some graphs: these are confined, and what they
place is on the record. -/
structure Gathered (nodes : List SubqueryNode) (s t : AnalyzerState (ρ × List (Pass env))) : Prop where
  marked : Marked false nodes s t
  recorded : Recorded True (placed nodes) s t

/-- Nothing is declared or recorded that could hide a call of a set function. -/
structure AnalyzerState.Bare (s : AnalyzerState (ρ × List (Pass env))) : Prop where
  confined : ConfinedQueries s
  settled : s.Settled True

theorem initial_bare (resolution : ρ) :
    (AnalyzerState.initial (resolution, ([] : List (Pass env)))).Bare where
  confined _ hscope := by cases hscope
  settled := initial_settled resolution

namespace Gathered

variable {nodes others : List SubqueryNode} {s t u : AnalyzerState (ρ × List (Pass env))}

theorem of_quiet (h : Quiet s t) (k : Recorded True [] s t) : Gathered [] s t := ⟨.of_quiet h, k⟩

instance : Numbering (Gathered [] :
    AnalyzerState (ρ × List (Pass env)) → AnalyzerState (ρ × List (Pass env)) → Prop) where
  refl s := .of_quiet (Check.Frame.refl s) (Check.Frame.refl s)
  trans h k := ⟨h.marked.trans k.marked, h.recorded.append k.recorded⟩
  report s diagnostics := .of_quiet (Numbering.report s diagnostics) (Numbering.report s diagnostics)
  number s := .of_quiet (Numbering.number s) (Numbering.number s)

instance : Resolving env.recording (Gathered []) where
  scalar s e validate := .of_quiet (Resolving.scalar s e validate) (Resolving.scalar s e validate)
  column s v column := .of_quiet (Resolving.column s v column) (Resolving.column s v column)
  aliased s v source := .of_quiet (Resolving.aliased s v source) (Resolving.aliased s v source)
  unbind s e := .of_quiet (Resolving.unbind s e) (Resolving.unbind s e)

theorem trans (h : Gathered nodes s t) (k : Gathered others t u) : Gathered (nodes ++ others) s u where
  marked := h.marked.trans k.marked
  recorded := by
    rw [placed_append]
    exact h.recorded.append k.recorded

theorem before (h : Gathered [] s t) (k : Gathered nodes t u) : Gathered nodes s u := h.trans k

theorem after (h : Gathered nodes s t) (k : Gathered [] t u) : Gathered nodes s u := by
  have hall := h.trans k
  rwa [List.append_nil] at hall

/-- A run between entering a scope without queries and leaving it. -/
theorem entered {scope : QueryScope} (hscope : scope.queryMap = fun _ => none)
    (h : Gathered nodes (s.enter scope) t) : Gathered nodes s t.leave :=
  ⟨h.marked.entered hscope, recorded_tracks.entered hscope h.recorded⟩

/-- When no unchecked value on the record calls a set function, the nested graphs call none. -/
theorem aggregateFree (h : Gathered nodes s t) (hs : s.Bare)
    (hvalues : ∀ e ∈ uncheckedPassed t.passed, e.hasAggregate = false) :
    ∀ n ∈ nodes, n.graph.AggregateFree := by
  intro n hn op hop e he
  cases hunchecked : op.isUnchecked with
  | false => exact (h.marked.graphs hs.confined n hn).checked hop hunchecked e he
  | true =>
    obtain ⟨p, hp, heq⟩ | ⟨-, hdifference⟩ := Operator.Hereditary.of_places
      (fun op hop => h.recorded.resolved hs.settled op (List.mem_flatMap.mpr ⟨n, hn, hop⟩)) hop
    · -- the count of a limit is the only thing that the record may have differently
      have hsame : p.operator_ = op := by
        cases op <;> cases hunchecked <;> cases hoperator : p.operator_ <;>
          simp_all [Operator.withoutCount]
      refine hvalues e (List.mem_flatMap.mpr ⟨p, List.mem_filter.mpr ⟨hp, ?_⟩, ?_⟩)
      · rw [hsame, hunchecked]
      · rw [hsame]
        exact he
    · cases op <;> cases hunchecked <;> cases hdifference

end Gathered

/-- The subqueries of an expression, which is analyzed on its own. -/
theorem analyzeScalarExpression_gathered (e : ScalarExpression) {context : ValueContext}
    {s t : AnalyzerState (ρ × List (Pass env))} {value : Scalar} {sawAggregate : Bool}
    (h : analyzeScalarExpression (scalar env.recording e) context s =
      (some (value, sawAggregate), t)) :
    sawAggregate = value.hasAggregate ∧ Gathered value.subqueries s t := by
  obtain ⟨hsaw, hmarked⟩ := analyzeScalarExpression_marked (scalar_marks env.recording e) h
  exact ⟨hsaw, hmarked, analyzeScalarExpression_tracked recorded_tracks
    ((tracked_induction recorded_tracks).scalar e fun _ _ _ => trivial) h⟩

theorem analyzeQueryExpression_gathered {q : QueryExpression} {context : List ScalarValueContext}
    {s t : AnalyzerState (ρ × List (Pass env))} {r : QueryResult}
    (h : analyzeQueryExpression env.recording q context s = (some r, t)) :
    Gathered [⟨r.output, []⟩] s t := by
  refine ⟨query_marks env.recording q context false h, ?_⟩
  have hplaced : placed [⟨r.output, []⟩] = r.output.operators := List.append_nil _
  rw [hplaced]
  exact query_tracked recorded_tracks (fun _ _ _ => trivial) context false h

/-! ### INSERT -/

theorem simpleValues_yields {op : Operator} {rows : List (List Scalar)}
    (h : simpleValues op = some rows) : ∃ columns, op = .values columns rows := by
  cases op with
  | values columns rows' =>
    simp only [simpleValues] at h
    split_ifs at h
    cases h
    exact ⟨columns, rfl⟩
  | _ => cases h

/-- The rows of an operator of table values are its expressions. -/
theorem rows_aggregateFree {g : Graph} (h : g.AggregateFree) {rows : List (List Scalar)}
    (hrows : simpleValues g.owner = some rows) : ∀ e ∈ rows.flatten, e.AggregateFree := by
  intro e he
  obtain ⟨columns, howner⟩ := simpleValues_yields hrows
  have hop := g.aggregateFree_iff.mp h g.owner g.owner_mem
  rw [howner] at hop
  exact ⟨hop.1 e he, fun n hn => hop.2 n (List.mem_flatMap.mpr ⟨e, he, hn⟩)⟩

theorem processInsertColumns_aggregateFree {target : WriteTarget} {destinations : List Column}
    {options : List InsertStatementOption} {output : Graph} {columns : List ColumnInfo}
    {s t : AnalyzerState ρ} {r : StatementResult} (h : output.AggregateFree)
    (hrun : processInsertColumns env target destinations options output columns s = (some r, t)) :
    r.AggregateFree := by
  have hplan : ∀ kind keys values, (StatementResult.plan
      (.unary (.write kind target.index keys values) output)).AggregateFree :=
    fun _ _ _ => Graph.AggregateFree.unary (.of_nil rfl rfl) h
  unfold processInsertColumns at hrun
  split at hrun
  · cases hrun
  · simp only [Check.bind_yields] at hrun
    obtain ⟨kind, u, -, hrun⟩ := hrun
    split at hrun
    · cases hrows : simpleValues output.owner with
      | none =>
        simp only [hrows] at hrun
        obtain ⟨rfl, -⟩ := (Check.pure_yields ..).mp hrun
        exact hplan _ _ _
      | some rows =>
        simp only [hrows] at hrun
        obtain ⟨rfl, -⟩ := (Check.pure_yields ..).mp hrun
        exact rows_aggregateFree h hrows
    · obtain ⟨rfl, -⟩ := (Check.pure_yields ..).mp hrun
      exact hplan _ _ _

/-- What follows the analysis of the source of an INSERT records nothing. -/
theorem processInsertColumns_quiet {R : AnalyzerState ρ → AnalyzerState ρ → Prop} [Numbering R]
    (target : WriteTarget) (destinations : List Column) (options : List InsertStatementOption)
    (output : Graph) (columns : List ColumnInfo) :
    Check.Keeps R (processInsertColumns env target destinations options output columns) := by
  have hkind : ∀ result saw, Check.Keeps R (computeWriteType result saw options) := by
    induction options with
    | nil => exact fun _ _ => .pure _
    | cons o os ih =>
      intro result saw
      unfold computeWriteType
      grind
  unfold processInsertColumns
  grind

/-! ### Tables to write -/

section

variable {R : AnalyzerState ρ → AnalyzerState ρ → Prop} [Numbering R]

theorem extractTable_quiet [Resolving env R] (tableName : Name) (aliasName : Option SimpleName) :
    Check.Keeps R (extractTable env tableName aliasName) := by
  unfold extractTable analyzeTableName analyzeDeclName
  grind

theorem destinationColumns_quiet (target : WriteTarget) (columns : List SimpleName) :
    Check.Keeps R (destinationColumns env target columns) := by
  have hnamed : ∀ saw names, Check.Keeps R (namedDestinations env target saw names) := by
    intro saw names
    induction names generalizing saw with
    | nil => exact .pure _
    | cons name names ih =>
      unfold namedDestinations
      grind
  unfold destinationColumns
  grind

theorem buildWriteKeys_quiet (target : WriteTarget) :
    Check.Keeps R (buildWriteKeys target : Analysis ρ (List (Variable × Column))) := by
  unfold buildWriteKeys
  grind

theorem updateTarget_quiet (target : WriteTarget) (saw : List Nat) (name : Name) :
    Check.Keeps R (updateTarget env target saw name) := by
  unfold updateTarget
  grind

end

/-- The scan of a write and the filter on it, whose set functions are checked. -/
theorem scanAndFilter_gathered {target : WriteTarget} {where_ : Option ScalarExpression}
    {s t : AnalyzerState (ρ × List (Pass env))} {g : Graph}
    (hrun : scanAndFilter env.recording target where_ s = (some g, t)) :
    ∃ nodes, Gathered nodes s t ∧ ((∀ n ∈ nodes, n.graph.AggregateFree) → g.AggregateFree) := by
  have hscan : (Graph.source (.scan target.index (scanColumns target.info))).AggregateFree :=
    .source (.of_nil rfl rfl)
  cases where_ with
  | none =>
    obtain ⟨rfl, rfl⟩ := (Check.pure_yields ..).mp hrun
    exact ⟨[], Check.Frame.refl s, fun _ => hscan⟩
  | some e =>
    simp only [scanAndFilter, Check.bind_yields] at hrun
    obtain ⟨⟨predicate, sawAggregate⟩, u, hpredicate, hrun⟩ := hrun
    obtain ⟨rfl, hgathered⟩ := analyzeScalarExpression_gathered e hpredicate
    split at hrun
    case isTrue => cases hrun
    case isFalse hsaw =>
      obtain ⟨rfl, rfl⟩ := (Check.pure_yields ..).mp hrun
      refine ⟨predicate.subqueries, hgathered, fun hnodes =>
        .unary ⟨fun e he => ?_, fun n hn => ?_⟩ hscan⟩
      · rw [List.mem_singleton.mp he]
        exact Bool.eq_false_iff.mpr hsaw
      · obtain ⟨e, he, hn⟩ := List.mem_flatMap.mp hn
        rw [List.mem_singleton.mp he] at hn
        exact hnodes n hn

theorem processSetElements_gathered {target : WriteTarget} {elements : List SetElement}
    {saw : List Nat} {s t : AnalyzerState (ρ × List (Pass env))}
    {writes : List (Variable × Scalar × Column)}
    (hrun : processSetElements env.recording target saw elements s = (some writes, t)) :
    Gathered (subqueriesBindings (writes.map fun w => (w.1, w.2.1))) s t := by
  induction elements generalizing saw s writes with
  | nil =>
    obtain ⟨rfl, rfl⟩ := (Check.pure_yields ..).mp hrun
    exact (Check.Frame.refl s : Gathered [] s s)
  | cons element elements ih =>
    simp only [processSetElements, Check.bind_yields, Check.pure_yields] at hrun
    obtain ⟨column, u, hcolumn, v, w, hv, ⟨value, saw'⟩, x, hvalue, rest, y, helements, rfl, rfl⟩ := hrun
    have hquiet : Gathered [] s w :=
      Check.Frame.trans (updateTarget_quiet _ _ _ hcolumn) (streamVariable_quiet hv)
    obtain ⟨-, hgathered⟩ := analyzeScalarExpression_gathered element.value hvalue
    exact hquiet.before (hgathered.trans (ih helements))

/-! ### Statements -/

/-- The plan of a SELECT emits what its query returns. -/
theorem processSelectStatement_aggregateFree {expression : QueryExpression} {targets : List Name}
    {s t : AnalyzerState (ρ × List (Pass env))} (hs : s.Bare) {r : StatementResult}
    (hrun : processSelectStatement env.recording expression targets s = (some r, t))
    (hvalues : ∀ e ∈ uncheckedPassed t.passed, e.hasAggregate = false) : r.AggregateFree := by
  cases targets with
  | cons target targets => cases hrun
  | nil =>
    simp only [processSelectStatement, Check.bind_yields, Check.pure_yields] at hrun
    obtain ⟨result, u, hquery, rfl, rfl⟩ := hrun
    have hgraph := (analyzeQueryExpression_gathered hquery).aggregateFree hs hvalues
    exact Graph.AggregateFree.unary (.of_nil rfl rfl) (hgraph _ List.mem_cons_self)

theorem processInsertStatement_aggregateFree {tableName : Name} {columns : List SimpleName}
    {expression : Option QueryExpression} {options : List InsertStatementOption}
    {s t : AnalyzerState (ρ × List (Pass env))} (hs : s.Bare) {r : StatementResult}
    (hrun : processInsertStatement env.recording tableName columns expression options s = (some r, t))
    (hvalues : ∀ e ∈ uncheckedPassed t.passed, e.hasAggregate = false) : r.AggregateFree := by
  simp only [processInsertStatement, Check.bind_yields] at hrun
  obtain ⟨target, u, htarget, destinations, v, hdestinations, hrun⟩ := hrun
  cases expression with
  | none =>
    simp only [processInsertDefaultValues, Check.bind_yields, Check.pure_yields] at hrun
    obtain ⟨kind, w, -, rfl, -⟩ := hrun
    split
    · intro e he
      cases he
    · have hrow : (Graph.source (.values [] [[]])).AggregateFree := .source (.of_nil rfl rfl)
      exact Graph.AggregateFree.unary (.of_nil rfl rfl) hrow
  | some q =>
    simp only [Check.bind_yields] at hrun
    obtain ⟨source, w, hsource, hrun⟩ := hrun
    have hquiet : Gathered [] s v := Check.Frame.trans (extractTable_quiet _ _ htarget)
      (destinationColumns_quiet _ _ hdestinations)
    have hgathered := (hquiet.before (analyzeQueryExpression_gathered hsource)).after
      (processInsertColumns_quiet _ _ _ _ _ hrun)
    exact processInsertColumns_aggregateFree
      (hgathered.aggregateFree hs hvalues _ List.mem_cons_self) hrun

theorem processDeleteStatement_aggregateFree {tableName : Name} {aliasName : Option SimpleName}
    {where_ : Option ScalarExpression} {s t : AnalyzerState (ρ × List (Pass env))} (hs : s.Bare)
    {r : StatementResult}
    (hrun : processDeleteStatement env.recording tableName aliasName where_ s = (some r, t))
    (hvalues : ∀ e ∈ uncheckedPassed t.passed, e.hasAggregate = false) : r.AggregateFree := by
  simp only [processDeleteStatement, Check.bind_yields, Check.pure_yields] at hrun
  obtain ⟨target, u, htarget, ⟨graph, left⟩, v, hgraph, rfl, rfl⟩ := hrun
  obtain ⟨x, hinside, -, rfl⟩ := (withScope_yields ..).mp hgraph
  simp only [Check.bind_yields, Check.pure_yields] at hinside
  obtain ⟨source, y, hsource, keys, z, hkeys, rfl, rfl⟩ := hinside
  obtain ⟨nodes, hscan, hfree⟩ := scanAndFilter_gathered hsource
  have htargetGathered : Gathered [] s u := extractTable_quiet _ _ htarget
  have hall := htargetGathered.before ((hscan.after (buildWriteKeys_quiet target hkeys)).entered rfl)
  exact Graph.AggregateFree.unary (.of_nil rfl rfl) (hfree (hall.aggregateFree hs hvalues))

/-- The plan of an UPDATE calls set functions where its elements do. -/
theorem processUpdateStatement_aggregateFree_iff {tableName : Name}
    {aliasName : Option SimpleName} {elements : List SetElement}
    {where_ : Option ScalarExpression} {s t : AnalyzerState (ρ × List (Pass env))} (hs : s.Bare)
    {r : StatementResult}
    (hrun : processUpdateStatement env.recording tableName aliasName elements where_ s = (some r, t)) :
    ∃ values, (analyzeSetValues env.recording tableName aliasName elements where_ s).1 = some values ∧
      (r.AggregateFree → ∀ e ∈ values, e.hasAggregate = false) ∧
      ((∀ e ∈ uncheckedPassed t.passed, e.hasAggregate = false) →
        (∀ e ∈ values, e.hasAggregate = false) → r.AggregateFree) := by
  cases elements with
  | nil => cases hrun
  | cons element elements =>
    simp only [processUpdateStatement, Check.bind_yields, Check.pure_yields] at hrun
    obtain ⟨target, u, htarget, ⟨graph, left⟩, v, hgraph, rfl, rfl⟩ := hrun
    obtain ⟨x, hinside, -, rfl⟩ := (withScope_yields ..).mp hgraph
    simp only [Check.bind_yields, Check.pure_yields] at hinside
    obtain ⟨source, y, hsource, keys, z, hkeys, writes, x, hwrites, rfl, rfl⟩ := hinside
    have hvalues : analyzeSetValues env.recording tableName aliasName (element :: elements) where_ s =
        (some (writes.map fun w => w.2.1), x.leave) := by
      simp only [analyzeSetValues, Check.bind_yields, Check.pure_yields]
      refine ⟨target, u, htarget, (writes, x.scope), x.leave, ?_, rfl, rfl⟩
      refine (withScope_yields ..).mpr ⟨x, ?_, rfl, rfl⟩
      simp only [Check.bind_yields]
      exact ⟨source, y, hsource, keys, z, hkeys, hwrites⟩
    refine ⟨_, congrArg Prod.fst hvalues, fun hfree e he => ?_, fun hpassed hset => ?_⟩
    · -- the values are the columns that the plan projects below its write
      obtain ⟨w, hw, rfl⟩ := List.mem_map.mp he
      have hplaced : (Graph.unary (.write .update target.index keys (writes.map fun w => (w.1, w.2.2)))
          (.unary (.project (writes.map fun w => (w.1, w.2.1))) source)).Places
          (.project (writes.map fun w => (w.1, w.2.1))) :=
        .here (List.mem_cons_of_mem _ List.mem_cons_self)
      exact hfree _ hplaced _ (List.mem_map.mpr ⟨(w.1, w.2.1), List.mem_map.mpr ⟨w, hw, rfl⟩, rfl⟩)
    · obtain ⟨nodes, hscan, hfree⟩ := scanAndFilter_gathered hsource
      have htargetGathered : Gathered [] s u := extractTable_quiet _ _ htarget
      have hinside := (hscan.after (buildWriteKeys_quiet target hkeys)).trans
        (processSetElements_gathered hwrites)
      have hnodes := (htargetGathered.before (hinside.entered rfl)).aggregateFree hs hpassed
      obtain ⟨hscanned, hset'⟩ := List.forall_mem_append.mp hnodes
      refine Graph.AggregateFree.unary (.of_nil rfl rfl) (.unary ⟨fun e he => ?_, fun n hn => ?_⟩
        (hfree hscanned))
      · obtain ⟨c, hc, rfl⟩ := List.mem_map.mp he
        obtain ⟨w, hw, rfl⟩ := List.mem_map.mp hc
        exact hset _ (List.mem_map.mpr ⟨w, hw, rfl⟩)
      · obtain ⟨e, he, hn⟩ := List.mem_flatMap.mp hn
        obtain ⟨c, hc, rfl⟩ := List.mem_map.mp he
        exact hset' n (mem_subqueriesBindings.mpr ⟨c, hc, hn⟩)

/-! ### Other statements -/

/-- An analysis that results in statements without expressions. -/
def Declares (m : Analysis ρ StatementResult) : Prop := Check.Returns StatementResult.AggregateFree m

@[grind ←] theorem Declares.statement {s : Plan.Statement} (h : s.expressions = []) :
    Declares (pure (.statement s) : Analysis ρ StatementResult) := by
  refine .pure fun e he => ?_
  rw [h] at he
  cases he

@[grind ←] theorem Declares.reject (code : Code) (message : List Fragment) :
    Declares (reject code message : Analysis ρ StatementResult) :=
  .after fun _ => .stop

@[grind ←] theorem Declares.fail : Declares (fail : Analysis ρ StatementResult) := .stop

@[grind ←] theorem Declares.after {α : Type} {m : Analysis ρ α} {f : α → Analysis ρ StatementResult}
    (hf : ∀ a, Declares (f a)) : Declares (m >>= f) :=
  Check.Returns.after hf

attribute [local grind =] Statement.expressions

theorem withDeclaration_declares {α : Type} {find : Bool → Analysis ρ (Option α)} {ifExists : Bool}
    {f : α → Analysis ρ StatementResult} (hf : ∀ a, Declares (f a)) :
    Declares (withDeclaration find ifExists f) := by
  unfold withDeclaration
  grind

theorem definedAlready_declares (ifNotExists : Bool) (code : Code) (kind : String) (name : Name) :
    Declares (definedAlready ifNotExists code kind name : Analysis ρ StatementResult) := by
  unfold definedAlready
  split_ifs
  · exact .statement rfl
  · exact .reject ..

theorem defineTable_declares (definition : TableDefinition) :
    Declares (defineTable env definition) := by
  unfold defineTable
  cases definition.name with
  | qualified q last => exact .reject ..
  | simple name =>
    refine .after fun r => ?_
    cases r.columns with
    | nil => exact .reject ..
    | cons column columns =>
      exact .after fun _ => .after fun _ => .after fun _ => .statement rfl

theorem processTableDefinition_declares (definition : TableDefinition) :
    Declares (processTableDefinition env definition) := by
  unfold processTableDefinition
  cases definition.parameters with
  | cons parameter parameters => exact .reject ..
  | nil =>
    refine .after fun existing => ?_
    cases existing with
    | some a => exact definedAlready_declares ..
    | none => exact defineTable_declares definition

theorem processIndexDefinition_declares (definition : IndexDefinition) :
    Declares (processIndexDefinition env definition) := by
  refine .after fun _ => .after fun existing => ?_
  cases existing with
  | some a => exact definedAlready_declares ..
  | none =>
    refine .after fun table => ?_
    cases table with
    | none => exact .fail
    | some a => exact .after fun _ => .after fun _ => .after fun _ => .statement rfl

theorem processAlterTable_declares (name : Name) (action : AlterTableAction) (ifExists : Bool) :
    Declares (processAlterTable env name action ifExists) := by
  refine withDeclaration_declares fun a => ?_
  cases action with
  | renameTable replacement =>
    unfold processRenameTable
    grind
  | renameColumn columnName ifExists replacement =>
    unfold processRenameColumn
    grind

theorem processAlterIndex_declares (name : Name) (action : AlterIndexAction) (ifExists : Bool) :
    Declares (processAlterIndex env name action ifExists) := by
  refine withDeclaration_declares fun a => ?_
  cases action with
  | renameIndex replacement =>
    unfold processRenameIndex
    grind

theorem processDrop_declares (kind : DropStatementKind) (name : Name)
    (options : List DropStatementOption) : Declares (processDrop env kind name options) := by
  unfold processDrop
  split_ifs
  · exact .reject ..
  · cases kind with
    | table => exact .after fun _ => withDeclaration_declares fun a => .statement rfl
    | index => exact .after fun _ => withDeclaration_declares fun a => .statement rfl
    | view => exact .reject ..
    | sequence => exact .reject ..
    | schema => exact .reject ..

theorem processPrivilege_declares {build : List TablePrivilegeElement → Plan.Statement}
    (hbuild : ∀ elements, (build elements).expressions = []) (acceptAllUsers : Bool)
    (statement : PrivilegeStatement) :
    Declares (processPrivilege env build acceptAllUsers statement) := by
  unfold processPrivilege
  grind

/-! ### All statements -/

theorem analyzeSetValues_over {σ : Type} {f : σ → ρ} (env : Environment ρ)
    {a : ExpressionAnalyzer σ} [a.Follows f env.expressionAnalyzer] (tableName : Name)
    (aliasName : Option SimpleName) (elements : List SetElement)
    (where_ : Option ScalarExpression) :
    Simulated f (analyzeSetValues (env.over a) tableName aliasName elements where_)
      (analyzeSetValues env tableName aliasName elements where_) :=
  (extractTable_over env tableName aliasName).bind fun target =>
    (withScope_over _ ((scanAndFilter_over env target where_).bind fun _ =>
      (buildWriteKeys_over target).bind fun _ =>
        processSetElements_over env target [] elements)).bind fun _ => .pure _

/-- What is accepted is accepted when its operators are recorded. -/
theorem recorded_run {α : Type} {m : Analysis (ρ × List (Pass env)) α} {n : Analysis ρ α}
    (h : Simulated Prod.fst m n) {resolution : ρ} {a : α} {t : AnalyzerState ρ}
    (hrun : n (.initial resolution) = (some a, t)) :
    ∃ u, m (.initial (resolution, [])) = (some a, u) := by
  obtain ⟨u, hrecorded, -⟩ := h.lift (s := .initial (resolution, [])) hrun
  exact ⟨u, hrecorded⟩

/-- The values on the record of an accepted statement are among those that are not checked. -/
theorem mem_uncheckedValues {resolution : ρ} (statement : Ast.Statement) {r : StatementResult}
    {t : AnalyzerState (ρ × List (Pass env))}
    (hrun : analyzeStatement env.recording statement (.initial (resolution, [])) = (some r, t))
    {e : Scalar} (he : e ∈ uncheckedPassed t.passed) :
    e ∈ uncheckedValues env resolution statement := by
  refine List.mem_append_right _ ?_
  rw [hrun]
  exact he

/-- An accepted statement is free of set functions when its unchecked values are, and only when its
elements of `UPDATE SET` are. -/
theorem analyzeStatement_aggregateFree {resolution : ρ} {statement : Ast.Statement}
    {r : StatementResult} {t : AnalyzerState ρ}
    (hrun : analyzeStatement env statement (.initial resolution) = (some r, t)) :
    ((∀ e ∈ uncheckedValues env resolution statement, e.hasAggregate = false) →
      r.AggregateFree) ∧
    (r.AggregateFree → ∀ e ∈ setValues env resolution statement, e.hasAggregate = false) := by
  have hdeclares : Declares (analyzeStatement env statement) →
      setValues env resolution statement = [] →
      ((∀ e ∈ uncheckedValues env resolution statement, e.hasAggregate = false) →
        r.AggregateFree) ∧
      (r.AggregateFree → ∀ e ∈ setValues env resolution statement, e.hasAggregate = false) := by
    intro h hnone
    refine ⟨fun _ => h hrun, fun _ e he => ?_⟩
    rw [hnone] at he
    cases he
  cases statement with
  | selectStatement expression targets =>
    obtain ⟨u, hrecorded⟩ := recorded_run
      (processSelectStatement_over (a := env.recording.expressionAnalyzer) env expression targets)
      hrun
    rw [Environment.over_recording] at hrecorded
    refine ⟨fun h => ?_, fun _ e he => by cases he⟩
    exact processSelectStatement_aggregateFree (initial_bare resolution) hrecorded fun e he =>
      h e (mem_uncheckedValues (.selectStatement expression targets) hrecorded he)
  | insertStatement tableName columns expression options =>
    obtain ⟨u, hrecorded⟩ := recorded_run
      (processInsertStatement_over (a := env.recording.expressionAnalyzer) env tableName columns
        expression options) hrun
    rw [Environment.over_recording] at hrecorded
    refine ⟨fun h => ?_, fun _ e he => by cases he⟩
    exact processInsertStatement_aggregateFree (initial_bare resolution) hrecorded fun e he =>
      h e (mem_uncheckedValues (.insertStatement tableName columns expression options) hrecorded he)
  | updateStatement tableName aliasName elements where_ =>
    obtain ⟨u, hrecorded⟩ := recorded_run
      (processUpdateStatement_over (a := env.recording.expressionAnalyzer) env tableName aliasName
        elements where_) hrun
    rw [Environment.over_recording] at hrecorded
    obtain ⟨values, hvalues, honly, hfree⟩ :=
      processUpdateStatement_aggregateFree_iff (initial_bare resolution) hrecorded
    have hset : setValues env resolution (.updateStatement tableName aliasName elements where_) =
        values := by
      have himage := congrArg Prod.fst ((analyzeSetValues_over
        (a := env.recording.expressionAnalyzer) env tableName aliasName elements where_).run
        (.initial (resolution, [])))
      rw [Environment.over_recording, hvalues] at himage
      exact congrArg (Option.getD · []) himage
    refine ⟨fun h => ?_, fun hr => ?_⟩
    · refine hfree (fun e he => ?_) fun e he => h e (List.mem_append_left _ (hset ▸ he))
      exact h e (mem_uncheckedValues (.updateStatement tableName aliasName elements where_) hrecorded
        he)
    · rw [hset]
      exact honly hr
  | deleteStatement tableName aliasName where_ =>
    obtain ⟨u, hrecorded⟩ := recorded_run
      (processDeleteStatement_over (a := env.recording.expressionAnalyzer) env tableName aliasName
        where_) hrun
    rw [Environment.over_recording] at hrecorded
    refine ⟨fun h => ?_, fun _ e he => by cases he⟩
    exact processDeleteStatement_aggregateFree (initial_bare resolution) hrecorded fun e he =>
      h e (mem_uncheckedValues (.deleteStatement tableName aliasName where_) hrecorded he)
  | tableDefinition definition => exact hdeclares (processTableDefinition_declares definition) rfl
  | indexDefinition definition => exact hdeclares (processIndexDefinition_declares definition) rfl
  | alterTableStatement name action ifExists =>
    exact hdeclares (processAlterTable_declares name action ifExists) rfl
  | alterIndexStatement name action ifExists =>
    exact hdeclares (processAlterIndex_declares name action ifExists) rfl
  | dropStatement kind name options => exact hdeclares (processDrop_declares kind name options) rfl
  | truncateTableStatement name identityColumnOption =>
    exact hdeclares (withDeclaration_declares fun a => .statement rfl) rfl
  | grantPrivilegeStatement statement =>
    exact hdeclares (processPrivilege_declares (fun _ => rfl) false statement) rfl
  | revokePrivilegeStatement statement =>
    exact hdeclares (processPrivilege_declares (fun _ => rfl) true statement) rfl
  | emptyStatement => exact hdeclares (.statement rfl) rfl
  | unsupported kind => cases hrun

/-- When no element of `UPDATE SET`, row of table values or argument of an APPLY in a statement is
analyzed to an expression with a call of a set function, the result is without any call of one. The
plan of an UPDATE is without any only when its elements are. -/
theorem SqlAnalyzer.process_aggregateFree (resolution : ρ) (statement : Ast.Statement) :
    ((∀ e ∈ uncheckedValues env resolution statement, e.hasAggregate = false) →
      (SqlAnalyzer.process env resolution statement).AggregateFree) ∧
    ∀ plan, SqlAnalyzer.process env resolution statement = .executionPlan plan →
      plan.AggregateFree → ∀ e ∈ setValues env resolution statement, e.hasAggregate = false := by
  rcases hrun : analyzeStatement env statement (.initial resolution) with ⟨_ | r, t⟩
  · rw [process, hrun]
    exact ⟨fun _ => trivial, fun plan h => by cases h⟩
  · obtain ⟨hfree, honly⟩ := analyzeStatement_aggregateFree hrun
    rw [process, hrun]
    cases r with
    | plan graph =>
      refine ⟨hfree, fun plan h => ?_⟩
      obtain rfl := AnalyzerResult.executionPlan.inj h
      exact honly
    | statement s => exact ⟨hfree, fun plan h => by cases h⟩

/-- A table of one column, which is its primary key, in a schema with a set function. -/
def maxSchema : Schema :=
  let column : Column := { address := 1, simpleName := "c", type := .int4 }
  .ofTables
    [{ address := 0
       simpleName := "t"
       columns := [column]
       primaryIndex := some
         { address := 2, tableAddress := 0, tableName := "t", simpleName := "",
           keys := [(column, .ascendant)], primary := true } }]
    [{ definitionId := 0, name := "max", returnType := .int4, parameterTypes := [.int4] }]

/-- `UPDATE t SET c = value`. -/
def updateColumn (value : ScalarExpression) : Ast.Statement :=
  .updateStatement (.simple ⟨"t", .delimited⟩) none [⟨.simple ⟨"c", .delimited⟩, value⟩] none

/-- `max(c)`. -/
def maxColumn : ScalarExpression :=
  .builtinSetFunctionInvocation .max none [.variableReference (.simple ⟨"c", .delimited⟩)]

/-- `UPDATE t SET c = max(c)` has a plan that projects the call of the set function. -/
theorem SqlAnalyzer.update_aggregate :
    let env := Environment.ofSchema maxSchema
    ¬ (SqlAnalyzer.process env [] (updateColumn maxColumn)).AggregateFree := by
  intro env h
  have hplan : ∃ op source e, SqlAnalyzer.process env [] (updateColumn maxColumn) =
      .executionPlan (.unary op (.unary (.project [e]) source)) ∧ e.2.hasAggregate = true :=
    ⟨_, _, _, rfl, rfl⟩
  obtain ⟨op, source, e, hprocess, he⟩ := hplan
  rw [hprocess] at h
  have hplaced : (Graph.unary op (.unary (.project [e]) source)).Places (.project [e]) :=
    .here (List.mem_cons_of_mem _ List.mem_cons_self)
  have hfree := h _ hplaced e.2 List.mem_cons_self
  rw [he] at hfree
  cases hfree

/-- The plan, when the result is one. -/
def AnalyzerResult.plan : AnalyzerResult → Option Graph
  | .executionPlan graph => some graph
  | _ => none

/-- `UPDATE t SET c = (SELECT max(c) FROM t)` calls a set function in the select list of a subquery,
where its plan aggregates. -/
theorem SqlAnalyzer.update_subquery_aggregateFree :
    let env := Environment.ofSchema maxSchema
    let query := QueryExpression.query none [.selectColumn maxColumn none]
      [.tableReference false (.simple ⟨"t", .delimited⟩) none] none none none [] none
    let statement := updateColumn (.subquery query .scalar)
    (∃ plan ∈ (SqlAnalyzer.process env [] statement).plan, ∃ keys columns,
      plan.Places (.aggregate keys columns)) ∧
    (uncheckedValues env [] statement).length = 1 ∧
    (SqlAnalyzer.process env [] statement).AggregateFree := by
  intro env query statement
  have haggregates : ((SqlAnalyzer.process env [] statement).plan.any fun plan =>
      plan.operators.any fun op => op.nested.any fun n =>
        n.graph.operators.any Operator.isAggregate) = true := by
    decide +kernel
  have hchecked : ∀ e ∈ uncheckedValues env [] statement, e.hasAggregate = false := by
    decide +kernel
  refine ⟨?_, by decide +kernel, (SqlAnalyzer.process_aggregateFree [] statement).1 hchecked⟩
  obtain ⟨plan, hplan, hoperators⟩ := (Option.any_eq_true _ _).mp haggregates
  obtain ⟨op, hop, hnested⟩ := List.any_eq_true.mp hoperators
  obtain ⟨n, hn, hinner⟩ := List.any_eq_true.mp hnested
  obtain ⟨inner, hinner, haggregate⟩ := List.any_eq_true.mp hinner
  cases inner with
  | aggregate keys columns => exact ⟨plan, hplan, keys, columns, .inside hop hn (.here hinner)⟩
  | _ => cases haggregate

end Mizugaki.Analyzer
