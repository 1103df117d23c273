import Mizugaki.Analyzer.Statement

/-! The contexts that consume a query. Each analyzes the query and then works on a list
of its columns: it checks their number and uses them one by one. Which list it takes of
the relation of the query is kept apart from what it does with it, so that a context can
be compared with one that takes the exported columns. Hidden columns come from `TABLE t`
only: every other query has a relation without them. -/

namespace Mizugaki.Analyzer

open Mizugaki.Ast Mizugaki.Plan Mizugaki.Control

variable {ρ : Type} (env : Environment ρ)

/-! ### Relations without hidden columns -/

namespace RelationInfo

/-- The relation has no hidden column. -/
def AllExported (r : RelationInfo) : Prop := ∀ c ∈ r.columns, c.exported = true

/-- A relation that is made of a query, with the columns of the query only. -/
structure Derived (r : RelationInfo) : Prop where
  exported : r.AllExported
  undeclared : r.declaration = none

theorem derived_empty (identifier : String) : (RelationInfo.empty none identifier).Derived where
  exported c hc := by cases hc
  undeclared := rfl

theorem Derived.addAll {r : RelationInfo} (hr : r.Derived) {infos : List ColumnInfo}
    (h : ∀ c ∈ infos, c.exported = true) : (r.addAll infos).Derived where
  exported c hc := by
    have hm := addAll_map (f := ColumnInfo.exported) (fun _ _ => rfl) r infos
    have hin : c.exported ∈ (r.addAll infos).columns.map ColumnInfo.exported :=
      List.mem_map_of_mem hc
    rw [hm, List.mem_append, List.mem_map, List.mem_map] at hin
    obtain ⟨d, hd, he⟩ | ⟨d, hd, he⟩ := hin
    · rw [← he]
      exact hr.exported d hd
    · rw [← he]
      exact h d hd
  undeclared := by rw [addAll_declaration, hr.undeclared]

theorem Derived.add {r : RelationInfo} (hr : r.Derived) {info : ColumnInfo}
    (h : info.exported = true) : (r.add info).Derived := by
  have hinfos : ∀ d ∈ [info], d.exported = true := by simpa using h
  exact hr.addAll hinfos

/-- The relation of a base table has no hidden column but system columns, if it is one. -/
def OfVisible (r : RelationInfo) : Prop :=
  ∀ table, r.declaration = some (.table table) →
    ∀ c ∈ table.columns, c.synthesized = true ∨ c.hidden = false

theorem Derived.exported_iff {r : RelationInfo} (h : r.Derived) : r.AllExported ↔ r.OfVisible := by
  refine iff_of_true h.exported fun table htable => ?_
  rw [h.undeclared] at htable
  cases htable

end RelationInfo

/-- A select element keeps the relation of the select list free of hidden columns. -/
theorem selectElement_derived (e : SelectElement) {s : SelectList} (hs : s.info.Derived)
    {u t : AnalyzerState ρ} {r : SelectList} (h : selectElement env e s u = (some r, t)) :
    r.info.Derived := by
  have hexported : ∀ {i : RelationInfo}, ∀ c ∈ i.exportedColumns, c.exported = true :=
    fun c hc => (List.mem_filter.mp hc).2
  cases e with
  | selectColumn value name =>
    simp only [selectElement, processSelectColumn, Check.bind_yields, Check.pure_yields] at h
    obtain ⟨⟨e, sawAggregate⟩, v, -, x, w, -, rfl, -⟩ := h
    exact hs.add rfl
  | selectAsterisk qualifier =>
    rw [selectElement] at h
    cases qualifier with
    | none =>
      simp only [processSelectAsterisk, Check.bind_yields, currentScope_yields] at h
      obtain ⟨scope, v, -, h⟩ := h
      rcases hc : scope.relations.flatMap RelationInfo.exportedColumns with _ | ⟨c, cs⟩
      · rw [hc] at h
        cases h
      · rw [hc] at h
        obtain ⟨rfl, -⟩ := (Check.pure_yields ..).mp h
        refine hs.addAll fun d hd => ?_
        rw [← hc] at hd
        obtain ⟨i, -, hi⟩ := List.mem_flatMap.mp hd
        exact hexported d hi
    | some e =>
      cases e
      case variableReference name =>
        simp only [processSelectAsterisk, Check.bind_yields, Check.pure_yields] at h
        obtain ⟨found, v, -, rfl, -⟩ := h
        exact hs.addAll hexported
      all_goals cases h

theorem selectElements_derived (es : List SelectElement) {s : SelectList}
    (hs : s.info.Derived) {u t : AnalyzerState ρ} {r : SelectList}
    (h : processSelectElements s (selectElements env es) u = (some r, t)) :
    r.info.Derived := by
  induction es generalizing s u with
  | nil =>
    rw [selectElements, processSelectElements, Check.pure_yields] at h
    obtain ⟨rfl, -⟩ := h
    exact hs
  | cons e es ih =>
    rw [selectElements, processSelectElements, Check.bind_yields] at h
    obtain ⟨s', v, he, h⟩ := h
    exact ih (selectElement_derived env e hs he) h

/-- `TABLE t`, also below `WITH`: the only queries that pass the columns of a table on. -/
def isTableQuery : QueryExpression → Bool
  | .tableReference _ => true
  | .withExpression _ _ expression => isTableQuery expression
  | _ => false

/-- The relation of a set operation has no hidden column. -/
theorem processSetOperation_derived (operation : SetOperation) (quantifier : Plan.SetQuantifier)
    (left right : Graph) (lefts rights : List ColumnInfo) {s t : AnalyzerState ρ}
    {r : QueryResult}
    (h : processSetOperation env operation quantifier left right lefts rights s = (some r, t)) :
    r.relation.Derived := by
  unfold processSetOperation at h
  split at h
  · cases h
  · cases operation with
    | union_ =>
      simp only [processUnion, Check.bind_yields, Check.pure_yields] at h
      obtain ⟨outputs, u, -, -, v, -, rfl, -⟩ := h
      refine (RelationInfo.derived_empty _).addAll fun c hc => ?_
      obtain ⟨p, -, rfl⟩ := List.mem_map.mp hc
      rfl
    | except =>
      simp only [processExceptIntersect, Check.pure_yields] at h
      obtain ⟨rfl, -⟩ := h
      exact (RelationInfo.derived_empty _).addAll (by simp)
    | intersect =>
      simp only [processExceptIntersect, Check.pure_yields] at h
      obtain ⟨rfl, -⟩ := h
      exact (RelationInfo.derived_empty _).addAll (by simp)

/-- Every other query than `TABLE t` has a relation without hidden columns. -/
theorem query_derived : ∀ (q : QueryExpression), isTableQuery q = false →
    ∀ {context : List ScalarValueContext} {continueScope : Bool} {s t : AnalyzerState ρ}
      {r : QueryResult}, query env q context continueScope s = (some r, t) → r.relation.Derived
  | .query quantifier elements from_ where_ groupBy having orderBy limit, _, _, _, s, t, r, h => by
    rw [query] at h
    obtain ⟨u, v, hm⟩ := inScope_some h
    obtain ⟨run⟩ := processQuery_run env hm
    have hselect := run.selectRun
    simp only [processSelect, Check.bind_yields, Check.pure_yields] at hselect
    obtain ⟨info, x, hinfo, -, -, -, hs, -⟩ := hselect
    rw [run.relation, ← hs]
    exact selectElements_derived env elements (RelationInfo.derived_empty _) hinfo
  | .tableReference name, hq, _, _, _, _, _, _ => by cases hq
  | .tableValueConstructor elements, _, _, _, s, t, r, h => by
    rw [query] at h
    obtain ⟨u, v, hm⟩ := inScope_some h
    simp only [processTableValueConstructor, Check.bind_yields, Check.pure_yields] at hm
    obtain ⟨-, -, -, columns, -, -, -, -, -, rfl, -⟩ := hm
    exact (RelationInfo.derived_empty _).addAll (by simp)
  | .binaryExpression left operator_ quantifier corresponding right, _, _, _, s, t, r, h => by
    rw [query] at h
    obtain ⟨operation, l, u, r', v, -, -, -, -, h⟩ := processBinaryQuery_yields env h
    exact processSetOperation_derived env _ _ _ _ _ _ h
  -- `WITH` passes the relation of its query on
  | .withExpression isRecursive elements expression, hq, _, _, s, t, r, h => by
    rw [query] at h
    obtain ⟨u, v, hm⟩ := inScope_some h
    unfold processWith at hm
    split at hm
    · cases hm
    · rw [Check.bind_yields] at hm
      obtain ⟨-, w, -, hm⟩ := hm
      exact query_derived expression hq hm
termination_by structural q => q

/-- `TABLE t` on a base table: hidden columns that are not system columns are in its relation. -/
theorem processTableReference_exported_iff (table : Table) {s t : AnalyzerState ρ}
    {r : QueryResult} (h : processTableReference env table s = (some r, t)) :
    r.relation.AllExported ↔ r.relation.OfVisible := by
  simp only [processTableReference, Check.bind_yields] at h
  obtain ⟨info, u, hinfo, h⟩ := h
  have hr : r.relation = info := by
    rcases hi : info.primaryIndex with _ | index
    · rw [hi] at h
      cases h
    · simp only [hi, Check.bind_yields, Check.pure_yields] at h
      obtain ⟨-, v, -, rfl, -⟩ := h
      rfl
  have hmap : info.columns.map ColumnInfo.exported
      = (includedColumns false table.columns).map fun c => ! c.hidden && ! c.synthesized :=
    buildRelationInfo_map env (fun _ _ => rfl) (fun _ _ => rfl) hinfo
  have hall : info.AllExported ↔
      ∀ b ∈ info.columns.map ColumnInfo.exported, b = true := by
    rw [List.forall_mem_map]
    rfl
  have hvisible : info.OfVisible ↔ ∀ c ∈ table.columns, c.synthesized = true ∨ c.hidden = false := by
    rw [RelationInfo.OfVisible, buildRelationInfo_declaration env hinfo]
    exact ⟨fun h => h table rfl, fun h _ htable => by cases htable; exact h⟩
  rw [hr, hall, hmap, List.forall_mem_map, hvisible]
  simp only [includedColumns, List.mem_filter]
  constructor
  · intro h c hc
    by_cases hs : c.synthesized = true
    · exact .inl hs
    · have hx := h c ⟨hc, by simp [hs]⟩
      exact .inr (by simpa using (Bool.and_eq_true_iff.mp hx).1)
  · rintro h c ⟨hc, hs⟩
    obtain hy | hy := h c hc
    · simp [hy] at hs
    · simp only [Bool.not_false, Bool.and_true, Bool.not_eq_true'] at hs
      simp [hy, hs]

/-- `TABLE t` on a common table passes its columns on, which are exported. -/
theorem processQueryReference_derived {q : QueryInfo} {relation : Name} {s t : AnalyzerState ρ}
    {r : QueryResult} (h : processQueryReference env q relation s = (some r, t)) :
    r.relation.Derived := by
  simp only [processQueryReference, Check.bind_yields, Check.pure_yields] at h
  obtain ⟨destinations, u, -, -, v, -, rfl, -⟩ := h
  refine (RelationInfo.derived_empty _).addAll fun c hc => ?_
  obtain ⟨i, hi, rfl⟩ := List.mem_mapIdx.mp hc
  rfl

/-- The relation of a query has a hidden column exactly when it is that of a base table with a hidden
column that is not a system column. -/
theorem query_exported_iff : ∀ (q : QueryExpression) {context : List ScalarValueContext}
    {continueScope : Bool} {s t : AnalyzerState ρ} {r : QueryResult},
    query env q context continueScope s = (some r, t) →
      (r.relation.AllExported ↔ r.relation.OfVisible)
  | .tableReference name, _, _, _, _, _, h => by
    rw [query] at h
    obtain ⟨u, v, hm⟩ := inScope_some h
    rw [processRelationReference, Check.bind_yields] at hm
    obtain ⟨found, w, -, hm⟩ := hm
    cases found with
    | table table => exact processTableReference_exported_iff env table hm
    | query q => exact (processQueryReference_derived env hm).exported_iff
  | .withExpression isRecursive elements expression, _, _, _, _, _, h => by
    rw [query] at h
    obtain ⟨u, v, hm⟩ := inScope_some h
    unfold processWith at hm
    split at hm
    · cases hm
    · rw [Check.bind_yields] at hm
      obtain ⟨-, w, -, hm⟩ := hm
      exact query_exported_iff expression hm
  | .query .., _, _, _, _, _, h => (query_derived env _ rfl h).exported_iff
  | .tableValueConstructor _, _, _, _, _, _, h => (query_derived env _ rfl h).exported_iff
  | .binaryExpression .., _, _, _, _, _, h => (query_derived env _ rfl h).exported_iff
termination_by structural q => q

/-! ### The contexts -/

/-- What a context makes of a query. A common table element only enters it into the scope. -/
inductive Consumed where
  | statement (result : StatementResult)
  | scalar (value : Scalar)
  | query (result : QueryResult)
  | commonTable

/-- The contexts that consume a query, with what else they are given. -/
inductive Consumer (ρ : Type) where
  | emit
  | insertSource (tableName : Name) (columns : List SimpleName)
      (options : List InsertStatementOption)
  | scalarSubquery
  | inRight (left : ScalarAction ρ) (isNot : Bool)
  | quantifiedRight (left : ScalarAction ρ) (operator_ : Ast.ComparisonOperator)
      (quantifier : Ast.Quantifier)
  | leftOperand (operation : SetOperation) (quantifier : Option Ast.SetQuantifier)
      (right : QueryAction ρ) (context : List ScalarValueContext)
  | rightOperand (operation : SetOperation) (quantifier : Option Ast.SetQuantifier)
      (left : QueryAction ρ) (context : List ScalarValueContext)
  | commonTable (name : SimpleName) (columnNames : List SimpleName)

namespace Consumer

/-- The analysis of a context with its query. -/
def analyze (k : Consumer ρ) (q : QueryExpression) : Analysis ρ Consumed :=
  match k with
  | emit => .statement <$> processSelectStatement env q []
  | insertSource tableName columns options =>
    .statement <$> processInsertStatement env tableName columns (some q) options
  | scalarSubquery => .scalar <$> processSubquery (query env q) .scalar
  | inRight left isNot => .scalar <$> processInQuery left isNot (query env q)
  | quantifiedRight left operator_ quantifier =>
    .scalar <$> processQuantifiedComparison left operator_ quantifier (query env q)
  | leftOperand operation quantifier right context =>
    .query <$> processBinaryQuery env (query env q) operation.operator quantifier false right context
  | rightOperand operation quantifier left context =>
    .query <$> processBinaryQuery env left operation.operator quantifier false (query env q) context
  | commonTable name columnNames =>
    (fun _ => .commonTable) <$> processCommonTable env ⟨name, columnNames, query env q⟩

/-- A context whose query is analyzed: the result of the query, and what the context does with the
columns that it takes of it. -/
structure Prepared (ρ : Type) where
  result : QueryResult
  finish : List ColumnInfo → Analysis ρ Consumed

/-- Analyze the left operand and the query of a quantified comparison. -/
def prepareQuantified (operator_ : Plan.ComparisonOperator) (quantifier : Plan.Quantifier)
    (left : ScalarAction ρ) (q : QueryExpression) : Analysis ρ (Prepared ρ) := do
  let l ← left .unspecified
  let (result, parameters) ← analyzeSubquery (query env q)
  return ⟨result, fun columns => do
    let column ← singleColumn columns
    return .scalar (.quantifiedCompare operator_ quantifier l result.output parameters column)⟩

/-- The part of a context up to the result of its query. -/
def prepare (k : Consumer ρ) (q : QueryExpression) : Analysis ρ (Prepared ρ) :=
  match k with
  | emit => do
    let result ← analyzeQueryExpression env q []
    return ⟨result, fun columns =>
      return .statement (.plan (Mizugaki.Analyzer.emit result.output columns))⟩
  | insertSource tableName columns options => do
    let target ← extractTable env tableName none
    let destinations ← destinationColumns env target columns
    let source ← analyzeQueryExpression env q (destinations.map fun c => { type := some c.type })
    return ⟨source, fun columns =>
      .statement <$> processInsertColumns env target destinations options source.output columns⟩
  | scalarSubquery => do
    let (result, parameters) ← analyzeSubquery (query env q)
    return ⟨result, fun columns => do
      let column ← singleColumn columns
      return .scalar (.subquery result.output parameters column)⟩
  | inRight left isNot =>
    if isNot then prepareQuantified env .notEqual .all left q
    else prepareQuantified env .equal .any left q
  | quantifiedRight left operator_ quantifier =>
    prepareQuantified env (convertComparisonOperator operator_) (convertQuantifier quantifier) left q
  | leftOperand operation quantifier right context => do
    let l ← query env q context false
    let r ← right context false
    return ⟨l, fun columns =>
      .query <$> processSetOperation env operation (convertSetQuantifier quantifier) l.output
        r.output columns r.relation.exportedColumns⟩
  | rightOperand operation quantifier left context => do
    let l ← left context false
    let r ← query env q context false
    return ⟨r, fun columns =>
      .query <$> processSetOperation env operation (convertSetQuantifier quantifier) l.output
        r.output l.relation.exportedColumns columns⟩
  | commonTable name columnNames => do
    let (result, _) ← withScope (.empty { independent := true }) (query env q [] false)
    return ⟨result, fun columns =>
      (fun _ => .commonTable) <$> declareCommonTable env name columnNames result.output columns⟩

/-- The contexts that leave hidden columns out on their own. -/
def filters : Consumer ρ → Bool
  | insertSource .. | scalarSubquery | inRight .. | quantifiedRight .. => false
  | emit | leftOperand .. | rightOperand .. | commonTable .. => true

/-- The columns that a context takes of the relation of its query. -/
def columns (k : Consumer ρ) (r : RelationInfo) : List ColumnInfo :=
  if k.filters then r.exportedColumns else r.columns

/-- The context as it should be: it takes the exported columns, in order. -/
def analyzeExported (k : Consumer ρ) (q : QueryExpression) : Analysis ρ Consumed :=
  k.prepare env q >>= fun p => p.finish p.result.relation.exportedColumns

/-- A context analyzes its query and goes on with the columns that it takes of it. -/
theorem analyze_eq (k : Consumer ρ) (q : QueryExpression) :
    k.analyze env q = k.prepare env q >>= fun p => p.finish (k.columns p.result.relation) := by
  have hquantified : ∀ (operator_ : Plan.ComparisonOperator) (quantifier : Plan.Quantifier)
      (left : ScalarAction ρ),
      Consumed.scalar <$> quantifiedCompare operator_ quantifier left (query env q)
        = prepareQuantified env operator_ quantifier left q >>= fun p =>
          p.finish p.result.relation.columns := by
    intro operator_ quantifier left
    simp only [quantifiedCompare, prepareQuantified, map_eq_pure_bind, bind_assoc, pure_bind]
  cases k with
  | emit =>
    simp only [analyze, prepare, columns, filters, processSelectStatement, map_eq_pure_bind,
      bind_assoc, pure_bind, if_true]
  | insertSource tableName columns options =>
    simp only [analyze, prepare, Consumer.columns, filters, processInsertStatement,
      map_eq_pure_bind, bind_assoc, pure_bind, Bool.false_eq_true, if_false]
  | scalarSubquery =>
    simp only [analyze, prepare, columns, filters, processSubquery, map_eq_pure_bind, bind_assoc,
      pure_bind, Bool.false_eq_true, if_false]
  | inRight left isNot =>
    cases isNot
    · exact hquantified .equal .any left
    · exact hquantified .notEqual .all left
  | quantifiedRight left operator_ quantifier =>
    exact hquantified (convertComparisonOperator operator_) (convertQuantifier quantifier) left
  | leftOperand operation quantifier right context =>
    cases operation <;>
    simp only [analyze, prepare, columns, filters, processBinaryQuery, SetOperation.operator,
      processOperandQueries, map_eq_pure_bind, bind_assoc, pure_bind, Bool.false_eq_true, if_true,
      if_false]
  | rightOperand operation quantifier left context =>
    cases operation <;>
    simp only [analyze, prepare, columns, filters, processBinaryQuery, SetOperation.operator,
      processOperandQueries, map_eq_pure_bind, bind_assoc, pure_bind, Bool.false_eq_true, if_true,
      if_false]
  | commonTable name columnNames =>
    simp only [analyze, prepare, columns, filters, processCommonTable, map_eq_pure_bind, bind_assoc,
      pure_bind, if_true]

/-! ### What the number of columns decides -/

/-- The result of a rejection. -/
theorem reject_run {α : Type} (code : Code) (message : List Fragment) (s : AnalyzerState ρ) :
    (reject code message : Analysis ρ α) s
      = (none, { s with diagnostics := s.diagnostics ++ [⟨code, message⟩] }) := rfl

/-- One column is taken, any other number of them is rejected and printed. -/
theorem singleColumn_run (columns : List ColumnInfo) (s : AnalyzerState ρ) :
    (∃ c, columns = [c] ∧ (singleColumn columns : Analysis ρ Variable) s = (some c.variable_, s)) ∨
    (columns.length ≠ 1 ∧ (singleColumn columns : Analysis ρ Variable) s
      = reject .inconsistentColumns
          [.text "subquery must return exactly one column, but got ", .size columns.length] s) := by
  match columns with
  | [] => exact .inr ⟨by simp, rfl⟩
  | [c] => exact .inl ⟨c, rfl, rfl⟩
  | _ :: _ :: _ => exact .inr ⟨by simp, rfl⟩

theorem singleColumn_ne {α : Type} {as bs : List ColumnInfo} (h : as.length ≠ bs.length)
    (f : Variable → α) (s : AnalyzerState ρ) :
    (singleColumn as >>= fun c => pure (f c) : Analysis ρ α) s
      ≠ (singleColumn bs >>= fun c => pure (f c)) s := by
  intro heq
  rw [Check.bind_run, Check.bind_run] at heq
  obtain ⟨a, ha, hra⟩ | ⟨ha, hra⟩ := singleColumn_run as s
  · obtain ⟨b, hb, -⟩ | ⟨hb, hrb⟩ := singleColumn_run bs s
    · simp [ha, hb] at h
    · rw [hra, hrb, reject_run] at heq
      simp [Check.pure_run] at heq
  · obtain ⟨b, hb, hrb⟩ | ⟨hb, hrb⟩ := singleColumn_run bs s
    · rw [hra, hrb, reject_run] at heq
      simp [Check.pure_run] at heq
    · rw [hra, hrb, reject_run, reject_run] at heq
      simp [h] at heq

theorem computeWriteType_run (kind : WriteKind) (saw : Bool) (options : List InsertStatementOption)
    (s : AnalyzerState ρ) :
    ∃ result t, (computeWriteType kind saw options : Analysis ρ WriteKind) s = (some result, t) := by
  induction options generalizing kind saw s with
  | nil => exact ⟨kind, s, rfl⟩
  | cons o os ih =>
    cases saw with
    | true => exact ih _ true _
    | false => exact ih _ true _

theorem processInsertColumns_ne {as bs : List ColumnInfo} (h : as.length ≠ bs.length)
    (target : WriteTarget) (destinations : List Column) (options : List InsertStatementOption)
    (output : Graph) (s : AnalyzerState ρ) :
    processInsertColumns env target destinations options output as s
      ≠ processInsertColumns env target destinations options output bs s := by
  have hsome : ∀ columns : List ColumnInfo, columns.length = destinations.length →
      (processInsertColumns env target destinations options output columns s).1.isSome = true := by
    intro columns hc
    obtain ⟨kind, t, hk⟩ := computeWriteType_run .insert false options s
    simp only [processInsertColumns, hc, ne_eq, not_true_eq_false, if_false]
    rw [Check.bind_run, hk]
    dsimp only
    split
    · cases simpleValues output.owner <;> rfl
    · rfl
  have hnone : ∀ columns : List ColumnInfo, columns.length ≠ destinations.length →
      processInsertColumns env target destinations options output columns s
        = reject .inconsistentColumns [.text "column count mismatch in insert statement: ",
            .text "source-columns=", .size columns.length, .text ", ",
            .text "destination-columns=", .size destinations.length] s := by
    intro columns hc
    simp only [processInsertColumns, ne_eq, hc, not_false_eq_true, if_true]
  intro heq
  by_cases ha : as.length = destinations.length
  · have hb : bs.length ≠ destinations.length := fun hb => h (ha.trans hb.symm)
    have hs := hsome as ha
    rw [heq, hnone bs hb, reject_run] at hs
    cases hs
  · rw [hnone as ha] at heq
    by_cases hb : bs.length = destinations.length
    · have hs := hsome bs hb
      rw [← heq, reject_run] at hs
      cases hs
    · rw [hnone bs hb, reject_run, reject_run] at heq
      simp [h] at heq

/-- A context that does not filter tells column lists of different lengths apart. -/
theorem finish_ne {k : Consumer ρ} (hk : k.filters = false) {q : QueryExpression}
    {s t : AnalyzerState ρ} {p : Prepared ρ} (hp : k.prepare env q s = (some p, t))
    {as bs : List ColumnInfo} (h : as.length ≠ bs.length) (u : AnalyzerState ρ) :
    p.finish as u ≠ p.finish bs u := by
  have hquantified : ∀ {operator_ : Plan.ComparisonOperator} {quantifier : Plan.Quantifier}
      {left : ScalarAction ρ},
      prepareQuantified env operator_ quantifier left q s = (some p, t) →
      p.finish as u ≠ p.finish bs u := by
    intro operator_ quantifier left hp
    simp only [prepareQuantified, Check.bind_yields, Check.pure_yields] at hp
    obtain ⟨l, v, -, ⟨result, parameters⟩, w, -, rfl, -⟩ := hp
    exact singleColumn_ne h _ u
  cases k with
  | insertSource tableName columns options =>
    simp only [prepare, Check.bind_yields, Check.pure_yields] at hp
    obtain ⟨target, v, -, destinations, w, -, source, x, -, rfl, -⟩ := hp
    intro heq
    simp only [map_eq_pure_bind, Check.bind_run] at heq
    apply processInsertColumns_ne env h target destinations options source.output u
    rcases ha : processInsertColumns env target destinations options source.output as u
      with ⟨_ | a, y⟩ <;>
    rcases hb : processInsertColumns env target destinations options source.output bs u
      with ⟨_ | b, z⟩ <;>
    simp_all [Check.pure_run]
  | scalarSubquery =>
    simp only [prepare, Check.bind_yields, Check.pure_yields] at hp
    obtain ⟨⟨result, parameters⟩, v, -, rfl, -⟩ := hp
    exact singleColumn_ne h _ u
  | inRight left isNot =>
    cases isNot
    · exact hquantified hp
    · exact hquantified hp
  | quantifiedRight left operator_ quantifier => exact hquantified hp
  | emit => cases hk
  | leftOperand operation quantifier right context => cases hk
  | rightOperand operation quantifier left context => cases hk
  | commonTable name columnNames => cases hk

theorem length_exportedColumns_ne {r : RelationInfo} (h : ¬ r.AllExported) :
    r.columns.length ≠ r.exportedColumns.length := by
  intro heq
  exact h (List.length_filter_eq_length_iff.mp heq.symm)

/-- The query of a context that was prepared is analyzed as any query expression. -/
theorem prepare_query {k : Consumer ρ} {q : QueryExpression} {s t : AnalyzerState ρ}
    {p : Prepared ρ} (h : k.prepare env q s = (some p, t)) :
    ∃ context continueScope u v, query env q context continueScope u = (some p.result, v) := by
  have hsubquery : ∀ {result : QueryResult} {parameters : List (Variable × Variable)}
      {u v : AnalyzerState ρ}, analyzeSubquery (query env q) u = (some (result, parameters), v) →
      ∃ context continueScope x y, query env q context continueScope x = (some result, y) := by
    intro result parameters u v h
    simp only [analyzeSubquery, Check.bind_yields, Check.pure_yields, Prod.mk.injEq] at h
    obtain ⟨-, -, -, -, w, -, ⟨a, scope⟩, x, hw, -, -, -, ⟨rfl, -⟩, -⟩ := h
    obtain ⟨y, hq, -, -⟩ := (withScope_yields ..).mp hw
    exact ⟨_, _, _, _, hq⟩
  have hquantified : ∀ {operator_ : Plan.ComparisonOperator} {quantifier : Plan.Quantifier}
      {left : ScalarAction ρ}, prepareQuantified env operator_ quantifier left q s = (some p, t) →
      ∃ context continueScope x y, query env q context continueScope x = (some p.result, y) := by
    intro operator_ quantifier left h
    simp only [prepareQuantified, Check.bind_yields, Check.pure_yields] at h
    obtain ⟨l, v, -, ⟨result, parameters⟩, w, hw, rfl, -⟩ := h
    exact hsubquery hw
  cases k with
  | emit =>
    simp only [prepare, Check.bind_yields, Check.pure_yields] at h
    obtain ⟨result, v, hq, rfl, -⟩ := h
    exact ⟨_, _, _, _, hq⟩
  | insertSource tableName columns options =>
    simp only [prepare, Check.bind_yields, Check.pure_yields] at h
    obtain ⟨target, v, -, destinations, w, -, source, x, hq, rfl, -⟩ := h
    exact ⟨_, _, _, _, hq⟩
  | scalarSubquery =>
    simp only [prepare, Check.bind_yields, Check.pure_yields] at h
    obtain ⟨⟨result, parameters⟩, v, hw, rfl, -⟩ := h
    exact hsubquery hw
  | inRight left isNot =>
    cases isNot
    · exact hquantified h
    · exact hquantified h
  | quantifiedRight left operator_ quantifier => exact hquantified h
  | leftOperand operation quantifier right context =>
    simp only [prepare, Check.bind_yields, Check.pure_yields] at h
    obtain ⟨l, v, hq, r, w, -, rfl, -⟩ := h
    exact ⟨_, _, _, _, hq⟩
  | rightOperand operation quantifier left context =>
    simp only [prepare, Check.bind_yields, Check.pure_yields] at h
    obtain ⟨l, v, -, r, w, hq, rfl, -⟩ := h
    exact ⟨_, _, _, _, hq⟩
  | commonTable name columnNames =>
    simp only [prepare, Check.bind_yields, Check.pure_yields] at h
    obtain ⟨⟨result, scope⟩, v, hw, rfl, -⟩ := h
    obtain ⟨y, hq, -, -⟩ := (withScope_yields ..).mp hw
    exact ⟨_, _, _, _, hq⟩

/-- What a context takes are the exported columns exactly when it filters, or the relation of the
query has no hidden column. -/
theorem analyze_eq_analyzeExported_iff (k : Consumer ρ) (q : QueryExpression)
    (s : AnalyzerState ρ) :
    k.analyze env q s = k.analyzeExported env q s ↔
      k.filters = true ∨
        ∀ p t, k.prepare env q s = (some p, t) → p.result.relation.AllExported := by
  rw [analyze_eq, analyzeExported, Check.bind_run, Check.bind_run]
  cases hk : k.filters with
  | true => simp only [columns, hk, if_true, true_or]
  | false =>
    rcases hp : k.prepare env q s with ⟨_ | p, t⟩
    · simp
    · simp only [columns, hk, Bool.false_eq_true, if_false, false_or]
      constructor
      · intro heq p' t' h
        cases h
        by_contra hall
        exact finish_ne env hk hp (length_exportedColumns_ne hall) t heq
      · intro hall
        rw [RelationInfo.exportedColumns, List.filter_eq_self.mpr (hall p t rfl)]

/-- A context takes the exported columns of every query, in order, exactly when it filters or the
relation of the query has no hidden column; a query other than `TABLE t` never has one, and `TABLE t`
has one when it is a base table with a hidden column that is not a system column. -/
theorem takes_exported_columns (k : Consumer ρ) (q : QueryExpression) (s : AnalyzerState ρ) :
    (k.analyze env q s = k.analyzeExported env q s ↔
      k.filters = true ∨
        ∀ p t, k.prepare env q s = (some p, t) → p.result.relation.AllExported) ∧
    (isTableQuery q = false → k.analyze env q s = k.analyzeExported env q s) ∧
    (∀ p t, k.prepare env q s = (some p, t) →
      (p.result.relation.AllExported ↔ p.result.relation.OfVisible)) := by
  refine ⟨analyze_eq_analyzeExported_iff env k q s, fun hq => ?_, fun p t hp => ?_⟩
  · refine (analyze_eq_analyzeExported_iff env k q s).mpr (.inr fun p t hp => ?_)
    obtain ⟨context, continueScope, u, v, hquery⟩ := prepare_query env hp
    exact (query_derived env q hq hquery).exported
  · obtain ⟨context, continueScope, u, v, hquery⟩ := prepare_query env hp
    exact query_exported_iff env q hquery

/-- A table of one visible column and one hidden column. -/
def hiddenColumnTable : Table where
  address := 0
  simpleName := "t"
  columns :=
    [{ address := 1, simpleName := "c", type := .int4 },
      { address := 2, simpleName := "h", type := .int4, hidden := true }]
  primaryIndex :=
    some { address := 3, tableAddress := 0, tableName := "t", simpleName := "", keys := [],
           primary := true }

/-- `(TABLE t)` as a scalar subquery is rejected for its hidden column, although it exports one
column. -/
theorem scalarSubquery_rejects_hidden :
    let env := Environment.ofSchema (.ofTables [hiddenColumnTable] [])
    let q := QueryExpression.tableReference (.simple ⟨"t", .delimited⟩)
    scalarSubquery.analyze env q (.initial []) ≠ scalarSubquery.analyzeExported env q (.initial []) := by
  intro env q h
  have hrejected : (scalarSubquery.analyze env q (.initial [])).1.isSome = false := rfl
  have haccepted : (scalarSubquery.analyzeExported env q (.initial [])).1.isSome = true := rfl
  rw [h, haccepted] at hrejected
  cases hrejected

end Consumer

end Mizugaki.Analyzer
