import Mizugaki.Analyzer.Quiet

/-! Reports of diagnostics. A part of the analyzer reports some number of diagnostics when
it succeeds, and at least one when it fails. Names, types and literals report none when
they succeed. -/

namespace Mizugaki.Analyzer

open Mizugaki.Ast Mizugaki.Plan Mizugaki.Control

variable {ρ : Type} (env : Environment ρ)

/-- The number of diagnostics reported so far. -/
def AnalyzerState.reportCount (s : AnalyzerState ρ) : Nat := s.diagnostics.length

/-- An analysis reports `n` diagnostics when it succeeds, and some when it fails. -/
abbrev Reports {α : Type} (n : Nat) (m : Analysis ρ α) : Prop :=
  Check.Logs AnalyzerState.reportCount n m

/-- An analysis reports diagnostics exactly when it fails or its result tells of a failure. -/
abbrev ReportsIf {α : Type} (failed : α → Bool) (m : Analysis ρ α) : Prop :=
  Check.Tells AnalyzerState.reportCount failed m

@[grind ←] theorem report_reports (code : Code) (message : List Fragment) :
    Reports 1 (report code message : Analysis ρ Unit) :=
  .modify fun _ => List.length_append

@[grind ←] theorem reject_reports {α : Type} (n : Nat) (code : Code) (message : List Fragment) :
    Reports n (reject code message : Analysis ρ α) :=
  (report_reports code message).bind_stop Nat.zero_lt_one

/-- What rejects never returns a result. -/
theorem reject_tells {α : Type} (failed : α → Bool) (code : Code) (message : List Fragment) :
    ReportsIf failed (reject code message : Analysis ρ α) where
  returned h := by cases h
  failed h := by cases h
  stopped h := (reject_reports 0 code message).stopped h

/-- A change of the state that keeps the diagnostics. -/
theorem modify_reports {f : AnalyzerState ρ → AnalyzerState ρ}
    (h : ∀ s, (f s).diagnostics = s.diagnostics) : Reports 0 (Check.modify f) :=
  .modify fun s => congrArg List.length (h s)

@[grind ←] theorem freshNumber_reports : Reports 0 (freshNumber : Analysis ρ Nat) :=
  .bind_zero .get fun _ => .bind_zero (modify_reports fun _ => rfl) fun _ => .pure _

@[grind ←] theorem streamVariable_reports : Reports 0 (streamVariable : Analysis ρ Variable) :=
  freshNumber_reports.map _

@[grind ←] theorem localVariable_reports : Reports 0 (localVariable : Analysis ρ Variable) :=
  freshNumber_reports.map _

@[grind ←] theorem frameVariable_reports : Reports 0 (frameVariable : Analysis ρ Variable) :=
  freshNumber_reports.map _

@[grind ←] theorem streamVariables_reports (n : Nat) :
    Reports 0 (streamVariables n : Analysis ρ (List Variable)) := by
  induction n with
  | zero => exact .pure _
  | succ n ih =>
    unfold streamVariables
    grind

@[grind ←] theorem conclude_reports {α : Type} (r : Resolution α) :
    Reports 0 (conclude r : Analysis ρ α) := by
  unfold conclude
  rcases hd : r.diagnostics with _ | ⟨d, ds⟩
  · rcases r.result with _ | a
    · exact reject_reports ..
    · exact .pure a
  · exact Check.Logs.bind_stop (n := ds.length + 1)
      (.modify fun s => by simp [AnalyzerState.reportCount]) (Nat.succ_pos _)

@[grind ←] theorem resolve_reports (e : Scalar) (validate : Bool) :
    Reports 0 (resolve env e validate) :=
  .bind_zero .get fun _ => .bind_zero (modify_reports fun _ => rfl) fun _ => conclude_reports _

@[grind ←] theorem resolveOperator_reports (op : Operator) : Reports 0 (resolveOperator env op) :=
  .bind_zero .get fun _ => .bind_zero (modify_reports fun _ => rfl) fun _ => conclude_reports _

@[grind ←] theorem resolveAs_reports (v : Variable) (column : Column) :
    Reports 0 (resolveAs env v column) :=
  modify_reports fun _ => rfl

@[grind ←] theorem resolveAsAlias_reports (v source : Variable) :
    Reports 0 (resolveAsAlias env v source) :=
  modify_reports fun _ => by
    dsimp only
    split_ifs <;> rfl

@[grind ←] theorem clearExpressionResolution_reports (e : Scalar) :
    Reports 0 (clearExpressionResolution env e) :=
  modify_reports fun _ => rfl

@[grind ←] theorem currentScope_reports : Reports 0 (currentScope : Analysis ρ QueryScope) := by
  refine .bind_zero .get fun s => ?_
  cases s.scopes <;> exact .pure _

@[grind ←] theorem modifyScope_reports (f : QueryScope → QueryScope) :
    Reports 0 (modifyScope f : Analysis ρ Unit) :=
  modify_reports fun _ => rfl

@[grind ←] theorem withScope_reports {α : Type} {n : Nat} {m : Analysis ρ α} (scope : QueryScope)
    (hm : Reports n m) : Reports n (withScope scope m) := by
  refine .bind_zero (modify_reports fun _ => rfl) fun _ => (hm.bind fun a => ?_).of_eq n.add_zero
  refine .bind_zero currentScope_reports fun left => ?_
  exact .bind_zero (modify_reports fun _ => rfl) fun _ => .pure (a, left)

/-! ### Types and literals -/

@[grind ←] theorem analyzeStringLength_reports (kind : String) (varying : Bool)
    (length : Option Nat) :
    Reports 0 (analyzeStringLength kind varying length : Analysis ρ (Option Nat)) := by
  unfold analyzeStringLength
  grind

@[grind ←] theorem analyzeDecimalType_reports (precision scale : Option Nat) :
    Reports 0 (analyzeDecimalType env precision scale) := by
  unfold analyzeDecimalType
  grind

@[grind ←] theorem analyzeBinaryNumericType_reports (kind : BinaryNumericKind)
    (precision : Option Nat) : Reports 0 (analyzeBinaryNumericType env kind precision) := by
  unfold analyzeBinaryNumericType
  grind

@[grind ←] theorem analyzeType_reports (type : TypeNode) : Reports 0 (analyzeType env type) := by
  unfold analyzeType
  grind

/-- A number whose scale is accepted is normal, unless it is zero. -/
theorem isNormal_of_scale_le {n : Ast.ExactNumeric} (hn : ExactNumeric.coefficient n ≠ 0)
    (h : ExactNumeric.scale n ≤ decimalMaxPrecision) : ExactNumeric.isNormal n = true := by
  have hd : 1 ≤ ExactNumeric.digitCount n := Nat.le_max_left ..
  simp only [ExactNumeric.isNormal, decide_eq_true_eq]
  exact ⟨hn, by omega⟩

@[grind ←] theorem processExactNumeric_reports (sign : Option Sign) (n : Ast.ExactNumeric) :
    Reports 0 (processExactNumeric env sign n) := by
  unfold processExactNumeric
  dsimp only
  by_cases h : env.options.maxDecimalPrecision < ExactNumeric.digitCount n ∨
      env.options.maxDecimalPrecision < ExactNumeric.scale n
  · rw [if_pos h]
    exact reject_reports ..
  · rw [if_neg h]
    have hscale : ExactNumeric.scale n ≤ decimalMaxPrecision :=
      (Nat.not_lt.mp (not_or.mp h).2).trans env.options.maxDecimalPrecision_bounds.2
    have hnormal : ¬ (ExactNumeric.coefficient n ≠ 0 ∧ ExactNumeric.isNormal n = false) := by
      rintro ⟨hn, hf⟩
      rw [isNormal_of_scale_le hn hscale] at hf
      cases hf
    rw [reportNotNormal, if_neg hnormal]
    refine .bind_zero (.pure _) fun _ => ?_
    split
    · exact .pure _
    · exact .pure _

@[grind ←] theorem processApproximateNumeric_reports (sign : Option Sign) (value : List Char) :
    Reports 0 (processApproximateNumeric env sign value) := by
  unfold processApproximateNumeric
  grind

@[grind ←] theorem rejectQuotedString_reports {α : Type} (q : List Char) :
    Reports 0 (rejectQuotedString q : Analysis ρ α) :=
  reject_reports ..

@[grind ←] theorem countCharacters_reports (q : List Char) :
    Reports 0 (countCharacters q : Analysis ρ Nat) := by
  unfold countCharacters
  grind

@[grind ←] theorem countHexDigits_reports (q : List Char) :
    Reports 0 (countHexDigits q : Analysis ρ Nat) := by
  unfold countHexDigits
  grind

@[grind ←] theorem countParts_reports {count : List Char → Analysis ρ Nat}
    (h : ∀ q, Reports 0 (count q)) (parts : List (List Char)) :
    Reports 0 (countParts count parts) := by
  induction parts with
  | nil => exact .pure _
  | cons q qs ih =>
    unfold countParts
    grind

@[grind ←] theorem processCharacterString_reports (parts : List (List Char)) :
    Reports 0 (processCharacterString env parts) := by
  unfold processCharacterString
  exact .bind_zero (countParts_reports countCharacters_reports parts) fun _ => .pure _

@[grind ←] theorem appendQuotedHexDigitsUnchecked_reports (parts : List (List Char)) :
    Reports 0 (appendQuotedHexDigitsUnchecked env parts) := by
  induction parts with
  | nil => exact .pure _
  | cons q qs ih =>
    unfold appendQuotedHexDigitsUnchecked
    grind

@[grind ←] theorem processBinaryString_reports (parts : List (List Char)) :
    Reports 0 (processBinaryString env parts) :=
  .bind_zero (countParts_reports countHexDigits_reports parts) fun _ =>
    .bind_zero (appendQuotedHexDigitsUnchecked_reports env parts) fun _ => .pure _

@[grind ←] theorem rejectDatetime_reports {α : Type} (kind : String) (contents : List Char)
    (reason : String) : Reports 0 (rejectDatetime kind contents reason : Analysis ρ α) :=
  reject_reports ..

@[grind ←] theorem processTimestamp_reports (contents : List Char) (withTimeZone : Bool) :
    Reports 0 (processTimestamp env contents withTimeZone) := by
  unfold processTimestamp
  grind

@[grind ←] theorem processDatetime_reports (kind : DatetimeKind) (quoted : List Char) :
    Reports 0 (processDatetime env kind quoted) := by
  unfold processDatetime
  grind

@[grind ←] theorem processLiteral_reports (context : ScalarValueContext) (literal : Literal) :
    Reports 0 (processLiteral env context literal) := by
  unfold processLiteral
  grind

@[grind ←] theorem analyzeLiteral_reports (literal : Literal) (context : ScalarValueContext) :
    Reports 0 (analyzeLiteral env literal context) := by
  unfold analyzeLiteral
  grind

/-! ### Names -/

namespace SymbolInfo

/-- The search of a symbol met an error. -/
def failed : SymbolInfo → Bool
  | sawError => true
  | _ => false

end SymbolInfo

namespace FindSymbolResult

/-- The search met an error. -/
def failed {α : Type} : FindSymbolResult α → Bool
  | error => true
  | _ => false

end FindSymbolResult

theorem reportColumnAmbiguous_reports (name : Name) :
    Reports 1 (reportColumnAmbiguous name : Analysis ρ Unit) :=
  report_reports ..

theorem reportRelationAmbiguous_reports (name : Name) :
    Reports 1 (reportRelationAmbiguous name : Analysis ρ Unit) :=
  report_reports ..

theorem findVariableInQuery_reports (name : SimpleName) (scopes : List QueryScope) (depth : Nat) :
    ReportsIf FindSymbolResult.failed (findVariableInQuery env name scopes depth) := by
  induction scopes generalizing depth with
  | nil => exact .pure rfl
  | cons scope parents ih =>
    unfold findVariableInQuery
    split
    · exact .report (reportColumnAmbiguous_reports _) rfl
    · exact .pure rfl
    · exact ih (depth + 1)

theorem findColumnInRelation_reports (parent : RelationInfo) (name : SimpleName) :
    ReportsIf FindSymbolResult.failed (findColumnInRelation env parent name) := by
  unfold findColumnInRelation
  split
  · exact .report (reportColumnAmbiguous_reports _) rfl
  · exact .pure rfl
  · exact .pure rfl

theorem findRelationInfoInQuery_reports (name : SimpleName) (scopes : List QueryScope)
    (depth : Nat) :
    ReportsIf FindSymbolResult.failed (findRelationInfoInQuery env name scopes depth) := by
  induction scopes generalizing depth with
  | nil => exact .pure rfl
  | cons scope parents ih =>
    unfold findRelationInfoInQuery
    split
    · exact .report (reportRelationAmbiguous_reports _) rfl
    · split
      · exact .pure rfl
      · exact .pure rfl
    · exact ih (depth + 1)

theorem findRelationInfoInSchema_reports (scopes : List QueryScope) (schema : Schema)
    (name : SimpleName) :
    ReportsIf FindSymbolResult.failed (findRelationInfoInSchema env scopes schema name) := by
  unfold findRelationInfoInSchema
  split
  · split
    · split
      · exact .pure rfl
      · exact .pure rfl
    · exact .report (reportRelationAmbiguous_reports _) rfl
    · exact .pure rfl
  · exact .pure rfl

theorem reportSymbolNotFound_reports (name : Name) (targets : List SymbolKind) :
    Reports 1 (reportSymbolNotFound name targets : Analysis ρ Unit) := by
  unfold reportSymbolNotFound
  dsimp only
  split
  all_goals first
    | exact report_reports ..
    | split_ifs <;> exact report_reports ..

theorem concludeNotFound_reports (name : Name) (targets : List SymbolKind)
    (reportNotFound : Bool) :
    ReportsIf SymbolInfo.failed (concludeNotFound name targets reportNotFound : Analysis ρ _) := by
  cases reportNotFound
  · exact .pure rfl
  · exact .report (reportSymbolNotFound_reports name targets) rfl

theorem searchFor_reports {α : Type} (kind : SymbolKind) (targets : List SymbolKind)
    {search : Analysis ρ (FindSymbolResult α)} (h : ReportsIf FindSymbolResult.failed search) :
    ReportsIf FindSymbolResult.failed (searchFor kind targets search) := by
  unfold searchFor
  split_ifs
  · exact h
  · exact .pure rfl

/-- What the first target of a list of searches finds is one of their results. -/
theorem firstTarget_failed {targets : List SymbolKind}
    {searches : List (SymbolKind × Option SymbolInfo)}
    (h : ∀ p ∈ searches, ∀ found ∈ p.2, found.failed = false) :
    ∀ found ∈ firstTarget targets searches, found.failed = false := by
  intro found hfound
  obtain ⟨⟨kind, result⟩, hmem, hresult⟩ := List.exists_of_findSome?_eq_some hfound
  dsimp only at hresult
  split_ifs at hresult
  exact h _ hmem found hresult

theorem findDeclared_failed (scopes : List QueryScope) (name : SimpleName)
    (targets : List SymbolKind) :
    ∀ found ∈ findDeclared env scopes name targets, found.failed = false := by
  refine firstTarget_failed fun p hp found hfound => ?_
  simp only [List.mem_cons, List.not_mem_nil, or_false] at hp
  rcases hp with rfl | rfl | rfl | rfl | rfl | rfl | rfl
  all_goals
    obtain ⟨_, -, rfl⟩ := Option.map_eq_some_iff.mp hfound
    rfl

theorem findSymbolPrimary_reports (scopes : List QueryScope) (name : SimpleName)
    (targets : List SymbolKind) (reportNotFound : Bool) :
    ReportsIf SymbolInfo.failed (findSymbolPrimary env scopes name targets reportNotFound) := by
  unfold findSymbolPrimary
  refine .bind (searchFor_reports _ _ (findRelationInfoInQuery_reports env name scopes 0))
    (fun a ha => ?_) (fun a ha => ?_)
  · cases a with
    | error => cases ha
    | found value => exact .pure rfl
    | absent =>
      refine .bind (searchFor_reports _ _ (findVariableInQuery_reports env name scopes 0))
        (fun b hb => ?_) (fun b hb => ?_)
      · cases b with
        | error => cases hb
        | found value => exact .pure rfl
        | absent =>
          dsimp only
          rcases hd : findDeclared env scopes name targets with _ | found
          · exact concludeNotFound_reports ..
          · exact .pure (findDeclared_failed env scopes name targets found hd)
      · cases b with
        | error => exact ⟨.sawError, rfl, rfl⟩
        | found value => cases hb
        | absent => cases hb
  · cases a with
    | error => exact ⟨.sawError, rfl, rfl⟩
    | found value => cases ha
    | absent => cases ha

theorem findSymbolInSchema_reports (scopes : List QueryScope) (schema : Schema)
    (name : SimpleName) (targets : List SymbolKind) :
    ReportsIf SymbolInfo.failed (findSymbolInSchema env scopes schema name targets) := by
  unfold findSymbolInSchema
  dsimp only
  split
  · exact .pure rfl
  · refine .bind (searchFor_reports _ _ (findRelationInfoInSchema_reports env scopes schema name))
      (fun a ha => ?_) (fun a ha => ?_)
    · cases a with
      | error => cases ha
      | found value => exact .pure rfl
      | absent =>
        refine .pure ?_
        rcases hf : firstTarget targets _ with _ | found
        · rfl
        · refine firstTarget_failed (fun p hp found hfound => ?_) found hf
          simp only [List.mem_cons, List.not_mem_nil, or_false] at hp
          rcases hp with rfl | rfl | rfl
          all_goals
            obtain ⟨_, -, rfl⟩ := Option.map_eq_some_iff.mp hfound
            rfl
    · cases a with
      | error => exact ⟨.sawError, rfl, rfl⟩
      | found value => cases ha
      | absent => cases ha

theorem findSymbolQualified_reports (scopes : List QueryScope) (qualifier : SymbolInfo)
    (name : Name) (targets : List SymbolKind) (reportNotFound : Bool) :
    ReportsIf SymbolInfo.failed
      (findSymbolQualified env scopes qualifier name targets reportNotFound) := by
  unfold findSymbolQualified
  dsimp only
  cases qualifier with
  | «variable» found scope =>
    dsimp only
    split_ifs
    · exact .report (report_reports ..) rfl
    · exact concludeNotFound_reports ..
  | relation r scope =>
    dsimp only
    split_ifs
    · refine .bind (findColumnInRelation_reports env r name.lastName) (fun a ha => ?_)
        (fun a ha => ?_)
      · cases a with
        | error => cases ha
        | found value => exact .pure rfl
        | absent => exact concludeNotFound_reports ..
      · cases a with
        | error => exact ⟨.sawError, rfl, rfl⟩
        | found value => cases ha
        | absent => cases ha
    · exact concludeNotFound_reports ..
  | schema s =>
    refine .bind (findSymbolInSchema_reports env scopes s name.lastName _) (fun a ha => ?_)
      (fun a ha => ?_)
    · cases a
      case sawError => cases ha
      case notFound => exact concludeNotFound_reports ..
      all_goals exact .pure rfl
    · cases a
      case sawError => exact ⟨.sawError, rfl, rfl⟩
      all_goals cases ha
  | catalog c =>
    dsimp only
    split_ifs
    · rcases c.findSchema _ with _ | schema
      · exact concludeNotFound_reports ..
      · exact .pure rfl
    · exact concludeNotFound_reports ..
  | sawError => exact concludeNotFound_reports ..
  | notFound => exact concludeNotFound_reports ..
  | relationDecl found => exact concludeNotFound_reports ..
  | query found => exact concludeNotFound_reports ..
  | table schema found => exact concludeNotFound_reports ..
  | index schema found => exact concludeNotFound_reports ..

theorem findSymbol_reports (scopes : List QueryScope) (name : Name) (targets : List SymbolKind)
    (reportNotFound : Bool) :
    ReportsIf SymbolInfo.failed (findSymbol env scopes name targets reportNotFound) := by
  induction name generalizing targets with
  | simple last => exact findSymbolPrimary_reports ..
  | qualified q last ih =>
    unfold findSymbol
    refine .bind (ih _) (fun a ha => ?_) (fun a ha => ?_)
    · cases a
      case sawError => cases ha
      case notFound => exact .pure rfl
      all_goals exact findSymbolQualified_reports ..
    · cases a
      case sawError => exact ⟨.sawError, rfl, rfl⟩
      all_goals cases ha

@[grind ←] theorem rejectVariable_reports {α : Type} (name : Name) :
    Reports 0 (rejectVariable name : Analysis ρ α) :=
  reject_reports ..

@[grind ←] theorem addParameter_reports (position : Nat) (free : Variable) :
    Reports 0 (addParameter position free : Analysis ρ Variable) := by
  refine .bind_zero (.gets _) fun scopes => ?_
  split
  · exact .pure _
  · exact .bind_zero frameVariable_reports fun _ =>
      .bind_zero (modify_reports fun _ => rfl) fun _ => .pure _

@[grind ←] theorem addParameters_reports (found current : Variable) (positions : List Nat) :
    Reports 0 (addParameters env found current positions) := by
  induction positions generalizing current with
  | nil => exact .pure _
  | cons position positions ih =>
    unfold addParameters
    grind

@[grind ←] theorem analyzeVariableName_reports (name : Name) :
    Reports 0 (analyzeVariableName env name) := by
  refine .bind_zero (.gets _) fun scopes => ?_
  refine (findSymbol_reports env scopes name variableTargets true).logs (fun a ha => ?_)
    (fun a ha => ?_)
  · split
    · cases ha
    · exact .pure _
    · exact .pure _
    · split_ifs
      · split
        · exact rejectVariable_reports ..
        · exact .bind_zero (addParameters_reports ..) fun _ => .pure _
      · exact rejectVariable_reports ..
    · exact rejectVariable_reports ..
  · cases a
    case sawError => rfl
    all_goals cases ha

@[grind ←] theorem analyzeRelationInfoName_reports (name : Name) :
    Reports 0 (analyzeRelationInfoName env name) := by
  refine .bind_zero (.gets _) fun scopes => ?_
  refine (findSymbol_reports env scopes name [.relationInfo] true).logs (fun a ha => ?_)
    (fun a ha => ?_)
  · split
    · cases ha
    · exact .pure _
    · exact .pure _
    · exact reject_reports ..
  · cases a
    case sawError => rfl
    all_goals cases ha

@[grind ←] theorem analyzeRelationName_reports (name : Name) :
    Reports 0 (analyzeRelationName env name) := by
  refine .bind_zero (.gets _) fun scopes => ?_
  refine (findSymbol_reports env scopes name [.relationDecl, .queryDecl] true).logs
    (fun a ha => ?_) (fun a ha => ?_)
  · split
    · cases ha
    · exact .pure _
    · exact reject_reports ..
    · exact .pure _
    · exact reject_reports ..
  · cases a
    case sawError => rfl
    all_goals cases ha

/-! ### Names of declarations -/

namespace SymbolInfo

/-- The symbol is a declaration, or was not found. -/
def declared : SymbolInfo → Bool
  | sawError | «variable» _ _ | relation _ _ => false
  | _ => true

end SymbolInfo

/-- The kinds of the symbols that are declared in the catalog. -/
def declarationKinds : List SymbolKind := [.schemaDecl, .catalogDecl, .tableDecl, .indexDecl]

theorem qualifierTargets_declared {targets : List SymbolKind} (h : targets ⊆ declarationKinds) :
    SymbolKind.qualifierTargets targets ⊆ declarationKinds := by
  intro k hk
  obtain ⟨t, ht, hq⟩ := List.any_eq_true.mp (List.mem_filter.mp hk).2
  have hmem : k ∈ t.qualifiers := of_decide_eq_true hq
  have htarget := h ht
  simp only [declarationKinds, List.mem_cons, List.not_mem_nil, or_false] at htarget
  rcases htarget with rfl | rfl | rfl | rfl <;>
    simp [SymbolKind.qualifiers] at hmem <;> simp [hmem, declarationKinds]

/-- Every search of a list of targets is for a declaration. -/
theorem firstTarget_declared {targets : List SymbolKind}
    {searches : List (SymbolKind × Option SymbolInfo)}
    (h : ∀ p ∈ searches, p.1 ∈ targets → ∀ found ∈ p.2, found.declared = true) :
    ∀ found ∈ firstTarget targets searches, found.declared = true := by
  intro found hfound
  obtain ⟨⟨kind, result⟩, hmem, hresult⟩ := List.exists_of_findSome?_eq_some hfound
  dsimp only at hresult
  split_ifs at hresult with hk
  exact h _ hmem hk found hresult

/-- The search for a simple name of a declaration changes nothing and meets no error. -/
theorem findSymbolPrimary_declared (scopes : List QueryScope) (name : SimpleName)
    {targets : List SymbolKind} (h : targets ⊆ declarationKinds) :
    ∃ a, findSymbolPrimary env scopes name targets false = pure a ∧ a.declared = true := by
  have hrelation : SymbolKind.relationInfo ∉ targets := fun hk => absurd (h hk) (by decide)
  have hcolumn : SymbolKind.columnVariable ∉ targets := fun hk => absurd (h hk) (by decide)
  have hvariable : SymbolKind.schemaVariable ∉ targets := fun hk => absurd (h hk) (by decide)
  unfold findSymbolPrimary
  simp only [searchFor, hrelation, hcolumn, if_false, pure_bind]
  rcases hd : findDeclared env scopes name targets with _ | found
  · exact ⟨.notFound, rfl, rfl⟩
  · refine ⟨found, rfl, firstTarget_declared (fun p hp hk found hfound => ?_) found hd⟩
    simp only [List.mem_cons, List.not_mem_nil, or_false] at hp
    rcases hp with rfl | rfl | rfl | rfl | rfl | rfl | rfl
    · exact absurd hk hvariable
    all_goals
      obtain ⟨_, -, rfl⟩ := Option.map_eq_some_iff.mp hfound
      rfl

/-- The search for a declared name changes nothing and meets no error. -/
theorem findSymbol_declared (scopes : List QueryScope) (name : Name) {targets : List SymbolKind}
    (h : targets ⊆ declarationKinds) :
    ∃ a, findSymbol env scopes name targets false = pure a ∧ a.declared = true := by
  have hinter : ∀ kinds, SymbolKind.inter targets kinds ⊆ declarationKinds := fun kinds k hk =>
    h (List.mem_filter.mp hk).1
  have habsent : ∀ (name : Name) (targets : List SymbolKind), ∃ a,
      (concludeNotFound name targets false : Analysis ρ _) = pure a ∧ a.declared = true :=
    fun _ _ => ⟨.notFound, rfl, rfl⟩
  induction name generalizing targets with
  | simple last => exact findSymbolPrimary_declared env scopes last h
  | qualified q last ih =>
    obtain ⟨a, ha, hdeclared⟩ := ih (qualifierTargets_declared h)
      fun kinds k hk => qualifierTargets_declared h (List.mem_filter.mp hk).1
    unfold findSymbol
    rw [ha, pure_bind]
    cases a with
    | sawError => cases hdeclared
    | «variable» found scope => cases hdeclared
    | relation found scope => cases hdeclared
    | notFound => exact ⟨.notFound, rfl, rfl⟩
    | schema schema =>
      have hrelation : SymbolKind.relationInfo ∉ SymbolKind.inter targets
          [.schemaVariable, .relationInfo, .relationDecl, .tableDecl, .indexDecl] :=
        fun hk => absurd (hinter _ hk) (by decide)
      have hvariable : SymbolKind.schemaVariable ∉ SymbolKind.inter targets
          [.schemaVariable, .relationInfo, .relationDecl, .tableDecl, .indexDecl] :=
        fun hk => absurd (hinter _ hk) (by decide)
      simp only [findSymbolQualified, findSymbolInSchema, searchFor, hrelation, hvariable, if_false,
        pure_bind]
      rcases hf : firstTarget _ _ with _ | found
      · exact habsent ..
      · have hfound : found.declared = true := by
          refine firstTarget_declared (fun p hp _ found hfound => ?_) found hf
          simp only [List.mem_cons, List.not_mem_nil, or_false] at hp
          rcases hp with rfl | rfl | rfl
          all_goals
            obtain ⟨_, -, rfl⟩ := Option.map_eq_some_iff.mp hfound
            rfl
        cases found
        case notFound => exact habsent ..
        all_goals exact ⟨_, rfl, hfound⟩
    | catalog c =>
      unfold findSymbolQualified
      dsimp only
      split_ifs
      · rcases c.findSchema _ with _ | schema
        · exact habsent ..
        · exact ⟨.schema schema, rfl, rfl⟩
      · exact habsent ..
    | relationDecl found => exact habsent ..
    | query found => exact habsent ..
    | table schema found => exact habsent ..
    | index schema found => exact habsent ..

@[grind ←] theorem collectDecl_reports {α : Type} (candidates : Schema → String → List α)
    (name : Name) : Reports 0 (collectDecl env candidates name) := by
  unfold collectDecl
  dsimp only
  cases name with
  | simple last => exact .pure _
  | qualified q last =>
    have htargets : [SymbolKind.schemaDecl] ⊆ declarationKinds := by decide
    obtain ⟨a, ha, -⟩ := findSymbol_declared env [.empty] q htargets
    dsimp only
    rw [ha, pure_bind]
    split <;> exact .pure _

@[grind ←] theorem analyzeFunctionName_reports (name : Name) (count : Nat) :
    Reports 0 (analyzeFunctionName env name count) :=
  collectDecl_reports ..

@[grind ←] theorem analyzeAggregationName_reports (name : Name) (count : Nat) :
    Reports 0 (analyzeAggregationName env name count) :=
  collectDecl_reports ..

/-- A mandatory declaration that is not found is reported. -/
theorem analyzeDeclName_mandatory {α : Type} (target : SymbolKind) (code : Code)
    (select : SymbolInfo → Option α) (name : Name) :
    ReportsIf Option.isNone (analyzeDeclName env target code select name true) := by
  unfold analyzeDeclName
  refine .bind (findSymbol_reports env [.empty] name [target] true) (fun a ha => ?_) (fun a ha => ?_)
  · cases a
    case sawError => cases ha
    all_goals
      dsimp only
      rcases select _ with _ | b
      · exact .report (report_reports ..) rfl
      · exact .pure rfl
  · cases a
    case sawError => exact ⟨none, rfl, rfl⟩
    all_goals cases ha

/-- A declaration that is not mandatory is looked up without a change. -/
theorem analyzeDeclName_optional {α : Type} {target : SymbolKind} (h : target ∈ declarationKinds)
    (code : Code) (select : SymbolInfo → Option α) (name : Name) :
    ∃ a, analyzeDeclName env target code select name false = pure a := by
  have htargets : [target] ⊆ declarationKinds := by simpa using h
  obtain ⟨b, hb, hdeclared⟩ := findSymbol_declared env [.empty] name htargets
  unfold analyzeDeclName
  rw [hb, pure_bind]
  cases b
  case sawError => cases hdeclared
  all_goals
    dsimp only
    rcases select _ with _ | a
    · exact ⟨none, rfl⟩
    · exact ⟨some a, rfl⟩

theorem analyzeTableName_mandatory (name : Name) :
    ReportsIf Option.isNone (analyzeTableName env name true) :=
  analyzeDeclName_mandatory ..

theorem analyzeIndexName_mandatory (name : Name) :
    ReportsIf Option.isNone (analyzeIndexName env name true) :=
  analyzeDeclName_mandatory ..

theorem analyzeTableName_optional (name : Name) :
    ∃ a, analyzeTableName env name false = pure a :=
  analyzeDeclName_optional env (by decide) ..

theorem analyzeIndexName_optional (name : Name) :
    ∃ a, analyzeIndexName env name false = pure a :=
  analyzeDeclName_optional env (by decide) ..

end Mizugaki.Analyzer
