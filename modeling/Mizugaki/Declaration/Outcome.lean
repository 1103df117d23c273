import Mizugaki.Analyzer.Statement

/-! The outcome of an analysis. An analysis is accepted when it returns a value, and what it
returns is the result. -/

namespace Mizugaki.Analyzer

open Mizugaki.Plan Mizugaki.Control

variable {ρ : Type} {env : Environment ρ}

@[simp] theorem reject_yields {α : Type} (code : Code) (message : List Fragment)
    (s t : AnalyzerState ρ) (a : α) : reject code message s = (some a, t) ↔ False := by
  simp [reject]

@[simp] theorem fail_yields {α : Type} (s t : AnalyzerState ρ) (a : α) :
    (fail : Analysis ρ α) s = (some a, t) ↔ False :=
  Check.stop_yields s t a

/-- A result that is not erroneous. -/
def AnalyzerResult.Accepted : AnalyzerResult → Prop
  | .erroneous _ => False
  | .executionPlan _ => True
  | .statement _ => True

/-- The result that an analysis returns. -/
def StatementResult.toResult : StatementResult → AnalyzerResult
  | .plan graph => .executionPlan graph
  | .statement result => .statement result

theorem StatementResult.toResult_accepted (r : StatementResult) : r.toResult.Accepted := by
  cases r <;> trivial

theorem AnalyzerResult.accepted_iff (result : AnalyzerResult) :
    result.Accepted ↔ ∃ r : StatementResult, result = r.toResult := by
  constructor
  · intro h
    cases result with
    | erroneous diagnostics => exact h.elim
    | executionPlan graph => exact ⟨.plan graph, rfl⟩
    | statement statement => exact ⟨.statement statement, rfl⟩
  · rintro ⟨r, rfl⟩
    exact r.toResult_accepted

theorem SqlAnalyzer.process_accepted_iff (resolution : ρ) (statement : Ast.Statement) :
    (process env resolution statement).Accepted ↔
      ∃ r t, analyzeStatement env statement (.initial resolution) = (some r, t) := by
  unfold process
  rcases analyzeStatement env statement (.initial resolution) with ⟨_ | (graph | result), t⟩
  · simp [AnalyzerResult.Accepted]
  · simp [AnalyzerResult.Accepted]
  · simp [AnalyzerResult.Accepted]

theorem SqlAnalyzer.process_eq_iff (resolution : ρ) (statement : Ast.Statement)
    (r : StatementResult) :
    process env resolution statement = r.toResult ↔
      ∃ t, analyzeStatement env statement (.initial resolution) = (some r, t) := by
  unfold process
  rcases analyzeStatement env statement (.initial resolution) with ⟨_ | (graph | result), t⟩ <;>
    cases r <;> simp [StatementResult.toResult]

theorem SqlAnalyzer.process_statement_iff (resolution : ρ) (statement : Ast.Statement)
    (result : Plan.Statement) :
    process env resolution statement = .statement result ↔
      ∃ t, analyzeStatement env statement (.initial resolution) = (some (.statement result), t) :=
  process_eq_iff resolution statement (.statement result)

/-- The result of a statement from the run of its analysis. -/
def resultOf : Option StatementResult × AnalyzerState ρ → AnalyzerResult
  | (none, s) => .erroneous s.diagnostics
  | (some r, _) => r.toResult

theorem SqlAnalyzer.process_eq_resultOf (resolution : ρ) (statement : Ast.Statement) :
    process env resolution statement =
      resultOf (analyzeStatement env statement (.initial resolution)) := by
  unfold process
  rcases analyzeStatement env statement (.initial resolution) with ⟨_ | (graph | result), t⟩ <;> rfl

/-- A run that returns nothing has an erroneous result. -/
theorem resultOf_stops {x : Option StatementResult × AnalyzerState ρ}
    (h : ∀ r t, x ≠ (some r, t)) : ∃ diagnostics, resultOf x = .erroneous diagnostics := by
  obtain ⟨_ | r, s⟩ := x
  · exact ⟨s.diagnostics, rfl⟩
  · exact absurd rfl (h r s)

/-! ### Small definitions -/

/-- The definition of a BIGINT column. -/
def bigIntColumn (name : String) (constraints : List Ast.Constraint) : Ast.ColumnDefinition where
  name := ⟨name, .delimited⟩
  type := .simple .bigInteger
  constraints := constraints
  description := none

/-- The definition of a table `t`. -/
def tableOf (elements : List Ast.TableElement) : Ast.TableDefinition where
  name := .simple ⟨"t", .delimited⟩
  elements := elements
  options := []
  parameters := []
  description := none

end Mizugaki.Analyzer
