import OptionTree.Proofs.Causes
import OptionTree.Proofs.ShuntingYard

/-!
# Which expressions have a value

Where all options can be read, the tokens of an expression alone decide whether it has a value and
which error it has otherwise: two evaluations always have the same operators waiting and equally
many operands on their stacks, whatever the names stand for and however texts count.
-/

namespace OptionTree
namespace Expression

theorem Names.exists_read (names : Names) (mode : Mode) (expression : String) (operand : Operand) :
    ∃ value, Setting.read { scope := names.scope, mode, expression } operand = .ok value := by
  cases operand with
  | name symbol => exact ⟨_, names.read_name mode expression symbol⟩
  | literal content => exact ⟨_, rfl⟩
  | result n => exact ⟨_, rfl⟩

/-- Where all options can be read, evaluations of an expression both give some value or fail
alike. -/
theorem evaluate_alike_of_names (first second : Names) (mode other : Mode) (expression : String) :
    (evaluate first.scope mode expression).Alike (fun _ => False) (fun _ _ => True)
      (evaluate second.scope other expression) := by
  apply Setting.evaluate_related
  · rfl
  · intro op _
    cases op <;> simp [Setting.Respects]
  · intro token _ operand _
    obtain ⟨value, read⟩ := first.exists_read mode expression operand
    obtain ⟨another, readOther⟩ := second.exists_read other expression operand
    rw [read, readOther]
    trivial

theorem failsOnly_evaluate_of_names (names : Names) (mode : Mode) (expression : String) :
    (evaluate names.scope mode expression).FailsOnly (Error.OfExpression expression) := by
  refine failsOnly_evaluate (fun symbol reading found => ?_) (fun _ own => own) mode
  obtain ⟨value, -, rfl⟩ := Option.map_eq_some_iff.mp found
  exact .ok value

/-- Under any names of which all options can be read, an expression has values or one and the same
error, whatever the names stand for and however texts count. -/
theorem evaluate_valid_alike (first second : Names) (mode other : Mode) (expression : String) :
    ((∃ value another, evaluate first.scope mode expression = .ok value ∧
        evaluate second.scope other expression = .ok another) ∨
      ∃ error, evaluate first.scope mode expression = .error error ∧
        evaluate second.scope other expression = .error error ∧
        ((∃ cause, error = .parse expression cause) ∨
          ∃ cause, error = .evaluation expression cause)) ∧
    ∀ quoted text, evaluate first.scope mode expression ≠
      .error (.evaluation quoted (.unexpectedToken text)) := by
  have alike := evaluate_alike_of_names first second mode other expression
  have causes := failsOnly_evaluate_of_names first mode expression
  constructor
  · cases evaluated : evaluate first.scope mode expression with
    | ok value =>
        cases evaluatedOther : evaluate second.scope other expression with
        | ok another => exact .inl ⟨value, another, rfl, rfl⟩
        | error error =>
            rw [evaluated, evaluatedOther] at alike
            exact alike.elim
    | error error =>
        rw [evaluated] at alike
        refine .inr ⟨error, rfl, alike.resolve_left id, ?_⟩
        have own := causes error evaluated
        cases error with
        | parse quoted cause =>
            obtain rfl : quoted = expression := own
            exact .inl ⟨cause, rfl⟩
        | evaluation quoted cause =>
            obtain rfl : quoted = expression := by
              cases cause with
              | unexpectedToken text => exact own.elim
              | _ => exact own
            exact .inr ⟨cause, rfl⟩
        | _ => exact own.elim
  · intro quoted text failed
    exact causes _ failed

end Expression
end OptionTree
