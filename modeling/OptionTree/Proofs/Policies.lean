import OptionTree.Proofs.Import
import OptionTree.Proofs.Lockstep

/-!
# Models under another import policy

The import policy says what a failing line does to an import and nothing else, so an edit of a model
under another policy leaves behind the same model under that policy, tells observers the same and
ends alike.
-/

namespace OptionTree

/-- A model with another import policy. -/
def Model.under (policy : ImportPolicy) (model : Model) : Model :=
  { model with options := { model.options with importPolicy := policy } }

/-- A run that leaves its model behind under another import policy. -/
def Run.under {α : Type} (policy : ImportPolicy) (run : Run α) : Run α :=
  { run with model := run.model.under policy }

section Under

variable (policy : ImportPolicy) (model : Model)

@[simp]
theorem Model.get?_under (id : EntryId) : (model.under policy).get? id = model.get? id := rfl

@[simp]
theorem Model.lookup_under (symbol : String) :
    (model.under policy).lookup symbol = model.lookup symbol := rfl

@[simp]
theorem Model.importPolicy_under : (model.under policy).options.importPolicy = policy := rfl

@[simp]
theorem Model.value_under : (model.under policy).value = model.value :=
  model.value_withOptions _

@[simp]
theorem Run.outcome_under {α : Type} (run : Run α) : (run.under policy).outcome = run.outcome := rfl

theorem Run.andThen_under {α β : Type} (run : Run α) {next : Model → α → Run β}
    (alike : ∀ model a, next (model.under policy) a = (next model a).under policy) :
    (run.under policy).andThen next = (run.andThen next).under policy := by
  rw [andThen, andThen, outcome_under]
  cases run.outcome with
  | error cause => rfl
  | ok a => exact congrArg (fun after : Run β => (⟨after.model, run.notices ++ after.notices,
      after.outcome⟩ : Run β)) (alike run.model a)

/-- Edits do not depend on the import policy. -/
theorem lockstep_under : Lockstep (fun first second => second = first.under policy)
    (fun run other => other = run.under policy) where
  options := by
    rintro first _ rfl
    exact ⟨_, rfl⟩
  stored := by
    rintro first _ rfl id value
    rfl
  alike := by
    rintro first _ rfl α notices outcome
    rfl
  checks := by
    rintro first _ rfl id
    have same : (first.under policy).validate id = first.validate id :=
      first.validate_withOptions _ id
    rw [Model.check, Model.check, same]
    rfl
  andThen := by
    rintro α β run _ next rfl onward
    exact Run.andThen_under policy run fun model a => onward model _ a rfl

theorem Model.set_under (id : EntryId) (value : Value) :
    (model.under policy).set id value = (model.set id value).under policy :=
  (lockstep_under policy).set rfl id value

theorem Model.assign_under (assignment : Assignment) :
    (model.under policy).assign assignment = (model.assign assignment).under policy := by
  rw [assign, assign, lookup_under]
  cases model.lookup assignment.symbol with
  | none => rfl
  | some id =>
      simp only [get?_under]
      cases OptionType.read assignment.raw ((model.get? id).bind fun entry => entry.type) with
      | error cause => rfl
      | ok value =>
          simp only [set_under]
          exact Run.andThen_under policy _ fun _ _ => rfl

end Under
end OptionTree
