import OptionTree.Model.History
import OptionTree.Proofs.Outcome

/-!
# Runs of edits

An edit stores values and tells observers about them.  Telling changes nothing, so whatever relates
a model to the one with a value stored relates it to what any edit leaves behind.
-/

namespace OptionTree
namespace Run

theorem andThen_eq_ok_iff {α β : Type} {run : Run α} {next : Model → α → Run β} {b : β} :
    (run.andThen next).outcome = .ok b ↔
      ∃ a, run.outcome = .ok a ∧ (next run.model a).outcome = .ok b := by
  rw [andThen]
  cases run.outcome with
  | error cause => simp
  | ok a => simp

theorem model_andThen {α β : Type} {run : Run α} {a : α} (ended : run.outcome = .ok a)
    (next : Model → α → Run β) : (run.andThen next).model = (next run.model a).model := by
  simp [andThen, ended]

theorem model_andThen_error {α β : Type} {run : Run α} {cause : Error}
    (failed : run.outcome = .error cause) (next : Model → α → Run β) :
    (run.andThen next).model = run.model := by
  simp [andThen, failed]

section Related

variable {related : Model → Model → Prop}
  (trans : ∀ first second third, related first second → related second third →
    related first third)
include trans

theorem andThen_related {α β : Type} {model : Model} {run : Run α} {next : Model → α → Run β}
    (before : related model run.model) (after : ∀ a, related run.model (next run.model a).model) :
    related model (run.andThen next).model := by
  rw [andThen]
  cases run.outcome with
  | error cause => exact before
  | ok a => exact trans _ _ _ before (after a)

theorem each_related (refl : ∀ model, related model model) {α : Type}
    {action : α → Model → Run Unit} (step : ∀ item model, related model (action item model).model)
    (items : List α) (model : Model) : related model (each action items model).model := by
  induction items generalizing model with
  | nil => exact refl model
  | cons item items ih => exact andThen_related trans (step item model) fun _ => ih _

end Related
end Run

namespace Model

theorem model_andThen_eq {α β : Type} {model : Model} {run : Run α} {next : Model → α → Run β}
    (before : run.model = model) (after : ∀ a, (next model a).model = model) :
    (run.andThen next).model = model := by
  refine (Run.andThen_related (fun _ _ _ first second => first.trans second) before.symm
    fun a => ?_).symm
  rw [before]
  exact (after a).symm

theorem model_each_eq {α : Type} {action : α → Model → Run Unit}
    (step : ∀ item model, (action item model).model = model) (items : List α) (model : Model) :
    (Run.each action items model).model = model :=
  (Run.each_related (fun _ _ _ first second => first.trans second) (fun _ => rfl)
    (fun item model => (step item model).symm) items model).symm

@[simp]
theorem model_announceVisibility (id : EntryId) (model : Model) :
    (announceVisibility id model).model = model :=
  model_andThen_eq rfl fun _ => rfl

@[simp]
theorem model_refresh (id : EntryId) (model : Model) : (refresh id model).model = model := by
  refine model_andThen_eq rfl fun _ => ?_
  refine model_andThen_eq rfl fun _ => ?_
  exact model_each_eq model_announceVisibility _ _

@[simp]
theorem model_refreshImplied (id : EntryId) (model : Model) :
    (refreshImplied id model).model = model := by
  refine model_each_eq (fun imply model => ?_) _ _
  split
  · exact model_refresh _ _
  · rfl

@[simp]
theorem model_announce (id : EntryId) (model : Model) : (announce id model).model = model :=
  model_andThen_eq (model_refresh id model) fun _ => model_refreshImplied id model

theorem model_andThen_announce (run : Run Unit) (id : EntryId) :
    (run.andThen fun model _ => model.announce id).model = run.model :=
  model_andThen_eq rfl fun _ => model_announce id run.model

section Stored

variable {related : Model → Model → Prop} (refl : ∀ model, related model model)
  (trans : ∀ first second third, related first second → related second third →
    related first third)
  (stored : ∀ model id value, related model (model.store id value))
include refl trans stored

theorem setWithin_related (value : Value) (depth : Nat) (id : EntryId) (model : Model) :
    related model (setWithin value depth id model).model := by
  induction depth generalizing id model with
  | zero => exact refl model
  | succ depth ih =>
      rw [setWithin_succ]
      refine Run.andThen_related trans ?_ fun _ => ?_
      · refine trans _ _ _ (stored model id (some value)) ?_
        refine Run.each_related trans refl (fun select model => ?_) _ _
        refine Run.andThen_related trans (refl model) fun applies => ?_
        split
        · exact ih _ _
        · exact refl model
      · rw [model_announce]
        exact refl _

theorem assign_related (assignment : Assignment) (model : Model) :
    related model (model.assign assignment).model := by
  rw [assign]
  split
  · exact refl model
  · split
    · exact refl model
    · exact Run.andThen_related trans (setWithin_related refl trans stored _ _ _ model)
        fun _ => refl _

theorem assignAll_related (report : ImportReport) (assignments : List Assignment) (model : Model) :
    related model (assignAll report assignments model).model := by
  induction assignments generalizing report model with
  | nil => exact refl model
  | cons assignment rest ih =>
      exact Run.andThen_related trans (assign_related refl trans stored assignment model)
        fun _ => ih _ _

/-- Whatever storing a value keeps is kept by every history of edits. -/
theorem after_related (model : Model) (history : List Edit) :
    related model (model.after history) := by
  induction history generalizing model with
  | nil => exact refl model
  | cons edit history ih =>
      refine trans _ _ _ ?_ (ih (model.edited edit))
      cases edit with
      | set id value => exact setWithin_related refl trans stored value _ id model
      | clear id =>
          rw [edited, clear, model_announce]
          exact stored model id none
      | assign text => exact assignAll_related refl trans stored {} _ model

end Stored
end Model
end OptionTree
