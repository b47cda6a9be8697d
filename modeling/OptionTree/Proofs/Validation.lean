import OptionTree.Observer
import OptionTree.Proofs.Lockstep

/-!
# Edits with and without validation

Validation only ever ends an edit early.  Up to where it does, the edit does what it does without
validation: the same values are written and observers are told the same.  If nothing fails
validation, the two edits do not differ at all.
-/

namespace OptionTree

theorem Observer.deliveries_prefix (observers : List Observer) {first second : List Notice}
    (start : first <+: second) : deliveries observers first <+: deliveries observers second := by
  obtain ⟨rest, rfl⟩ := start
  rw [deliveries_append]
  exact List.prefix_append _ _

/-- A model that validates values when they are set, or one that does not. -/
def Model.validating (validates : Bool) (model : Model) : Model :=
  model.withOptions { model.options with validateTypes := validates }

namespace Run

/-- How a run of a model that validates compares with the run of the same model without. -/
structure Gates {α : Type} (strict lax : Run α) : Prop where
  /-- The model still validates. -/
  validates : strict.model.options.validateTypes = true
  /-- Without a failure nothing differs. -/
  passes : ∀ result, strict.outcome = .ok result →
    lax = { strict with model := strict.model.validating false }
  /-- What is told up to a failure is told without validation too. -/
  notices : strict.notices <+: lax.notices

namespace Gates

theorem of_alike {α : Type} {strict lax : Run α}
    (validates : strict.model.options.validateTypes = true)
    (alike : lax = { strict with model := strict.model.validating false }) : Gates strict lax where
  validates := validates
  passes _ _ := alike
  notices := by
    subst alike
    exact List.prefix_refl _

theorem andThen {α β : Type} {strict lax : Run α} (gates : Gates strict lax)
    {next : Model → α → Run β}
    (onward : ∀ model result, model.options.validateTypes = true →
      Gates (next model result) (next (model.validating false) result)) :
    Gates (strict.andThen next) (lax.andThen next) := by
  cases ended : strict.outcome with
  | error cause =>
      have stops : strict.andThen next = ⟨strict.model, strict.notices, .error cause⟩ := by
        rw [Run.andThen, ended]
      have longer : lax.notices <+: (lax.andThen next).notices := by
        rw [Run.andThen]
        cases lax.outcome with
        | error other => exact List.prefix_refl _
        | ok result => exact List.prefix_append _ _
      rw [stops]
      refine ⟨gates.validates, fun result succeeded => ?_, gates.notices.trans longer⟩
      cases succeeded
  | ok result =>
      have behind := onward strict.model result gates.validates
      rw [gates.passes result ended]
      simp only [Run.andThen, ended]
      refine ⟨behind.validates, fun final succeeded => ?_,
        (List.prefix_append_right_inj _).mpr behind.notices⟩
      rw [behind.passes final succeeded]

end Gates

/-- Whether a list is where another one starts, and all of it if a run succeeds. -/
structure Starts (run : Run Unit) (first second : List EntryId) : Prop where
  /-- The second list goes on from the first one. -/
  start : first <+: second
  /-- If the run succeeds, there is nothing to go on with. -/
  ends : run.outcome = .ok () → first = second

theorem Starts.whole (run : Run Unit) (list : List EntryId) : run.Starts list list :=
  ⟨List.prefix_refl _, fun _ => rfl⟩

end Run

namespace Model

/-- Whether two models differ by nothing but that only the first one validates. -/
def Gated (strict lax : Model) : Prop :=
  strict.options.validateTypes = true ∧ lax = strict.validating false

/-- Only validations depend on whether a model validates, and all that they can do is to fail. -/
theorem lockstep_gates : Lockstep Gated fun strict lax => strict.Gates lax where
  options := by
    rintro strict _ ⟨-, rfl⟩
    exact ⟨_, rfl⟩
  stored := by
    rintro strict _ ⟨validates, rfl⟩ id value
    exact ⟨validates, rfl⟩
  alike := by
    rintro strict _ ⟨validates, rfl⟩ α notices outcome
    exact .of_alike validates rfl
  checks := by
    rintro strict _ ⟨validates, rfl⟩ id
    refine ⟨validates, fun result succeeded => ?_, List.prefix_refl _⟩
    have passed : strict.validate id = .ok result := by
      rwa [check, if_pos validates] at succeeded
    rw [check, check, if_pos validates, passed]
    rfl
  andThen := by
    intro α β run other next gates onward
    exact gates.andThen fun model result validates => onward model _ result ⟨validates, rfl⟩

/-- What the selects of an entry assign under validation is where the list of what they assign
without it starts. -/
theorem forcedBy_starts {assign : EntryId → Model → Run Unit}
    {assigned : EntryId → Model → List EntryId}
    (gates : ∀ target strict lax, Gated strict lax →
      (assign target strict).Gates (assign target lax))
    (starts : ∀ target strict lax, Gated strict lax →
      (assign target strict).Starts (assigned target strict) (assigned target lax))
    (selects : List Conditional) {strict lax : Model} (gated : Gated strict lax) :
    (Run.each (force assign) selects strict).Starts (forcedBy assign assigned selects strict)
      (forcedBy assign assigned selects lax) := by
  induction selects generalizing strict lax with
  | nil => exact .whole _ _
  | cons select rest ih =>
      have step := lockstep_gates.force gated gates select
      have same : lax.forced? select = strict.forced? select :=
        lockstep_gates.reads gated (·.forced? select) fun model options =>
          model.forced?_withOptions options select
      have own : (force assign select strict).Starts
          (((strict.forced? select).map (assigned · strict)).getD [])
          (((strict.forced? select).map (assigned · lax)).getD []) := by
        rcases force_eq assign select strict with ⟨target, forced, -, runs⟩ | ⟨forced, -⟩
        · rw [forced, runs]
          exact starts target strict lax gated
        · rw [forced]
          exact .whole _ _
      rw [forcedBy, forcedBy, same, Run.each]
      cases ended : (force assign select strict).outcome with
      | error cause =>
          rw [List.append_nil]
          refine ⟨own.start.trans (List.prefix_append _ _), fun succeeded => ?_⟩
          obtain ⟨_, first, -⟩ := Run.andThen_eq_ok_iff.mp succeeded
          cases ended.symm.trans first
      | ok done =>
          -- The select passes, so both cascades go on from the same model.
          have behind := ih ⟨step.validates, rfl⟩
          rw [step.passes done ended, own.ends ended]
          simp only [ended]
          refine ⟨(List.prefix_append_right_inj _).mpr behind.start, fun succeeded => ?_⟩
          obtain ⟨_, -, later⟩ := Run.andThen_eq_ok_iff.mp succeeded
          rw [behind.ends later]

theorem assignedWithin_starts {strict lax : Model} (gated : Gated strict lax) (value : Value)
    (depth : Nat) (id : EntryId) :
    (setWithin value depth id strict).Starts (assignedWithin value depth id strict)
      (assignedWithin value depth id lax) := by
  induction depth generalizing id strict lax with
  | zero => exact .whole _ _
  | succ depth ih =>
      have same : lax.selectsOf id = strict.selectsOf id :=
        lockstep_gates.reads gated (·.selectsOf id) fun _ _ => rfl
      have cascade := forcedBy_starts
        (fun target _ _ gated => lockstep_gates.setWithin gated value depth target)
        (fun target _ _ gated => ih gated target) (strict.selectsOf id)
        (lockstep_gates.stored gated id (some value))
      rw [assignedWithin, assignedWithin, same]
      refine ⟨(List.prefix_cons_inj id).mpr cascade.start, fun succeeded => ?_⟩
      obtain ⟨_, first, -⟩ := Run.andThen_eq_ok_iff.mp succeeded
      exact congrArg (id :: ·) (cascade.ends first)

/-- An edit with validation leaves and tells what one without it does if it succeeds, and else has
told and written what that starts with. -/
theorem validation_gates (model : Model) (id : EntryId) (value : Value) :
    let strict := model.validating true
    let lax := model.validating false
    ((strict.set id value).Gates (lax.set id value) ∧
      (strict.set id value).Starts (strict.assigned id value) (lax.assigned id value) ∧
      ∀ other < model.size,
        (strict.set id value).model.override? other =
            (if other ∈ strict.assigned id value then some value else model.override? other) ∧
          (lax.set id value).model.override? other =
            (if other ∈ lax.assigned id value then some value else model.override? other)) ∧
    ((strict.clear id).Gates (lax.clear id) ∧
      (lax.clear id).model = (strict.clear id).model.validating false) ∧
    ∀ observers : List Observer,
      Observer.deliveries observers (strict.set id value).notices <+:
          Observer.deliveries observers (lax.set id value).notices ∧
        Observer.deliveries observers (strict.clear id).notices <+:
          Observer.deliveries observers (lax.clear id).notices := by
  intro strict lax
  have gated : Gated strict lax := ⟨rfl, rfl⟩
  have setting : (strict.set id value).Gates (lax.set id value) :=
    lockstep_gates.set gated id value
  have writing : (strict.set id value).Starts (strict.assigned id value) (lax.assigned id value) :=
    assignedWithin_starts gated value strict.selectDepth id
  have clearing : (strict.clear id).Gates (lax.clear id) := lockstep_gates.clear gated id
  have cleared : (lax.clear id).model = (strict.clear id).model.validating false := by
    rw [clear, clear, model_announce, model_announce]
    rfl
  exact ⟨⟨setting, writing, fun _ present =>
      ⟨override?_setWithin_of_lt present, override?_setWithin_of_lt present⟩⟩,
    ⟨clearing, cleared⟩, fun observers =>
      ⟨Observer.deliveries_prefix observers setting.notices,
        Observer.deliveries_prefix observers clearing.notices⟩⟩

/-- The second of two selects leads to a number out of range, which stops the edit under validation
behind the notice of the first one. -/
example :
    let source : Entry := { symbol := some "A", selects := [⟨"B", none⟩, ⟨"C", none⟩] }
    let first : Entry := { symbol := some "B", type := some .int }
    let second : Entry := { symbol := some "C", type := some .int, ranges := [⟨"1 5", none⟩] }
    let model : Model :=
      { registry :=
          { entries := [{ kind := .menu }, source, first, second]
            names := [("A", 1), ("B", 2), ("C", 3)] } }
    let told := fun validates => ((model.validating validates).set 1 (.number 7)).notices
    told true = [.value 2 (.ok (some (.number 7)))] ∧
      told false = [2, 3, 1].map fun id => .value id (.ok (some (.number 7))) := by
  decide +kernel

end Model
end OptionTree
