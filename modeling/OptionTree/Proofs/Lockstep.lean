import OptionTree.Proofs.Cascade
import OptionTree.Proofs.Reference

/-!
# Edits in lockstep

What is computed does not depend on the options of a model, so edits of two models that differ by
their options take the same steps.  A relation of runs that their steps keep, validation among them,
holds of all edits.
-/

namespace OptionTree
namespace Model

/-- A model with other options. -/
def withOptions (model : Model) (options : Options) : Model := { model with options := options }

section Options

variable (model : Model) (options : Options)

@[simp]
theorem get?_withOptions (id : EntryId) : (model.withOptions options).get? id = model.get? id := rfl

@[simp]
theorem lookup_withOptions (symbol : String) :
    (model.withOptions options).lookup symbol = model.lookup symbol := rfl

@[simp]
theorem value_withOptions : (model.withOptions options).value = model.value := by
  funext id
  have same : (model.withOptions options).bare = model.bare := rfl
  exact value_congr same fun _ _ => rfl

@[simp]
theorem scope_withOptions : (model.withOptions options).scope = model.scope := by
  rw [scope, scope, value_withOptions]
  rfl

@[simp]
theorem holds_withOptions (condition : Option String) :
    (model.withOptions options).holds condition = model.holds condition := by
  rw [holds, holds, scope_withOptions]

@[simp]
theorem isVisible_withOptions (id : EntryId) :
    (model.withOptions options).isVisible id = model.isVisible id := by
  simp only [isVisible, holds_withOptions, get?_withOptions]

@[simp]
theorem bound_withOptions (type : Option OptionType) (text : String) :
    (model.withOptions options).bound type text = model.bound type text := by
  simp only [bound, evaluate, scope_withOptions]

@[simp]
theorem firstRange_withOptions (entry : Entry) (ranges : List Conditional) :
    (model.withOptions options).firstRange entry ranges = model.firstRange entry ranges := by
  induction ranges with
  | nil => rfl
  | cons range rest ih => simp only [firstRange, holds_withOptions, bound_withOptions, ih]

@[simp]
theorem validate_withOptions (id : EntryId) :
    (model.withOptions options).validate id = model.validate id := by
  simp only [validate, activeRange, get?_withOptions, value_withOptions, firstRange_withOptions]

@[simp]
theorem forced?_withOptions (select : Conditional) :
    (model.withOptions options).forced? select = model.forced? select := by
  rw [forced?, forced?, holds_withOptions, lookup_withOptions]

end Options
end Model

/-- Whether the steps of edits of related models are related runs, and related runs stay so as they
go on. -/
structure Lockstep (models : Model → Model → Prop) (runs : ∀ {α : Type}, Run α → Run α → Prop) :
    Prop where
  /-- Related models differ by their options. -/
  options : ∀ {first second}, models first second → ∃ options, second = first.withOptions options
  /-- Storing a value in both of them changes nothing about that. -/
  stored : ∀ {first second}, models first second → ∀ id value,
    models (first.store id value) (second.store id value)
  /-- What tells the same and ends alike is related. -/
  alike : ∀ {first second}, models first second → ∀ {α : Type} notices (outcome : Except Error α),
    runs ⟨first, notices, outcome⟩ ⟨second, notices, outcome⟩
  /-- Validations, which depend on the options, are related. -/
  checks : ∀ {first second}, models first second → ∀ id,
    runs (Model.check id first) (Model.check id second)
  /-- Related runs go on in related ways. -/
  andThen : ∀ {α β : Type} {run other : Run α} {next : Model → α → Run β}, runs run other →
    (∀ first second result, models first second → runs (next first result) (next second result)) →
      runs (run.andThen next) (other.andThen next)

namespace Lockstep

variable {models : Model → Model → Prop} {runs : ∀ {α : Type}, Run α → Run α → Prop}
  (lockstep : Lockstep models runs) {first second : Model} (related : models first second)
include lockstep

theorem each {α : Type} {action : α → Model → Run Unit}
    (step : ∀ item first second, models first second →
      runs (action item first) (action item second))
    (items : List α) {first second : Model} (related : models first second) :
    runs (Run.each action items first) (Run.each action items second) := by
  induction items generalizing first second with
  | nil => exact lockstep.alike related [] (.ok ())
  | cons item rest ih =>
      exact lockstep.andThen (step item first second related) fun _ _ _ later => ih later

include related

theorem reads {α : Type} (read : Model → α)
    (blind : ∀ model options, read (Model.withOptions model options) = read model) :
    read second = read first := by
  obtain ⟨options, rfl⟩ := lockstep.options related
  exact blind first options

theorem announceVisibility (id : EntryId) :
    runs (Model.announceVisibility id first) (Model.announceVisibility id second) := by
  have same : second.isVisible id = first.isVisible id :=
    lockstep.reads related (·.isVisible id) fun model options =>
      model.isVisible_withOptions options id
  rw [Model.announceVisibility, Model.announceVisibility, same]
  exact lockstep.andThen (lockstep.alike related [] _) fun _ _ visible later =>
    lockstep.alike later [.visibility id visible] (.ok ())

theorem announceValue (id : EntryId) :
    runs (Model.announceValue id first) (Model.announceValue id second) := by
  have same : second.value = first.value := lockstep.reads related Model.value
    Model.value_withOptions
  rw [Model.announceValue, Model.announceValue, same]
  exact lockstep.alike related _ _

theorem refresh (id : EntryId) : runs (Model.refresh id first) (Model.refresh id second) := by
  refine lockstep.andThen (lockstep.checks related id) fun _ _ _ related => ?_
  refine lockstep.andThen (lockstep.announceValue related id) fun first second _ related => ?_
  have same : second.dependentsOf id = first.dependentsOf id :=
    lockstep.reads related (·.dependentsOf id) fun _ _ => rfl
  rw [same]
  exact lockstep.each (fun dependent _ _ later => lockstep.announceVisibility later dependent) _
    related

theorem refreshImplied (id : EntryId) :
    runs (Model.refreshImplied id first) (Model.refreshImplied id second) := by
  have same : second.impliesOf id = first.impliesOf id :=
    lockstep.reads related (·.impliesOf id) fun _ _ => rfl
  rw [Model.refreshImplied, Model.refreshImplied, same]
  refine lockstep.each (fun imply first second related => ?_) _ related
  have target : second.impliedTarget? id imply = first.impliedTarget? id imply :=
    lockstep.reads related (·.impliedTarget? id imply) fun _ _ => rfl
  rw [target]
  split
  · exact lockstep.refresh related _
  · exact lockstep.alike related [] (.ok ())

theorem announce (id : EntryId) : runs (Model.announce id first) (Model.announce id second) :=
  lockstep.andThen (lockstep.refresh related id) fun _ _ _ later =>
    lockstep.refreshImplied later id

theorem force {assign : EntryId → Model → Run Unit}
    (assigns : ∀ target first second, models first second →
      runs (assign target first) (assign target second)) (select : Conditional) :
    runs (Model.force assign select first) (Model.force assign select second) := by
  have same : second.holds select.condition = first.holds select.condition :=
    lockstep.reads related (·.holds select.condition) fun model options =>
      model.holds_withOptions options select.condition
  rw [Model.force, Model.force, same]
  refine lockstep.andThen (lockstep.alike related [] _) fun first second applies related => ?_
  have target : second.lookup select.value = first.lookup select.value :=
    lockstep.reads related (·.lookup select.value) fun _ _ => rfl
  rw [target]
  split
  · exact assigns _ first second related
  · exact lockstep.alike related [] (.ok ())

theorem setWithin (value : Value) (depth : Nat) (id : EntryId) :
    runs (Model.setWithin value depth id first) (Model.setWithin value depth id second) := by
  induction depth generalizing id first second with
  | zero => exact lockstep.alike related [] _
  | succ depth ih =>
      have same : second.selectsOf id = first.selectsOf id :=
        lockstep.reads related (·.selectsOf id) fun _ _ => rfl
      rw [Model.setWithin_succ, Model.setWithin_succ, same]
      refine lockstep.andThen (lockstep.each (fun select _ _ related => ?_) _
        (lockstep.stored related id (some value))) fun _ _ _ later => lockstep.announce later id
      exact lockstep.force related (fun target _ _ related => ih related target) select

/-- Setting an entry of related models gives related runs. -/
theorem set (id : EntryId) (value : Value) : runs (first.set id value) (second.set id value) := by
  have same : second.selectDepth = first.selectDepth :=
    lockstep.reads related Model.selectDepth fun _ _ => rfl
  rw [Model.set, Model.set, same]
  exact lockstep.setWithin related value _ id

theorem clear (id : EntryId) : runs (first.clear id) (second.clear id) :=
  lockstep.announce (lockstep.stored related id none) id

end Lockstep
end OptionTree
