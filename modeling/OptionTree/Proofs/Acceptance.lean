import OptionTree.Proofs.Cascade
import OptionTree.Proofs.Export

/-!
# Settings that are accepted

An entry whose selects force nothing is stored and then announced.  The announcement fails only if
the new value does not fit its type, or if an entry that mentions the symbol cannot tell whether it
is shown.
-/

namespace OptionTree

namespace Run

theorem each_eq_ok_iff {α : Type} {action : α → Model → Run Unit} {model : Model}
    (keeps : ∀ item, (action item model).model = model) (items : List α) :
    (each action items model).outcome = .ok () ↔
      ∀ item ∈ items, (action item model).outcome = .ok () := by
  induction items with
  | nil => simp [each, done]
  | cons item rest ih =>
      rw [each, andThen_eq_ok_iff, keeps, List.forall_mem_cons, ih]
      constructor
      · rintro ⟨_, first, others⟩
        exact ⟨first, others⟩
      · exact fun both => ⟨(), both⟩

end Run

namespace Model

/-- Whether a select is gone through and forces no entry: its condition is known, and does not hold
or its target is not declared. -/
def Idle (model : Model) (select : Conditional) : Prop :=
  ∃ applies, model.holds select.condition = .ok applies ∧
    (applies = true → model.lookup select.value = none)

theorem force_of_idle (assign : EntryId → Model → Run Unit) {model : Model}
    {select : Conditional} (idle : model.Idle select) :
    force assign select model = .done model (.ok ()) := by
  obtain ⟨applies, known, nowhere⟩ := idle
  rw [force, known, Run.andThen_done_ok]
  cases applies with
  | false => rfl
  | true =>
      rw [if_pos rfl, nowhere rfl]

theorem each_force_of_idle (assign : EntryId → Model → Run Unit) {model : Model}
    {selects : List Conditional} (idle : ∀ select ∈ selects, model.Idle select) :
    Run.each (force assign) selects model = .done model (.ok ()) := by
  induction selects with
  | nil => rfl
  | cons select rest ih =>
      obtain ⟨first, others⟩ := List.forall_mem_cons.mp idle
      rw [Run.each, force_of_idle assign first, Run.andThen_done_ok, ih others]

/-- If the selects of an entry are idle, the entry is stored and announced. -/
theorem set_of_idle {model : Model} {id : EntryId} {value : Value} (present : id < model.size)
    (idle : ∀ select ∈ model.selectsOf id, (model.store id (some value)).Idle select) :
    model.set id value = (model.store id (some value)).announce id := by
  obtain ⟨depth, positive⟩ := exists_selectDepth present
  rw [Model.set, positive, setWithin_succ, each_force_of_idle _ idle, Run.andThen_done_ok]

theorem set_eq_announce {model : Model} {id : EntryId} (present : id < model.size)
    (none : model.selectsOf id = []) (value : Value) :
    model.set id value = (model.store id (some value)).announce id :=
  set_of_idle present (by simp [none])

/-- Whether a value is a number if its type demands one. -/
def Fits (type : Option OptionType) (value : Value) : Prop :=
  ∀ failure, type.bind numberFailure? = some failure → ∃ number, numberOf type value = some number

theorem fits_of_read {raw : String} {type : Option OptionType} {value : Value}
    (read : OptionType.read raw type = .ok value) : Fits type value := by
  intro failure demands
  rcases type with _ | type
  · cases demands
  cases type with
  | int =>
      rw [OptionType.read] at read
      split at read
      · obtain rfl := Except.ok.inj read
        exact ⟨_, rfl⟩
      · cases read
  | hex =>
      rw [OptionType.read] at read
      split at read
      · obtain rfl := Except.ok.inj read
        exact ⟨_, rfl⟩
      · cases read
  | _ => cases demands

theorem validate_eq_ok_iff {model : Model} {id : EntryId} {value : Value}
    (set : model.override? id = some value)
    (unbounded : model.stated Declaration.ranges id = []) :
    model.validate id = .ok () ↔ Fits ((model.get? id).bind fun entry => entry.type) value := by
  obtain ⟨entry, found, -⟩ := Option.bind_eq_some_iff.mp set
  have free : entry.ranges = [] := by simpa [stated, found] using unbounded
  have active : model.activeRange id = .ok none := by
    rw [activeRange, found]
    simp only [free]
    rfl
  rw [found, Option.bind_some, validate, found, Fits]
  simp only [value_of_override set, Except.ok_bind]
  cases demands : entry.type.bind numberFailure? with
  | none => simp
  | some failure =>
      cases counts : numberOf entry.type value with
      | none => simp [counts]
      | some number => simp [counts, active]

theorem announceVisibility_eq_ok_iff {model : Model} {id : EntryId} :
    (announceVisibility id model).outcome = .ok () ↔ ∃ shown, model.isVisible id = .ok shown := by
  rw [announceVisibility, Run.andThen_eq_ok_iff]
  exact ⟨fun ⟨shown, told, _⟩ => ⟨shown, told⟩, fun ⟨shown, told⟩ => ⟨shown, told, rfl⟩⟩

/-- An entry is refreshed without failing exactly if its value is valid, or need not be, and all
entries that mention its symbol can tell whether they are shown. -/
theorem refresh_eq_ok_iff {model : Model} {id : EntryId} :
    (model.refresh id).outcome = .ok () ↔
      (model.options.validateTypes = true → model.validate id = .ok ()) ∧
        ∀ other ∈ model.dependentsOf id, ∃ shown, model.isVisible other = .ok shown := by
  have checked : (check id model).outcome = .ok () ↔
      (model.options.validateTypes = true → model.validate id = .ok ()) := by
    change (if model.options.validateTypes then model.validate id else .ok ()) = .ok () ↔ _
    cases model.options.validateTypes <;> simp
  have told := Run.each_eq_ok_iff (fun other => model_announceVisibility other model)
    (model.dependentsOf id)
  simp only [announceVisibility_eq_ok_iff] at told
  rw [refresh, Run.andThen_eq_ok_iff, ← checked, ← told]
  constructor
  · rintro ⟨_, valid, rest⟩
    obtain ⟨_, -, shown⟩ := Run.andThen_eq_ok_iff.mp rest
    exact ⟨valid, shown⟩
  · rintro ⟨valid, shown⟩
    exact ⟨(), valid, Run.andThen_eq_ok_iff.mpr ⟨(), rfl, shown⟩⟩

theorem announce_eq_ok_iff {model : Model} {id : EntryId}
    (alone : ∀ imply ∈ model.impliesOf id, ∀ target, model.lookup imply.value = some target →
      target = id) :
    (model.announce id).outcome = .ok () ↔ (model.refresh id).outcome = .ok () := by
  have implied : (refreshImplied id model).outcome = .ok () := by
    refine (Run.each_eq_ok_iff (fun imply => ?_) _).mpr fun imply member => ?_
    · split
      · exact model_refresh _ _
      · rfl
    have none : model.impliedTarget? id imply = none := by
      rw [impliedTarget?, Option.filter_eq_none_iff]
      intro target found
      simp [alone imply member target found]
    rw [none]
    rfl
  rw [announce, Run.andThen_eq_ok_iff, model_refresh]
  constructor
  · rintro ⟨_, refreshed, -⟩
    exact refreshed
  · exact fun refreshed => ⟨(), refreshed, implied⟩

end Model
end OptionTree
