import OptionTree.Proofs.Causes
import OptionTree.Proofs.Nesting
import OptionTree.Proofs.Placement

/-!
# Values and edits come to an end

If no value refers to itself, readings nest no deeper than there are entries; if no entry selects
itself either, be it through other entries, neither do settings.  Nothing is cut off then: values
and edits are what they would be without a bound, and fail only for what expressions, ranges and
values say.
-/

namespace OptionTree

open Except (FailsOnly)

namespace Run

theorem each_congr {α : Type} {invariant : Model → Prop} {first second : α → Model → Run Unit}
    {items : List α}
    (keeps : ∀ item ∈ items, ∀ model, invariant model → invariant (second item model).model)
    (alike : ∀ item ∈ items, ∀ model, invariant model → first item model = second item model)
    {model : Model} (holds : invariant model) :
    each first items model = each second items model := by
  induction items generalizing model with
  | nil => rfl
  | cons item rest ih =>
      have later := ih (fun other member => keeps other (List.mem_cons_of_mem _ member))
        (fun other member => alike other (List.mem_cons_of_mem _ member))
        (keeps item List.mem_cons_self model holds)
      rw [each, each, alike item List.mem_cons_self model holds, andThen, andThen]
      cases (second item model).outcome with
      | error cause => rfl
      | ok done =>
          dsimp only
          rw [later]

end Run

namespace Model

/-- Whether no entry selects itself, be it through other entries. -/
def AcyclicSelects (model : Model) : Prop := ∀ id, ¬Relation.TransGen model.Selects id id

theorem AcyclicSelects.of_bare {first second : Model} (acyclic : first.AcyclicSelects)
    (same : first.bare = second.bare) : second.AcyclicSelects := by
  have selects : first.Selects = second.Selects := by
    funext source target
    simp only [Selects, selectsOf_of_bare same, lookup_of_bare same]
  rwa [AcyclicSelects, ← selects]

/-- Selects that all point forward have no cycle. -/
theorem Forward.acyclicSelects {model : Model} (forward : model.Forward) :
    model.AcyclicSelects := by
  have later : ∀ source target, Relation.TransGen model.Selects source target →
      source < target := by
    intro source target path
    induction path with
    | single step =>
        obtain ⟨select, member, found⟩ := step
        exact forward source select member _ found
    | tail _ step ih =>
        obtain ⟨select, member, found⟩ := step
        exact Nat.lt_trans ih (forward _ select member _ found)
  exact fun id path => Nat.lt_irrefl id (later id id path)

theorem force_congr {first second : EntryId → Model → Run Unit} {select : Conditional}
    {model : Model} (alike : ∀ target, model.lookup select.value = some target →
      first target model = second target model) :
    force first select model = force second select model := by
  unfold force
  cases model.holds select.condition with
  | error cause => rfl
  | ok applies =>
      cases applies with
      | false => rfl
      | true =>
          simp only [Run.andThen_done_ok, if_true]
          cases found : model.lookup select.value with
          | none => rfl
          | some target => exact alike target found

section Selecting

variable {base : Model} (complete : base.Complete) (acyclic : base.AcyclicSelects)
include complete acyclic

/-- Where settings go as deep as selects lead from an entry, what setting it does depends neither on
how deep they go nor on what is done at the bottom. -/
theorem setOver_eq {bottom : EntryId → Model → Run Unit} {value : Value} {first second : Nat}
    {id : EntryId} {model : Model} (same : model.bare = base.bare)
    (deep : (base.reach base.Selects id).card < first)
    (deep' : (base.reach base.Selects id).card < second) :
    setOver bottom value first id model = setWithin value second id model := by
  induction first generalizing id second model with
  | zero => exact absurd deep (Nat.not_lt_zero _)
  | succ first ih =>
      obtain ⟨depth, rfl⟩ := Nat.exists_eq_add_one_of_ne_zero (Nat.ne_zero_of_lt deep')
      have stored : (model.store id (some value)).bare = base.bare :=
        (bare_store model id _).trans same
      have keeps : ∀ select ∈ model.selectsOf id, ∀ current : Model, current.bare = base.bare →
          (force (setWithin value depth) select current).model.bare = base.bare :=
        fun select _ current same =>
          (bare_force (bare_setWithin value depth) select current).trans same
      rw [setOver_succ, setWithin_succ]
      congr 1
      refine Run.each_congr keeps (fun select member current kept => ?_) stored
      refine force_congr fun target found => ?_
      rw [selectsOf_of_bare same] at member
      rw [lookup_of_bare kept] at found
      have less := card_reach_lt acyclic ⟨select, member, found⟩ (complete _ _ found)
      exact ih kept (Nat.lt_of_lt_of_le less (Nat.le_of_lt_succ deep))
        (Nat.lt_of_lt_of_le less (Nat.le_of_lt_succ deep'))

theorem setOver_size {model : Model} (same : model.bare = base.bare)
    (bottom : EntryId → Model → Run Unit) (value : Value) {id : EntryId}
    (present : id < model.size) :
    setOver bottom value model.size id model = model.set id value := by
  rw [size_of_bare same] at present
  have deep := card_reach_lt_size acyclic present
  rw [set, selectDepth, size_of_bare same]
  exact setOver_eq complete acyclic same deep (Nat.lt_of_lt_of_le deep (Nat.le_mul_self _))

/-- Setting an entry sets what it selects, without a bound on how often settings are nested. -/
theorem set_eq {model : Model} (same : model.bare = base.bare) (value : Value) {id : EntryId}
    (present : id < model.size) :
    model.set id value =
      (Run.each (force fun target model => model.set target value) (model.selectsOf id)
        (model.store id (some value))).andThen fun model _ => model.announce id := by
  rw [size_of_bare same] at present
  have deep := Nat.lt_of_lt_of_le (card_reach_lt_size acyclic present) (Nat.le_mul_self _)
  have further : model.set id value = setWithin value (model.selectDepth + 1) id model := by
    rw [set, selectDepth, size_of_bare same, setWithin_eq_setOver]
    exact setOver_eq complete acyclic same deep (Nat.lt_succ_of_lt deep)
  rw [further, setWithin_succ]
  congr 1
  -- The depth is the same in all models that are met on the way.
  refine (@Run.each_congr _ (fun current => current.bare = model.bare) _ _ _ ?_ ?_ _ ?_).symm
  · exact fun select _ current kept =>
      (bare_force (bare_setWithin value model.selectDepth) select current).trans kept
  · intro select _ current kept
    refine force_congr fun target _ => ?_
    rw [set, selectDepth, selectDepth, size_of_bare kept]
  · exact bare_store model id _

end Selecting

/-- Where unconditional selects go round, no setting succeeds, however deep settings are nested. -/
theorem setWithin_ne_ok_of_requires {base : Model} {round : EntryId → Prop}
    (leads : ∀ id, round id → ∃ target, base.Requires id target ∧ round target) (value : Value)
    (depth : Nat) {id : EntryId} (member : round id) {model : Model}
    (same : model.bare = base.bare) : (setWithin value depth id model).outcome ≠ .ok () := by
  induction depth generalizing id model with
  | zero =>
      intro ended
      cases ended
  | succ depth ih =>
      intro ended
      obtain ⟨target, ⟨select, listed, unconditional, found⟩, further⟩ := leads id member
      rw [setWithin_succ, Run.andThen_eq_ok_iff, selectsOf_of_bare same] at ended
      obtain ⟨_, through, -⟩ := ended
      have stored : (model.store id (some value)).bare = base.bare :=
        (bare_store model id _).trans same
      generalize model.store id (some value) = current at through stored
      generalize base.selectsOf id = selects at listed through
      -- The select is reached, unless one before it fails.
      induction selects generalizing current with
      | nil => cases listed
      | cons first rest other =>
          rw [Run.each, Run.andThen_eq_ok_iff] at through
          obtain ⟨_, forced, behind⟩ := through
          rcases List.mem_cons.mp listed with rfl | later
          · rw [← lookup_of_bare stored] at found
            rw [force, unconditional, holds, Expression.holds_none, Run.andThen_done_ok, if_pos rfl,
              found] at forced
            exact ih further stored forced
          · have kept := (bare_force (bare_setWithin value depth) first current).trans stored
            exact other _ kept later behind

section Reading

variable {model : Model} (complete : model.Complete) (acyclic : model.Acyclic)
  (nonempty : 0 < model.size)
include complete acyclic nonempty

theorem valueOver_size (bottom : Reading) : model.valueOver bottom model.size = model.value := by
  funext id
  rw [value, valueWithin_eq_valueOver]
  by_cases present : id < model.size
  · have deep := card_reach_lt_size acyclic present
    exact valueOver_eq complete acyclic deep deep
  · obtain ⟨depth, size⟩ := Nat.exists_eq_add_one_of_ne_zero (Nat.ne_of_gt nonempty)
    have absent : model.get? id = none :=
      List.getElem?_eq_none_iff.mpr (Nat.not_lt.mp present)
    rw [size, valueOver_succ, valueOver_succ, absent]

theorem failsOnly_value (id : EntryId) : (model.value id).FailsOnly Error.Reached := by
  rw [← valueOver_size complete acyclic nonempty fun _ => .ok none]
  exact failsOnly_valueOver (fun _ reached => reached) (fun _ => .ok none) model model.size id

end Reading

/-- Whether everything that is computed from the values of a model comes to its end. -/
structure ReadingsEnd (model : Model) : Prop where
  /-- Readings nest no deeper than there are entries: what would be read there makes no
  difference. -/
  bounded : ∀ bottom, model.valueOver bottom model.size = model.value
  /-- A value is what its entry makes of values, without a bound on how often these are nested. -/
  unbounded : ∀ id entry, model.get? id = some entry →
    model.value id = model.valueFrom model.value entry
  /-- No value is cut off. -/
  value : ∀ id, (model.value id).FailsOnly Error.Reached
  /-- No state is cut off. -/
  tristate : ∀ id, (model.tristate id).FailsOnly Error.Reached
  /-- Whether an entry is shown is not cut off. -/
  isVisible : ∀ id, (model.isVisible id).FailsOnly Error.Reached
  /-- No bounds are cut off. -/
  activeRange : ∀ id, (model.activeRange id).FailsOnly Error.Reached
  /-- No validation is cut off. -/
  validate : ∀ id, (model.validate id).FailsOnly Error.Reached

/-- Whether all settings of entries of a model come to their end. -/
structure SettingsEnd (model : Model) : Prop where
  /-- Settings nest no deeper than there are entries: what would be done there makes no
  difference. -/
  bounded : ∀ id < model.size, ∀ value bottom,
    setOver bottom value model.size id model = model.set id value
  /-- Setting an entry sets what it selects, without a bound on how often settings are nested. -/
  unbounded : ∀ id < model.size, ∀ value, model.set id value =
    (Run.each (force fun target model => model.set target value) (model.selectsOf id)
      (model.store id (some value))).andThen fun model _ => model.announce id
  /-- No setting is cut off. -/
  set : ∀ id < model.size, ∀ value, (model.set id value).outcome.FailsOnly Error.Reached

section Ends

variable {model : Model} (complete : model.Complete) (acyclic : model.Acyclic)
  (nonempty : 0 < model.size)
include complete acyclic nonempty

theorem readingsEnd : model.ReadingsEnd := by
  have known : ∀ error, Error.Reached error → Error.Reached error := fun _ reached => reached
  have reads := failsOnly_value complete acyclic nonempty
  exact
    { bounded := valueOver_size complete acyclic nonempty
      unbounded := fun _ _ => value_eq_valueFrom complete acyclic
      value := reads
      tristate := failsOnly_tristate reads
      isVisible := failsOnly_isVisible known reads
      activeRange := failsOnly_activeRange known reads
      validate := failsOnly_validate known reads }

theorem settingsEnd (selects : model.AcyclicSelects) : model.SettingsEnd where
  bounded := fun _ present value bottom => setOver_size complete selects rfl bottom value present
  unbounded := fun _ present value => set_eq complete selects rfl value present
  set := by
    intro id present value
    rw [← setOver_size complete selects rfl (fun _ model => Run.done model (.ok ())) value present]
    refine failsOnly_setOver (fun _ reached => reached) (fun current same => ?_) (fun _ _ => rfl)
      (fun _ _ => .ok ()) value model.size id rfl
    refine failsOnly_value (complete.of_bare same.symm) (acyclic.of_bare same.symm) ?_
    rwa [size_of_bare same]

end Ends

theorem complete_of_build {description : Node} {options : Options} {built model : Model}
    (builds : build description options = .ok built) (same : model.bare = built.bare) :
    model.Complete := by
  refine Complete.of_bare (fun symbol target found => ?_) same.symm
  exact (places_of_build builds).rising.lt_size_of_lookup found

/-- Where no value refers to itself and no entry selects itself, nothing that is read or set nests
deeper than there are entries. -/
theorem computations_end {description : Node} {options : Options} {built model : Model}
    (builds : build description options = .ok built) (same : model.bare = built.bare)
    (acyclic : model.Acyclic) :
    model.ReadingsEnd ∧ (model.AcyclicSelects → model.SettingsEnd) := by
  have complete := complete_of_build builds same
  have nonempty : 0 < model.size := by
    rw [size_of_bare same]
    exact (places_of_build builds).rising.root_lt_size
  exact ⟨readingsEnd complete acyclic nonempty, settingsEnd complete acyclic nonempty⟩

/-- A switch that forces one option and raises another one, whose default refers to both. -/
theorem computations_end_of_imply :
    let first : Declaration :=
      { symbol := some "A", type := some .tristate, selects := [⟨"B", some "A"⟩]
        implies := [⟨"C", some "B"⟩] }
    let second : Declaration := { symbol := some "B", type := some .tristate }
    let third : Declaration :=
      { symbol := some "C", type := some .tristate, defaults := [⟨"A && B", some "B"⟩] }
    let nodes : List Node := [first, second, third].map (.mk · [])
    let built : Model := placeAll root (top { kind := .menu } {}) (Outline.ofNodes nodes)
    let model := built.after [.set 1 (.text "m")]
    model.bare = built.bare ∧ model.Acyclic ∧ model.AcyclicSelects ∧
      model.value 3 = .ok (some (.number 1)) ∧ model.ReadingsEnd ∧ model.SettingsEnd := by
  intro first second third nodes built model
  have same : model.bare = built.bare := (bare_after built _).1
  have acyclic : model.Acyclic :=
    acyclic_of_descending (by decide +kernel) (by decide +kernel)
  have forward : model.Forward := by decide +kernel
  have read : model.value 3 = .ok (some (.number 1)) := by decide +kernel
  have ends := @computations_end (.mk { kind := .menu } nodes) {} built model rfl same acyclic
  exact ⟨same, acyclic, forward.acyclicSelects, read, ends.1, ends.2 forward.acyclicSelects⟩

end Model
end OptionTree
