import Mathlib.Logic.Relation
import OptionTree.Proofs.Cascade

/-!
# The footprint of an edit

Setting an entry changes values only, and only those of entries that its selects lead to.  All of
this holds for edits that fail as well, wherever they stop.  If the edit succeeds, every entry that
unconditional selects lead to has the value.
-/

namespace OptionTree
namespace Run

/-- What every item of a list keeps is kept by going through the list, wherever that stops. -/
theorem each_invariant {α : Type} {invariant : Model → Prop} {action : α → Model → Run Unit}
    {items : List α}
    (step : ∀ item ∈ items, ∀ model, invariant model → invariant (action item model).model)
    {model : Model} (holds : invariant model) : invariant (each action items model).model := by
  induction items generalizing model with
  | nil => exact holds
  | cons item items ih =>
      have first := step item List.mem_cons_self model holds
      rw [each]
      cases ended : (action item model).outcome with
      | error cause =>
          rw [model_andThen_error ended]
          exact first
      | ok done =>
          rw [model_andThen ended]
          exact ih (fun other member => step other (List.mem_cons_of_mem _ member)) first

theorem each_split {α : Type} {action : α → Model → Run Unit} {items : List α} {model : Model}
    (ended : (each action items model).outcome = .ok ()) {item : α} (member : item ∈ items) :
    ∃ before after, items = before ++ item :: after ∧
      (action item (each action before model).model).outcome = .ok () ∧
      (each action items model).model =
        (each action after (action item (each action before model).model).model).model := by
  obtain ⟨before, after, rfl⟩ := List.append_of_mem member
  rw [each_append] at ended ⊢
  obtain ⟨_, reached, rest⟩ := andThen_eq_ok_iff.mp ended
  obtain ⟨_, own, -⟩ := andThen_eq_ok_iff.mp rest
  refine ⟨before, after, rfl, own, ?_⟩
  rw [model_andThen reached, each, model_andThen own]

end Run

namespace Model

/-- Whether a select of one entry names the symbol of another one. -/
def Selects (model : Model) (source target : EntryId) : Prop :=
  ∃ select ∈ model.selectsOf source, model.lookup select.value = some target

/-- Whether an unconditional select of one entry names the symbol of another one. -/
def Requires (model : Model) (source target : EntryId) : Prop :=
  ∃ select ∈ model.selectsOf source, select.condition = none ∧
    model.lookup select.value = some target

theorem forced?_of_unconditional (model : Model) {select : Conditional}
    (unconditional : select.condition = none) :
    model.forced? select = model.lookup select.value := by
  rw [forced?, unconditional]
  rfl

theorem lt_size_of_override? {model : Model} {id : EntryId} {value : Value}
    (set : model.override? id = some value) : id < model.size := by
  obtain ⟨entry, found, -⟩ := Option.bind_eq_some_iff.mp set
  exact (List.getElem?_eq_some_iff.mp found).1

theorem override?_store_or (model : Model) (id : EntryId) (value : Value) (other : EntryId) :
    (model.store id (some value)).override? other = model.override? other ∨
      (model.store id (some value)).override? other = some value ∧ id = other := by
  by_cases own : id = other
  · subst own
    rw [override?, get?_store, if_pos rfl, override?]
    cases model.get? id with
    | none => exact .inl rfl
    | some entry => exact .inr ⟨rfl, rfl⟩
  · rw [override?, get?_store, if_neg own]
    exact .inl rfl

/-- Whether a property of the models of one tree survives storing a value for some entries, among
them all that selects lead to while the property holds. -/
structure Sustained (base : Model) (value : Value) (reached : EntryId → Prop)
    (invariant : Model → Prop) : Prop where
  /-- The property concerns models of one tree. -/
  same : ∀ model, invariant model → model.bare = base.bare
  /-- Where selects are forced they lead to more of the entries. -/
  closed : ∀ source, reached source → ∀ select ∈ base.selectsOf source, ∀ model,
    invariant model → ∀ target, model.forced? select = some target → reached target
  /-- Storing the value for one of the entries keeps the property. -/
  stored : ∀ id, reached id → ∀ model, invariant model → invariant (model.store id (some value))

namespace Sustained

variable {base : Model} {value : Value} {reached : EntryId → Prop} {invariant : Model → Prop}
  (sustained : Sustained base value reached invariant)
include sustained

theorem holds_each_force {assign : EntryId → Model → Run Unit}
    (sets : ∀ target, reached target → ∀ model, invariant model →
      invariant (assign target model).model)
    {source : EntryId} (origin : reached source) {selects : List Conditional}
    (own : ∀ select ∈ selects, select ∈ base.selectsOf source) {model : Model}
    (holds : invariant model) : invariant (Run.each (force assign) selects model).model := by
  refine Run.each_invariant (fun select member current kept => ?_) holds
  rcases force_eq assign select current with ⟨target, forced, -, run⟩ | ⟨-, _, stays⟩
  · rw [run]
    exact sets target (sustained.closed source origin select (own select member) current kept
      target forced) current kept
  · rw [stays]
    exact kept

/-- Setting an entry keeps the property, wherever that stops. -/
theorem holds_setWithin {depth : Nat} {id : EntryId} {model : Model} (origin : reached id)
    (holds : invariant model) : invariant (setWithin value depth id model).model := by
  induction depth generalizing id model with
  | zero => exact holds
  | succ depth ih =>
      rw [setWithin_succ, model_andThen_announce, selectsOf_of_bare (sustained.same model holds)]
      exact sustained.holds_each_force (fun target origin _ holds => ih origin holds) origin
        (fun _ member => member) (sustained.stored id origin model holds)

/-- A cascade that succeeds sets the target of every select that is forced as long as the property
holds. -/
theorem exists_setting {depth : Nat} {source target : EntryId} (origin : reached source)
    {selects : List Conditional} (own : ∀ select ∈ selects, select ∈ base.selectsOf source)
    {model : Model} (holds : invariant model)
    (ended : (Run.each (force (setWithin value depth)) selects model).outcome = .ok ())
    {select : Conditional} (member : select ∈ selects)
    (steady : ∀ current, invariant current → current.forced? select = some target) :
    ∃ current, ∃ after, invariant current ∧
      (setWithin value depth target current).outcome = .ok () ∧
      (Run.each (force (setWithin value depth)) selects model).model =
        (Run.each (force (setWithin value depth)) after
          (setWithin value depth target current).model).model := by
  obtain ⟨before, after, rfl, forcing, left⟩ := Run.each_split ended member
  have kept := sustained.holds_each_force (fun _ onward _ kept =>
    @holds_setWithin _ _ _ _ sustained depth _ _ onward kept) origin
    (fun other inside => own other (List.mem_append_left _ inside)) holds
  refine ⟨_, after, kept, ?_⟩
  -- What runs before the select keeps the property, so the select is forced when its turn comes.
  generalize (Run.each (force (setWithin value depth)) before model).model = current at *
  rcases force_eq (setWithin value depth) select current with
    ⟨reached, forced, -, sets⟩ | ⟨none, -⟩
  · obtain rfl : target = reached := Option.some.inj ((steady current kept).symm.trans forced)
    rw [sets] at forcing left
    exact ⟨forcing, left⟩
  · cases (steady current kept).symm.trans none

end Sustained

theorem bare_each_force (value : Value) (depth : Nat) (selects : List Conditional)
    (model : Model) :
    (Run.each (force (setWithin value depth)) selects model).model.bare = model.bare :=
  @Run.each_invariant _ (fun current => current.bare = model.bare) _ _
    (fun select _ current same =>
      (bare_force (bare_setWithin value depth) select current).trans same) _ rfl

/-- Only entries that selects lead to get the value, and all others keep theirs. -/
theorem override?_setWithin_or {value : Value} {depth : Nat} {id : EntryId} {model : Model}
    (other : EntryId) :
    (setWithin value depth id model).model.override? other = model.override? other ∨
      (setWithin value depth id model).model.override? other = some value ∧
        Relation.ReflTransGen model.Selects id other := by
  have sustained : Sustained model value (Relation.ReflTransGen model.Selects id)
      fun current => current.bare = model.bare ∧
        (current.override? other = model.override? other ∨
          current.override? other = some value ∧ Relation.ReflTransGen model.Selects id other) :=
    { same := fun _ holds => holds.1
      closed := by
        intro source origin select member current holds target forced
        have found := lookup_of_forced? forced
        rw [lookup_of_bare holds.1] at found
        exact origin.tail ⟨select, member, found⟩
      stored := by
        rintro source origin current ⟨same, before⟩
        refine ⟨(bare_store current source _).trans same, ?_⟩
        rcases override?_store_or current source value other with stays | ⟨gets, rfl⟩
        · rwa [stays]
        · exact .inr ⟨gets, origin⟩ }
  exact (sustained.holds_setWithin .refl ⟨rfl, .inl rfl⟩).2

theorem override?_setWithin_self {value : Value} {depth : Nat} {id other : EntryId} {model : Model}
    (has : model.override? other = some value) :
    (setWithin value depth id model).model.override? other = some value := by
  rcases @override?_setWithin_or value depth id model other with stays | ⟨gets, -⟩
  · rw [stays, has]
  · exact gets

theorem override?_each_force_self {value : Value} {depth : Nat} {other : EntryId}
    (selects : List Conditional) {model : Model} (has : model.override? other = some value) :
    (Run.each (force (setWithin value depth)) selects model).model.override? other =
      some value := by
  refine @Run.each_invariant _ (fun current => current.override? other = some value) _ _
    (fun select _ current before => ?_) _ has
  rcases force_eq (setWithin value depth) select current with ⟨target, -, -, sets⟩ | ⟨-, _, stays⟩
  · rw [sets]
    exact override?_setWithin_self before
  · rw [stays]
    exact before

theorem override?_setWithin_of_present {value : Value} {depth : Nat} {id : EntryId}
    {model : Model} (present : id < model.size) :
    (setWithin value (depth + 1) id model).model.override? id = some value := by
  rw [setWithin_succ, model_andThen_announce]
  refine override?_each_force_self _ ?_
  rw [override?_store present, if_pos rfl]

/-- If an edit succeeds, all entries that selects lead to which are forced throughout have the
value. -/
theorem Sustained.override?_of_steady {base : Model} {value : Value} {reached : EntryId → Prop}
    {invariant : Model → Prop} (sustained : Sustained base value reached invariant)
    {edge : EntryId → EntryId → Prop}
    (steady : ∀ source, reached source → ∀ target, edge source target →
      ∃ select ∈ base.selectsOf source, ∀ current, invariant current →
        current.forced? select = some target)
    {depth : Nat} {id other : EntryId} {model : Model} (origin : reached id)
    (holds : invariant model) (ended : (setWithin value depth id model).outcome = .ok ())
    (path : Relation.ReflTransGen edge id other) (present : other < base.size) :
    (setWithin value depth id model).model.override? other = some value := by
  induction depth generalizing id model with
  | zero => cases ended
  | succ depth ih =>
      -- The first step of the path is set on the way; nothing that follows takes the value away.
      rcases path.cases_head with rfl | ⟨target, step, behind⟩
      · refine override?_setWithin_of_present ?_
        rwa [size_of_bare (sustained.same model holds)]
      · obtain ⟨select, member, forced⟩ := steady id origin target step
        rw [setWithin_succ, selectsOf_of_bare (sustained.same model holds)] at ended ⊢
        obtain ⟨_, cascade, -⟩ := Run.andThen_eq_ok_iff.mp ended
        obtain ⟨current, after, kept, setting, left⟩ := sustained.exists_setting origin
          (fun _ member => member) (sustained.stored id origin model holds) cascade member forced
        have onward := sustained.closed id origin select member current kept target
          (forced current kept)
        rw [model_andThen_announce, left]
        exact override?_each_force_self _ (ih onward kept setting behind)

theorem override?_of_requires {value : Value} {depth : Nat} {id other : EntryId} {model : Model}
    (ended : (setWithin value depth id model).outcome = .ok ())
    (required : Relation.ReflTransGen model.Requires id other) (present : other < model.size) :
    (setWithin value depth id model).model.override? other = some value := by
  have sustained : Sustained model value (fun _ => True) fun current =>
      current.bare = model.bare :=
    { same := fun _ same => same
      closed := fun _ _ _ _ _ _ _ _ => trivial
      stored := fun source _ current same => (bare_store current source _).trans same }
  refine sustained.override?_of_steady ?_ trivial rfl ended required present
  rintro source - target ⟨select, member, unconditional, found⟩
  refine ⟨select, member, fun current same => ?_⟩
  rw [forced?_of_unconditional current unconditional, lookup_of_bare same, found]

/-- Whether or not it succeeds, an edit gives its value to the entry that is set and else only to
entries that selects lead to, and it changes nothing else. -/
theorem set_footprint {model : Model} {id : EntryId} (present : id < model.size) (value : Value) :
    ((model.set id value).model.bare = model.bare ∧
      (model.set id value).model.options = model.options) ∧
    (∀ other, (model.set id value).model.override? other = model.override? other ∨
      (model.set id value).model.override? other = some value ∧
        Relation.ReflTransGen model.Selects id other) ∧
    (model.set id value).model.override? id = some value ∧
    ((model.set id value).outcome = .ok () → ∀ other < model.size,
      Relation.ReflTransGen model.Requires id other →
        (model.set id value).model.override? other = some value) := by
  refine ⟨⟨bare_set model id value, ?_⟩, fun other => override?_setWithin_or other, ?_,
    fun ended other bounded required => override?_of_requires ended required bounded⟩
  · exact (bare_after model [.set id value]).2
  · obtain ⟨depth, positive⟩ := Nat.exists_eq_add_one_of_ne_zero
      (Nat.mul_ne_zero (Nat.ne_zero_of_lt present) (Nat.ne_zero_of_lt present))
    rw [set, selectDepth, positive]
    exact override?_setWithin_of_present present

/-- An edit that passes a value on through two selects in a row. -/
theorem set_footprint_of_chain :
    let first : Entry :=
      { symbol := some "A", type := some .tristate, selects := [⟨"X", some "D"⟩, ⟨"B", none⟩] }
    let second : Entry := { symbol := some "B", type := some .tristate, selects := [⟨"C", none⟩] }
    let third : Entry := { symbol := some "C", type := some .tristate }
    let model : Model :=
      { registry :=
          { entries := [{ kind := .menu }, first, second, third]
            names := [("A", 1), ("B", 2), ("C", 3)] } }
    1 < model.size ∧ (model.set 1 (.text "m")).outcome = .ok () ∧
      (model.set 1 (.text "m")).model.override? 3 = some (.text "m") := by
  intro first second third model
  have present : 1 < model.size := by decide
  have ended : (model.set 1 (.text "m")).outcome = .ok () := by decide +kernel
  have upper : model.Requires 1 2 := ⟨⟨"B", none⟩, by decide, rfl, by decide⟩
  have lower : model.Requires 2 3 := ⟨⟨"C", none⟩, by decide, rfl, by decide⟩
  exact ⟨present, ended, (set_footprint present (.text "m")).2.2.2 ended 3 (by decide)
    ((Relation.ReflTransGen.single upper).tail lower)⟩

end Model
end OptionTree
