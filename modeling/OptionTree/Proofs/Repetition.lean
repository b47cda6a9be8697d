import OptionTree.Proofs.Footprint
import OptionTree.Proofs.Reference

/-!
# Repeating an edit

The conditions of selects are looked at one after the other while the cascade changes the entries
that they mention, so a select that did not apply the first time may apply when the same edit is
repeated.  An edit that is repeated changes nothing exactly if, after the first time, all entries
that forced selects lead to have the value.  This is so if no condition on the way reads an entry
that selects lead to.
-/

namespace OptionTree
namespace Model

/-- Whether a select of one entry applies and names the symbol of another one. -/
def Forces (model : Model) (source target : EntryId) : Prop :=
  ∃ select ∈ model.selectsOf source, model.forced? select = some target

/-- Whether all entries that forced selects lead to have a value. -/
def Settled (model : Model) (id : EntryId) (value : Value) : Prop :=
  ∀ other < model.size, Relation.ReflTransGen model.Forces id other →
    model.override? other = some value

/-- Whether no condition of a select on the way from an entry reads an entry that selects lead to
from there, except for the entry itself. -/
def Undisturbed (model : Model) (id : EntryId) : Prop :=
  ∀ source, Relation.ReflTransGen model.Selects id source → ∀ select ∈ model.selectsOf source,
    ∀ name ∈ Expression.conditionNames select.condition, ∀ target,
      model.lookup name = some target → ∀ other, Relation.ReflTransGen model.Refers target other →
        Relation.ReflTransGen model.Selects id other → other = id

/-- Whether two models set, value and show all entries alike. -/
def ShowAlike (first second : Model) : Prop :=
  ∀ id, first.override? id = second.override? id ∧ first.value id = second.value id ∧
    first.isVisible id = second.isVisible id

theorem eq_of_bare {first second : Model} (same : first.bare = second.bare)
    (options : first.options = second.options)
    (set : ∀ id, first.override? id = second.override? id) : first = second := by
  have names : first.registry.names = second.registry.names := by
    have kept := congrArg (fun model => model.registry.names) same
    exact kept
  have mentions : first.mentions = second.mentions := by
    have kept := congrArg Model.mentions same
    exact kept
  have entries : first.registry.entries = second.registry.entries :=
    List.ext_getElem? fun id => get?_of_bare same (set id)
  obtain ⟨⟨_, _⟩, _, _, _⟩ := first
  obtain ⟨⟨_, _⟩, _, _, _⟩ := second
  have implications := implications_of_bare same
  simp_all

theorem store_eq_self {model : Model} {id : EntryId} {value : Value}
    (has : id < model.size → model.override? id = some value) :
    model.store id (some value) = model := by
  refine eq_of_bare (bare_store model id _) rfl fun other => ?_
  rcases override?_store_or model id value other with stays | ⟨gets, rfl⟩
  · exact stays
  · have present := lt_size_of_override? gets
    rw [size_store] at present
    rw [gets, has present]

/-- Setting an entry changes nothing if all entries that forced selects lead to have the value. -/
theorem model_set_of_settled {model : Model} {id : EntryId} {value : Value}
    (settled : model.Settled id value) : (model.set id value).model = model := by
  have sustained : Sustained model value (Relation.ReflTransGen model.Forces id) (· = model) :=
    { same := by
        rintro current rfl
        rfl
      closed := by
        rintro source origin select member current rfl target forced
        exact origin.tail ⟨select, member, forced⟩
      stored := by
        rintro other path current rfl
        exact store_eq_self fun present => settled other present path }
  exact sustained.holds_setWithin .refl rfl

/-- Whether a model differs from another one only by entries that got a value. -/
def Grows (value : Value) (first second : Model) : Prop :=
  second.bare = first.bare ∧ second.options = first.options ∧
    ∀ other, second.override? other = first.override? other ∨ second.override? other = some value

namespace Grows

variable {value : Value} {first second : Model}

theorem refl (value : Value) (model : Model) : Grows value model model :=
  ⟨rfl, rfl, fun _ => .inl rfl⟩

theorem antisymm (forth : Grows value first second) (back : Grows value second first) :
    second = first := by
  refine eq_of_bare forth.1 forth.2.1 fun other => ?_
  rcases forth.2.2 other with stays | gets
  · exact stays
  · rcases back.2.2 other with stays | has
    · exact stays.symm
    · rw [gets, has]

theorem sustained (model : Model) :
    Sustained model value (fun _ => True) (Grows value model) where
  same := fun _ grows => grows.1
  closed := fun _ _ _ _ _ _ _ _ => trivial
  stored := by
    rintro id - current ⟨same, options, set⟩
    refine ⟨(bare_store current id _).trans same, options, fun other => ?_⟩
    rcases override?_store_or current id value other with stays | ⟨gets, -⟩
    · rw [stays]
      exact set other
    · exact .inr gets

theorem store (value : Value) (model : Model) (id : EntryId) :
    Grows value model (model.store id (some value)) :=
  (sustained model).stored id trivial model (refl value model)

theorem force (depth : Nat) (select : Conditional) {model : Model}
    (grows : Grows value first model) :
    Grows value first (Model.force (setWithin value depth) select model).model := by
  rcases force_eq (setWithin value depth) select model with ⟨target, -, -, sets⟩ | ⟨-, _, stays⟩
  · rw [sets]
    exact (sustained first).holds_setWithin trivial grows
  · rw [stays]
    exact grows

theorem each_force (depth : Nat) (selects : List Conditional) {model : Model}
    (grows : Grows value first model) :
    Grows value first (Run.each (Model.force (setWithin value depth)) selects model).model :=
  Run.each_invariant (fun select _ _ kept => kept.force depth select) grows

/-- Nothing is taken back, so a cascade that ends with a model from which it started never left
it. -/
theorem force_of_each {depth : Nat} {selects : List Conditional} {model start : Model}
    (grows : Grows value model start)
    (ended : (Run.each (Model.force (setWithin value depth)) selects start).outcome = .ok ())
    (stays : (Run.each (Model.force (setWithin value depth)) selects start).model = model)
    {select : Conditional} (member : select ∈ selects) :
    (Model.force (setWithin value depth) select model).outcome = .ok () ∧
      (Model.force (setWithin value depth) select model).model = model := by
  obtain ⟨before, after, -, forcing, left⟩ := Run.each_split ended member
  have reached := grows.each_force depth before
  generalize (Run.each (Model.force (setWithin value depth)) before start).model = current at *
  have onward := (refl value current).force depth select
  -- Each part of the cascade only adds values, so none adds any if the whole adds none.
  have returns := onward.each_force depth after
  rw [← left, stays] at returns
  obtain rfl := reached.antisymm returns
  have back := (refl value (Model.force (setWithin value depth) select current).model).each_force
    depth after
  rw [← left, stays] at back
  exact ⟨forcing, onward.antisymm back⟩

end Grows

/-- If setting an entry succeeds and changes nothing, all entries that forced selects lead to have
the value. -/
theorem settled_of_model_setWithin {value : Value} {depth : Nat} {id : EntryId} {model : Model}
    (ended : (setWithin value depth id model).outcome = .ok ())
    (stays : (setWithin value depth id model).model = model) : model.Settled id value := by
  induction depth generalizing id with
  | zero => cases ended
  | succ depth ih =>
      intro other present path
      rcases path.cases_head with rfl | ⟨target, ⟨select, member, forced⟩, behind⟩
      · have has := @override?_setWithin_of_present value depth id model present
        rwa [stays] at has
      · rw [setWithin_succ] at ended stays
        rw [model_andThen_announce] at stays
        obtain ⟨_, cascade, -⟩ := Run.andThen_eq_ok_iff.mp ended
        obtain ⟨forcing, unchanged⟩ :=
          (Grows.store value model id).force_of_each cascade stays member
        rcases force_eq (setWithin value depth) select model with
          ⟨reached, again, -, sets⟩ | ⟨none, -⟩
        · obtain rfl : target = reached := Option.some.inj (forced.symm.trans again)
          rw [sets] at forcing unchanged
          exact ih forcing unchanged other present behind
        · cases forced.symm.trans none

/-- Whether a model may be met while an entry is being set: the entry has the value, and all
entries that its selects do not lead to are as before. -/
structure Underway (base : Model) (id : EntryId) (value : Value) (current : Model) : Prop where
  /-- Only values change. -/
  same : current.bare = base.bare
  /-- The entry has the value. -/
  own : current.override? id = some value
  /-- Other entries keep theirs, unless selects lead to them. -/
  outside : ∀ other, ¬Relation.ReflTransGen base.Selects id other →
    current.override? other = base.override? other

namespace Underway

variable {base : Model} {id : EntryId} {value : Value}

theorem of_store {source : EntryId} (origin : Relation.ReflTransGen base.Selects id source)
    {model : Model} (same : model.bare = base.bare)
    (own : source = id ∧ id < base.size ∨ model.override? id = some value)
    (outside : ∀ other, ¬Relation.ReflTransGen base.Selects id other →
      model.override? other = base.override? other) :
    Underway base id value (model.store source (some value)) := by
  refine ⟨(bare_store model source _).trans same, ?_, fun other beyond => ?_⟩
  · rcases own with ⟨rfl, present⟩ | has
    · rw [override?_store (by rwa [size_of_bare same]), if_pos rfl]
    · rcases override?_store_or model source value id with stays | ⟨gets, -⟩
      · rw [stays, has]
      · exact gets
  · rcases override?_store_or model source value other with stays | ⟨-, rfl⟩
    · rw [stays, outside other beyond]
    · exact absurd origin beyond

theorem sustained : Sustained base value (Relation.ReflTransGen base.Selects id)
    (Underway base id value) where
  same := fun _ underway => underway.same
  closed := by
    intro source origin select member current underway target forced
    have found := lookup_of_forced? forced
    rw [lookup_of_bare underway.same] at found
    exact origin.tail ⟨select, member, found⟩
  stored := fun _ origin _ underway =>
    of_store origin underway.same (.inr underway.own) underway.outside

theorem forced?_eq {first second : Model} (undisturbed : base.Undisturbed id)
    (early : Underway base id value first) (late : Underway base id value second)
    {source : EntryId} (origin : Relation.ReflTransGen base.Selects id source)
    {select : Conditional} (member : select ∈ base.selectsOf source) :
    first.forced? select = second.forced? select := by
  have same := early.same.trans late.same.symm
  have agree : first.holds select.condition = second.holds select.condition := by
    refine holds_congr same fun name mentions target found other path => ?_
    rw [lookup_of_bare early.same] at found
    rw [refers_of_bare early.same] at path
    by_cases reached : Relation.ReflTransGen base.Selects id other
    · obtain rfl := undisturbed source origin select member name mentions target found other path
        reached
      rw [early.own, late.own]
    · rw [early.outside other reached, late.outside other reached]
  rw [forced?, forced?, agree, lookup_of_bare same]

end Underway

/-- An edit does not depend on what its entry was set to before. -/
theorem setWithin_store (value : Value) (depth : Nat) (id : EntryId) (model : Model) :
    setWithin value (depth + 1) id (model.store id (some value)) =
      setWithin value (depth + 1) id model := by
  have again : (model.store id (some value)).store id (some value) =
      model.store id (some value) := by
    refine store_eq_self fun present => ?_
    rw [size_store] at present
    rw [override?_store present, if_pos rfl]
  rw [setWithin_succ, setWithin_succ, again, selectsOf_of_bare (bare_store model id _)]

/-- After an edit that disturbs none of the conditions on its way, all entries that forced selects
lead to have the value. -/
theorem settled_of_undisturbed {model : Model} {id : EntryId} {value : Value}
    (present : id < model.size) (undisturbed : model.Undisturbed id)
    (ended : (model.set id value).outcome = .ok ()) :
    (model.set id value).model.Settled id value := by
  obtain ⟨depth, positive⟩ := exists_selectDepth present
  rw [set, positive, ← setWithin_store] at ended ⊢
  have start : Underway model id value (model.store id (some value)) :=
    .of_store .refl rfl (.inl ⟨rfl, present⟩) fun _ _ => rfl
  have last : Underway model id value
      (setWithin value (depth + 1) id (model.store id (some value))).model :=
    Underway.sustained.holds_setWithin .refl start
  intro other bounded path
  rw [size_of_bare last.same] at bounded
  refine Underway.sustained.override?_of_steady ?_ .refl start ended path bounded
  rintro source origin target ⟨select, member, forced⟩
  rw [selectsOf_of_bare last.same] at member
  refine ⟨select, member, fun current underway => ?_⟩
  rw [underway.forced?_eq undisturbed last origin member, forced]

/-- Repeating an edit changes nothing if all entries that forced selects lead to have the value, as
they do if no condition on the way was disturbed; if it succeeds again, only then. -/
theorem set_again {model : Model} {id : EntryId} {value : Value} (present : id < model.size)
    (ended : (model.set id value).outcome = .ok ()) :
    ((model.set id value).model.Settled id value →
      ShowAlike ((model.set id value).model.set id value).model (model.set id value).model) ∧
    (((model.set id value).model.set id value).outcome = .ok () →
      ShowAlike ((model.set id value).model.set id value).model (model.set id value).model →
        (model.set id value).model.Settled id value) ∧
    (model.Undisturbed id →
      ShowAlike ((model.set id value).model.set id value).model (model.set id value).model) := by
  have repeats : (model.set id value).model.Settled id value →
      ShowAlike ((model.set id value).model.set id value).model (model.set id value).model := by
    intro settled
    rw [model_set_of_settled settled]
    exact fun _ => ⟨rfl, rfl, rfl⟩
  refine ⟨repeats, fun again alike => ?_, fun undisturbed =>
    repeats (settled_of_undisturbed present undisturbed ended)⟩
  refine settled_of_model_setWithin again ?_
  exact eq_of_bare (bare_set _ id value) (bare_after _ [.set id value]).2 fun other =>
    (alike other).1

/-- An edit that does more when it is repeated: the condition of the first select does not hold
until the second select is forced. -/
theorem set_again_of_late_condition :
    let first : Entry := { symbol := some "A", type := some .bool }
    let second : Entry := { symbol := some "B", type := some .bool }
    let third : Entry :=
      { symbol := some "X", type := some .bool, selects := [⟨"A", some "B"⟩, ⟨"B", none⟩] }
    let model : Model :=
      { registry :=
          { entries := [{ kind := .menu }, first, second, third]
            names := [("A", 1), ("B", 2), ("X", 3)] } }
    let once := model.set 3 (.text "y")
    let twice := once.model.set 3 (.text "y")
    3 < model.size ∧ once.outcome = .ok () ∧ twice.outcome = .ok () ∧
      once.model.override? 1 = none ∧ ¬ShowAlike twice.model once.model := by
  intro first second third model once twice
  have present : 3 < model.size := by decide
  have ended : once.outcome = .ok () := by decide +kernel
  have again : twice.outcome = .ok () := by decide +kernel
  have absent : once.model.override? 1 = none := by decide +kernel
  have late : once.model.Forces 3 1 := ⟨⟨"A", some "B"⟩, by decide +kernel, by decide +kernel⟩
  refine ⟨present, ended, again, absent, fun alike => ?_⟩
  have settled := (set_again present ended).2.1 again alike
  cases absent.symm.trans (settled 1 (by decide +kernel) (.single late))

end Model
end OptionTree
