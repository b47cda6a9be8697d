import OptionTree.Proofs.Lists
import OptionTree.Proofs.SameTree

/-!
# What setting an entry assigns

Setting an entry assigns the same value to all entries that it reaches through selects that apply,
and to no others.  Which selects apply is decided while they are gone through, so what is assigned
depends on the values at that time.  Of several settings the last one that assigns an entry decides
its value.
-/

namespace OptionTree
namespace Model

/-- The entry that a select forces: its target, if it applies. -/
def forced? (model : Model) (select : Conditional) : Option EntryId :=
  match model.holds select.condition with
  | .ok true => model.lookup select.value
  | _ => none

theorem lookup_of_forced? {model : Model} {select : Conditional} {target : EntryId}
    (forced : model.forced? select = some target) : model.lookup select.value = some target := by
  rw [forced?] at forced
  split at forced
  · exact forced
  · cases forced

/-- The entries that are assigned by the selects of an entry one after the other, if setting one of
their targets assigns what is given.  None is gone through after one that fails. -/
def forcedBy (assign : EntryId → Model → Run Unit) (assigned : EntryId → Model → List EntryId) :
    List Conditional → Model → List EntryId
  | [], _ => []
  | select :: rest, model =>
    ((model.forced? select).map fun target => assigned target model).getD [] ++
      match (force assign select model).outcome with
      | .ok _ => forcedBy assign assigned rest (force assign select model).model
      | .error _ => []

/-- The entries that are assigned when an entry is set, with selects nested at most as deep as
given. -/
def assignedWithin (value : Value) : Nat → EntryId → Model → List EntryId
  | 0, _, _ => []
  | depth + 1, id, model =>
    id :: forcedBy (setWithin value depth) (assignedWithin value depth) (model.selectsOf id)
      (model.store id (some value))

/-- The entries that are assigned when an entry is set. -/
def assigned (model : Model) (id : EntryId) (value : Value) : List EntryId :=
  assignedWithin value model.selectDepth id model

/-- Whether every registered symbol has an entry. -/
def Complete (model : Model) : Prop :=
  ∀ symbol target, model.lookup symbol = some target → target < model.size

theorem Complete.of_bare {first second : Model} (complete : first.Complete)
    (same : first.bare = second.bare) : second.Complete := by
  intro symbol target found
  rw [← lookup_of_bare same] at found
  rw [← size_of_bare same]
  exact complete symbol target found

theorem bare_setWithin (value : Value) (depth : Nat) (id : EntryId) (model : Model) :
    (setWithin value depth id model).model.bare = model.bare :=
  @setWithin_related (fun first second => second.bare = first.bare) (fun _ => rfl)
    (fun _ _ _ first second => second.trans first) bare_store value depth id model

theorem override?_store_of_lt {model : Model} {id other : EntryId} (present : other < model.size)
    (value : Option Value) :
    (model.store id value).override? other =
      if id = other then value else model.override? other := by
  rw [override?, get?_store]
  split
  · obtain ⟨entry, found⟩ : ∃ entry, model.get? other = some entry :=
      ⟨_, List.getElem?_eq_getElem present⟩
    simp [found]
  · rfl

theorem override?_store {model : Model} {id : EntryId} (present : id < model.size)
    (value : Option Value) (other : EntryId) :
    (model.store id value).override? other =
      if id = other then value else model.override? other := by
  by_cases own : id = other
  · subst own
    exact override?_store_of_lt present value
  · rw [override?, get?_store, if_neg own, if_neg own]
    rfl

theorem force_eq (assign : EntryId → Model → Run Unit) (select : Conditional) (model : Model) :
    (∃ target, model.forced? select = some target ∧ model.lookup select.value = some target ∧
        force assign select model = assign target model) ∨
      (model.forced? select = none ∧
        ∃ outcome, force assign select model = Run.done model outcome) := by
  unfold force forced?
  cases model.holds select.condition with
  | error cause => exact .inr ⟨rfl, .error cause, rfl⟩
  | ok applies =>
      rw [Run.andThen_done_ok]
      cases applies with
      | false => exact .inr ⟨rfl, .ok (), rfl⟩
      | true =>
          simp only [if_true]
          cases model.lookup select.value with
          | none => exact .inr ⟨rfl, .ok (), rfl⟩
          | some target => exact .inl ⟨target, rfl, rfl, rfl⟩

theorem bare_force {assign : EntryId → Model → Run Unit}
    (keeps : ∀ target model, (assign target model).model.bare = model.bare)
    (select : Conditional) (model : Model) :
    (force assign select model).model.bare = model.bare := by
  rcases force_eq assign select model with ⟨target, -, -, same⟩ | ⟨-, outcome, same⟩
  · rw [same, keeps]
  · rw [same]
    rfl

/-- What the selects of an entry assign to an entry that exists, if setting one of their targets
assigns what is given. -/
theorem override?_each_force {assign : EntryId → Model → Run Unit}
    {assigned : EntryId → Model → List EntryId} {value : Value} {other : EntryId}
    (keeps : ∀ target model, (assign target model).model.bare = model.bare)
    (sets : ∀ target (model : Model), other < model.size →
      (assign target model).model.override? other =
        if other ∈ assigned target model then some value else model.override? other)
    (selects : List Conditional) {model : Model} (present : other < model.size) :
    (Run.each (force assign) selects model).model.override? other =
      if other ∈ forcedBy assign assigned selects model then some value
      else model.override? other := by
  induction selects generalizing model with
  | nil => simp [Run.each, Run.done, forcedBy]
  | cons select rest ih =>
      have first : (force assign select model).model.override? other =
          if other ∈ ((model.forced? select).map fun target => assigned target model).getD [] then
            some value
          else model.override? other := by
        rcases force_eq assign select model with
          ⟨target, forced, -, same⟩ | ⟨forced, outcome, same⟩
        · rw [same, forced]
          exact sets target model present
        · rw [same, forced]
          rfl
      have behind := @ih (force assign select model).model
        (by rwa [size_of_bare (bare_force keeps select model)])
      rw [Run.each, forcedBy]
      cases ended : (force assign select model).outcome with
      | error cause => rw [Run.model_andThen_error ended, first, List.append_nil]
      | ok done =>
          rw [Run.model_andThen ended, behind, first]
          exact List.ite_mem_append

/-- Setting an entry assigns the value to the entries that exist and are said to be assigned, and
nothing to others. -/
theorem override?_setWithin_of_lt {value : Value} {depth : Nat} {id other : EntryId}
    {model : Model} (present : other < model.size) :
    (setWithin value depth id model).model.override? other =
      if other ∈ assignedWithin value depth id model then some value
      else model.override? other := by
  induction depth generalizing id model with
  | zero => rfl
  | succ depth ih =>
      rw [setWithin_succ, model_andThen_announce,
        override?_each_force (bare_setWithin value depth) (fun _ _ => ih) _
          (by rwa [size_store]),
        override?_store_of_lt present, assignedWithin]
      by_cases own : id = other
      · simp [own]
      · simp [own, Ne.symm own]

theorem exists_of_mem_forcedBy {assign : EntryId → Model → Run Unit}
    {assigned : EntryId → Model → List EntryId}
    (keeps : ∀ target model, (assign target model).model.bare = model.bare)
    {selects : List Conditional} {model : Model} {other : EntryId}
    (member : other ∈ forcedBy assign assigned selects model) :
    ∃ select ∈ selects, ∃ target, model.lookup select.value = some target ∧
      ∃ later : Model, later.bare = model.bare ∧ other ∈ assigned target later := by
  induction selects generalizing model with
  | nil => cases member
  | cons select rest ih =>
      rcases List.mem_append.mp member with own | behind
      · cases forced : model.forced? select with
        | none => simp [forced] at own
        | some target =>
            rw [forced] at own
            exact ⟨select, List.mem_cons_self, target, lookup_of_forced? forced, model, rfl, own⟩
      · split at behind
        · obtain ⟨origin, present, target, found, later, same, inside⟩ := ih behind
          have kept := bare_force keeps select model
          rw [lookup_of_bare kept] at found
          exact ⟨origin, List.mem_cons_of_mem _ present, target, found, later, same.trans kept,
            inside⟩
        · cases behind

/-- All entries that are assigned exist, if all registered symbols have an entry. -/
theorem lt_size_of_mem_assignedWithin {value : Value} {depth : Nat} {id other : EntryId}
    {model : Model} (complete : model.Complete) (present : id < model.size)
    (member : other ∈ assignedWithin value depth id model) : other < model.size := by
  induction depth generalizing id model with
  | zero => cases member
  | succ depth ih =>
      rcases List.mem_cons.mp member with rfl | forced
      · exact present
      · obtain ⟨select, -, target, found, later, same, inside⟩ :=
          exists_of_mem_forcedBy (bare_setWithin value depth) forced
        rw [bare_store] at same
        rw [← size_of_bare same]
        refine ih (complete.of_bare same.symm) ?_ inside
        rw [size_of_bare same]
        exact complete _ _ found

theorem override?_of_not_lt {model : Model} {id : EntryId} (absent : ¬id < model.size) :
    model.override? id = none := by
  rw [override?, get?, Registry.get?, List.getElem?_eq_none (Nat.not_lt.mp absent)]
  rfl

theorem override?_setWithin {value : Value} {depth : Nat} {id : EntryId} {model : Model}
    (complete : model.Complete) (present : id < model.size) (other : EntryId) :
    (setWithin value depth id model).model.override? other =
      if other ∈ assignedWithin value depth id model then some value
      else model.override? other := by
  by_cases inside : other < model.size
  · exact override?_setWithin_of_lt inside
  · have outside : other ∉ assignedWithin value depth id model := fun member =>
      inside (lt_size_of_mem_assignedWithin complete present member)
    rw [if_neg outside, override?_of_not_lt inside, override?_of_not_lt]
    rwa [size_of_bare (bare_setWithin value depth id model)]

/-- Whether every select of an entry names a symbol that is not registered or that of a later
entry. -/
def Forward (model : Model) : Prop :=
  ∀ id, ∀ select ∈ model.selectsOf id, ∀ target, model.lookup select.value = some target →
    id < target

theorem lt_size_of_mem_selectsOf {model : Model} {id : EntryId} {select : Conditional}
    (member : select ∈ model.selectsOf id) : id < model.size := by
  cases found : model.get? id with
  | none => simp [selectsOf, found] at member
  | some entry => exact (List.getElem?_eq_some_iff.mp found).1

theorem forward_iff (model : Model) :
    model.Forward ↔ ∀ id < model.size, ∀ select ∈ model.selectsOf id,
      ∀ target ∈ model.lookup select.value, id < target := by
  constructor
  · intro forward id _ select member
    exact forward id select member
  · intro forward id select member
    exact forward id (lt_size_of_mem_selectsOf member) select member

instance (model : Model) : Decidable model.Forward :=
  decidable_of_iff _ (forward_iff model).symm

theorem Forward.of_bare {first second : Model} (forward : first.Forward)
    (same : first.bare = second.bare) : second.Forward := by
  intro id select member target found
  rw [← selectsOf_of_bare same] at member
  rw [← lookup_of_bare same] at found
  exact forward id select member target found

theorem le_of_mem_assignedWithin {value : Value} {depth : Nat} {id : EntryId} {model : Model}
    (forward : model.Forward) {other : EntryId}
    (member : other ∈ assignedWithin value depth id model) : id ≤ other := by
  induction depth generalizing id model with
  | zero => cases member
  | succ depth ih =>
      rcases List.mem_cons.mp member with rfl | forced
      · exact Nat.le_refl _
      · obtain ⟨select, present, target, found, later, same, inside⟩ :=
          exists_of_mem_forcedBy (bare_setWithin value depth) forced
        rw [bare_store] at same
        have before : id < target := forward id select present target found
        exact Nat.le_trans (Nat.le_of_lt before) (ih (forward.of_bare same.symm) inside)

/-- The model after entries were set one after the other, whether or not their selects can all be
gone through. -/
def setAll (settings : List (EntryId × Value)) (model : Model) : Model :=
  settings.foldl (fun model setting => (model.set setting.1 setting.2).model) model

/-- The last of some settings that assigns an entry. -/
def lastSource (target : EntryId) : List (EntryId × Value) → Model → Option (EntryId × Value)
  | [], _ => none
  | setting :: rest, model =>
    (lastSource target rest (model.set setting.1 setting.2).model).or
      (if target ∈ model.assigned setting.1 setting.2 then some setting else none)

theorem bare_set (model : Model) (id : EntryId) (value : Value) :
    (model.set id value).model.bare = model.bare :=
  bare_setWithin value model.selectDepth id model

theorem bare_setAll (settings : List (EntryId × Value)) (model : Model) :
    (setAll settings model).bare = model.bare := by
  induction settings generalizing model with
  | nil => rfl
  | cons setting rest ih => exact (ih _).trans (bare_set model setting.1 setting.2)

/-- After some settings an entry has the value of the last one that assigns it. -/
theorem override?_setAll {settings : List (EntryId × Value)} {model : Model}
    (complete : model.Complete) (present : ∀ setting ∈ settings, setting.1 < model.size)
    (target : EntryId) :
    (setAll settings model).override? target =
      ((lastSource target settings model).map Prod.snd).or (model.override? target) := by
  induction settings generalizing model with
  | nil => rfl
  | cons setting rest ih =>
      have same := bare_set model setting.1 setting.2
      have others : ∀ other ∈ rest, other.1 < (model.set setting.1 setting.2).model.size := by
        intro other member
        rw [size_of_bare same]
        exact present other (List.mem_cons_of_mem _ member)
      have first : (model.set setting.1 setting.2).model.override? target =
          if target ∈ model.assigned setting.1 setting.2 then some setting.2
          else model.override? target :=
        override?_setWithin complete (present setting List.mem_cons_self) target
      have behind := ih (complete.of_bare same.symm) others
      rw [setAll] at behind
      rw [setAll, List.foldl_cons, behind, first, lastSource]
      cases lastSource target rest (model.set setting.1 setting.2).model with
      | some source => rfl
      | none =>
          by_cases own : target ∈ model.assigned setting.1 setting.2
          · simp [own]
          · simp [own]

theorem exists_selectDepth {model : Model} {id : EntryId} (present : id < model.size) :
    ∃ depth, model.selectDepth = depth + 1 :=
  Nat.exists_eq_add_one_of_ne_zero
    (Nat.mul_ne_zero (Nat.ne_zero_of_lt present) (Nat.ne_zero_of_lt present))

theorem mem_assigned {model : Model} {id : EntryId} (present : id < model.size) (value : Value) :
    id ∈ model.assigned id value := by
  obtain ⟨depth, positive⟩ := exists_selectDepth present
  rw [assigned, positive]
  exact List.mem_cons_self

theorem mem_of_lastSource {target : EntryId} {settings : List (EntryId × Value)} {model : Model}
    {setting : EntryId × Value} (found : lastSource target settings model = some setting) :
    setting ∈ settings := by
  induction settings generalizing model with
  | nil => cases found
  | cons head rest ih =>
      rcases Option.or_eq_some_iff.mp found with behind | ⟨-, own⟩
      · exact List.mem_cons_of_mem _ (ih behind)
      · split at own
        · obtain rfl := Option.some.inj own
          exact List.mem_cons_self
        · cases own

theorem lastSource_isSome {settings : List (EntryId × Value)} {model : Model}
    (present : ∀ setting ∈ settings, setting.1 < model.size) {setting : EntryId × Value}
    (member : setting ∈ settings) : (lastSource setting.1 settings model).isSome := by
  induction settings generalizing model with
  | nil => cases member
  | cons head rest ih =>
      rw [lastSource, Option.isSome_or]
      rcases List.mem_cons.mp member with rfl | inside
      · simp [mem_assigned (present setting List.mem_cons_self) setting.2]
      · have others : ∀ other ∈ rest, other.1 < (model.set head.1 head.2).model.size := by
          intro other inner
          rw [size_of_bare (bare_set model head.1 head.2)]
          exact present other (List.mem_cons_of_mem _ inner)
        simp [ih others inside]

theorem lastSource_eq_none {settings : List (EntryId × Value)} {model : Model}
    (forward : model.Forward) {target : EntryId}
    (later : ∀ setting ∈ settings, target < setting.1) :
    lastSource target settings model = none := by
  induction settings generalizing model with
  | nil => rfl
  | cons setting rest ih =>
      have outside : target ∉ model.assigned setting.1 setting.2 := fun member =>
        absurd (le_of_mem_assignedWithin forward member)
          (Nat.not_le_of_lt (later setting List.mem_cons_self))
      have behind := ih (forward.of_bare (bare_set model setting.1 setting.2).symm)
        fun other member => later other (List.mem_cons_of_mem _ member)
      rw [lastSource, behind, if_neg outside]
      rfl

/-- If selects point forward and entries are set in their order, each setting is the last one that
assigns its entry. -/
theorem lastSource_of_forward {settings : List (EntryId × Value)} {model : Model}
    (forward : model.Forward) (present : ∀ setting ∈ settings, setting.1 < model.size)
    (ordered : settings.Pairwise fun first second => first.1 < second.1)
    {setting : EntryId × Value} (member : setting ∈ settings) :
    lastSource setting.1 settings model = some setting := by
  induction settings generalizing model with
  | nil => cases member
  | cons head rest ih =>
      obtain ⟨before, ordered⟩ := List.pairwise_cons.mp ordered
      have same := bare_set model head.1 head.2
      have forwardLater := forward.of_bare same.symm
      rw [lastSource]
      rcases List.mem_cons.mp member with rfl | inside
      · rw [lastSource_eq_none forwardLater before,
          if_pos (mem_assigned (present setting List.mem_cons_self) setting.2)]
        rfl
      · have others : ∀ other ∈ rest, other.1 < (model.set head.1 head.2).model.size := by
          intro other member
          rw [size_of_bare same]
          exact present other (List.mem_cons_of_mem _ member)
        rw [ih forwardLater others ordered inside]
        rfl

theorem eq_of_mem_assigned {model : Model} {id : EntryId} (selects : model.selectsOf id = [])
    {value : Value} {other : EntryId} (member : other ∈ model.assigned id value) : other = id := by
  rw [assigned] at member
  cases bound : model.selectDepth with
  | zero =>
      rw [bound] at member
      cases member
  | succ depth =>
      rw [bound, assignedWithin, selects] at member
      exact List.mem_singleton.mp member

theorem fst_of_lastSource {settings : List (EntryId × Value)} {model : Model}
    (selects : ∀ id, model.selectsOf id = []) {target : EntryId} {setting : EntryId × Value}
    (found : lastSource target settings model = some setting) : setting.1 = target := by
  induction settings generalizing model with
  | nil => cases found
  | cons head rest ih =>
      have same := bare_set model head.1 head.2
      rcases Option.or_eq_some_iff.mp found with behind | ⟨-, own⟩
      · exact ih (fun id => (selectsOf_of_bare same id).trans (selects id)) behind
      · split at own
        · rename_i member
          obtain rfl := Option.some.inj own
          exact (eq_of_mem_assigned (selects head.1) member).symm
        · cases own

theorem forward_of_selectless {model : Model} (selects : ∀ id, model.selectsOf id = []) :
    model.Forward := by
  intro id select member
  rw [selects id] at member
  cases member

end Model
end OptionTree
