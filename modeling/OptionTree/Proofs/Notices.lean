import OptionTree.Proofs.Export
import OptionTree.Proofs.Mentions

/-!
# What observers are told

Setting an entry tells the value of every entry that is assigned, once for each time that it is
assigned, after everything that its selects force.  Every entry that is shown or hidden by the edit
is told about, and what is told about it last is so at the end: each entry that gets the value is
followed by those that mention its symbol.  All of this supposes that values do not refer to each
other.
-/

namespace OptionTree

namespace Notice

/-- The entry whose value is told. -/
def told? : Notice → Option EntryId
  | value id _ => some id
  | visibility .. => none

/-- Whether an entry is said to be shown, if it is told about. -/
def shown? (id : EntryId) : Notice → Option Bool
  | value .. => none
  | visibility other visible => if other = id then some visible else none

/-- What some notices tell last about whether an entry is shown. -/
def lastShown? (id : EntryId) (notices : List Notice) : Option Bool :=
  (notices.filterMap (shown? id)).getLast?

theorem lastShown?_append (id : EntryId) (first second : List Notice) :
    lastShown? id (first ++ second) = (lastShown? id second).or (lastShown? id first) := by
  simp [lastShown?, List.getLast?_append]

@[simp]
theorem lastShown?_value (id other : EntryId) (reading : Except Error (Option Value))
    (notices : List Notice) :
    lastShown? id (.value other reading :: notices) = lastShown? id notices := rfl

theorem lastShown?_of_split {id : EntryId} {visible : Bool} {before after : List Notice}
    (last : ∀ later, .visibility id later ∉ after) :
    lastShown? id (before ++ .visibility id visible :: after) = some visible := by
  have silent : after.filterMap (shown? id) = [] := by
    rw [List.filterMap_eq_nil_iff]
    rintro (⟨other, reading⟩ | ⟨other, later⟩) member
    · rfl
    · rw [shown?, if_neg]
      rintro rfl
      exact last later member
  simp [lastShown?, List.filterMap_append, silent, shown?]

theorem exists_of_lastShown? {id : EntryId} {notices : List Notice} {visible : Bool}
    (shown : lastShown? id notices = some visible) : .visibility id visible ∈ notices := by
  obtain ⟨notice, member, told⟩ := List.mem_filterMap.mp (List.mem_of_getLast? shown)
  rcases notice with ⟨other, reading⟩ | ⟨other, flag⟩
  · cases told
  · rw [shown?] at told
    split at told
    · rename_i same
      obtain rfl := Option.some.inj told
      exact same ▸ member
    · cases told

end Notice

namespace Run

theorem notices_andThen {α β : Type} {run : Run α} {a : α} (ended : run.outcome = .ok a)
    (next : Model → α → Run β) :
    (run.andThen next).notices = run.notices ++ (next run.model a).notices := by
  simp [andThen, ended]

end Run

namespace Model

/-- Whether an entry is shown, as far as that can be told. -/
def shows (model : Model) (id : EntryId) : Bool := (model.isVisible id).toOption.getD false

theorem isVisible_of_eq_ok {model : Model} {id : EntryId} {visible : Bool}
    (shown : model.isVisible id = .ok visible) : visible = model.shows id := by
  rw [shows, shown]
  rfl

theorem notices_each_announceVisibility {ids : List EntryId} {model : Model}
    (ended : (Run.each announceVisibility ids model).outcome = .ok ()) :
    (Run.each announceVisibility ids model).notices =
        ids.map (fun other => .visibility other (model.shows other)) ∧
      ∀ other ∈ ids, model.isVisible other = .ok (model.shows other) := by
  induction ids with
  | nil => exact ⟨rfl, nofun⟩
  | cons id ids ih =>
      obtain ⟨_, first, rest⟩ := Run.andThen_eq_ok_iff.mp ended
      obtain ⟨visible, shown, -⟩ := Run.andThen_eq_ok_iff.mp first
      have shown : model.isVisible id = .ok visible := shown
      obtain rfl := isVisible_of_eq_ok shown
      rw [model_announceVisibility] at rest
      obtain ⟨notices, all⟩ := ih rest
      refine ⟨?_, List.forall_mem_cons.mpr ⟨shown, all⟩⟩
      rw [Run.each, Run.notices_andThen first, model_announceVisibility, notices, List.map_cons]
      simp [announceVisibility, Run.andThen, Run.done, shown]

theorem lastShown?_map (model : Model) (ids : List EntryId) (id : EntryId) :
    Notice.lastShown? id (ids.map fun other => .visibility other (model.shows other)) =
      if id ∈ ids then some (model.shows id) else none := by
  induction ids with
  | nil => rfl
  | cons other ids ih =>
      rw [List.map_cons, ← List.singleton_append, Notice.lastShown?_append, ih]
      by_cases behind : id ∈ ids
      · simp [behind]
      · by_cases same : other = id
        · subst same
          simp [behind, Notice.lastShown?, Notice.shown?]
        · simp [behind, same, Ne.symm same, Notice.lastShown?, Notice.shown?]

/-- A refresh that succeeds tells the value of the entry and then which of the entries that mention
it are shown. -/
theorem notices_refresh {id : EntryId} {model : Model}
    (ended : (refresh id model).outcome = .ok ()) :
    (refresh id model).notices = .value id (model.value id) ::
        (model.dependentsOf id).map (fun other => .visibility other (model.shows other)) ∧
      ∀ other ∈ model.dependentsOf id, model.isVisible other = .ok (model.shows other) := by
  obtain ⟨_, checked, rest⟩ := Run.andThen_eq_ok_iff.mp ended
  obtain ⟨_, told, rest⟩ := Run.andThen_eq_ok_iff.mp rest
  obtain ⟨notices, all⟩ := notices_each_announceVisibility rest
  refine ⟨?_, all⟩
  rw [refresh, Run.notices_andThen checked, Run.notices_andThen told]
  exact congrArg (Notice.value id (model.value id) :: ·) notices

theorem announce_of_no_implies {id : EntryId} {model : Model} (none : model.impliesOf id = [])
    (ended : (announce id model).outcome = .ok ()) :
    (refresh id model).outcome = .ok () ∧
      (announce id model).notices = (refresh id model).notices := by
  obtain ⟨_, refreshed, -⟩ := Run.andThen_eq_ok_iff.mp ended
  refine ⟨refreshed, ?_⟩
  rw [announce, Run.notices_andThen refreshed, refreshImplied, model_refresh, none]
  exact List.append_nil _

theorem setWithin_eq_ok {value : Value} {depth : Nat} {id : EntryId} {model : Model}
    (none : model.impliesOf id = [])
    (ended : (setWithin value (depth + 1) id model).outcome = .ok ()) :
    ∃ cascade, cascade = Run.each (force (setWithin value depth)) (model.selectsOf id)
        (model.store id (some value)) ∧ cascade.outcome = .ok () ∧
      (refresh id cascade.model).outcome = .ok () ∧
      (setWithin value (depth + 1) id model).model = cascade.model ∧
      (setWithin value (depth + 1) id model).notices =
        cascade.notices ++ (refresh id cascade.model).notices := by
  rw [setWithin_succ] at ended ⊢
  obtain ⟨_, forced, announced⟩ := Run.andThen_eq_ok_iff.mp ended
  have same : (Run.each (force (setWithin value depth)) (model.selectsOf id)
      (model.store id (some value))).model.bare = model.bare :=
    (bare_each_force value depth _ _).trans (bare_store model id (some value))
  rw [← impliesOf_of_bare same] at none
  obtain ⟨refreshed, notices⟩ := announce_of_no_implies none announced
  refine ⟨_, rfl, forced, refreshed, model_andThen_announce _ _, ?_⟩
  rw [Run.notices_andThen forced, notices]

/-- Whether an edit can show and hide only entries that mention its symbols: nothing is implied,
values refer to no others, and all conditions can be read and are recorded. -/
structure Transparent (model : Model) : Prop where
  /-- All names in conditions are recorded. -/
  watched : model.Watched
  /-- All conditions can be read as tokens. -/
  sound : model.Sound
  /-- Values do not refer to each other. -/
  unrelated : ∀ source target, ¬model.Refers source target
  /-- Nothing is implied. -/
  noImplies : ∀ id, model.impliesOf id = []

namespace Transparent

theorem of_bare {first second : Model} (transparent : first.Transparent)
    (same : first.bare = second.bare) : second.Transparent where
  watched := transparent.watched.of_bare same
  sound := by
    intro id text
    rw [← conditionsOf_of_bare same]
    exact transparent.sound id text
  unrelated := by
    rw [← refers_of_bare same]
    exact transparent.unrelated
  noImplies := by
    intro id
    rw [← impliesOf_of_bare same]
    exact transparent.noImplies id

theorem complete {model : Model} (transparent : model.Transparent) : model.Complete :=
  fun symbol target found => lt_size_of_symbol? (transparent.watched.registered symbol target found)

end Transparent

/-- Whether what a run tells is true: a value that is told is the one that is set, and at the end
every entry is shown as it was told last, or as before if it was not told about. -/
structure Truthful (value : Value) (before : Model) (run : Run Unit) : Prop where
  /-- Only the value that is set is told. -/
  readings : ∀ id reading, .value id reading ∈ run.notices → reading = .ok (some value)
  /-- The last notice about an entry is true at the end, and others are shown as before. -/
  current : ∀ id, run.model.isVisible id =
    ((Notice.lastShown? id run.notices).map .ok).getD (before.isVisible id)

namespace Truthful

variable {value : Value} {before : Model}

theorem done (model : Model) (outcome : Except Error Unit) :
    Truthful value model (Run.done model outcome) :=
  ⟨nofun, fun _ => rfl⟩

theorem andThen {run : Run Unit} {next : Model → Unit → Run Unit}
    (ended : run.outcome = .ok ()) (first : Truthful value before run)
    (second : Truthful value run.model (next run.model ())) :
    Truthful value before (run.andThen next) := by
  constructor
  · intro id reading member
    rw [Run.notices_andThen ended] at member
    exact (List.mem_append.mp member).elim (first.readings id reading) (second.readings id reading)
  · intro id
    rw [Run.notices_andThen ended, Run.model_andThen ended, Notice.lastShown?_append,
      second.current id, first.current id]
    cases Notice.lastShown? id (next run.model ()).notices <;> rfl

theorem each {α : Type} {invariant : Model → Prop} {action : α → Model → Run Unit}
    {items : List α}
    (keeps : ∀ item model, invariant model → invariant (action item model).model)
    (step : ∀ item model, invariant model → (action item model).outcome = .ok () →
      Truthful value model (action item model))
    {model : Model} (holds : invariant model)
    (ended : (Run.each action items model).outcome = .ok ()) :
    Truthful value model (Run.each action items model) := by
  induction items generalizing model with
  | nil => exact done model (.ok ())
  | cons item items ih =>
      obtain ⟨_, first, rest⟩ := Run.andThen_eq_ok_iff.mp ended
      exact andThen first (step item model holds first) (ih (keeps item model holds) rest)

/-- What follows an edit of one entry makes up for the value that it stores: the entries that
mention its symbol are told about at the end. -/
theorem refresh_behind {id : EntryId} {model : Model} {cascade run : Run Unit}
    (transparent : model.Transparent) (same : cascade.model.bare = model.bare)
    (forced : Truthful value (model.store id (some value)) cascade)
    (has : cascade.model.override? id = some value)
    (refreshed : (refresh id cascade.model).outcome = .ok ())
    (left : run.model = cascade.model)
    (behind : run.notices = cascade.notices ++ (refresh id cascade.model).notices) :
    Truthful value model run := by
  obtain ⟨notices, told⟩ := notices_refresh refreshed
  constructor
  · intro other reading member
    rw [behind, notices] at member
    rcases List.mem_append.mp member with early | late
    · exact forced.readings other reading early
    · rcases List.mem_cons.mp late with own | flags
      · obtain ⟨rfl, rfl⟩ := Notice.value.inj own
        exact value_of_override has
      · simp at flags
  · intro other
    rw [left, behind, Notice.lastShown?_append, notices, Notice.lastShown?_value, lastShown?_map]
    by_cases mentions : other ∈ cascade.model.dependentsOf id
    · rw [if_pos mentions]
      exact told other mentions
    · rw [if_neg mentions, Option.none_or]
      rw [dependentsOf_of_bare same] at mentions
      rw [← isVisible_store transparent.watched transparent.sound transparent.unrelated mentions]
      exact forced.current other

end Truthful

/-- What an edit that succeeds tells is true. -/
theorem Transparent.truthful {value : Value} {depth : Nat} {id : EntryId} {model : Model}
    (transparent : model.Transparent) (present : id < model.size)
    (ended : (setWithin value depth id model).outcome = .ok ()) :
    Truthful value model (setWithin value depth id model) := by
  induction depth generalizing id model with
  | zero => cases ended
  | succ depth ih =>
      obtain ⟨cascade, run, forced, refreshed, left, notices⟩ :=
        setWithin_eq_ok (transparent.noImplies id) ended
      have stored := bare_store model id (some value)
      have same : cascade.model.bare = model.bare := by
        rw [run]
        exact (bare_each_force value depth _ _).trans stored
      have has : cascade.model.override? id = some value := by
        rw [← left]
        exact override?_setWithin_of_present present
      -- Compared with the model that holds the new value, what the cascade tells is already true;
      -- the refresh behind it makes up for the difference that the value itself makes.
      have told : Truthful value (model.store id (some value)) cascade := by
        subst run
        refine @Truthful.each value _ Transparent _ _ (fun select current kept => ?_)
          (fun select current kept forced => ?_) _ (transparent.of_bare stored.symm) forced
        · exact kept.of_bare (bare_force (bare_setWithin value depth) select current).symm
        · rcases force_eq (setWithin value depth) select current with
            ⟨target, -, found, sets⟩ | ⟨-, outcome, stays⟩
          · rw [sets] at forced ⊢
            exact ih kept (kept.complete _ _ found) forced
          · rw [stays]
            exact .done current outcome
      exact told.refresh_behind transparent same has refreshed left notices

theorem told_each_force {value : Value} {depth : Nat}
    (sets : ∀ target model, (∀ other, model.impliesOf other = []) →
      (setWithin value depth target model).outcome = .ok () →
        ((setWithin value depth target model).notices.filterMap Notice.told?).Perm
          (assignedWithin value depth target model))
    {selects : List Conditional} {model : Model} (noImplies : ∀ other, model.impliesOf other = [])
    (ended : (Run.each (force (setWithin value depth)) selects model).outcome = .ok ()) :
    ((Run.each (force (setWithin value depth)) selects model).notices.filterMap Notice.told?).Perm
      (forcedBy (setWithin value depth) (assignedWithin value depth) selects model) := by
  induction selects generalizing model with
  | nil => exact .refl []
  | cons select rest ih =>
      obtain ⟨_, first, later⟩ := Run.andThen_eq_ok_iff.mp ended
      have same := bare_force (bare_setWithin value depth) select model
      have behind := ih (fun other => by rw [impliesOf_of_bare same, noImplies]) later
      rw [Run.each, Run.notices_andThen first, List.filterMap_append, forcedBy, first]
      refine .append ?_ behind
      rcases force_eq (setWithin value depth) select model with
        ⟨target, forced, -, run⟩ | ⟨unforced, outcome, run⟩
      · rw [run] at first ⊢
        rw [forced]
        exact sets target model noImplies first
      · rw [run, unforced]
        exact .refl []

/-- Setting an entry tells the values of the entries that it assigns, once for each time. -/
theorem told_setWithin {value : Value} {depth : Nat} {id : EntryId} {model : Model}
    (noImplies : ∀ other, model.impliesOf other = [])
    (ended : (setWithin value depth id model).outcome = .ok ()) :
    ((setWithin value depth id model).notices.filterMap Notice.told?).Perm
      (assignedWithin value depth id model) := by
  induction depth generalizing id model with
  | zero => cases ended
  | succ depth ih =>
      obtain ⟨cascade, run, forced, refreshed, -, notices⟩ := setWithin_eq_ok (noImplies id) ended
      subst run
      have stored := bare_store model id (some value)
      have told := told_each_force (fun _ _ none done => ih none done)
        (fun other => by rw [impliesOf_of_bare stored, noImplies]) forced
      have own : (refresh id (Run.each (force (setWithin value depth)) (model.selectsOf id)
          (model.store id (some value))).model).notices.filterMap Notice.told? = [id] := by
        rw [(notices_refresh refreshed).1]
        simp [Notice.told?, List.filterMap_map, Function.comp_def]
      rw [notices, List.filterMap_append, own, assignedWithin]
      exact (List.perm_append_singleton _ _).trans (told.cons id)

theorem not_refers_of_constant {model : Model} (noImplies : ∀ id, model.impliesOf id = [])
    (constant : ∀ id, ∀ default ∈ model.defaultsOf id, ∀ name ∈ default.names,
      model.lookup name = none) (source target : EntryId) : ¬model.Refers source target := by
  intro refers
  cases refers with
  | mentioned member mentions found => cases (constant _ _ member _ mentions).symm.trans found
  | implying _ member => simp [noImplies] at member
  | condition _ member => simp [noImplies] at member

/-- An edit that succeeds tells the values of the entries it assigns and no others, tells about
every entry that it shows or hides, and ends with notices that are true. -/
theorem notices_of_set {description : Node} {options : Options} {built model : Model}
    (builds : build description options = .ok built) {history : List Edit}
    (reached : built.after history = model) {id : EntryId} {value : Value}
    (present : id < model.size) (noImplies : ∀ other, model.impliesOf other = [])
    (constant : ∀ other, ∀ default ∈ model.defaultsOf other, ∀ name ∈ default.names,
      model.lookup name = none)
    (sound : ∀ other, ∀ text ∈ model.conditionsOf other, ∀ token ∈ Token.tokenize text,
      token.error? = none)
    (ended : (model.set id value).outcome = .ok ()) :
    ((model.set id value).notices.filterMap Notice.told?).Perm (model.assigned id value) ∧
    (∀ other, (model.set id value).model.override? other =
      if other ∈ model.assigned id value then some value else model.override? other) ∧
    (∀ other reading, .value other reading ∈ (model.set id value).notices →
      reading = .ok (some value)) ∧
    (∀ other, (model.set id value).model.isVisible other ≠ model.isVisible other →
      ∃ visible, .visibility other visible ∈ (model.set id value).notices) ∧
    (∀ other visible before after,
      (model.set id value).notices = before ++ .visibility other visible :: after →
        (∀ later, .visibility other later ∉ after) →
          (model.set id value).model.isVisible other = .ok visible) := by
  have transparent : model.Transparent :=
    { watched := (watched_of_build builds).of_bare (by rw [← reached, (bare_after built history).1])
      sound := sound
      unrelated := not_refers_of_constant noImplies constant
      noImplies := noImplies }
  have truthful : Truthful value model (model.set id value) := transparent.truthful present ended
  refine ⟨told_setWithin noImplies ended, override?_setWithin transparent.complete present,
    truthful.readings, fun other differs => ?_, fun other visible before after split last => ?_⟩
  · have current := truthful.current other
    cases shown : Notice.lastShown? other (model.set id value).notices with
    | none =>
        rw [shown] at current
        exact absurd current differs
    | some visible => exact ⟨visible, Notice.exists_of_lastShown? shown⟩
  · have current := truthful.current other
    rw [split, Notice.lastShown?_of_split last] at current
    exact current

/-- An edit that shows an entry, since what it selects is mentioned in a clause of that entry. -/
theorem notices_of_set_of_select :
    let leaves : List Declaration :=
      [{ symbol := some "X", type := some .bool, selects := [⟨"Y", none⟩] },
        { symbol := some "Y", type := some .bool },
        { symbol := some "Z", type := some .bool, prompt := some { text := "shown" },
          clauses := ["Y"], defaults := [⟨"n", none⟩] }]
    let nodes : List Node := leaves.map (.mk · [])
    let model : Model := placeAll root (top { kind := .menu } {}) (Outline.ofNodes nodes)
    let run := model.set 1 (.text "y")
    run.outcome = .ok () ∧ model.isVisible 3 = .ok false ∧ run.model.isVisible 3 = .ok true ∧
      ∃ visible, .visibility 3 visible ∈ run.notices := by
  intro leaves nodes model run
  have ended : run.outcome = .ok () := by decide +kernel
  have hidden : model.isVisible 3 = .ok false := by decide +kernel
  have shown : run.model.isVisible 3 = .ok true := by decide +kernel
  have beyond : ∀ other, ¬other < model.size → model.get? other = none := fun other outside =>
    List.getElem?_eq_none (Nat.not_lt.mp outside)
  have noImplies : ∀ other, model.impliesOf other = [] := by
    intro other
    by_cases inside : other < model.size
    · exact (by decide +kernel : ∀ other < model.size, model.impliesOf other = []) other inside
    · simp [impliesOf, beyond other inside]
  have constant : ∀ other, ∀ default ∈ model.defaultsOf other, ∀ name ∈ default.names,
      model.lookup name = none := by
    intro other
    by_cases inside : other < model.size
    · exact (by decide +kernel : ∀ other < model.size, ∀ default ∈ model.defaultsOf other,
        ∀ name ∈ default.names, model.lookup name = none) other inside
    · simp [defaultsOf, beyond other inside]
  have sound : ∀ other, ∀ text ∈ model.conditionsOf other, ∀ token ∈ Token.tokenize text,
      token.error? = none := by
    intro other
    by_cases inside : other < model.size
    · exact (by decide +kernel : ∀ other < model.size, ∀ text ∈ model.conditionsOf other,
        ∀ token ∈ Token.tokenize text, token.error? = none) other inside
    · simp [conditionsOf, beyond other inside]
  have told := @notices_of_set (.mk { kind := .menu } nodes) {} model model rfl [] rfl 1 (.text "y")
    (by decide) noImplies constant sound ended
  refine ⟨ended, hidden, shown, told.2.2.2.1 3 ?_⟩
  intro same
  cases shown.symm.trans (same.trans hidden)

end Model
end OptionTree
