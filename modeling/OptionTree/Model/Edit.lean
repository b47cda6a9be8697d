import OptionTree.Model.Value

/-!
# Edits

Setting an entry forces the targets of its selects to the same value before the entry itself is
announced.  Nothing is taken back when an edit fails: the model and the notices up to that point
stay.  Within one chain of selects the entries that hold the value only become more, so a chain
longer than the square of the number of entries repeats an entry in an unchanged model and would
never end.
-/

namespace OptionTree

/-- What observers are told. -/
inductive Notice where
  /-- An entry was set, dropped or implied anew; its value at that moment is enclosed. -/
  | value (id : EntryId) (reading : Except Error (Option Value))
  /-- Something that an entry depends on changed; whether it is shown now is enclosed. -/
  | visibility (id : EntryId) (visible : Bool)
  deriving DecidableEq, Repr

/-- What an edit leaves behind. -/
structure Run (α : Type) where
  /-- The model after the edit. -/
  model : Model
  /-- What observers were told, in order. -/
  notices : List Notice
  /-- How the edit ended. -/
  outcome : Except Error α

namespace Run

/-- A run that changes and tells nothing. -/
def done {α : Type} (model : Model) (outcome : Except Error α) : Run α := ⟨model, [], outcome⟩

/-- Goes on with the model and the result of a run, unless that failed. -/
def andThen {α β : Type} (run : Run α) (next : Model → α → Run β) : Run β :=
  match run.outcome with
  | .error error => ⟨run.model, run.notices, .error error⟩
  | .ok result =>
    let after := next run.model result
    ⟨after.model, run.notices ++ after.notices, after.outcome⟩

/-- Goes through a list until an action fails. -/
def each {α : Type} (action : α → Model → Run Unit) : List α → Model → Run Unit
  | [], model => done model (.ok ())
  | item :: rest, model => (action item model).andThen fun model _ => each action rest model

@[simp]
theorem andThen_done_ok {α β : Type} (model : Model) (result : α) (next : Model → α → Run β) :
    (done model (.ok result)).andThen next = next model result := rfl

theorem andThen_assoc {α β γ : Type} (run : Run α) (second : Model → α → Run β)
    (third : Model → β → Run γ) :
    (run.andThen second).andThen third =
      run.andThen fun model result => (second model result).andThen third := by
  unfold andThen
  cases run.outcome with
  | error _ => rfl
  | ok result =>
    dsimp only
    cases (second run.model result).outcome <;> simp

theorem each_append {α : Type} (action : α → Model → Run Unit) (first second : List α)
    (model : Model) :
    each action (first ++ second) model =
      (each action first model).andThen fun model _ => each action second model := by
  induction first generalizing model with
  | nil => rfl
  | cons item first ih =>
    rw [List.cons_append, each, each, andThen_assoc]
    congr 1
    funext model _
    exact ih model

end Run

namespace Model

/-- Tells whether an entry is shown. -/
def announceVisibility (id : EntryId) (model : Model) : Run Unit :=
  (Run.done model (model.isVisible id)).andThen fun model visible =>
    ⟨model, [.visibility id visible], .ok ()⟩

/-- Validates an entry if values are to be validated. -/
def check (id : EntryId) (model : Model) : Run Unit :=
  Run.done model (if model.options.validateTypes then model.validate id else .ok ())

/-- Tells the value of an entry. -/
def announceValue (id : EntryId) (model : Model) : Run Unit :=
  ⟨model, [.value id (model.value id)], .ok ()⟩

/-- The entries whose conditions mention the symbol of an entry. -/
def dependentsOf (model : Model) (id : EntryId) : List EntryId :=
  ((model.symbol? id).map model.dependents).getD []

/-- Validates an entry, tells its value and tells which of the entries that mention it are
shown. -/
def refresh (id : EntryId) (model : Model) : Run Unit :=
  (check id model).andThen fun model _ =>
    (announceValue id model).andThen fun model _ =>
      Run.each announceVisibility (model.dependentsOf id) model

/-- The entry that an imply of another one concerns: it is declared and was not set itself. -/
def impliedTarget? (model : Model) (id : EntryId) (imply : Conditional) : Option EntryId :=
  (model.lookup imply.value).filter fun target =>
    target != id && (model.override? target).isNone

/-- Refreshes the entries that an entry implies, whether or not its implies apply. -/
def refreshImplied (id : EntryId) (model : Model) : Run Unit :=
  Run.each (fun imply model =>
    match model.impliedTarget? id imply with
    | some target => model.refresh target
    | none => Run.done model (.ok ()))
    (model.impliesOf id) model

/-- Tells what follows from a new value of an entry. -/
def announce (id : EntryId) (model : Model) : Run Unit :=
  (refresh id model).andThen fun model _ => refreshImplied id model

/-- The selects of an entry. -/
def selectsOf (model : Model) (id : EntryId) : List Conditional :=
  ((model.get? id).map fun entry => entry.selects).getD []

/-- Forces the target of a select if the select applies and its target is declared. -/
def force (assign : EntryId → Model → Run Unit) (select : Conditional) (model : Model) :
    Run Unit :=
  (Run.done model (model.holds select.condition)).andThen fun model applies =>
    match if applies then model.lookup select.value else none with
    | some target => assign target model
    | none => Run.done model (.ok ())

/-- Sets an entry and forces what it selects, with selects nested at most as deep as given. -/
def setWithin (value : Value) : Nat → EntryId → Model → Run Unit
  | 0, id, model => Run.done model (.error (.endlessSelects id))
  | depth + 1, id, model =>
    (Run.each (force (setWithin value depth)) (model.selectsOf id)
      (model.store id (some value))).andThen fun model _ => model.announce id

/-- The longest chain of selects that can come to an end. -/
def selectDepth (model : Model) : Nat := model.size * model.size

/-- Sets an entry to a value and forces what it selects to the same value. -/
def set (model : Model) (id : EntryId) (value : Value) : Run Unit :=
  setWithin value model.selectDepth id model

/-- Drops the value that an entry was set to. -/
def clear (model : Model) (id : EntryId) : Run Unit :=
  (model.store id none).announce id

theorem setWithin_succ (value : Value) (depth : Nat) (id : EntryId) (model : Model) :
    setWithin value (depth + 1) id model =
      (Run.each (force (setWithin value depth)) (model.selectsOf id)
        (model.store id (some value))).andThen fun model _ => model.announce id := rfl

end Model
end OptionTree
