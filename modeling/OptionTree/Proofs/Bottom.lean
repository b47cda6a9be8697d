import OptionTree.Model.Edit

/-!
# Nesting over a bottom

Values that read values and settings that force settings are cut off at a depth.  What happens there
is a parameter here, so it can be said that the cut is never reached: nothing depends on it.
-/

namespace OptionTree
namespace Model

/-- The value of an entry, with readings that are nested deeper than given made at the bottom. -/
def valueOver (model : Model) (bottom : Reading) : Nat → Reading
  | 0, id => bottom id
  | depth + 1, id =>
    match model.get? id with
    | none => .ok none
    | some entry => model.valueFrom (model.valueOver bottom depth) entry

theorem valueOver_succ (model : Model) (bottom : Reading) (depth : Nat) (id : EntryId) :
    model.valueOver bottom (depth + 1) id =
      match model.get? id with
      | none => .ok none
      | some entry => model.valueFrom (model.valueOver bottom depth) entry := rfl

theorem valueWithin_eq_valueOver (model : Model) (depth : Nat) :
    model.valueWithin depth = model.valueOver (fun id => .error (.circularValue id)) depth := by
  induction depth with
  | zero => rfl
  | succ depth ih =>
      funext id
      rw [valueWithin_succ, ih]
      rfl

/-- Sets an entry and forces what it selects, with settings that are nested deeper than given made
at the bottom. -/
def setOver (bottom : EntryId → Model → Run Unit) (value : Value) :
    Nat → EntryId → Model → Run Unit
  | 0, id, model => bottom id model
  | depth + 1, id, model =>
    (Run.each (force (setOver bottom value depth)) (model.selectsOf id)
      (model.store id (some value))).andThen fun model _ => model.announce id

theorem setOver_succ (bottom : EntryId → Model → Run Unit) (value : Value) (depth : Nat)
    (id : EntryId) (model : Model) :
    setOver bottom value (depth + 1) id model =
      (Run.each (force (setOver bottom value depth)) (model.selectsOf id)
        (model.store id (some value))).andThen fun model _ => model.announce id := rfl

theorem setWithin_eq_setOver (value : Value) (depth : Nat) :
    setWithin value depth =
      setOver (fun id model => Run.done model (.error (.endlessSelects id))) value depth := by
  induction depth with
  | zero => rfl
  | succ depth ih =>
      funext id model
      rw [setWithin_succ, ih]
      rfl

end Model
end OptionTree
