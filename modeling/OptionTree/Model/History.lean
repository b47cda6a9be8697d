import OptionTree.Assignments
import OptionTree.Model.Build

/-!
# Histories of edits

A model that was built from a description changes only by edits, each of which leaves a model
behind even if it fails.
-/

namespace OptionTree

/-- A change of a model from outside. -/
inductive Edit where
  /-- Sets an entry. -/
  | set (id : EntryId) (value : Value)
  /-- Drops the value of an entry. -/
  | clear (id : EntryId)
  /-- Applies the assignments in a text. -/
  | assign (text : String)
  deriving DecidableEq, Repr

namespace Model

/-- The model that an edit leaves behind. -/
def edited (model : Model) : Edit → Model
  | .set id value => (model.set id value).model
  | .clear id => (model.clear id).model
  | .assign text => (model.importText text).model

/-- The model that a history of edits leaves behind. -/
def after (model : Model) (history : List Edit) : Model := history.foldl edited model

end Model
end OptionTree
