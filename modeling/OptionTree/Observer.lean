import OptionTree.Model.Edit

/-!
# Observers

Observers are told about edits in the order of their subscription.  Each notice goes to all of
them before the next one does.
-/

namespace OptionTree

/-- Somebody who is told about edits. -/
structure Observer where
  /-- The number of the subscription. -/
  number : Nat
  /-- Whether values are of interest. -/
  values : Bool := true
  /-- Whether visibility is of interest. -/
  visibility : Bool := true
  deriving DecidableEq, Repr

namespace Observer

/-- Whether a notice is of interest. -/
def wants (observer : Observer) : Notice → Bool
  | .value .. => observer.values
  | .visibility .. => observer.visibility

/-- What the observers are told, with the number of the one that is told it. -/
def deliveries (observers : List Observer) (notices : List Notice) : List (Nat × Notice) :=
  notices.flatMap fun notice =>
    (observers.filter (·.wants notice)).map fun observer => (observer.number, notice)

theorem deliveries_append (observers : List Observer) (first second : List Notice) :
    deliveries observers (first ++ second) =
      deliveries observers first ++ deliveries observers second :=
  List.flatMap_append ..

end Observer
end OptionTree
