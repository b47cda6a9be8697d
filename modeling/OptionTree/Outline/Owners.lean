import OptionTree.Outline

/-!
# Owners by a stack of open options

The owner of a node can be found while reading the nodes in order, with the options whose menus
are still open kept on a stack, the innermost first.
-/

namespace OptionTree
namespace Outline

mutual

/-- The owners of the nodes that a menu lists, and of all nodes under them, if the menu has the
number before `next`. -/
def listedOwners (next : Nat) : Node → List Nat
  | .mk declaration entries =>
    if declaration.kind = .menu then owners [] (next - 1) next entries else []

/-- The owners of nodes in order, numbered from `next` on: the innermost option that no node before
closed, or else the menu.  A node that does not depend on an option closes it. -/
def owners (opened : List (String × Nat)) (menu next : Nat) : List Node → List Nat
  | [] => []
  | node :: rest =>
    let still := opened.dropWhile fun option => !node.declaration.dependsOn option.1
    let inner := listedOwners (next + 1) node
    let opened :=
      match node.declaration.kind, node.declaration.symbol with
      | .menuconfig, some symbol => (symbol, next) :: still
      | _, _ => still
    (still.head?.map Prod.snd).getD menu ::
      (inner ++ owners opened menu (next + 1 + inner.length) rest)

end

end Outline
end OptionTree
