import OptionTree.Text.Blank

/-!
# Clauses of a dependency

A dependency is stated in clauses, each an expression of its own.  They are joined as text into
one conjunction; a clause with a disjunction is put into parentheses unless one pair already
encloses all of it, so that every clause keeps its meaning inside the whole.
-/

namespace OptionTree
namespace Clause

/-- Whether no closing parenthesis before the last character brings the depth to zero, and the
depth is zero at the end.  A depth below zero counts as zero. -/
def closesLast : Nat → List Char → Bool
  | depth, [] => depth == 0
  | depth, c :: rest =>
    if c = '(' then closesLast (depth + 1) rest
    else if c = ')' then (depth - 1 != 0 || rest.isEmpty) && closesLast (depth - 1) rest
    else closesLast depth rest

/-- Whether one pair of parentheses encloses all of a text, white space around it aside. -/
def isEnclosed (text : List Char) : Bool :=
  let inner := Text.trim text
  inner.head? == some '(' && inner.getLast? == some ')' && closesLast 0 inner

/-- Whether two bars stand next to each other. -/
def hasDisjunction : List Char → Bool
  | '|' :: '|' :: _ => true
  | _ :: rest => hasDisjunction rest
  | [] => false

/-- A clause as it stands in a conjunction. -/
def guarded (clause : List Char) : List Char :=
  if hasDisjunction clause && !isEnclosed clause then '(' :: (clause ++ [')']) else clause

/-- The clauses that state something, trimmed and guarded. -/
def parts (clauses : List String) : List (List Char) :=
  ((clauses.map fun clause => Text.trim clause.toList).filter (!·.isEmpty)).map guarded

/-- The conjunction of all clauses; empty if none of them states anything. -/
def conjunction (clauses : List String) : String :=
  String.ofList (List.intercalate ['&', '&'] (parts clauses))

@[simp]
theorem parts_nil : parts [] = [] := rfl

theorem parts_append (first second : List String) :
    parts (first ++ second) = parts first ++ parts second := by
  simp [parts]

end Clause
end OptionTree
