import OptionTree.Outline.Owners
import OptionTree.Proofs.Numbering

/-!
# Units and the stack of open options

The units of an outline are built from the last node to the first, and an option takes the units
behind it as long as they depend on it.  Reading the nodes from the first to the last with a stack
of open options finds the same owners: on the way the remaining units are those of all options on
the stack, the units of the innermost one first, and then those of the menu.
-/

namespace OptionTree
namespace Outline

/-- The entries of the units still to be read, numbered from `next` on: the innermost open option
has all up to the first one that does not depend on it, and the others share the rest. -/
def remaining (menu next : EntryId) : List (String × EntryId) → List Outline → List Entry
  | [], units => entriesAll menu next units
  | option :: opened, units =>
    let own := units.takeWhile (dependsOn option.1)
    entriesAll option.2 next own ++
      remaining menu (next + (documentAll own).length) opened (units.dropWhile (dependsOn option.1))

@[simp]
theorem remaining_nil (menu next : EntryId) (opened : List (String × EntryId)) :
    remaining menu next opened [] = [] := by
  induction opened generalizing next with
  | nil => rfl
  | cons option opened ih => exact ih _

theorem remaining_close (menu next : EntryId) (opened : List (String × EntryId)) (unit : Outline)
    (rest : List Outline) :
    remaining menu next opened (unit :: rest) =
      remaining menu next (opened.dropWhile fun option => !unit.declaration.dependsOn option.1)
        (unit :: rest) := by
  induction opened with
  | nil => rfl
  | cons option opened ih =>
      by_cases depends : unit.declaration.dependsOn option.1
      · rw [List.dropWhile_cons_of_neg (by simp [depends])]
      · have other : ¬dependsOn option.1 unit := depends
        rw [List.dropWhile_cons_of_pos (by simp [depends]), ← ih, remaining,
          List.takeWhile_cons_of_neg other, List.dropWhile_cons_of_neg other]
        rfl

/-- A unit that depends on the innermost option belongs to it, or to the menu if none is open. -/
theorem remaining_cons {menu next : EntryId} {opened : List (String × EntryId)} {unit : Outline}
    (depends : ∀ option ∈ opened.head?, unit.declaration.dependsOn option.1)
    (rest : List Outline) :
    remaining menu next opened (unit :: rest) =
      entries ((opened.head?.map Prod.snd).getD menu) next unit ++
        remaining menu (next + unit.document.length) opened rest := by
  cases opened with
  | nil => rfl
  | cons option opened =>
      have own : dependsOn option.1 unit := depends option rfl
      rw [remaining, remaining, List.takeWhile_cons_of_pos own, List.dropWhile_cons_of_pos own,
        documentAll_cons, List.length_append, ← Nat.add_assoc, entriesAll, List.append_assoc]
      rfl

/-- The first unit belongs to the innermost option that stays open, or else to the menu. -/
theorem parent_remaining (menu next : EntryId) (opened : List (String × EntryId))
    (declaration : Declaration) (children rest : List Outline) :
    let still := opened.dropWhile fun option => !declaration.dependsOn option.1
    (remaining menu next opened (.mk declaration children :: rest)).map Entry.parent =
      some ((still.head?.map Prod.snd).getD menu) ::
        ((entriesAll next (next + 1) children ++
          remaining menu (next + 1 + (documentAll children).length) still rest).map
            Entry.parent) := by
  intro still
  have depends : ∀ option ∈ still.head?, declaration.dependsOn option.1 := by
    intro option first
    have stays := List.head?_dropWhile_not (fun option : String × EntryId =>
      !declaration.dependsOn option.1) opened
    rw [first] at stays
    simpa using stays
  have size : next + (Outline.mk declaration children).document.length =
      next + 1 + (documentAll children).length := by
    rw [document_mk, List.length_cons]
    exact Nat.add_right_comm next _ 1
  have closed := remaining_close menu next opened (.mk declaration children) rest
  have first := @remaining_cons menu next still (.mk declaration children) depends rest
  rw [closed.trans first, size]
  rfl

/-- The symbol of an option that opens a menu of its own. -/
def opens? (declaration : Declaration) : Option String :=
  if declaration.kind = .menuconfig then declaration.symbol else none

theorem arrange_of_opens {declaration : Declaration} {symbol : String}
    (opens : opens? declaration = some symbol) (listed later : List Outline) :
    arrange declaration listed later =
      mk declaration (later.takeWhile (dependsOn symbol)) ::
        later.dropWhile (dependsOn symbol) := by
  obtain ⟨option, named⟩ := Option.ite_none_right_eq_some.mp opens
  simp only [arrange, option, named]

theorem arrange_of_not_opens {declaration : Declaration} (opens : opens? declaration = none)
    (listed later : List Outline) :
    arrange declaration listed later =
      mk declaration (if declaration.kind = .menu then listed else []) :: later := by
  rw [arrange]
  split
  · rename_i menu
    rw [if_pos menu]
  · rename_i option named
    simp [opens?, option, named] at opens
  · rename_i other _
    rw [if_neg fun menu => other menu]

theorem owners_cons (opened : List (String × EntryId)) (menu next : EntryId)
    (declaration : Declaration) (entries rest : List Node) :
    let still := opened.dropWhile fun option => !declaration.dependsOn option.1
    let inner := if declaration.kind = .menu then owners [] next (next + 1) entries else []
    owners opened menu next (.mk declaration entries :: rest) =
      (still.head?.map Prod.snd).getD menu ::
        (inner ++ owners (((opens? declaration).map fun symbol => (symbol, next)).toList ++ still)
          menu (next + 1 + inner.length) rest) := by
  intro still inner
  rw [owners]
  cases opens : opens? declaration with
  | some symbol =>
      obtain ⟨option, named⟩ := Option.ite_none_right_eq_some.mp opens
      simp only [Node.declaration, option, named]
      rfl
  | none =>
      split
      · rename_i symbol option named
        have option : declaration.kind = .menuconfig := option
        have named : declaration.symbol = some symbol := named
        rw [opens?, if_pos option, named] at opens
        cases opens
      · rfl

/-- The stack of open options finds the owners that the entries have as their parents. -/
theorem map_owners : ∀ (nodes : List Node) (opened : List (String × EntryId)) (menu next : EntryId),
    (owners opened menu next nodes).map some =
      (remaining menu next opened (ofNodes nodes)).map Entry.parent
  | [], opened, menu, next => by
      rw [ofNodes_nil, remaining_nil]
      rfl
  | .mk declaration entries :: rest, opened, menu, next => by
      rw [ofNodes_cons, owners_cons]
      cases opens : opens? declaration with
      | some symbol =>
          -- The option is put on the stack, and the units it takes are those that remain under it.
          have option := (Option.ite_none_right_eq_some.mp opens).1
          rw [arrange_of_opens opens, parent_remaining, if_neg (by rw [option]; decide)]
          simp only [List.map_cons, List.nil_append, map_owners rest]
          rfl
      | none =>
          rw [arrange_of_not_opens opens, parent_remaining]
          split
          · -- The nodes of a menu are read with an empty stack of their own.
            have inner := map_owners entries [] next (next + 1)
            have length := congrArg List.length inner
            simp only [List.length_map, remaining, length_entriesAll] at length
            simp only [List.map_cons, List.map_append, inner, length, map_owners rest]
            rfl
          · simp only [List.map_cons, List.map_append, map_owners rest]
            rfl

end Outline

namespace Model

theorem map_entries_bare {α : Type} {read : Entry → α} (model : Model)
    (same : ∀ entry : Entry, read entry.unset = read entry) :
    model.entries.map read = model.bare.entries.map read := by
  have bare : model.bare.entries = model.entries.map Entry.unset := rfl
  rw [bare, List.map_map]
  exact List.map_congr_left fun entry _ => (same entry).symm

/-- If no symbol is declared twice, entries are numbered as nodes are written, a walk over children
finds each once and in that order, and owners are those that the stack of open options finds. -/
theorem build_follows_stack {description : Node} (menu : description.declaration.kind = .menu)
    (distinct : (Declaration.symbols (Node.documentAll description.entries)).Nodup)
    (options : Options) :
    ∃ model, build description options = .ok model ∧
      model.entries.map (fun entry => entry.toDeclaration) = description.document ∧
      model.Walk none [root] (List.range model.size) ∧
      model.entries.map Entry.parent =
        none :: (Outline.listedOwners 1 description).map some := by
  obtain ⟨declaration, nodes⟩ := description
  obtain ⟨model, built⟩ : ∃ model, build (.mk declaration nodes) options = .ok model :=
    ⟨_, if_pos menu⟩
  have menu : declaration.kind = .menu := menu
  have entries := entries_build built distinct
  have size : model.size = (Outline.documentAll (Outline.ofNodes nodes)).length + 1 := by
    rw [size_of_entries entries, List.length_cons, Outline.length_entriesAll]
    rfl
  refine ⟨model, built, ?_, ?_, ?_⟩
  · rw [map_entries_bare model fun _ => rfl, entries, List.map_cons,
      Outline.toDeclaration_entriesAll, Outline.documentAll_ofNodes, Node.document, if_pos menu]
    rfl
  · have below := @walk_heads model root (Outline.ofNodes nodes) [_] [] (by
      rw [entries, List.append_nil]
      rfl)
    have visited := @Walk.cons_of_bare model _ [] _ _ _ _ entries below (.nil none)
    rw [List.append_nil] at visited
    rw [size, List.range_eq_range', List.range'_succ]
    exact visited
  · have owners := Outline.map_owners nodes [] root 1
    rw [map_entries_bare model fun _ => rfl, entries, Outline.listedOwners, if_pos menu]
    exact congrArg (none :: ·) owners.symm

/-- An option in the menu of another one, a node that closes only the inner one of them, and a menu
that closes both. -/
theorem build_follows_stack_of_nested :
    let nodes : List Node :=
      [.mk { kind := .menuconfig, symbol := some "A" } [],
        .mk { kind := .menuconfig, symbol := some "B", clauses := [" A "] } [],
        .mk { symbol := some "C", clauses := ["A", "B"] } [],
        .mk { symbol := some "D", clauses := ["A"] } [],
        .mk { kind := .menu, clauses := ["B"] } [.mk { symbol := some "E", clauses := ["A"] } []],
        .mk { symbol := some "F", clauses := ["A"] } []]
    (Declaration.symbols (Node.documentAll nodes)).Nodup ∧
      ∃ model, build (.mk { kind := .menu } nodes) {} = .ok model ∧
        model.entries.map Entry.parent =
          [none, some 0, some 1, some 2, some 1, some 0, some 5, some 0] := by
  intro nodes
  have distinct : (Declaration.symbols (Node.documentAll nodes)).Nodup := by decide +kernel
  obtain ⟨model, built, -, -, parents⟩ :=
    @build_follows_stack (.mk { kind := .menu } nodes) rfl distinct {}
  exact ⟨distinct, model, built, parents.trans (by decide +kernel)⟩

end Model
end OptionTree
