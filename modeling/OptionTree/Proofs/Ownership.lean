import Mathlib.Logic.Relation
import OptionTree.Proofs.Placement

/-!
# The tree of entries

Whatever symbols are declared again and wherever, the parents of entries make a tree with the root
at its top, and every entry is among the children of its parent.
-/

namespace OptionTree
namespace Model

/-- Whether parents make a tree that the children of entries agree with. -/
structure Rooted (model : Model) : Prop where
  /-- The root has no parent. -/
  parentless : model.parent? root = none
  /-- Nobody owns the root. -/
  unowned : ∀ owner, ¬model.Owns owner root
  /-- The parent of any other entry is an earlier one, which owns the entry. -/
  parent : ∀ id < model.size, id ≠ root →
    ∃ parent < id, model.parent? id = some parent ∧ model.Owns parent id
  /-- All entries are found from the root. -/
  reached : ∀ id < model.size, Relation.ReflTransGen model.Owns root id
  /-- Only entries are owned. -/
  present : ∀ owner child, model.Owns owner child → child < model.size
  /-- No entry owns itself. -/
  irreflexive : ∀ id, ¬model.Owns id id
  /-- No child is listed twice. -/
  nodup : ∀ id entry, model.get? id = some entry → entry.children.Nodup

variable {description : Node} {options : Options} {model : Model}

/-- In a built model every entry below the root is a child of its parent, an earlier entry. -/
theorem parent_of_build (built : build description options = .ok model) {id : EntryId}
    (present : id < model.size) (below : id ≠ root) :
    ∃ parent < id, model.parent? id = some parent ∧ model.Owns parent id := by
  have placed := places_of_build built
  have new : (top description.declaration options).size ≤ id := Nat.one_le_iff_ne_zero.mpr below
  obtain ⟨parent, under, owns⟩ := placed.adopted id new present
  obtain ⟨site, found⟩ := lt_size_iff_site.mp present
  obtain ⟨earlier, before, own⟩ := placed.rising.parent id site found below
  obtain rfl : earlier = parent := by
    rw [parent?, found] at under
    exact Option.some.inj (own.symm.trans under)
  exact ⟨earlier, before, under, owns⟩

theorem reached_of_build (built : build description options = .ok model) (id : EntryId)
    (present : id < model.size) : Relation.ReflTransGen model.Owns root id := by
  -- Parents are earlier entries, so the way up comes to an end.
  induction id using Nat.strongRecOn with
  | ind id ih =>
      by_cases top : id = root
      · rw [top]
      · obtain ⟨parent, before, -, owns⟩ := parent_of_build built present top
        exact (ih parent before (Nat.lt_trans before present)).tail owns

/-- In a built menu every entry below the root is a child of its parent, an earlier entry, and is
found from the root; every unit has an entry, which that of the unit above owns or is. -/
theorem build_rooted (menu : description.declaration.kind = .menu) (options : Options) :
    ∃ model, build description options = .ok model ∧ model.Rooted ∧
      ∀ path unit, Outline.Occurs [] (Outline.ofNodes description.entries) path unit →
        ∃ owner child, model.StandsFor owner path ∧
          model.StandsFor child (unit.declaration :: path) ∧
            (owner = child ∨ model.Owns owner child) := by
  obtain ⟨model, built⟩ : ∃ model, build description options = .ok model := ⟨_, if_pos menu⟩
  have placed := places_of_build built
  have rising := placed.rising
  have child : ∀ owner child, model.Owns owner child →
      child < model.size ∧ child ≠ root ∧ child ≠ owner := by
    rintro owner child ⟨site, found, member⟩
    exact rising.child owner site found child member
  refine ⟨model, built, ?_, placed.owned⟩
  exact
    { parentless := by
        obtain ⟨site, found, parentless⟩ := rising.top
        rw [parent?, found]
        exact parentless
      unowned := fun owner owns => (child owner root owns).2.1 rfl
      parent := fun id present below => parent_of_build built present below
      reached := reached_of_build built
      present := fun owner item owns => (child owner item owns).1
      irreflexive := fun id owns => (child id id owns).2.2 rfl
      nodup := by
        intro id entry found
        exact rising.nodup id entry.site (by rw [site?, found]; rfl) }

/-- A menu with a symbol that is declared again inside of itself, and an option that is declared
under three owners. -/
theorem build_rooted_of_redefinition :
    let nodes : List Node :=
      [.mk { kind := .menu, symbol := some "A" }
          [.mk { kind := .menu, symbol := some "A" } [.mk { symbol := some "B" } []],
            .mk { kind := .menuconfig, symbol := some "C" } [],
            .mk { symbol := some "B", clauses := ["C"] } []],
        .mk { symbol := some "B" } []]
    (Node.mk { kind := .menu } nodes).declaration.kind = .menu ∧
      ∃ model, build (.mk { kind := .menu } nodes) {} = .ok model ∧ model.Rooted ∧
        model.entries.map Entry.children = [[1, 2], [2, 3], [], [2]] := by
  intro nodes
  have menu : (Node.mk { kind := .menu } nodes).declaration.kind = .menu := rfl
  obtain ⟨model, built, rooted, -⟩ := build_rooted menu {}
  refine ⟨menu, model, built, rooted, ?_⟩
  have children : ((build (.mk { kind := .menu } nodes) {}).toOption.map fun model =>
      model.entries.map Entry.children) = some [[1, 2], [2, 3], [], [2]] := by decide +kernel
  rw [built] at children
  exact Option.some.inj children

end Model
end OptionTree
