import OptionTree.Proofs.Placement

/-!
# Children of entries that are no scopes

Only a menu or an option with a menu has units under it.  An entry has its kind from the first
declaration of its symbol but children from all of them, so an entry that is no scope has children
exactly if its symbol is declared again by a node that gathers others.
-/

namespace OptionTree
namespace Outline

/-- What is found among the units of a node and of those behind it is the node itself, or it is
found among the units that the node lists, or among those behind it. -/
theorem Occurs.of_arrange {above path : List Declaration} {head : Declaration}
    {listed later : List Outline} {unit : Outline}
    (occurs : Occurs above (arrange head listed later) path unit) :
    unit.declaration = head ∧ (unit.children ≠ [] → head.kind.isScope) ∨
      ∃ higher, Occurs higher listed path unit ∨ Occurs higher later path unit := by
  rw [arrange] at occurs
  split at occurs
  · rename_i menu
    rcases occurs.of_cons with ⟨-, rfl⟩ | inner | behind
    · exact .inl ⟨rfl, fun _ => by rw [menu]; rfl⟩
    · exact .inr ⟨_, .inl inner⟩
    · exact .inr ⟨_, .inr behind⟩
  · rename_i option _
    rcases occurs.of_cons with ⟨-, rfl⟩ | inner | behind
    · exact .inl ⟨rfl, fun _ => by rw [option]; rfl⟩
    · exact .inr ⟨_, .inr (inner.mono (List.takeWhile_subset _))⟩
    · exact .inr ⟨_, .inr (behind.mono (List.dropWhile_subset _))⟩
  · rcases occurs.of_cons with ⟨-, rfl⟩ | inner | behind
    · exact .inl ⟨rfl, fun under => absurd rfl under⟩
    · exact absurd inner not_nil
    · exact .inr ⟨_, .inr behind⟩

theorem isScope_of_occurs : ∀ (nodes : List Node) {above path : List Declaration} {unit : Outline},
    Occurs above (ofNodes nodes) path unit → unit.children ≠ [] → unit.declaration.kind.isScope
  | [], _, _, _, occurs, _ => absurd occurs Occurs.not_nil
  | .mk head entries :: rest, _, _, unit, occurs, under => by
      rw [ofNodes_cons] at occurs
      obtain ⟨own, scope⟩ | ⟨_, inner | behind⟩ := occurs.of_arrange
      · rw [own]
        exact scope under
      · exact isScope_of_occurs entries inner under
      · exact isScope_of_occurs rest behind under

/-- Whether a unit with a symbol is found that has units without the symbol right under it. -/
def Gathers (units : List Outline) (symbol : String) : Prop :=
  ∃ path declaration children unit, Occurs [] units path (.mk declaration children) ∧
    declaration.symbol = some symbol ∧ unit ∈ children ∧ unit.declaration.symbol ≠ some symbol

end Outline

namespace Model

open Outline

section Built

variable {description : Node} {options : Options} {model : Model}
  (built : build description options = .ok model)
include built

/-- In a built model an entry has the kind of the first declaration of its symbol. -/
theorem kindOf_of_build (symbol : String) :
    model.kindOf symbol =
      (Declaration.first? (Node.documentAll description.entries) symbol).map (·.kind) := by
  have names : (top description.declaration options).lookup symbol = none := rfl
  rw [(places_of_build built).kinds, kindOf, names, documentAll_ofNodes]
  rfl

theorem isScope_of_root {kind : Kind} (found : model.kind? root = some kind) : kind.isScope := by
  have menu := (build_eq_ok_iff.mp built).1
  obtain ⟨later, there, le⟩ := (places_of_build built).grown.site root
    ⟨description.declaration.kind, description.declaration.symbol, none, []⟩ rfl
  rw [kind?, there] at found
  obtain rfl := Option.some.inj found
  rw [le.kind, menu]
  rfl

/-- An entry that is no scope has children exactly if the first declaration of its symbol is that of
no scope, and another one gathers units. -/
theorem owns_without_scope_iff (id : EntryId) :
    ((∃ child, model.Owns id child) ∧ ∃ kind, model.kind? id = some kind ∧ kind.isScope = false) ↔
      ∃ symbol first, model.lookup symbol = some id ∧
        Declaration.first? (Node.documentAll description.entries) symbol = some first ∧
        first.kind.isScope = false ∧ Gathers (ofNodes description.entries) symbol := by
  have placed := places_of_build built
  constructor
  · rintro ⟨⟨child, owns⟩, kind, found, leaf⟩
    obtain ⟨path, unit, occurs, upper, lower⟩ := occurs_of_owns built owns
    rcases occurs.top_or_child with ⟨rfl, -⟩ | ⟨declaration, above, children, rfl, outer, member⟩
    · obtain rfl : id = root := upper
      rw [isScope_of_root built found] at leaf
      cases leaf
    · have scope : declaration.kind.isScope :=
        isScope_of_occurs description.entries outer (List.ne_nil_of_mem member)
      cases named : declaration.symbol with
      | none =>
          obtain ⟨-, site, there, -, own⟩ := upper
          rw [kind?, there] at found
          obtain rfl := Option.some.inj found
          rw [(own named).1, scope] at leaf
          cases leaf
      | some symbol =>
          have registered := upper.lookup placed.rising named
          have kinds := kindOf_of_build built symbol
          rw [kindOf, registered, Option.bind_some, found] at kinds
          obtain ⟨first, declared, rfl⟩ := Option.map_eq_some_iff.mp kinds.symm
          exact ⟨symbol, first, registered, declared, leaf, above, declaration, children, unit,
            outer, named, member, fun same =>
              placed.rising.symbol_ne_of_owns owns upper lower same named⟩
  · rintro ⟨symbol, first, registered, declared, leaf, above, declaration, children, unit, outer,
      named, member, different⟩
    obtain ⟨owner, child, upper, lower, owns⟩ := placed.owned _ unit (outer.child member)
    obtain rfl := Option.some.inj (registered.symm.trans (upper.lookup placed.rising named))
    refine ⟨⟨child, owns.resolve_left ?_⟩, first.kind, ?_, leaf⟩
    · rintro rfl
      exact different ((lower.symbol_eq upper).trans named)
    · have kinds := kindOf_of_build built symbol
      rw [kindOf, registered, declared] at kinds
      exact kinds

end Built

/-- An option that is declared again with a menu owns what the menu gathers. -/
theorem owns_without_scope_of_redefinition :
    let nodes : List Node :=
      [.mk { symbol := some "A" } [], .mk { kind := .menuconfig, symbol := some "A" } [],
        .mk { symbol := some "B", clauses := ["A"] } []]
    ∃ model, build (.mk { kind := .menu } nodes) {} = .ok model ∧
      model.entries.map (fun entry => (entry.kind, entry.children)) =
        [(.menu, [1]), (.config, [2]), (.config, [])] ∧
      (∃ child, model.Owns 1 child) ∧ ∃ kind, model.kind? 1 = some kind ∧ kind.isScope = false := by
  intro nodes
  obtain ⟨model, built⟩ : ∃ model, build (.mk { kind := .menu } nodes) {} = .ok model :=
    ⟨_, if_pos rfl⟩
  have shape : ((build (.mk { kind := .menu } nodes) {}).toOption.map fun model =>
      model.entries.map fun entry => (entry.kind, entry.children)) =
        some [(.menu, [1]), (.config, [2]), (.config, [])] := by decide +kernel
  have registered : ((build (.mk { kind := .menu } nodes) {}).toOption.bind fun model =>
      model.lookup "A") = some 1 := by decide +kernel
  rw [built] at shape registered
  have units : ofNodes nodes = [.mk { symbol := some "A" } [],
      .mk { kind := .menuconfig, symbol := some "A" }
        [.mk { symbol := some "B", clauses := ["A"] } []]] := by rfl
  have gathers : Gathers (ofNodes nodes) "A" := by
    rw [units]
    exact ⟨_, _, _, _, .here (.tail _ (.head _)), rfl, .head _, by decide⟩
  refine ⟨model, built, Option.some.inj shape, ?_⟩
  exact (owns_without_scope_iff built 1).mpr ⟨"A", _, registered, by rfl, rfl, gathers⟩

end Model
end OptionTree
