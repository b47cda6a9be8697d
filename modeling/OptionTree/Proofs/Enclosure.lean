import OptionTree.Proofs.Ownership

/-!
# Cycles of children

A symbol that is declared again under a unit which is itself under another definition of the symbol
makes an entry a child of what it owns.  Children go round in a cycle exactly if, in this way, some
symbol encloses itself.
-/

namespace OptionTree
namespace Outline

/-- The innermost symbol on the way to a unit. -/
def innermost : List Declaration → Option String
  | [] => none
  | declaration :: above => declaration.symbol.or (innermost above)

/-- Whether a unit with one symbol is found under a unit with another one, with only units without a
symbol between.  A unit right under one with the same symbol does not count. -/
def Encloses (units : List Outline) (outer inner : String) : Prop :=
  ∃ path unit, Occurs [] units path unit ∧ innermost path = some outer ∧
    unit.declaration.symbol = some inner ∧
    ∀ declaration ∈ path.head?, declaration.symbol ≠ some inner

end Outline

namespace Model

open Outline

/-- All units that an entry stands for have the same innermost symbol. -/
theorem StandsFor.innermost_eq {model : Model} {id : EntryId} {first second : List Declaration}
    (stands : model.StandsFor id first) (again : model.StandsFor id second) :
    innermost first = innermost second := by
  induction first generalizing id second with
  | nil =>
      cases second with
      | nil => rfl
      | cons declaration above => exact absurd stands again.1
  | cons declaration above ih =>
      cases second with
      | nil => exact absurd again stands.1
      | cons other higher =>
          obtain ⟨-, site, found, own, under⟩ := stands
          obtain ⟨-, same, there, given, beyond⟩ := again
          obtain rfl := Option.some.inj (found.symm.trans there)
          rw [innermost, innermost, ← own, ← given]
          cases named : site.symbol with
          | some symbol => rfl
          | none =>
              obtain ⟨-, parent, below, stands⟩ := under (own.symm.trans named)
              obtain ⟨-, again, same, other⟩ := beyond (given.symm.trans named)
              obtain rfl := Option.some.inj (below.symm.trans same)
              exact ih stands other

/-- Whether a symbol is the innermost one of the units that an entry stands for. -/
def Inside (model : Model) (id : EntryId) (symbol : Option String) : Prop :=
  ∃ path, model.StandsFor id path ∧ innermost path = symbol

theorem Inside.unique {model : Model} {id : EntryId} {first second : Option String}
    (inside : model.Inside id first) (again : model.Inside id second) : first = second := by
  obtain ⟨path, stands, rfl⟩ := inside
  obtain ⟨other, stands', rfl⟩ := again
  exact stands.innermost_eq stands'

section Built

variable {description : Node} {options : Options} {model : Model}
  (built : build description options = .ok model)
include built

/-- A child of an entry has a symbol of its own, which that of the entry encloses, or else it is a
later entry inside of the same symbol. -/
theorem inside_of_owns {owner child : EntryId} (owns : model.Owns owner child) :
    ∃ outer inner, model.Inside owner outer ∧ model.Inside child inner ∧
      (owner < child ∧ inner = outer ∨ ∃ symbol, inner = some symbol ∧
        ∀ name ∈ outer, Encloses (ofNodes description.entries) name symbol) := by
  have placed := places_of_build built
  obtain ⟨path, unit, occurs, upper, lower⟩ := occurs_of_owns built owns
  refine ⟨_, _, ⟨path, upper, rfl⟩, ⟨_, lower, rfl⟩, ?_⟩
  cases named : unit.declaration.symbol with
  | none =>
      obtain ⟨below, site, found, own, -⟩ := lower
      obtain ⟨parent, before, under⟩ := placed.rising.parent child site found below
      have sole := placed.rising.sole owner child site owns found (own.trans named)
      obtain rfl := Option.some.inj (under.symm.trans sole)
      exact .inl ⟨before, by rw [innermost, named, Option.none_or]⟩
  | some symbol =>
      refine .inr ⟨symbol, by rw [innermost, named, Option.some_or], fun name outer => ?_⟩
      refine ⟨path, unit, occurs, outer, named, fun declaration head => ?_⟩
      obtain ⟨above, rfl⟩ := List.head?_eq_some_iff.mp head
      exact placed.rising.symbol_ne_of_owns owns upper lower named

/-- Following children leads to later entries inside of the same symbol, or into a symbol that is
enclosed. -/
theorem inside_of_path {first last : EntryId} (path : Relation.TransGen model.Owns first last) :
    ∃ outer inner, model.Inside first outer ∧ model.Inside last inner ∧
      (first < last ∧ inner = outer ∨ ∃ symbol, inner = some symbol ∧ ∀ name ∈ outer,
        Relation.TransGen (Encloses (ofNodes description.entries)) name symbol) := by
  induction path with
  | single owns =>
      obtain ⟨outer, inner, upper, lower, stays | ⟨symbol, own, encloses⟩⟩ :=
        inside_of_owns built owns
      · exact ⟨outer, inner, upper, lower, .inl stays⟩
      · exact ⟨outer, inner, upper, lower, .inr ⟨symbol, own, fun name member =>
          .single (encloses name member)⟩⟩
  | tail _ owns ih =>
      obtain ⟨outer, middle, upper, between, way⟩ := ih
      obtain ⟨same, inner, again, lower, step⟩ := inside_of_owns built owns
      obtain rfl := between.unique again
      refine ⟨outer, inner, upper, lower, ?_⟩
      rcases way with ⟨before, rfl⟩ | ⟨name, rfl, encloses⟩
      · rcases step with ⟨next, rfl⟩ | ⟨symbol, own, reaches⟩
        · exact .inl ⟨Nat.lt_trans before next, rfl⟩
        · exact .inr ⟨symbol, own, fun name member => .single (reaches name member)⟩
      · rcases step with ⟨-, rfl⟩ | ⟨symbol, own, reaches⟩
        · exact .inr ⟨name, rfl, encloses⟩
        · exact .inr ⟨symbol, own, fun other member =>
            (encloses other member).tail (reaches name rfl)⟩

theorem path_of_stands {id : EntryId} {path : List Declaration} (stands : model.StandsFor id path)
    {symbol : String} (inside : innermost path = some symbol) :
    ∃ owner, model.lookup symbol = some owner ∧ Relation.ReflTransGen model.Owns owner id := by
  have rising := (places_of_build built).rising
  induction path generalizing id with
  | nil => cases inside
  | cons declaration above ih =>
      rw [innermost] at inside
      cases named : declaration.symbol with
      | some name =>
          rw [named] at inside
          exact ⟨id, stands.lookup rising (named.trans inside), .refl⟩
      | none =>
          rw [named, Option.none_or] at inside
          have present := stands.lt_size rising
          obtain ⟨below, site, found, -, under⟩ := stands
          obtain ⟨-, parent, own, higher⟩ := under named
          obtain ⟨owner, registered, way⟩ := ih higher inside
          obtain ⟨same, -, given, owns⟩ := parent_of_build built present below
          rw [parent?, found] at given
          obtain rfl := Option.some.inj (own.symm.trans given)
          exact ⟨owner, registered, way.tail owns⟩

/-- A symbol that encloses another one leads down to it. -/
theorem path_of_encloses {outer inner : String}
    (encloses : Encloses (ofNodes description.entries) outer inner) :
    ∃ owner child, model.lookup outer = some owner ∧ model.lookup inner = some child ∧
      Relation.TransGen model.Owns owner child := by
  obtain ⟨path, unit, occurs, inside, named, apart⟩ := encloses
  have placed := places_of_build built
  obtain ⟨last, child, upper, lower, owns⟩ := placed.owned path unit occurs
  obtain ⟨owner, registered, way⟩ := path_of_stands built upper inside
  refine ⟨owner, child, registered, lower.lookup placed.rising named, ?_⟩
  rcases owns with rfl | owns
  · -- The two entries could only be the same if the symbols were.
    cases path with
    | nil => cases inside
    | cons declaration above =>
        exact absurd ((upper.symbol_eq lower).trans named) (apart declaration rfl)
  · exact .tail' way owns

/-- Children go round in a cycle exactly if some symbol encloses itself, be it through other
symbols. -/
theorem exists_cycle_iff :
    (∃ id, Relation.TransGen model.Owns id id) ↔
      ∃ symbol, Relation.TransGen (Encloses (ofNodes description.entries)) symbol symbol := by
  constructor
  · rintro ⟨id, cycle⟩
    obtain ⟨outer, inner, first, last, ⟨later, -⟩ | ⟨symbol, rfl, encloses⟩⟩ :=
      inside_of_path built cycle
    · exact absurd later (Nat.lt_irrefl id)
    · exact ⟨symbol, encloses symbol (first.unique last)⟩
  · rintro ⟨symbol, cycle⟩
    have down : ∀ name, Relation.TransGen (Encloses (ofNodes description.entries)) symbol name →
        ∃ owner child, model.lookup symbol = some owner ∧ model.lookup name = some child ∧
          Relation.TransGen model.Owns owner child := by
      intro name path
      induction path with
      | single encloses => exact path_of_encloses built encloses
      | tail _ encloses ih =>
          obtain ⟨owner, middle, start, between, way⟩ := ih
          obtain ⟨same, child, again, finish, step⟩ := path_of_encloses built encloses
          obtain rfl := Option.some.inj (between.symm.trans again)
          exact ⟨owner, child, start, finish, way.trans step⟩
    obtain ⟨owner, child, start, finish, way⟩ := down symbol cycle
    obtain rfl := Option.some.inj (start.symm.trans finish)
    exact ⟨owner, way⟩

end Built

/-- An option that is declared again in the menu of an option in its own menu: both own each
other. -/
theorem exists_cycle_of_redefinition :
    let nodes : List Node :=
      [.mk { kind := .menuconfig, symbol := some "A" } [],
        .mk { kind := .menuconfig, symbol := some "B", clauses := ["A"] } [],
        .mk { symbol := some "A", clauses := ["B"] } []]
    ∃ model, build (.mk { kind := .menu } nodes) {} = .ok model ∧
      model.entries.map Entry.children = [[1], [2], [1]] ∧
      ∃ id, Relation.TransGen model.Owns id id := by
  intro nodes
  obtain ⟨model, built⟩ : ∃ model, build (.mk { kind := .menu } nodes) {} = .ok model :=
    ⟨_, if_pos rfl⟩
  have children : ((build (.mk { kind := .menu } nodes) {}).toOption.map fun model =>
      model.entries.map Entry.children) = some [[1], [2], [1]] := by decide +kernel
  rw [built] at children
  have units : ofNodes nodes = [.mk { kind := .menuconfig, symbol := some "A" }
      [.mk { kind := .menuconfig, symbol := some "B", clauses := ["A"] }
        [.mk { symbol := some "A", clauses := ["B"] } []]]] := by rfl
  have outer : Encloses (ofNodes nodes) "A" "B" := by
    rw [units]
    exact ⟨_, _, .inside List.mem_cons_self (.here List.mem_cons_self), rfl, rfl, by decide⟩
  have inner : Encloses (ofNodes nodes) "B" "A" := by
    rw [units]
    exact ⟨_, _, .inside List.mem_cons_self (.inside List.mem_cons_self
      (.here List.mem_cons_self)), rfl, rfl, by decide⟩
  exact ⟨model, built, Option.some.inj children,
    (exists_cycle_iff built).mpr ⟨"A", .tail (.single outer) inner⟩⟩

end Model
end OptionTree
