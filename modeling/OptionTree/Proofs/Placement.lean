import OptionTree.Proofs.Growth
import OptionTree.Proofs.Numbering

/-!
# Entries and units

An entry stands for every unit with its symbol, and a unit without a symbol has an entry of its own.
Placing units lets entries own each other exactly as the units they stand for do, except that no
entry owns itself.
-/

namespace OptionTree

/-- The first of some declarations that declares a symbol. -/
def Declaration.first? (declarations : List Declaration) (symbol : String) : Option Declaration :=
  declarations.find? fun declaration => declaration.symbol = some symbol

theorem Declaration.first?_cons (declaration : Declaration) (rest : List Declaration)
    (symbol : String) : first? (declaration :: rest) symbol =
      if declaration.symbol = some symbol then some declaration else first? rest symbol := by
  rw [first?, List.find?_cons]
  by_cases own : declaration.symbol = some symbol
  · simp [own]
  · simp [own, first?]

theorem Declaration.first?_append (early late : List Declaration) (symbol : String) :
    first? (early ++ late) symbol = (first? early symbol).or (first? late symbol) :=
  List.find?_append

namespace Outline

/-- Whether a unit is found among some units or under them, and the declarations on the way to it,
the innermost first.  `above` are those on the way to the units. -/
inductive Occurs : List Declaration → List Outline → List Declaration → Outline → Prop
  /-- A unit is found among the units. -/
  | here {above : List Declaration} {units : List Outline} {unit : Outline} :
      unit ∈ units → Occurs above units above unit
  /-- A unit is found under one of the units. -/
  | inside {above path : List Declaration} {units children : List Outline}
      {declaration : Declaration} {unit : Outline} :
      .mk declaration children ∈ units → Occurs (declaration :: above) children path unit →
      Occurs above units path unit

namespace Occurs

variable {above path : List Declaration} {units : List Outline} {unit : Outline}

theorem not_nil : ¬Occurs above [] path unit := by
  rintro (member | member)
  · cases member
  · cases member

theorem mono {more : List Outline} (subset : units ⊆ more) (occurs : Occurs above units path unit) :
    Occurs above more path unit := by
  cases occurs with
  | here member => exact .here (subset member)
  | inside member below => exact .inside (subset member) below

theorem of_append {first second : List Outline}
    (occurs : Occurs above (first ++ second) path unit) :
    Occurs above first path unit ∨ Occurs above second path unit := by
  cases occurs with
  | here member => exact (List.mem_append.mp member).imp .here .here
  | inside member below =>
      exact (List.mem_append.mp member).imp (.inside · below) (.inside · below)

theorem of_cons {declaration : Declaration} {children rest : List Outline}
    (occurs : Occurs above (.mk declaration children :: rest) path unit) :
    path = above ∧ unit = .mk declaration children ∨
      Occurs (declaration :: above) children path unit ∨ Occurs above rest path unit := by
  cases occurs with
  | here member =>
      rcases List.mem_cons.mp member with same | behind
      · exact .inl ⟨rfl, same⟩
      · exact .inr (.inr (.here behind))
  | inside member below =>
      rcases List.mem_cons.mp member with same | behind
      · obtain ⟨rfl, rfl⟩ := Outline.mk.inj same
        exact .inr (.inl below)
      · exact .inr (.inr (.inside behind below))

theorem child {declaration : Declaration} {children : List Outline}
    (occurs : Occurs above units path (.mk declaration children)) (member : unit ∈ children) :
    Occurs above units (declaration :: path) unit := by
  generalize found : Outline.mk declaration children = owner at occurs
  induction occurs with
  | here top => exact .inside (found ▸ top) (.here member)
  | inside top _ ih => exact .inside top (ih found)

theorem top_or_child (occurs : Occurs above units path unit) :
    path = above ∧ unit ∈ units ∨ ∃ declaration owners children, path = declaration :: owners ∧
      Occurs above units owners (.mk declaration children) ∧ unit ∈ children := by
  induction occurs with
  | here member => exact .inl ⟨rfl, member⟩
  | @inside above path units children declaration unit top below ih =>
      refine .inr ?_
      rcases ih with ⟨rfl, member⟩ | ⟨inner, owners, units, rfl, found, member⟩
      · exact ⟨declaration, above, children, rfl, .here top, member⟩
      · exact ⟨inner, owners, units, rfl, .inside top found, member⟩

end Occurs
end Outline

namespace Model

/-- Whether an entry stands for the innermost of some declarations, each right under the next
one.  The symbol decides which entry that is; without one, it is the one declared there. -/
def StandsFor (model : Model) : EntryId → List Declaration → Prop
  | id, [] => id = root
  | id, declaration :: above =>
    id ≠ root ∧ ∃ site, model.site? id = some site ∧ site.symbol = declaration.symbol ∧
      (declaration.symbol = none → site.kind = declaration.kind ∧
        ∃ parent, site.parent = some parent ∧ model.StandsFor parent above)

namespace StandsFor

variable {model : Model} {id : EntryId} {path : List Declaration}

theorem top (model : Model) : model.StandsFor root [] := rfl

theorem mono {after : Model} (grown : model.Extends after) (stands : model.StandsFor id path) :
    after.StandsFor id path := by
  induction path generalizing id with
  | nil => exact stands
  | cons declaration above ih =>
      obtain ⟨below, site, found, symbol, own⟩ := stands
      obtain ⟨later, there, le⟩ := grown.site id site found
      refine ⟨below, later, there, le.symbol.trans symbol, fun nameless => ?_⟩
      obtain ⟨kind, parent, under, stands⟩ := own nameless
      exact ⟨le.kind.trans kind, parent, le.parent.trans under, ih stands⟩

theorem lt_size (rising : model.Rising) (stands : model.StandsFor id path) : id < model.size := by
  cases path with
  | nil =>
      obtain rfl : id = root := stands
      exact rising.root_lt_size
  | cons declaration above =>
      obtain ⟨-, site, found, -⟩ := stands
      exact lt_size_iff_site.mpr ⟨site, found⟩

theorem lookup (rising : model.Rising) {declaration : Declaration}
    (stands : model.StandsFor id (declaration :: path)) {symbol : String}
    (named : declaration.symbol = some symbol) : model.lookup symbol = some id := by
  obtain ⟨below, site, found, own, -⟩ := stands
  exact (rising.registered symbol id).mpr ⟨below, site, found, own.trans named⟩

theorem symbol_eq {first second : Declaration} {above higher : List Declaration}
    (stands : model.StandsFor id (first :: above)) (again : model.StandsFor id (second :: higher)) :
    first.symbol = second.symbol := by
  obtain ⟨-, site, found, own, -⟩ := stands
  obtain ⟨-, same, there, given, -⟩ := again
  obtain rfl := Option.some.inj (found.symm.trans there)
  exact own.symm.trans given

end StandsFor

/-- An entry and its child stand for declarations of different symbols. -/
theorem Rising.symbol_ne_of_owns {model : Model} (rising : model.Rising) {owner child : EntryId}
    (owns : model.Owns owner child) {outer inner : Declaration} {above higher : List Declaration}
    (upper : model.StandsFor owner (outer :: above))
    (lower : model.StandsFor child (inner :: higher)) {symbol : String}
    (named : inner.symbol = some symbol) : outer.symbol ≠ some symbol := by
  intro same
  obtain ⟨site, present, member⟩ := owns
  have first := upper.lookup rising same
  have second := lower.lookup rising named
  exact (rising.child owner site present child member).2.2
    (Option.some.inj (second.symm.trans first))

theorem Enters.stands {before after : Model} {owner id : EntryId} {declaration : Declaration}
    (enters : before.Enters after owner id declaration) {above : List Declaration}
    (owns : before.StandsFor owner above) : after.StandsFor id (declaration :: above) := by
  obtain ⟨site, found, symbol, new⟩ := enters.site
  refine ⟨enters.below, site, found, symbol, fun nameless => ?_⟩
  obtain ⟨kind, parent⟩ := new (enters.nameless nameless)
  exact ⟨kind, owner, parent, owns.mono enters.grown⟩

/-- Whether an entry is a child of its parent. -/
def Adopted (model : Model) (id : EntryId) : Prop :=
  ∃ parent, model.parent? id = some parent ∧ model.Owns parent id

theorem Extends.owns {before after : Model} (grown : before.Extends after) {owner child : EntryId}
    (owns : before.Owns owner child) : after.Owns owner child := by
  obtain ⟨site, found, member⟩ := owns
  obtain ⟨later, there, le⟩ := grown.site owner site found
  exact ⟨later, there, le.children member⟩

theorem Extends.adopted {before after : Model} (grown : before.Extends after) {id : EntryId}
    (adopted : before.Adopted id) : after.Adopted id := by
  obtain ⟨parent, under, owns⟩ := adopted
  obtain ⟨site, found, own⟩ := Option.bind_eq_some_iff.mp under
  obtain ⟨later, there, le⟩ := grown.site id site found
  refine ⟨parent, ?_, grown.owns owns⟩
  rw [parent?, there]
  exact le.parent.trans own

/-- What placing some units does to the tree, if `above` are the declarations on the way to them. -/
structure Places (before after : Model) (above : List Declaration) (units : List Outline) :
    Prop where
  /-- Nothing is taken back. -/
  grown : before.Extends after
  /-- The tree stays as it must be. -/
  rising : after.Rising
  /-- New entries are children of their parents. -/
  adopted : ∀ id, before.size ≤ id → id < after.size → after.Adopted id
  /-- The entry of a unit is owned by the entry of the unit above it, if these are not the same. -/
  owned : ∀ path unit, Outline.Occurs above units path unit → ∃ owner child,
    after.StandsFor owner path ∧ after.StandsFor child (unit.declaration :: path) ∧
      (owner = child ∨ after.Owns owner child)
  /-- What an entry owns in addition is the entry of a unit under one that it stands for. -/
  stands : ∀ owner child, after.Owns owner child → before.Owns owner child ∨
    ∃ path unit, Outline.Occurs above units path unit ∧ after.StandsFor owner path ∧
      after.StandsFor child (unit.declaration :: path)
  /-- The first declaration of a symbol decides what kind its entry is. -/
  kinds : ∀ symbol, after.kindOf symbol = (before.kindOf symbol).or
    ((Declaration.first? (Outline.documentAll units) symbol).map fun first => first.kind)

namespace Places

variable {before middle after : Model} {above : List Declaration}

theorem nil {model : Model} (rising : model.Rising) : model.Places model above [] where
  grown := .refl model
  rising := rising
  adopted := fun _ new old => absurd old (Nat.not_lt.mpr new)
  owned := fun _ _ occurs => absurd occurs Outline.Occurs.not_nil
  stands := fun _ _ owns => .inl owns
  kinds := fun _ => Option.or_none.symm

theorem append {first second : List Outline} (early : before.Places middle above first)
    (late : middle.Places after above second) : before.Places after above (first ++ second) where
  grown := early.grown.trans late.grown
  rising := late.rising
  adopted := by
    intro id new present
    rcases Nat.lt_or_ge id middle.size with old | new'
    · exact late.grown.adopted (early.adopted id new old)
    · exact late.adopted id new' present
  owned := by
    intro path unit occurs
    rcases occurs.of_append with occurs | occurs
    · obtain ⟨owner, child, upper, lower, owns⟩ := early.owned path unit occurs
      exact ⟨owner, child, upper.mono late.grown, lower.mono late.grown, owns.imp_right
        late.grown.owns⟩
    · exact late.owned path unit occurs
  stands := by
    intro owner child owns
    rcases late.stands owner child owns with owns | ⟨path, unit, occurs, upper, lower⟩
    · rcases early.stands owner child owns with owns | ⟨path, unit, occurs, upper, lower⟩
      · exact .inl owns
      · exact .inr ⟨path, unit, occurs.mono (List.subset_append_left _ _),
          upper.mono late.grown, lower.mono late.grown⟩
    · exact .inr ⟨path, unit, occurs.mono (List.subset_append_right _ _), upper, lower⟩
  kinds := by
    intro symbol
    rw [late.kinds, early.kinds, Outline.documentAll_append, Declaration.first?_append,
      Option.map_or, Option.or_assoc]

/-- A unit is placed by declaring its head, placing what is under it and handing the entry over. -/
theorem unit {owner id : EntryId} {declaration : Declaration} {children : List Outline}
    (rising : before.Rising) (owns : before.StandsFor owner above)
    (enters : before.Enters middle owner id declaration)
    (inner : middle.Places after (declaration :: above) children) :
    before.Places (after.attach owner id) above [.mk declaration children] := by
  have grown := enters.grown.trans inner.grown
  have handed := extends_attach after owner id
  have upper := owns.mono grown
  have lower := (enters.stands owns).mono inner.grown
  have present := upper.lt_size inner.rising
  obtain ⟨site, found, symbol, new⟩ := enters.site
  obtain ⟨later, there, le⟩ := inner.grown.site id site found
  have sole : later.symbol = none → later.parent = some owner := by
    rw [le.symbol, le.parent, symbol]
    exact fun nameless => (new (enters.nameless nameless)).2
  refine
    { grown := grown.trans handed
      rising := inner.rising.attach present there enters.below sole
      adopted := ?_
      owned := ?_
      stands := ?_
      kinds := fun symbol => ?_ }
  · intro other fresh bounded
    rw [size_attach] at bounded
    rcases Nat.lt_or_ge other middle.size with declared | later
    · -- The entry of the head is the only one that was not handed over yet.
      obtain rfl := enters.only other fresh declared
      obtain ⟨last, beyond, stays⟩ := handed.site other later there
      have different := Nat.ne_of_lt (Nat.lt_of_lt_of_le (owns.lt_size rising) fresh)
      refine ⟨owner, ?_, (owns_attach present).mpr (.inr ⟨different, rfl, rfl⟩)⟩
      rw [parent?, beyond]
      exact (stays.parent.trans le.parent).trans (new fresh).2
    · exact handed.adopted (inner.adopted other later bounded)
  · intro path unit occurs
    rcases occurs.of_cons with ⟨rfl, rfl⟩ | occurs | behind
    · refine ⟨owner, id, upper.mono handed, lower.mono handed, ?_⟩
      rw [owns_attach present]
      exact (Decidable.em (owner = id)).imp_right fun different => .inr ⟨different, rfl, rfl⟩
    · obtain ⟨other, child, upper, lower, owns⟩ := inner.owned path unit occurs
      exact ⟨other, child, upper.mono handed, lower.mono handed, owns.imp_right handed.owns⟩
    · exact absurd behind Outline.Occurs.not_nil
  · intro other child owning
    rcases (owns_attach present).mp owning with owning | ⟨-, rfl, rfl⟩
    · rcases inner.stands other child owning with owning | ⟨path, unit, occurs, upper, lower⟩
      · exact .inl (enters.owns other child owning)
      · exact .inr ⟨path, unit, .inside List.mem_cons_self occurs, upper.mono handed,
          lower.mono handed⟩
    · exact .inr ⟨above, .mk declaration children, .here List.mem_cons_self, upper.mono handed,
        lower.mono handed⟩
  · rw [kindOf_attach, inner.kinds, enters.kinds, Option.or_assoc, Outline.documentAll_cons,
      Outline.document_mk, List.cons_append, Declaration.first?_cons]
    split
    · rfl
    · rw [Option.none_or, Outline.documentAll, List.append_nil]

end Places

mutual

theorem places_place {owner : EntryId} {model : Model} {above : List Declaration}
    (rising : model.Rising) (stands : model.StandsFor owner above) :
    ∀ unit : Outline, model.Places (place owner model unit) above [unit]
  | .mk declaration children => by
      have enters := rising.enters (stands.lt_size rising) declaration
      rw [place_mk]
      exact .unit rising stands enters
        (places_placeAll enters.rising (enters.stands stands) children)

theorem places_placeAll {owner : EntryId} {model : Model} {above : List Declaration}
    (rising : model.Rising) (stands : model.StandsFor owner above) :
    ∀ units : List Outline, model.Places (placeAll owner model units) above units
  | [] => .nil rising
  | unit :: units => by
      have first := places_place rising stands unit
      exact first.append (places_placeAll first.rising (stands.mono first.grown) units)

end

theorem rising_top (declaration : Declaration) (options : Options) :
    (top declaration options).Rising := by
  have alone : ∀ id site, (top declaration options).site? id = some site →
      id = root ∧ site = ⟨declaration.kind, declaration.symbol, none, []⟩ := by
    intro id site found
    cases id with
    | zero => exact ⟨rfl, (Option.some.inj found).symm⟩
    | succ id => cases found
  refine ⟨fun symbol id => ⟨nofun, ?_⟩, ⟨_, rfl, rfl⟩, ?_, ?_, ?_, ?_⟩
  · rintro ⟨below, site, found, -⟩
    exact absurd (alone id site found).1 below
  · exact fun id site found below => absurd (alone id site found).1 below
  · intro id site found child member
    rw [(alone id site found).2] at member
    cases member
  · intro id site found
    rw [(alone id site found).2]
    exact List.nodup_nil
  · rintro owner child _ ⟨site, found, member⟩
    rw [(alone owner site found).2] at member
    cases member

/-- How the entries of a built model own each other. -/
theorem places_of_build {description : Node} {options : Options} {model : Model}
    (built : build description options = .ok model) :
    (top description.declaration options).Places model []
      (Outline.ofNodes description.entries) := by
  obtain ⟨-, rfl⟩ := build_eq_ok_iff.mp built
  exact places_placeAll (rising_top _ _) (.top _) _

/-- What an entry owns in a built model comes from a unit right under one that it stands for. -/
theorem occurs_of_owns {description : Node} {options : Options} {model : Model}
    (built : build description options = .ok model) {owner child : EntryId}
    (owns : model.Owns owner child) :
    ∃ path unit, Outline.Occurs [] (Outline.ofNodes description.entries) path unit ∧
      model.StandsFor owner path ∧ model.StandsFor child (unit.declaration :: path) := by
  rcases (places_of_build built).stands owner child owns with ⟨site, found, member⟩ | occurs
  · -- Before anything is placed, nobody owns anything.
    cases owner with
    | zero =>
        obtain rfl := Option.some.inj found
        cases member
    | succ owner => cases found
  · exact occurs

end Model
end OptionTree
