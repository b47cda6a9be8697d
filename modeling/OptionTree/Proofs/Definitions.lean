import Mathlib.Data.List.Induction
import Mathlib.Data.List.TakeWhile
import OptionTree.Proofs.Numbering

/-!
# Definitions that are registered one after another

Registering entries in a new registry leaves one entry for every symbol and one for every entry
without a symbol, in the order in which they first come up.  The entry of a symbol states what all
definitions of the symbol state together, and its identifier never changes.
-/

namespace OptionTree

/-- The items of a list and behind them those of a later one that it does not hold, each where it
comes first. -/
def unionItems {α : Type} [DecidableEq α] (first later : List α) : List α :=
  first ++ (later.filter fun item => item ∉ first).eraseDups

theorem unionItems_concat {α : Type} [DecidableEq α] (first later : List α) (item : α) :
    unionItems first (later ++ [item]) =
      if item ∈ first ∨ item ∈ later then unionItems first later
      else unionItems first later ++ [item] := by
  by_cases old : item ∈ first
  · simp [unionItems, old]
  · by_cases known : item ∈ later
    · simp [unionItems, List.eraseDups_append, List.removeAll, old, known]
    · simp [unionItems, List.eraseDups_append, List.removeAll, List.eraseDups_cons, old, known]

theorem mergeItems_eq_unionItems {α : Type} [DecidableEq α] (first later : List α) :
    mergeItems first later = unionItems first later := by
  induction later using List.reverseRecOn with
  | nil => simp [mergeItems, unionItems]
  | append_singleton later item ih =>
      rw [mergeItems_append, unionItems_concat, ← ih, mergeItems, List.foldl_cons, List.foldl_nil]
      simp only [mem_mergeItems]

theorem mergeItems_unionItems {α : Type} [DecidableEq α] (first second third : List α) :
    mergeItems (unionItems first second) third = unionItems first (second ++ third) := by
  rw [← mergeItems_eq_unionItems, ← mergeItems_eq_unionItems, mergeItems_append]

namespace Entry

/-- What several definitions of a symbol state together: a single fact is that of the first one that
states it, clauses add up, and lists grow by what they did not hold. -/
def together (first : Entry) (later : List Entry) : Entry where
  kind := first.kind
  symbol := (first :: later).findSome? (·.symbol)
  type := (first :: later).findSome? (·.type)
  prompt := (first :: later).findSome? (·.prompt)
  help := (first :: later).findSome? (·.help)
  env := (first :: later).findSome? (·.env)
  location :=
    { file := (first :: later).findSome? (·.location.file)
      line := (first :: later).findSome? (·.location.line) }
  clauses := (first :: later).flatMap (·.clauses)
  defaults := unionItems first.defaults (later.flatMap (·.defaults))
  selects := unionItems first.selects (later.flatMap (·.selects))
  implies := unionItems first.implies (later.flatMap (·.implies))
  ranges := unionItems first.ranges (later.flatMap (·.ranges))
  override := first.override
  parent := (first :: later).findSome? (·.parent)
  children := first.children

theorem together_nil (first : Entry) : first.together [] = first := by
  simp [together, unionItems]

theorem together_concat (first : Entry) (later : List Entry) (next : Entry) :
    first.together (later ++ [next]) = (first.together later).merge next := by
  simp only [together, merge, Declaration.merge, Location.merge, ← List.cons_append,
    List.findSome?_concat, mergeItems_unionItems, List.flatMap_append, List.flatMap_singleton]

end Entry

namespace Registry

/-- Registers one more entry and notes which one stands for it. -/
def enroll (enrolled : Registry × List EntryId) (entry : Entry) : Registry × List EntryId :=
  let registered := enrolled.1.register entry
  (registered.1, enrolled.2 ++ [registered.2])

/-- A new registry in which some entries were registered in order, and which one stands for each. -/
def enrollAll (entries : List Entry) : Registry × List EntryId := entries.foldl enroll ({}, [])

theorem enrollAll_concat (entries : List Entry) (entry : Entry) :
    enrollAll (entries ++ [entry]) = enroll (enrollAll entries) entry := by
  simp [enrollAll]

/-- The symbols of some definitions, in order and with repetitions. -/
def symbolsOf (entries : List Entry) : List String := entries.filterMap (·.symbol)

/-- The definitions of a symbol. -/
def definitions (entries : List Entry) (symbol : String) : List Entry :=
  entries.filter (·.symbol = some symbol)

/-- How many entries some definitions make: one for each that has no symbol, and one for each
symbol. -/
def created (entries : List Entry) : Nat :=
  entries.countP (·.symbol.isNone) + (symbolsOf entries).eraseDups.length

/-- How many entries are made before a symbol comes up. -/
def placeOf (entries : List Entry) (symbol : String) : Nat :=
  created (entries.takeWhile (·.symbol ≠ some symbol))

theorem mem_symbolsOf {entries : List Entry} {symbol : String} :
    symbol ∈ symbolsOf entries ↔ ∃ entry ∈ entries, entry.symbol = some symbol :=
  List.mem_filterMap

theorem symbolsOf_concat (entries : List Entry) (entry : Entry) :
    symbolsOf (entries ++ [entry]) = symbolsOf entries ++ entry.symbol.toList := by
  rw [symbolsOf, List.filterMap_append]
  cases named : entry.symbol <;> simp [named, symbolsOf]

/-- Whether a definition is not the first one of its symbol. -/
def Known (entries : List Entry) (entry : Entry) : Prop :=
  ∃ symbol ∈ symbolsOf entries, entry.symbol = some symbol

theorem created_of_known {entries : List Entry} {entry : Entry} (known : Known entries entry) :
    created (entries ++ [entry]) = created entries := by
  obtain ⟨symbol, member, named⟩ := known
  simp [created, symbolsOf_concat, named, List.eraseDups_concat, member]

theorem created_of_not_known {entries : List Entry} {entry : Entry}
    (new : ¬Known entries entry) : created (entries ++ [entry]) = created entries + 1 := by
  cases named : entry.symbol with
  | none =>
      simp only [created, symbolsOf_concat, named, List.countP_append, Option.toList_none,
        List.append_nil, List.countP_singleton, Option.isNone_none, if_true]
      omega
  | some symbol =>
      have absent : symbol ∉ symbolsOf entries := fun member => new ⟨symbol, member, named⟩
      simp only [created, symbolsOf_concat, named, Option.toList_some, List.eraseDups_concat,
        absent, if_false, List.length_append, List.length_singleton, List.countP_append,
        List.countP_singleton, Option.isNone_some, Bool.false_eq_true]
      omega

theorem placeOf_append {entries : List Entry} {symbol : String}
    (member : symbol ∈ symbolsOf entries) (more : List Entry) :
    placeOf (entries ++ more) symbol = placeOf entries symbol := by
  have shorter : (entries.takeWhile (·.symbol ≠ some symbol)).length ≠ entries.length := by
    intro same
    obtain ⟨entry, inside, named⟩ := mem_symbolsOf.mp member
    have whole := (List.takeWhile_prefix _).eq_of_length same
    have other := List.takeWhile_eq_self_iff.mp whole entry inside
    simp [named] at other
  rw [placeOf, List.takeWhile_append, if_neg shorter, placeOf]

theorem placeOf_of_not_mem {entries : List Entry} {symbol : String}
    (absent : symbol ∉ symbolsOf entries) {entry : Entry} (named : entry.symbol = some symbol) :
    placeOf (entries ++ [entry]) symbol = created entries := by
  have others : ∀ other ∈ entries, (decide (other.symbol ≠ some symbol)) = true := by
    intro other member
    simpa using fun same => absent (mem_symbolsOf.mpr ⟨other, member, same⟩)
  rw [placeOf, List.takeWhile_append_of_pos others]
  simp [named]

theorem definitions_concat (entries : List Entry) (entry : Entry) (symbol : String) :
    definitions (entries ++ [entry]) symbol =
      definitions entries symbol ++ if entry.symbol = some symbol then [entry] else [] := by
  rw [definitions, List.filter_append, definitions]
  split <;> simp_all

theorem definitions_eq_nil_iff {entries : List Entry} {symbol : String} :
    definitions entries symbol = [] ↔ symbol ∉ symbolsOf entries := by
  simp [definitions, mem_symbolsOf]

theorem mem_symbolsOf_of_definitions {entries later : List Entry} {symbol : String} {first : Entry}
    (found : definitions entries symbol = first :: later) : symbol ∈ symbolsOf entries := by
  by_contra absent
  rw [definitions_eq_nil_iff.mpr absent] at found
  cases found

theorem exists_definitions {entries : List Entry} {symbol : String}
    (member : symbol ∈ symbolsOf entries) :
    ∃ first later, definitions entries symbol = first :: later :=
  List.exists_cons_of_ne_nil fun none => definitions_eq_nil_iff.mp none member

/-- The identifier for the definition at an index: the place of its symbol, or the next one. -/
def idOf (entries : List Entry) (index : Nat) (entry : Entry) : EntryId :=
  (entry.symbol.map (placeOf entries)).getD (created (entries.take index))

/-- What a registry holds in which some definitions were registered in order, and which identifiers
that gave out. -/
structure Represents (entries : List Entry) (registry : Registry) (ids : List EntryId) : Prop where
  /-- There is one entry for each definition without a symbol and one for each symbol. -/
  size : registry.size = created entries
  /-- The registered symbols are those of the definitions, in the order in which they come up. -/
  names : registry.names.map Prod.fst = (symbolsOf entries).eraseDups
  /-- Symbols that come up later have later entries. -/
  ascending : (registry.names.map Prod.snd ++ [registry.size]).Pairwise (· < ·)
  /-- The entry of a symbol has the place at which the symbol comes up. -/
  lookup : ∀ symbol, registry.lookup symbol =
    if symbol ∈ symbolsOf entries then some (placeOf entries symbol) else none
  /-- Every definition of a symbol gets the entry of the symbol, and a definition without one gets
  the next place. -/
  issued : ids.length = entries.length ∧ ∀ index entry, entries[index]? = some entry →
    ids[index]? = some (idOf entries index entry)
  /-- The entry of a symbol states what the definitions of the symbol state together. -/
  named : ∀ symbol first later, definitions entries symbol = first :: later →
    registry.get? (placeOf entries symbol) = some (first.together later)
  /-- A definition without a symbol is an entry by itself. -/
  nameless : ∀ index entry, entries[index]? = some entry → entry.symbol = none →
    registry.get? (created (entries.take index)) = some entry

theorem mem_symbolsOf_of_getElem? {entries : List Entry} {other : Entry} {index : Nat}
    (found : entries[index]? = some other) {symbol : String} (named : other.symbol = some symbol) :
    symbol ∈ symbolsOf entries :=
  mem_symbolsOf.mpr ⟨other, List.mem_of_getElem? found, named⟩

theorem idOf_concat {entries : List Entry} {other : Entry} {index : Nat}
    (found : entries[index]? = some other) (entry : Entry) :
    idOf (entries ++ [entry]) index other = idOf entries index other := by
  rw [idOf, idOf, List.take_concat_of_getElem? found]
  cases named : other.symbol with
  | none => rfl
  | some symbol =>
      rw [Option.map_some, Option.map_some,
        placeOf_append (mem_symbolsOf_of_getElem? found named)]

theorem represents_nil : Represents [] {} [] where
  size := rfl
  names := rfl
  ascending := List.pairwise_singleton _ _
  lookup := fun _ => rfl
  issued := ⟨rfl, fun _ _ found => by cases found⟩
  named := fun _ _ _ found => by cases found
  nameless := fun _ _ found => by cases found

namespace Represents

variable {entries : List Entry} {registry : Registry} {ids : List EntryId} {entry : Entry}

section Symbols

variable (represents : Represents entries registry ids)
include represents

theorem symbol?_placeOf {symbol : String} (member : symbol ∈ symbolsOf entries) :
    registry.symbol? (placeOf entries symbol) = some symbol := by
  obtain ⟨first, later, found⟩ := exists_definitions member
  have own : first.symbol = some symbol := by
    have inside : first ∈ definitions entries symbol := found ▸ List.mem_cons_self
    simpa [definitions] using (List.mem_filter.mp inside).2
  rw [symbol?, represents.named symbol first later found]
  simp [Entry.together, own]

theorem placeOf_ne {first second : String} (known : first ∈ symbolsOf entries)
    (other : second ∈ symbolsOf entries) (different : first ≠ second) :
    placeOf entries first ≠ placeOf entries second := by
  intro same
  have own := represents.symbol?_placeOf known
  rw [same, represents.symbol?_placeOf other] at own
  exact different (Option.some.inj own).symm

theorem placeOf_lt_size {symbol : String} (member : symbol ∈ symbolsOf entries) :
    placeOf entries symbol < registry.size :=
  lt_size_of_symbol? (represents.symbol?_placeOf member)

theorem unknown (new : ¬Known entries entry) : entry.symbol.bind registry.lookup = none := by
  refine Option.bind_eq_none_iff.mpr fun symbol named => ?_
  rw [represents.lookup, if_neg fun member => new ⟨symbol, member, named⟩]

theorem issued_concat {id : EntryId} (own : idOf (entries ++ [entry]) entries.length entry = id) :
    (ids ++ [id]).length = (entries ++ [entry]).length ∧
      ∀ index other, (entries ++ [entry])[index]? = some other →
        (ids ++ [id])[index]? = some (idOf (entries ++ [entry]) index other) := by
  obtain ⟨length, issued⟩ := represents.issued
  refine ⟨by simp [length], fun index other found => ?_⟩
  rcases List.of_getElem?_concat found with before | ⟨rfl, rfl⟩
  · obtain ⟨inside, -⟩ := List.getElem?_eq_some_iff.mp before
    rw [List.getElem?_append_left (length ▸ inside), issued index other before,
      idOf_concat before]
  · rw [← length, List.getElem?_concat_length, length, own]

end Symbols

/-- One more definition of a symbol that has come up is merged into the entry of the symbol. -/
theorem of_known (represents : Represents entries registry ids) {symbol : String}
    (own : entry.symbol = some symbol) (member : symbol ∈ symbolsOf entries) :
    Represents (entries ++ [entry])
      (registry.modify (placeOf entries symbol) (·.merge entry))
      (ids ++ [placeOf entries symbol]) where
  size := by
    rw [size_modify, represents.size, created_of_known ⟨symbol, member, own⟩]
  names := by
    rw [symbolsOf_concat, own, Option.toList_some, List.eraseDups_concat, if_pos member]
    exact represents.names
  ascending := by
    rw [size_modify]
    exact represents.ascending
  lookup := by
    intro other
    rw [lookup_modify, represents.lookup, symbolsOf_concat, own, Option.toList_some]
    by_cases known : other ∈ symbolsOf entries
    · rw [if_pos known, if_pos (List.mem_append_left _ known), placeOf_append known]
    · have different : other ≠ symbol := fun same => known (same ▸ member)
      rw [if_neg known, if_neg (by simp [known, different])]
  issued := by
    refine represents.issued_concat ?_
    rw [idOf, own, Option.map_some, Option.getD_some, placeOf_append member]
  named := by
    intro other first later found
    rw [definitions_concat, own] at found
    by_cases same : symbol = other
    · subst same
      rw [if_pos rfl] at found
      obtain ⟨head, rest, before⟩ := exists_definitions member
      rw [before, List.cons_append] at found
      obtain ⟨rfl, rfl⟩ := List.cons.inj found
      rw [placeOf_append member, get?_modify, if_pos rfl,
        represents.named symbol head rest before, Option.map_some, Entry.together_concat]
    · rw [if_neg (by simpa using same), List.append_nil] at found
      have known : other ∈ symbolsOf entries := mem_symbolsOf_of_definitions found
      rw [placeOf_append known, get?_modify, if_neg (represents.placeOf_ne member known same),
        represents.named other first later found]
  nameless := by
    intro index other found absent
    rcases List.of_getElem?_concat found with before | ⟨rfl, rfl⟩
    · have alone := represents.nameless index other before absent
      rw [List.take_concat_of_getElem? before, get?_modify, if_neg, alone]
      -- The entry of the symbol is another one, since it has a symbol.
      intro same
      have named := represents.symbol?_placeOf member
      rw [same, symbol?, alone, Option.bind_some, absent] at named
      cases named
    · cases absent.symm.trans own

/-- Any other definition becomes a new entry. -/
theorem of_not_known (represents : Represents entries registry ids) (new : ¬Known entries entry) :
    Represents (entries ++ [entry]) (registry.push entry) (ids ++ [registry.size]) where
  size := by
    rw [size_push, represents.size, created_of_not_known new]
  names := by
    rw [push, List.map_append, represents.names, symbolsOf_concat]
    cases named : entry.symbol with
    | none => simp
    | some symbol =>
        have absent : symbol ∉ symbolsOf entries := fun member => new ⟨symbol, member, named⟩
        simp [List.eraseDups_concat, absent]
  ascending := by
    have before := represents.ascending
    obtain ⟨inner, -, below⟩ := List.pairwise_append.mp before
    have raised : (registry.names.map Prod.snd ++ [registry.size + 1]).Pairwise (· < ·) := by
      refine List.pairwise_append.mpr ⟨inner, List.pairwise_singleton _ _, ?_⟩
      intro id member last same
      obtain rfl := List.mem_singleton.mp same
      exact Nat.lt_succ_of_lt (below id member _ (List.mem_singleton_self _))
    rw [size_push, push]
    cases entry.symbol with
    | none => simpa using raised
    | some symbol =>
        simp only [Option.map_some, Option.toList_some, List.map_append, List.map_cons,
          List.map_nil]
        refine List.pairwise_append.mpr ⟨before, List.pairwise_singleton _ _, ?_⟩
        intro id member last same
        obtain rfl := List.mem_singleton.mp same
        rcases List.mem_append.mp member with earlier | own
        · exact Nat.lt_succ_of_lt (below id earlier _ (List.mem_singleton_self _))
        · exact List.mem_singleton.mp own ▸ Nat.lt_succ_self _
  lookup := by
    intro other
    rw [lookup_push other (represents.unknown new), symbolsOf_concat]
    by_cases own : entry.symbol = some other
    · have absent : other ∉ symbolsOf entries := fun member => new ⟨other, member, own⟩
      rw [if_pos own, own, if_pos (by simp), placeOf_of_not_mem absent own, represents.size]
    · rw [if_neg own, represents.lookup]
      by_cases known : other ∈ symbolsOf entries
      · rw [if_pos known, if_pos (List.mem_append_left _ known), placeOf_append known]
      · rw [if_neg known, if_neg]
        simpa [known] using own
  issued := by
    refine represents.issued_concat ?_
    rw [idOf, represents.size]
    cases named : entry.symbol with
    | none => simp
    | some symbol => exact placeOf_of_not_mem (fun member => new ⟨symbol, member, named⟩) named
  named := by
    intro other first later found
    rw [definitions_concat] at found
    by_cases own : entry.symbol = some other
    · have absent : other ∉ symbolsOf entries := fun member => new ⟨other, member, own⟩
      rw [definitions_eq_nil_iff.mpr absent, if_pos own] at found
      obtain ⟨rfl, rfl⟩ := List.cons.inj found
      rw [placeOf_of_not_mem absent own, ← represents.size, get?_push, if_pos rfl,
        Entry.together_nil]
    · rw [if_neg own, List.append_nil] at found
      have known : other ∈ symbolsOf entries := mem_symbolsOf_of_definitions found
      rw [placeOf_append known, get?_push, if_neg (Nat.ne_of_lt (represents.placeOf_lt_size known)),
        represents.named other first later found]
  nameless := by
    intro index other found absent
    rcases List.of_getElem?_concat found with before | ⟨rfl, rfl⟩
    · have alone := represents.nameless index other before absent
      have inside : created (entries.take index) < registry.size :=
        (List.getElem?_eq_some_iff.mp alone).1
      rw [List.take_concat_of_getElem? before, get?_push, if_neg (Nat.ne_of_lt inside), alone]
    · rw [List.take_left, ← represents.size, get?_push, if_pos rfl]

end Represents

/-! ## Entries keep their identity -/

/-- A registry that represents some definitions represents one more after it is registered. -/
theorem Represents.register {entries : List Entry} {registry : Registry} {ids : List EntryId}
    (represents : Represents entries registry ids) (entry : Entry) :
    Represents (entries ++ [entry]) (registry.register entry).1
      (ids ++ [(registry.register entry).2]) := by
  by_cases known : Known entries entry
  · obtain ⟨symbol, member, own⟩ := known
    rw [Registry.register, own, Option.bind_some, represents.lookup, if_pos member]
    exact represents.of_known own member
  · rw [Registry.register, represents.unknown known]
    exact represents.of_not_known known

theorem represents_enrollAll (entries : List Entry) :
    Represents entries (enrollAll entries).1 (enrollAll entries).2 := by
  induction entries using List.reverseRecOn with
  | nil => exact represents_nil
  | append_singleton entries entry ih =>
      rw [enrollAll_concat]
      exact ih.register entry

theorem indexed_enrollAll (entries : List Entry) : (enrollAll entries).1.Indexed := by
  induction entries using List.reverseRecOn with
  | nil => exact fun _ _ => ⟨nofun, nofun⟩
  | append_singleton entries entry ih =>
      rw [enrollAll_concat]
      exact ih.register entry

theorem Indexed.symbol?_register {registry : Registry} (indexed : registry.Indexed) (entry : Entry)
    {id : EntryId} (old : id < registry.size) :
    (registry.register entry).1.symbol? id = registry.symbol? id := by
  rw [Registry.register]
  split
  · rename_i index known
    obtain ⟨own, -, located⟩ := Option.bind_eq_some_iff.mp known
    exact symbol?_modify_merge ((indexed index own).mpr located) entry id
  · rw [symbol?_push, if_neg (Nat.ne_of_lt old)]

theorem size_le_size_register (registry : Registry) (entry : Entry) :
    registry.size ≤ (registry.register entry).1.size := by
  rw [register]
  split
  · rw [size_modify]
  · rw [size_push]
    exact Nat.le_succ _

/-- Registering more entries extends what was given out and keeps the symbols of old entries. -/
theorem enrollAll_append (entries more : List Entry) :
    (enrollAll entries).1.size ≤ (enrollAll (entries ++ more)).1.size ∧
      (enrollAll entries).2 <+: (enrollAll (entries ++ more)).2 ∧
      ∀ id < (enrollAll entries).1.size,
        (enrollAll (entries ++ more)).1.symbol? id = (enrollAll entries).1.symbol? id := by
  induction more using List.reverseRecOn with
  | nil =>
      rw [List.append_nil]
      exact ⟨Nat.le_refl _, List.prefix_rfl, fun _ _ => rfl⟩
  | append_singleton more entry ih =>
      obtain ⟨larger, issued, same⟩ := ih
      rw [← List.append_assoc, enrollAll_concat, enroll]
      refine ⟨larger.trans (size_le_size_register _ entry),
        issued.trans (List.prefix_append _ _), fun id old => ?_⟩
      rw [(indexed_enrollAll _).symbol?_register entry (Nat.lt_of_lt_of_le old larger),
        same id old]

/-- Registering definitions leaves one entry for each one without a symbol and one for each symbol,
and more definitions take neither identifiers nor symbols away. -/
theorem enrollAll_describes (entries more : List Entry) :
    Represents entries (enrollAll entries).1 (enrollAll entries).2 ∧
      (enrollAll entries).1.names.length = (symbolsOf entries).eraseDups.length ∧
      (∀ first second symbol, (enrollAll entries).1.symbol? first = some symbol →
        (enrollAll entries).1.symbol? second = some symbol → first = second) ∧
      (enrollAll entries).2 <+: (enrollAll (entries ++ more)).2 ∧
      (∀ id < (enrollAll entries).1.size,
        (enrollAll (entries ++ more)).1.symbol? id = (enrollAll entries).1.symbol? id) ∧
      ∀ symbol id, (enrollAll entries).1.lookup symbol = some id →
        (enrollAll (entries ++ more)).1.lookup symbol = some id := by
  have represents := represents_enrollAll entries
  have indexed := indexed_enrollAll entries
  obtain ⟨-, issued, symbols⟩ := enrollAll_append entries more
  refine ⟨represents, ?_, ?_, issued, symbols, ?_⟩
  · rw [← represents.names, List.length_map]
  · intro first second symbol own other
    exact Option.some.inj (((indexed first symbol).mp own).symm.trans
      ((indexed second symbol).mp other))
  · intro symbol id found
    have own := (indexed id symbol).mpr found
    refine (indexed_enrollAll (entries ++ more) id symbol).mp ?_
    rw [symbols id (lt_size_of_symbol? own), own]

/-- An option that is defined twice, with others in between, is one entry. -/
theorem enrollAll_describes_of_redefinition :
    let entries : List Entry :=
      [{ symbol := some "A", clauses := ["X"] }, { kind := .comment }, { symbol := some "B" },
        { kind := .menuconfig, symbol := some "A", type := some .bool, clauses := ["Y"] }]
    let whole : Entry := { symbol := some "A", type := some .bool, clauses := ["X", "Y"] }
    (enrollAll entries).2 = [0, 1, 2, 0] ∧ (enrollAll entries).1.get? 0 = some whole ∧
      (∀ id, (enrollAll entries).1.symbol? id = some "A" → id = 0) ∧
      (enrollAll (entries ++ [{ symbol := some "C" }])).1.lookup "A" = some 0 := by
  intro entries whole
  have issued : (enrollAll entries).2 = [0, 1, 2, 0] := by decide +kernel
  have found : (enrollAll entries).1.lookup "A" = some 0 := by decide +kernel
  have own : (enrollAll entries).1.symbol? 0 = some "A" := by decide +kernel
  obtain ⟨represents, -, unique, -, -, lasting⟩ :=
    enrollAll_describes entries [{ symbol := some "C" }]
  have named := represents.named "A" { symbol := some "A", clauses := ["X"] }
    [{ kind := .menuconfig, symbol := some "A", type := some .bool, clauses := ["Y"] }] (by decide)
  have place : placeOf entries "A" = 0 := by decide
  rw [place] at named
  refine ⟨issued, named.trans (by decide), fun id same => ?_, lasting "A" 0 found⟩
  exact unique id 0 "A" same own

end Registry
end OptionTree
