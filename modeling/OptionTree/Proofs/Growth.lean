import OptionTree.Proofs.Indexed

/-!
# Trees that grow

While a model is built, entries are added and get more children, and nothing is taken back: an
entry keeps its kind, its symbol and its parent, also when its symbol is declared again.
-/

namespace OptionTree

/-- What an entry is in the tree. -/
structure Site where
  /-- The kind of the entry. -/
  kind : Kind
  /-- The symbol of the entry. -/
  symbol : Option String
  /-- The entry under which it was declared first. -/
  parent : Option EntryId
  /-- The entries it owns, in order. -/
  children : List EntryId

namespace Site

/-- Whether one site is an earlier state of another one, which may own more. -/
structure Le (first later : Site) : Prop where
  /-- The kind stays. -/
  kind : later.kind = first.kind
  /-- The symbol stays. -/
  symbol : later.symbol = first.symbol
  /-- The parent stays. -/
  parent : later.parent = first.parent
  /-- No child is given away. -/
  children : first.children ⊆ later.children

theorem Le.refl (site : Site) : site.Le site := ⟨rfl, rfl, rfl, fun _ member => member⟩

theorem Le.trans {first second third : Site} (early : first.Le second) (late : second.Le third) :
    first.Le third :=
  ⟨late.kind.trans early.kind, late.symbol.trans early.symbol, late.parent.trans early.parent,
    fun _ member => late.children (early.children member)⟩

end Site

/-- What an entry is in the tree. -/
def Entry.site (entry : Entry) : Site := ⟨entry.kind, entry.symbol, entry.parent, entry.children⟩

namespace Model

/-- What the entry with an identifier is in the tree. -/
def site? (model : Model) (id : EntryId) : Option Site := (model.get? id).map Entry.site

/-- The kind of an entry. -/
def kind? (model : Model) (id : EntryId) : Option Kind := (model.site? id).map Site.kind

/-- The entry under which an entry was declared first. -/
def parent? (model : Model) (id : EntryId) : Option EntryId := (model.site? id).bind Site.parent

/-- The kind of the entry of a symbol. -/
def kindOf (model : Model) (symbol : String) : Option Kind :=
  (model.lookup symbol).bind model.kind?

/-- Whether one entry lists another one among its children. -/
def Owns (model : Model) (owner child : EntryId) : Prop :=
  ∃ site, model.site? owner = some site ∧ child ∈ site.children

theorem lt_size_iff_site {model : Model} {id : EntryId} :
    id < model.size ↔ ∃ site, model.site? id = some site := by
  rw [site?, ← Option.isSome_iff_exists, Option.isSome_map]
  simp [get?, Registry.get?, size, Registry.size]

theorem site?_modify (model : Model) (index id : EntryId) (change : Entry → Entry) :
    (model.modify index change).site? id =
      if index = id then (model.get? id).map fun entry => (change entry).site
      else model.site? id := by
  have found : (model.modify index change).get? id =
      if index = id then (model.get? id).map change else model.get? id :=
    Registry.get?_modify ..
  rw [site?, found]
  split
  · rw [Option.map_map]
    rfl
  · rfl

theorem site?_modify_of_eq {model : Model} {index : EntryId} {change : Entry → Entry}
    (same : ∀ entry, model.get? index = some entry → (change entry).site = entry.site)
    (id : EntryId) : (model.modify index change).site? id = model.site? id := by
  rw [site?_modify]
  split
  · subst_vars
    cases found : model.get? id with
    | none => simp [site?, found]
    | some entry => simp [site?, found, same entry found]
  · rfl

theorem site?_preset (model : Model) (declaration : Declaration) (index id : EntryId) :
    (model.preset declaration index).site? id = model.site? id := by
  rw [preset]
  split
  · rfl
  · apply site?_modify_of_eq
    exact fun entry _ => rfl

/-! ## Steps of building -/

/-- Whether one model is an earlier state of another one, which may have more entries. -/
structure Extends (before after : Model) : Prop where
  /-- No entry is dropped. -/
  site : ∀ id site, before.site? id = some site →
    ∃ later, after.site? id = some later ∧ site.Le later
  /-- No symbol gets another entry. -/
  lookup : ∀ symbol id, before.lookup symbol = some id → after.lookup symbol = some id

theorem Extends.refl (model : Model) : model.Extends model :=
  ⟨fun _ site found => ⟨site, found, .refl site⟩, fun _ _ found => found⟩

theorem Extends.trans {first second third : Model} (early : first.Extends second)
    (late : second.Extends third) : first.Extends third where
  site := by
    intro id site found
    obtain ⟨next, there, before⟩ := early.site id site found
    obtain ⟨last, beyond, after⟩ := late.site id next there
    exact ⟨last, beyond, before.trans after⟩
  lookup := fun symbol id found => late.lookup symbol id (early.lookup symbol id found)

/-- What holds of the tree at every step of building. -/
structure Rising (model : Model) : Prop where
  /-- The registered symbols are those of the entries below the root. -/
  registered : ∀ symbol id, model.lookup symbol = some id ↔
    id ≠ root ∧ ∃ site, model.site? id = some site ∧ site.symbol = some symbol
  /-- The root has no parent. -/
  top : ∃ site, model.site? root = some site ∧ site.parent = none
  /-- Other entries were declared under an earlier one. -/
  parent : ∀ id site, model.site? id = some site → id ≠ root →
    ∃ parent < id, site.parent = some parent
  /-- Children are entries below the root, and no entry is its own child. -/
  child : ∀ id site, model.site? id = some site → ∀ child ∈ site.children,
    child < model.size ∧ child ≠ root ∧ child ≠ id
  /-- No child is listed twice. -/
  nodup : ∀ id site, model.site? id = some site → site.children.Nodup
  /-- Nobody but its parent owns an entry without a symbol. -/
  sole : ∀ owner child site, model.Owns owner child → model.site? child = some site →
    site.symbol = none → site.parent = some owner

namespace Rising

variable {model : Model} (rising : model.Rising)
include rising

theorem root_lt_size : root < model.size := by
  obtain ⟨site, found, -⟩ := rising.top
  exact lt_size_iff_site.mpr ⟨site, found⟩

theorem lt_size_of_lookup {symbol : String} {id : EntryId}
    (found : model.lookup symbol = some id) : id < model.size := by
  obtain ⟨-, site, there, -⟩ := (rising.registered symbol id).mp found
  exact lt_size_iff_site.mpr ⟨site, there⟩

theorem of_same {after : Model} (sites : ∀ id, after.site? id = model.site? id)
    (names : ∀ symbol, after.lookup symbol = model.lookup symbol) : after.Rising := by
  have size : ∀ id, id < after.size ↔ id < model.size := by
    intro id
    rw [lt_size_iff_site, lt_size_iff_site, sites]
  exact
    { registered := by
        intro symbol id
        rw [names, sites]
        exact rising.registered symbol id
      top := by
        rw [sites]
        exact rising.top
      parent := by
        intro id
        rw [sites]
        exact rising.parent id
      child := by
        intro id
        simp only [sites, size]
        exact rising.child id
      nodup := by
        intro id
        rw [sites]
        exact rising.nodup id
      sole := by
        simp only [Owns, sites]
        exact rising.sole }

end Rising

/-- Whether a model has one more entry than another one, behind all others. -/
structure Appends (before after : Model) (site : Site) : Prop where
  /-- The new entry is behind all others. -/
  sites : ∀ id, after.site? id = if id = before.size then some site else before.site? id
  /-- The symbol of the new entry is registered for it. -/
  names : ∀ symbol, after.lookup symbol =
    if site.symbol = some symbol then some before.size else before.lookup symbol
  /-- The symbol of the new entry was not registered. -/
  unknown : ∀ symbol, site.symbol = some symbol → before.lookup symbol = none

namespace Appends

variable {before after : Model} {site : Site} (appends : before.Appends after site)
include appends

theorem own : after.site? before.size = some site := by
  rw [appends.sites, if_pos rfl]

theorem old {id : EntryId} {other : Site} (found : before.site? id = some other) :
    after.site? id = some other := by
  rw [appends.sites, if_neg, found]
  exact Nat.ne_of_lt (lt_size_iff_site.mpr ⟨other, found⟩)

theorem old_or_own {id : EntryId} {other : Site} (found : after.site? id = some other) :
    before.site? id = some other ∨ id = before.size ∧ other = site := by
  rw [appends.sites] at found
  split at found
  · rename_i new
    exact .inr ⟨new, (Option.some.inj found).symm⟩
  · exact .inl found

theorem grown : before.Extends after where
  site := fun _ other found => ⟨other, appends.old found, .refl other⟩
  lookup := by
    intro symbol id found
    rw [appends.names, if_neg, found]
    intro named
    cases (appends.unknown symbol named).symm.trans found

/-- An entry without children under an earlier one keeps the tree as it must be. -/
theorem rising (rising : before.Rising) (under : ∃ owner < before.size, site.parent = some owner)
    (childless : site.children = []) : after.Rising where
  registered := by
    intro symbol id
    rw [appends.names]
    constructor
    · intro found
      split at found
      · rename_i named
        obtain rfl := Option.some.inj found
        exact ⟨Nat.ne_of_gt rising.root_lt_size, site, appends.own, named⟩
      · obtain ⟨below, other, there, named⟩ := (rising.registered symbol id).mp found
        exact ⟨below, other, appends.old there, named⟩
    · rintro ⟨below, other, there, named⟩
      rcases appends.old_or_own there with early | ⟨rfl, rfl⟩
      · have found := (rising.registered symbol id).mpr ⟨below, other, early, named⟩
        rw [if_neg, found]
        intro given
        cases (appends.unknown symbol given).symm.trans found
      · rw [if_pos named]
  top := by
    obtain ⟨site, found, parentless⟩ := rising.top
    exact ⟨site, appends.old found, parentless⟩
  parent := by
    intro id other found below
    rcases appends.old_or_own found with early | ⟨rfl, rfl⟩
    · exact rising.parent id other early below
    · exact under
  child := by
    intro id other found child member
    rcases appends.old_or_own found with early | ⟨rfl, rfl⟩
    · obtain ⟨bounded, below, different⟩ := rising.child id other early child member
      obtain ⟨site, found⟩ := lt_size_iff_site.mp bounded
      exact ⟨lt_size_iff_site.mpr ⟨site, appends.old found⟩, below, different⟩
    · rw [childless] at member
      cases member
  nodup := by
    intro id other found
    rcases appends.old_or_own found with early | ⟨rfl, rfl⟩
    · exact rising.nodup id other early
    · rw [childless]
      exact List.nodup_nil
  sole := by
    rintro owner child other ⟨owning, present, member⟩ found nameless
    rcases appends.old_or_own present with early | ⟨-, rfl⟩
    · rcases appends.old_or_own found with known | ⟨rfl, -⟩
      · exact rising.sole owner child other ⟨owning, early, member⟩ known nameless
      · exact absurd (rising.child owner owning early _ member).1 (Nat.lt_irrefl _)
    · rw [childless] at member
      cases member

end Appends

section Declare

variable {model : Model} {declaration : Declaration}

theorem site?_declare (owner id : EntryId) :
    (model.declare owner declaration).1.site? id =
      ((model.registry.register (.ofDeclaration declaration (some owner))).1.get? id).map
        Entry.site := by
  rw [declare, site?_preset]
  rfl

theorem lookup_declare (owner : EntryId) (symbol : String) :
    (model.declare owner declaration).1.lookup symbol =
      (model.registry.register (.ofDeclaration declaration (some owner))).1.lookup symbol := by
  rw [declare, lookup_preset]
  rfl

theorem declare_of_known (rising : model.Rising) {symbol : String} {id : EntryId}
    (named : declaration.symbol = some symbol) (found : model.lookup symbol = some id)
    (owner : EntryId) :
    (model.declare owner declaration).2 = id ∧
      (∀ other, (model.declare owner declaration).1.site? other = model.site? other) ∧
      ∀ other, (model.declare owner declaration).1.lookup other = model.lookup other := by
  have known : (Entry.ofDeclaration declaration (some owner)).symbol.bind
      model.registry.lookup = some id := by
    have registered : model.registry.lookup symbol = some id := found
    simpa [Entry.ofDeclaration, named] using registered
  have merged : model.registry.register (.ofDeclaration declaration (some owner)) =
      (model.registry.modify id (·.merge (.ofDeclaration declaration (some owner))), id) := by
    rw [Registry.register, known]
  refine ⟨?_, fun other => ?_, fun other => ?_⟩
  · rw [declare, merged]
  · rw [site?_declare, merged]
    -- The entry has the symbol and a parent already, so both are kept.
    refine @site?_modify_of_eq model id (·.merge (.ofDeclaration declaration (some owner)))
      (fun entry present => ?_) other
    obtain ⟨below, site, there, own⟩ := (rising.registered symbol id).mp found
    obtain ⟨parent, -, under⟩ := rising.parent id site there below
    obtain rfl : entry.site = site := by simpa [site?, present] using there
    have own : entry.symbol = some symbol := own
    have under : entry.parent = some parent := under
    simp only [Entry.site, Entry.merge, Declaration.merge, own, under, Option.some_or]
  · rw [lookup_declare, merged]
    rfl

theorem declare_of_unknown
    (unknown : ∀ symbol, declaration.symbol = some symbol → model.lookup symbol = none)
    (owner : EntryId) :
    (model.declare owner declaration).2 = model.size ∧
      model.Appends (model.declare owner declaration).1
        ⟨declaration.kind, declaration.symbol, some owner, []⟩ := by
  have absent : (Entry.ofDeclaration declaration (some owner)).symbol.bind
      model.registry.lookup = none := by
    rw [Option.bind_eq_none_iff]
    exact unknown
  have pushed : model.registry.register (.ofDeclaration declaration (some owner)) =
      (model.registry.push (.ofDeclaration declaration (some owner)), model.size) := by
    rw [Registry.register, absent]
    rfl
  refine ⟨?_, fun id => ?_, fun symbol => ?_, unknown⟩
  · rw [declare, pushed]
  · rw [site?_declare, pushed, Registry.get?_push, apply_ite (Option.map Entry.site)]
    rfl
  · rw [lookup_declare, pushed]
    exact Registry.lookup_push symbol absent

end Declare

/-- What a declaration under an owner does to the tree: an entry stands for it, which is new unless
the symbol is known, and nobody owns more than before. -/
structure Enters (before after : Model) (owner id : EntryId) (declaration : Declaration) :
    Prop where
  /-- Nothing is taken back. -/
  grown : before.Extends after
  /-- The tree stays as it must be. -/
  rising : after.Rising
  /-- The entry has the symbol; a new one has its kind and its parent from the declaration. -/
  site : ∃ site, after.site? id = some site ∧ site.symbol = declaration.symbol ∧
    (before.size ≤ id → site.kind = declaration.kind ∧ site.parent = some owner)
  /-- The root stands for nothing but itself. -/
  below : id ≠ root
  /-- Without a symbol the entry is new. -/
  nameless : declaration.symbol = none → before.size ≤ id
  /-- No other entry is new. -/
  only : ∀ other, before.size ≤ other → other < after.size → other = id
  /-- Nobody owns more than before. -/
  owns : ∀ other child, after.Owns other child → before.Owns other child
  /-- The first declaration of a symbol decides what kind its entry is. -/
  kinds : ∀ symbol, after.kindOf symbol = (before.kindOf symbol).or
    (if declaration.symbol = some symbol then some declaration.kind else none)

theorem Rising.enters_of_known {model : Model} (rising : model.Rising) {declaration : Declaration}
    {symbol : String} {id : EntryId} (named : declaration.symbol = some symbol)
    (found : model.lookup symbol = some id) (owner : EntryId) :
    model.Enters (model.declare owner declaration).1 owner id declaration := by
  obtain ⟨-, sites, names⟩ := declare_of_known rising named found owner
  generalize (model.declare owner declaration).1 = after at sites names
  obtain ⟨below, site, there, own⟩ := (rising.registered symbol id).mp found
  exact
    { grown := ⟨fun other site present => ⟨site, (sites other).trans present, .refl site⟩,
        fun other index present => (names other).trans present⟩
      rising := rising.of_same sites names
      site := ⟨site, (sites id).trans there, own.trans named.symm, fun new =>
        absurd (rising.lt_size_of_lookup found) (Nat.not_lt.mpr new)⟩
      below := below
      nameless := fun absent => by cases named.symm.trans absent
      only := by
        intro other new present
        rw [lt_size_iff_site, sites, ← lt_size_iff_site] at present
        exact absurd present (Nat.not_lt.mpr new)
      owns := by
        rintro other child ⟨owning, present, member⟩
        exact ⟨owning, (sites other).symm.trans present, member⟩
      kinds := by
        intro other
        have kinds : after.kind? = model.kind? := by
          funext index
          rw [kind?, kind?, sites]
        rw [kindOf, kindOf, names, kinds]
        split
        · rename_i again
          obtain rfl := Option.some.inj (named.symm.trans again)
          simp [found, kind?, there]
        · rw [Option.or_none] }

theorem Appends.enters {before after : Model} {declaration : Declaration} {owner : EntryId}
    (appends : before.Appends after ⟨declaration.kind, declaration.symbol, some owner, []⟩)
    (rising : before.Rising) (present : owner < before.size) :
    before.Enters after owner before.size declaration where
  grown := appends.grown
  rising := appends.rising rising ⟨owner, present, rfl⟩ rfl
  site := ⟨_, appends.own, rfl, fun _ => ⟨rfl, rfl⟩⟩
  below := Nat.ne_of_gt rising.root_lt_size
  nameless := fun _ => Nat.le_refl _
  only := by
    intro other new bounded
    obtain ⟨site, found⟩ := lt_size_iff_site.mp bounded
    rcases appends.old_or_own found with early | ⟨same, -⟩
    · exact absurd (lt_size_iff_site.mpr ⟨site, early⟩) (Nat.not_lt.mpr new)
    · exact same
  owns := by
    rintro other child ⟨site, found, member⟩
    rcases appends.old_or_own found with early | ⟨-, rfl⟩
    · exact ⟨site, early, member⟩
    · cases member
  kinds := by
    intro symbol
    rw [kindOf, kindOf, appends.names]
    split
    · rename_i named
      rw [appends.unknown symbol named, Option.bind_some, kind?, appends.own]
      rfl
    · rw [Option.or_none]
      cases found : before.lookup symbol with
      | none => rfl
      | some id =>
          obtain ⟨site, there⟩ := lt_size_iff_site.mp (rising.lt_size_of_lookup found)
          rw [Option.bind_some, Option.bind_some, kind?, kind?, there, appends.old there]

/-- What a declaration does to the tree. -/
theorem Rising.enters {model : Model} (rising : model.Rising) {owner : EntryId}
    (present : owner < model.size) (declaration : Declaration) :
    model.Enters (model.declare owner declaration).1 owner (model.declare owner declaration).2
      declaration := by
  cases known : declaration.symbol.bind model.lookup with
  | some id =>
      obtain ⟨symbol, named, found⟩ := Option.bind_eq_some_iff.mp known
      rw [(declare_of_known rising named found owner).1]
      exact rising.enters_of_known named found owner
  | none =>
      obtain ⟨new, appends⟩ := declare_of_unknown (Option.bind_eq_none_iff.mp known) owner
      rw [new]
      exact appends.enters rising present

theorem nodup_mergeItems {α : Type} [DecidableEq α] {first : List α} (distinct : first.Nodup)
    (item : α) : (mergeItems first [item]).Nodup := by
  simp only [mergeItems, List.foldl_cons, List.foldl_nil]
  split
  · exact distinct
  · rename_i new
    refine List.nodup_append.mpr ⟨distinct, by simp, ?_⟩
    rintro other member _ one rfl
    exact new (List.mem_singleton.mp one ▸ member)

@[simp]
theorem lookup_attach (model : Model) (owner child : EntryId) (symbol : String) :
    (model.attach owner child).lookup symbol = model.lookup symbol := by
  rw [attach]
  split <;> rfl

@[simp]
theorem size_attach (model : Model) (owner child : EntryId) :
    (model.attach owner child).size = model.size := by
  rw [attach]
  split
  · rfl
  · exact Registry.size_modify ..

theorem site?_attach (model : Model) {owner child : EntryId} (different : owner ≠ child)
    (id : EntryId) :
    (model.attach owner child).site? id =
      if owner = id then
        (model.site? id).map fun site => { site with children := mergeItems site.children [child] }
      else model.site? id := by
  rw [attach, if_neg different, site?_modify, site?, Option.map_map]
  rfl

theorem site_of_attach {model : Model} {owner child id : EntryId} {later : Site}
    (found : (model.attach owner child).site? id = some later) :
    ∃ site, model.site? id = some site ∧ later.kind = site.kind ∧ later.symbol = site.symbol ∧
      later.parent = site.parent ∧ (later.children = site.children ∨
        id = owner ∧ owner ≠ child ∧ later.children = mergeItems site.children [child]) := by
  by_cases same : owner = child
  · rw [attach, if_pos same] at found
    exact ⟨later, found, rfl, rfl, rfl, .inl rfl⟩
  · rw [site?_attach model same] at found
    split at found
    · rename_i own
      obtain ⟨site, there, rfl⟩ := Option.map_eq_some_iff.mp found
      exact ⟨site, there, rfl, rfl, rfl, .inr ⟨own.symm, same, rfl⟩⟩
    · exact ⟨later, found, rfl, rfl, rfl, .inl rfl⟩

theorem owns_attach {model : Model} {owner : EntryId} (present : owner < model.size)
    {child other item : EntryId} :
    (model.attach owner child).Owns other item ↔
      model.Owns other item ∨ owner ≠ child ∧ other = owner ∧ item = child := by
  by_cases same : owner = child
  · rw [attach, if_pos same]
    simp [same]
  · simp only [Owns, site?_attach model same]
    split
    · subst_vars
      obtain ⟨site, found⟩ := lt_size_iff_site.mp present
      simp [found, same]
    · rename_i apart
      simp [Ne.symm apart]

theorem extends_attach (model : Model) (owner child : EntryId) :
    model.Extends (model.attach owner child) where
  site := by
    intro id site found
    by_cases same : owner = child
    · rw [attach, if_pos same]
      exact ⟨site, found, .refl site⟩
    · rw [site?_attach model same, found]
      split
      · exact ⟨_, rfl, rfl, rfl, rfl, fun item member => mem_mergeItems.mpr (.inl member)⟩
      · exact ⟨site, rfl, .refl site⟩
  lookup := fun symbol _ found => (lookup_attach model owner child symbol).trans found

theorem kindOf_attach (model : Model) (owner child : EntryId) (symbol : String) :
    (model.attach owner child).kindOf symbol = model.kindOf symbol := by
  have kinds : (model.attach owner child).kind? = model.kind? := by
    funext id
    by_cases same : owner = child
    · rw [attach, if_pos same]
    · rw [kind?, kind?, site?_attach model same]
      split
      · rw [Option.map_map]
        rfl
      · rfl
  rw [kindOf, kindOf, lookup_attach, kinds]

/-- Handing over an entry below the root keeps the tree as it must be, if an entry without a symbol
goes to its parent. -/
theorem Rising.attach {model : Model} (rising : model.Rising) {owner child : EntryId} {site : Site}
    (present : owner < model.size) (found : model.site? child = some site) (below : child ≠ root)
    (sole : site.symbol = none → site.parent = some owner) :
    (model.attach owner child).Rising where
  registered := by
    intro symbol id
    rw [lookup_attach, rising.registered]
    refine and_congr_right fun _ => ⟨?_, ?_⟩
    · rintro ⟨site, found, named⟩
      obtain ⟨later, there, le⟩ := (extends_attach model owner child).site id site found
      exact ⟨later, there, le.symbol.trans named⟩
    · rintro ⟨later, found, named⟩
      obtain ⟨site, there, -, kept, -⟩ := site_of_attach found
      exact ⟨site, there, kept.symm.trans named⟩
  top := by
    obtain ⟨site, found, parentless⟩ := rising.top
    obtain ⟨later, there, le⟩ := (extends_attach model owner child).site root site found
    exact ⟨later, there, le.parent.trans parentless⟩
  parent := by
    intro id later found apart
    obtain ⟨site, there, -, -, parent, -⟩ := site_of_attach found
    rw [parent]
    exact rising.parent id site there apart
  child := by
    intro id later present item member
    rw [size_attach]
    obtain ⟨site, there, -, -, -, stays | ⟨rfl, apart, merged⟩⟩ := site_of_attach present
    · exact rising.child id site there item (stays ▸ member)
    · rw [merged, mem_mergeItems, List.mem_singleton] at member
      rcases member with old | rfl
      · exact rising.child id site there item old
      · exact ⟨lt_size_iff_site.mpr ⟨_, found⟩, below, Ne.symm apart⟩
  nodup := by
    intro id later found
    obtain ⟨site, there, -, -, -, stays | ⟨-, -, merged⟩⟩ := site_of_attach found
    · rw [stays]
      exact rising.nodup id site there
    · rw [merged]
      exact nodup_mergeItems (rising.nodup id site there) child
  sole := by
    intro other item later owns there nameless
    obtain ⟨early, before, -, symbol, parent, -⟩ := site_of_attach there
    rw [symbol] at nameless
    rw [parent]
    rcases (owns_attach present).mp owns with owns | ⟨-, rfl, rfl⟩
    · exact rising.sole other item early owns before nameless
    · obtain rfl := Option.some.inj (found.symm.trans before)
      exact sole nameless

end Model
end OptionTree
