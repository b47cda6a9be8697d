import OptionTree.Entry

/-!
# The registry of entries

Entries are kept in the order of their creation.  Registering an entry whose symbol is known
merges it into the entry of that symbol; any other one is added at the end.
-/

namespace OptionTree

/-- Entries with an index of the registered symbols. -/
structure Registry where
  /-- The entries in the order of their creation. -/
  entries : List Entry := []
  /-- The entry of each registered symbol, in the order of registration. -/
  names : List (String × EntryId) := []
  deriving DecidableEq, Repr

namespace Registry

/-- The number of entries. -/
def size (registry : Registry) : Nat := registry.entries.length

/-- The entry with an identifier. -/
def get? (registry : Registry) (id : EntryId) : Option Entry := registry.entries[id]?

/-- The entry of a symbol. -/
def lookup (registry : Registry) (symbol : String) : Option EntryId :=
  registry.names.lookup symbol

/-- Changes one entry. -/
def modify (registry : Registry) (id : EntryId) (change : Entry → Entry) : Registry :=
  { registry with entries := registry.entries.modify id change }

/-- Adds an entry at the end, under its symbol if it has one. -/
def push (registry : Registry) (entry : Entry) : Registry where
  entries := registry.entries ++ [entry]
  names := registry.names ++ (entry.symbol.map fun symbol => (symbol, registry.size)).toList

/-- Registers an entry and tells which one stands for it. -/
def register (registry : Registry) (entry : Entry) : Registry × EntryId :=
  match entry.symbol.bind registry.lookup with
  | some id => (registry.modify id (·.merge entry), id)
  | none => (registry.push entry, registry.size)

@[simp]
theorem size_modify (registry : Registry) (id : EntryId) (change : Entry → Entry) :
    (registry.modify id change).size = registry.size := by
  simp [size, modify]

@[simp]
theorem size_push (registry : Registry) (entry : Entry) :
    (registry.push entry).size = registry.size + 1 := by
  simp [size, push]

@[simp]
theorem lookup_modify (registry : Registry) (id : EntryId) (change : Entry → Entry)
    (symbol : String) : (registry.modify id change).lookup symbol = registry.lookup symbol := rfl

theorem get?_modify (registry : Registry) (id other : EntryId) (change : Entry → Entry) :
    (registry.modify id change).get? other =
      if id = other then (registry.get? other).map change else registry.get? other := by
  simp only [get?, modify, List.getElem?_modify]
  split <;> simp

theorem get?_push (registry : Registry) (entry : Entry) (id : EntryId) :
    (registry.push entry).get? id =
      if id = registry.size then some entry else registry.get? id := by
  simp only [get?, push, size, List.getElem?_append, List.getElem?_singleton]
  grind

end Registry
end OptionTree
