import OptionTree.Entry
import OptionTree.Token.Lexer

/-!
# Indexes from symbols to entries

An index keeps pairs of a symbol and an entry in the order in which they were first recorded.
-/

namespace OptionTree

/-- Recorded pairs of a symbol and an entry, each kept once. -/
structure SymbolIndex where
  /-- The pairs in the order of their first record. -/
  records : List (String × EntryId) := []
  deriving DecidableEq, Repr

namespace SymbolIndex

/-- Records an entry for a symbol. -/
def record (index : SymbolIndex) (symbol : String) (id : EntryId) : SymbolIndex :=
  if (symbol, id) ∈ index.records then index else ⟨index.records ++ [(symbol, id)]⟩

/-- Records an entry for each of some symbols. -/
def recordAll (index : SymbolIndex) (symbols : List String) (id : EntryId) : SymbolIndex :=
  symbols.foldl (fun index symbol => index.record symbol id) index

/-- Records an entry for every name in an expression, up to a fault in it. -/
def recordExpression (index : SymbolIndex) (expression : String) (id : EntryId) : SymbolIndex :=
  index.recordAll (Token.symbols expression) id

/-- The entries recorded for a symbol, in the order of their first record. -/
def entries (index : SymbolIndex) (symbol : String) : List EntryId :=
  index.records.filterMap fun record => if record.1 = symbol then some record.2 else none

@[simp]
theorem mem_entries {index : SymbolIndex} {symbol : String} {id : EntryId} :
    id ∈ index.entries symbol ↔ (symbol, id) ∈ index.records := by
  simp only [entries, List.mem_filterMap]
  constructor
  · rintro ⟨⟨name, other⟩, member, found⟩
    split at found <;> simp_all
  · exact fun member => ⟨_, member, by simp⟩

/-- A record for one symbol appends the entry there, unless it was recorded before. -/
theorem entries_record_self (index : SymbolIndex) (symbol : String) (id : EntryId) :
    (index.record symbol id).entries symbol =
      if id ∈ index.entries symbol then index.entries symbol
      else index.entries symbol ++ [id] := by
  rw [record]
  split <;> rename_i known
  · rw [if_pos (mem_entries.mpr known)]
  · rw [if_neg fun member => known (mem_entries.mp member)]
    simp [entries]

theorem entries_record_of_ne (index : SymbolIndex) {symbol other : String}
    (different : symbol ≠ other) (id : EntryId) :
    (index.record symbol id).entries other = index.entries other := by
  rw [record]
  split
  · rfl
  · simp [entries, different]

end SymbolIndex
end OptionTree
