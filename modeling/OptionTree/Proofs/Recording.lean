import OptionTree.Proofs.Definitions
import OptionTree.Proofs.Mentions
import OptionTree.SymbolGraph

/-!
# Indexes as multimaps

Both kinds of index, the one kept as a graph and the one kept as a list of pairs, tell for every
symbol the entries that were recorded for it, each of them once and in the order of their first
record.  This holds after any calls that record symbols and expressions.

For the graph, `SymbolGraph.Refines` relates its nodes and links to the list of pairs.  Every single
record keeps that relation.
-/

namespace OptionTree

/-- A call that records an entry in an index. -/
inductive Recording where
  /-- Records an entry for a symbol. -/
  | symbol (name : String) (id : EntryId)
  /-- Records an entry for the names in an expression. -/
  | expression (text : String) (id : EntryId)
  deriving DecidableEq, Repr

namespace Recording

/-- The pairs that a call records: an expression counts as its distinct names in the order of their
first appearance before a fault. -/
def records : Recording → List (String × EntryId)
  | symbol name id => [(name, id)]
  | expression text id => (Token.symbols text).eraseDups.map (·, id)

/-- The distinct entries that some calls record for a symbol, in the order of their first record. -/
def entries (calls : List Recording) (symbol : String) : List EntryId :=
  (((calls.flatMap records).filter fun record => record.1 = symbol).map Prod.snd).eraseDups

end Recording

namespace SymbolIndex

/-- The index after a call. -/
def apply (index : SymbolIndex) : Recording → SymbolIndex
  | .symbol name id => index.record name id
  | .expression text id => index.recordExpression text id

/-- The index after some calls. -/
def recorded (calls : List Recording) : SymbolIndex := calls.foldl apply {}

/-- Records pairs of a symbol and an entry. -/
def recordPairs (index : SymbolIndex) (pairs : List (String × EntryId)) : SymbolIndex :=
  pairs.foldl (fun index pair => index.record pair.1 pair.2) index

theorem recordAll_eraseDups (index : SymbolIndex) (symbols : List String) (id : EntryId) :
    index.recordAll symbols.eraseDups id = index.recordAll symbols id := by
  induction symbols using List.reverseRecOn with
  | nil => rfl
  | append_singleton symbols symbol ih =>
      have last : index.recordAll (symbols ++ [symbol]) id =
          (index.recordAll symbols id).record symbol id := by
        rw [recordAll, List.foldl_concat, recordAll]
      rw [last, List.eraseDups_concat]
      split
      · rename_i member
        have known : (symbol, id) ∈ (index.recordAll symbols id).records :=
          mem_records_recordAll.mpr (.inr ⟨symbol, member, rfl⟩)
        rw [ih, record, if_pos known]
      · rw [recordAll, List.foldl_concat, ← recordAll, ih]

theorem apply_eq_recordPairs (index : SymbolIndex) (call : Recording) :
    index.apply call = index.recordPairs call.records := by
  cases call with
  | symbol name id => rfl
  | expression text id =>
      rw [apply, recordExpression, ← recordAll_eraseDups, recordPairs, Recording.records,
        List.foldl_map, recordAll]

theorem recorded_eq_recordPairs (calls : List Recording) :
    recorded calls = recordPairs {} (calls.flatMap Recording.records) := by
  rw [recorded, recordPairs, List.foldl_flatMap]
  exact congrArg (fun step => calls.foldl step {}) (funext₂ apply_eq_recordPairs)

/-- The entries of a symbol are those of its pairs. -/
theorem entries_recordPairs (pairs : List (String × EntryId)) (symbol : String) :
    (recordPairs {} pairs).entries symbol =
      ((pairs.filter fun pair => pair.1 = symbol).map Prod.snd).eraseDups := by
  induction pairs using List.reverseRecOn with
  | nil => rfl
  | append_singleton pairs pair ih =>
      obtain ⟨name, id⟩ := pair
      rw [recordPairs, List.foldl_concat, ← recordPairs, List.filter_append]
      by_cases own : name = symbol
      · subst own
        rw [entries_record_self, ih, List.filter_singleton, List.map_append]
        simp [List.eraseDups_concat]
      · rw [entries_record_of_ne _ own, ih, List.filter_singleton]
        simp [own]

end SymbolIndex

namespace Graphs

variable {Label Key : Type} {graphs : Graphs Label}

/-- Whether a table knows for every key the one node that is labelled with it. -/
def Keyed (graphs : Graphs Label) [BEq Key] (label : Key → Label) (graph : graphs.Graph)
    (table : List (Key × NodeId)) : Prop :=
  ∀ key node, table.lookup key = some node ↔ graphs.label? graph node = some (label key)

/-- Whether a graph is another one with one node labelled, and with the same links. -/
structure Gains (graphs : Graphs Label) (before after : graphs.Graph) (node : NodeId)
    (label : Label) : Prop where
  /-- The node has the label, and the others are labelled as before. -/
  labelled : ∀ other name, graphs.label? after other = some name ↔
    graphs.label? before other = some name ∨ other = node ∧ name = label
  /-- All nodes have the same targets. -/
  targets : ∀ other, graphs.targets after other = graphs.targets before other

theorem Lawful.gains_addNode (lawful : graphs.Lawful) (graph : graphs.Graph) (label : Label) :
    graphs.Gains graph (graphs.addNode graph label).1 (graphs.addNode graph label).2 label where
  labelled other name := by
    rw [lawful.label?_addNode]
    split
    · rename_i new
      rw [new, lawful.label?_new]
      simp [eq_comm]
    · rename_i old
      simp [old]
  targets := lawful.targets_addNode graph label

variable [DecidableEq Key] {label : Key → Label} {graph : graphs.Graph}
  {table : List (Key × NodeId)}

theorem Keyed.gains_locate (lawful : graphs.Lawful) (keyed : graphs.Keyed label graph table)
    (key : Key) :
    graphs.Gains graph (graphs.locate label key graph table).graph
      (graphs.locate label key graph table).node (label key) := by
  rw [locate]
  cases known : table.lookup key with
  | none => exact lawful.gains_addNode graph (label key)
  | some node =>
      refine ⟨fun other name => ⟨.inl, ?_⟩, fun _ => rfl⟩
      rintro (before | ⟨rfl, rfl⟩)
      · exact before
      · exact (keyed key other).mp known

theorem Keyed.locate (lawful : graphs.Lawful) (injective : Function.Injective label)
    (keyed : graphs.Keyed label graph table) (key : Key) :
    graphs.Keyed label (graphs.locate label key graph table).graph
      (graphs.locate label key graph table).table := by
  intro other node
  rw [(keyed.gains_locate lawful key).labelled, ← keyed, Graphs.locate]
  cases known : table.lookup key with
  | none =>
      by_cases same : other = key
      · subst same
        simp [known, eq_comm]
      · simp [List.lookup_cons, beq_false_of_ne same, injective.ne same]
  | some found =>
      refine ⟨.inl, ?_⟩
      rintro (before | ⟨rfl, same⟩)
      · exact before
      · rwa [injective same]

theorem Keyed.of_gains {after : graphs.Graph} {node : NodeId} {gained : Label}
    (keyed : graphs.Keyed label graph table) (gains : graphs.Gains graph after node gained)
    (apart : ∀ key, label key ≠ gained) : graphs.Keyed label after table := by
  intro key other
  rw [keyed, gains.labelled]
  simp [apart key]

end Graphs

namespace SymbolGraph

variable {graphs : Graphs Label}

/-- Whether an index that is kept as a graph stands for a list of pairs. -/
structure Refines (index : SymbolGraph graphs) (table : SymbolIndex) : Prop where
  /-- The table of symbols knows the nodes of all symbols. -/
  symbols : graphs.Keyed .symbol index.graph index.symbolNodes
  /-- The table of entries knows the nodes of all entries. -/
  entries : graphs.Keyed .entry index.graph index.entryNodes
  /-- A symbol is linked to its entries, the latest one first. -/
  linked : ∀ name node, graphs.label? index.graph node = some (.symbol name) →
    (graphs.targets index.graph node).map (graphs.label? index.graph) =
      (table.entries name).reverse.map fun id => some (.entry id)
  /-- A symbol without a node has no entries. -/
  unknown : ∀ name, index.symbolNodes.lookup name = none → table.entries name = []

theorem refines_empty (lawful : graphs.Lawful) : (empty graphs).Refines {} where
  symbols name node := by simp [empty, lawful.label?_empty]
  entries id node := by simp [empty, lawful.label?_empty]
  linked name node found := by
    rw [empty, lawful.label?_empty] at found
    cases found
  unknown _ _ := rfl

variable {index : SymbolGraph graphs} {table : SymbolIndex}

/-- A graph that stands for a list of pairs gives the entries that the list gives. -/
theorem Refines.entries_eq (refines : index.Refines table) (symbol : String) :
    index.entries symbol = table.entries symbol := by
  rw [SymbolGraph.entries]
  cases known : index.symbolNodes.lookup symbol with
  | none => rw [refines.unknown symbol known]
  | some node =>
      have linked := refines.linked symbol node ((refines.symbols symbol node).mp known)
      have named : (graphs.targets index.graph node).filterMap
          (fun target => (graphs.label? index.graph target).bind Label.entry?) =
          ((graphs.targets index.graph node).map (graphs.label? index.graph)).filterMap
            fun label => label.bind Label.entry? := by
        rw [List.filterMap_map]
        rfl
      have own : ((fun label : Option Label => label.bind Label.entry?) ∘
          fun id => some (Label.entry id)) = some := rfl
      simp only [named, linked, List.filterMap_map, own, List.filterMap_some, List.reverse_reverse]

theorem Refines.of_gains (lawful : graphs.Lawful) {later : SymbolGraph graphs}
    (refines : index.Refines table) {node : NodeId} {label : Label}
    (gains : graphs.Gains index.graph later.graph node label)
    (symbols : graphs.Keyed .symbol later.graph later.symbolNodes)
    (entries : graphs.Keyed .entry later.graph later.entryNodes) : later.Refines table where
  symbols := symbols
  entries := entries
  linked name source found := by
    rw [gains.targets]
    cases before : graphs.label? index.graph source with
    | some other =>
        have same : other = .symbol name := by
          rw [(gains.labelled source other).mpr (.inl before)] at found
          exact Option.some.inj found
        subst same
        have linked := refines.linked name source before
        rw [← linked]
        refine List.map_congr_left fun target member => ?_
        have labelled : graphs.label? index.graph target ∈
            (table.entries name).reverse.map fun id => some (Label.entry id) :=
          linked ▸ List.mem_map_of_mem member
        obtain ⟨id, -, stands⟩ := List.mem_map.mp labelled
        rw [← stands, gains.labelled, ← stands]
        exact .inl rfl
    | none =>
        rw [lawful.targets_of_absent _ _ before, refines.unknown name]
        · rfl
        · refine Option.eq_none_iff_forall_ne_some.mpr fun old known => ?_
          have label := (refines.symbols name old).mp known
          have kept := (symbols name old).mpr ((gains.labelled _ _).mpr (.inl label))
          rw [(symbols name source).mpr found] at kept
          rw [Option.some.inj kept, label] at before
          cases before
  unknown name absent := by
    refine refines.unknown name (Option.eq_none_iff_forall_ne_some.mpr fun old known => ?_)
    have label := (refines.symbols name old).mp known
    rw [(symbols name old).mpr ((gains.labelled _ _).mpr (.inl label))] at absent
    cases absent

theorem Refines.symbolNode (lawful : graphs.Lawful) (refines : index.Refines table)
    (name : String) : (index.symbolNode name).1.Refines table := by
  have gains := refines.symbols.gains_locate lawful name
  exact refines.of_gains lawful gains
    (refines.symbols.locate lawful (fun _ _ => Label.symbol.inj) name)
    (refines.entries.of_gains gains fun _ => nofun)

theorem Refines.entryNode (lawful : graphs.Lawful) (refines : index.Refines table)
    (id : EntryId) : (index.entryNode id).1.Refines table := by
  have gains := refines.entries.gains_locate lawful id
  exact refines.of_gains lawful gains (refines.symbols.of_gains gains fun _ => nofun)
    (refines.entries.locate lawful (fun _ _ => Label.entry.inj) id)

theorem Refines.mem_targets (refines : index.Refines table) {name : String} {id : EntryId}
    {source target : NodeId} (symbol : graphs.label? index.graph source = some (.symbol name))
    (entry : graphs.label? index.graph target = some (.entry id)) :
    target ∈ graphs.targets index.graph source ↔ id ∈ table.entries name := by
  have linked := refines.linked name source symbol
  constructor
  · intro member
    have labelled : graphs.label? index.graph target ∈
        (table.entries name).reverse.map fun id => some (Label.entry id) :=
      linked ▸ List.mem_map_of_mem member
    rw [entry] at labelled
    simpa using labelled
  · intro member
    have labelled : some (Label.entry id) ∈
        (graphs.targets index.graph source).map (graphs.label? index.graph) := by
      rw [linked]
      simpa using member
    obtain ⟨other, linked, stands⟩ := List.mem_map.mp labelled
    have same := (refines.entries id other).mpr stands
    rw [(refines.entries id target).mpr entry] at same
    rwa [Option.some.inj same]

/-- Linking the nodes of a symbol and of an entry records the entry for the symbol. -/
theorem Refines.link (lawful : graphs.Lawful) (refines : index.Refines table) {name : String}
    {id : EntryId} {source target : NodeId}
    (symbol : graphs.label? index.graph source = some (.symbol name))
    (entry : graphs.label? index.graph target = some (.entry id)) :
    { index with graph := graphs.link index.graph source target }.Refines
      (table.record name id) := by
  have labels := lawful.label?_link index.graph source target (by rw [symbol]; rfl)
    (by rw [entry]; rfl)
  constructor
  · exact fun other node => (refines.symbols other node).trans (by rw [labels])
  · exact fun other node => (refines.entries other node).trans (by rw [labels])
  · intro other node found
    rw [funext labels]
    rw [labels] at found
    by_cases own : node = source
    · subst own
      have same : name = other := Label.symbol.inj (Option.some.inj (symbol.symm.trans found))
      subst same
      rw [lawful.targets_link_self _ _ _ (by rw [symbol]; rfl) (by rw [entry]; rfl),
        SymbolIndex.entries_record_self]
      have known := refines.mem_targets symbol entry
      by_cases member : id ∈ table.entries name
      · rw [if_pos (known.mpr member), if_pos member, refines.linked name node symbol]
      · rw [if_neg fun before => member (known.mp before), if_neg member, List.map_cons, entry,
          refines.linked name node symbol, List.reverse_append]
        rfl
    · have different : name ≠ other := by
        rintro rfl
        have twice := (refines.symbols name source).mpr symbol
        rw [(refines.symbols name node).mpr found] at twice
        exact own (Option.some.inj twice)
      rw [lawful.targets_link_of_ne _ _ _ (by rw [symbol]; rfl) (by rw [entry]; rfl) _ own,
        SymbolIndex.entries_record_of_ne table different, refines.linked other node found]
  · intro other absent
    have different : name ≠ other := by
      rintro rfl
      rw [(refines.symbols name source).mpr symbol] at absent
      cases absent
    rw [SymbolIndex.entries_record_of_ne table different, refines.unknown other absent]

theorem Refines.record (lawful : graphs.Lawful) (refines : index.Refines table) (name : String)
    (id : EntryId) : (index.record name id).Refines (table.record name id) := by
  have named := refines.symbols.gains_locate lawful name
  have withSymbol := refines.symbolNode lawful name
  have gained := withSymbol.entries.gains_locate lawful id
  have withEntry := withSymbol.entryNode lawful id
  refine withEntry.link lawful ?_ ?_
  · exact (gained.labelled _ _).mpr (.inl ((named.labelled _ _).mpr (.inr ⟨rfl, rfl⟩)))
  · exact (gained.labelled _ _).mpr (.inr ⟨rfl, rfl⟩)

/-- The index after a call. -/
def apply (index : SymbolGraph graphs) : Recording → SymbolGraph graphs
  | .symbol name id => index.record name id
  | .expression text id => index.recordExpression text id

/-- The index after some calls. -/
def recorded (graphs : Graphs Label) (calls : List Recording) : SymbolGraph graphs :=
  calls.foldl apply (empty graphs)

theorem Refines.apply (lawful : graphs.Lawful) (refines : index.Refines table)
    (call : Recording) : (index.apply call).Refines (table.apply call) := by
  cases call with
  | symbol name id => exact refines.record lawful name id
  | expression text id =>
      rw [SymbolGraph.apply, recordExpression, SymbolIndex.apply, SymbolIndex.recordExpression,
        ← SymbolIndex.recordAll_eraseDups, SymbolIndex.recordAll]
      generalize (Token.symbols text).eraseDups = names
      induction names generalizing index table with
      | nil => exact refines
      | cons name names ih => exact ih (refines.record lawful name id)

theorem refines_recorded (lawful : graphs.Lawful) (calls : List Recording) :
    (recorded graphs calls).Refines (SymbolIndex.recorded calls) := by
  induction calls using List.reverseRecOn with
  | nil => exact refines_empty lawful
  | append_singleton calls call ih =>
      rw [recorded, SymbolIndex.recorded, List.foldl_concat, List.foldl_concat]
      exact ih.apply lawful call

/-- After any calls, both kinds of index tell for a symbol the distinct entries that were recorded
for it, in the order of their first record.  Records for other symbols do not matter. -/
theorem entries_recorded (lawful : graphs.Lawful) (calls : List Recording) (symbol : String) :
    (recorded graphs calls).entries symbol = Recording.entries calls symbol ∧
      (SymbolIndex.recorded calls).entries symbol = Recording.entries calls symbol := by
  have table : (SymbolIndex.recorded calls).entries symbol = Recording.entries calls symbol := by
    rw [SymbolIndex.recorded_eq_recordPairs, SymbolIndex.entries_recordPairs, Recording.entries]
  exact ⟨((refines_recorded lawful calls).entries_eq symbol).trans table, table⟩

/-- The single `$` is no token, so the name behind it is not recorded, and an entry that is recorded
again keeps its place. -/
theorem entries_recorded_of_fault :
    let calls : List Recording := [.expression "NET && !S390" 3, .symbol "NET" 1,
      .expression "NET || NET" 7, .expression "S390 $ NET" 1, .expression "NET" 3]
    (recorded (Graphs.adjacency Label) calls).entries "NET" = [3, 1, 7] ∧
      (recorded (Graphs.adjacency Label) calls).entries "S390" = [3, 1] ∧
      (recorded (Graphs.adjacency Label) calls).entries "PCI" = [] := by
  intro calls
  have lawful := Graphs.lawful_adjacency Label
  refine ⟨(entries_recorded lawful calls "NET").1.trans ?_,
    (entries_recorded lawful calls "S390").1.trans ?_,
    (entries_recorded lawful calls "PCI").1.trans ?_⟩ <;> decide +kernel

end SymbolGraph
end OptionTree
