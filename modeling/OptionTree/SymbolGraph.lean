import OptionTree.Entry
import OptionTree.Graph
import OptionTree.Token.Lexer

/-!
# Indexes that are kept as graphs

An index from symbols to entries can be kept as a graph in which symbols are linked to entries.  Two
tables tell which node stands for a symbol and which one for an entry; a node is added when one is
recorded for the first time.
-/

namespace OptionTree

/-- What a node of an index stands for. -/
inductive SymbolGraph.Label where
  /-- A symbol. -/
  | symbol (name : String)
  /-- An entry. -/
  | entry (id : EntryId)
  deriving DecidableEq, Repr

namespace Graphs

/-- Where a key was found: its node, and the graph and the table in which it has that node. -/
structure Located {Label : Type} (graphs : Graphs Label) (Key : Type) where
  /-- The graph with the node. -/
  graph : graphs.Graph
  /-- The nodes of keys. -/
  table : List (Key × NodeId)
  /-- The node of the key. -/
  node : NodeId

/-- Finds the node of a key in a table, or else adds one. -/
def locate {Label Key : Type} [BEq Key] (graphs : Graphs Label) (label : Key → Label) (key : Key)
    (graph : graphs.Graph) (table : List (Key × NodeId)) : graphs.Located Key :=
  match table.lookup key with
  | some node => ⟨graph, table, node⟩
  | none =>
    let added := graphs.addNode graph (label key)
    ⟨added.1, (key, added.2) :: table, added.2⟩

end Graphs

/-- An index from symbols to entries, kept as a graph. -/
structure SymbolGraph (graphs : Graphs SymbolGraph.Label) where
  /-- The links from symbols to entries. -/
  graph : graphs.Graph
  /-- The nodes of symbols. -/
  symbolNodes : List (String × NodeId) := []
  /-- The nodes of entries. -/
  entryNodes : List (EntryId × NodeId) := []

namespace SymbolGraph

/-- The entry that a label names. -/
def Label.entry? : Label → Option EntryId
  | symbol _ => none
  | entry id => some id

variable {graphs : Graphs Label}

/-- The index in which nothing was recorded. -/
def empty (graphs : Graphs Label) : SymbolGraph graphs where
  graph := graphs.empty

/-- The index with a node for a symbol, and that node. -/
def symbolNode (index : SymbolGraph graphs) (symbol : String) : SymbolGraph graphs × NodeId :=
  let located := graphs.locate .symbol symbol index.graph index.symbolNodes
  ({ index with graph := located.graph, symbolNodes := located.table }, located.node)

/-- The index with a node for an entry, and that node. -/
def entryNode (index : SymbolGraph graphs) (id : EntryId) : SymbolGraph graphs × NodeId :=
  let located := graphs.locate .entry id index.graph index.entryNodes
  ({ index with graph := located.graph, entryNodes := located.table }, located.node)

/-- Records an entry for a symbol. -/
def record (index : SymbolGraph graphs) (symbol : String) (id : EntryId) : SymbolGraph graphs :=
  let source := index.symbolNode symbol
  let target := source.1.entryNode id
  { target.1 with graph := graphs.link target.1.graph source.2 target.2 }

/-- Records an entry for each name in an expression, up to a fault in it. -/
def recordExpression (index : SymbolGraph graphs) (expression : String) (id : EntryId) :
    SymbolGraph graphs :=
  (Token.symbols expression).eraseDups.foldl (fun index symbol => index.record symbol id) index

/-- The entries recorded for a symbol, in the order of their first record. -/
def entries (index : SymbolGraph graphs) (symbol : String) : List EntryId :=
  match index.symbolNodes.lookup symbol with
  | none => []
  | some node =>
    ((graphs.targets index.graph node).filterMap fun target =>
      (graphs.label? index.graph target).bind Label.entry?).reverse

end SymbolGraph
end OptionTree
