/-!
# Graphs with labelled nodes

A graph is used through a few operations.  Nodes are added with a label and are known by the number
that they get; a link leads from one node to another one, and a node that is linked to another one
twice is linked to it once.  `Graphs.Lawful` says what the operations promise, in particular that
the targets of a node are listed from the latest link to the first one.
-/

namespace OptionTree

/-- The number by which a node of a graph is known. -/
abbrev NodeId := Nat

/-- Operations on graphs whose nodes carry labels. -/
structure Graphs (Label : Type) where
  /-- The graphs. -/
  Graph : Type
  /-- The graph without nodes. -/
  empty : Graph
  /-- Adds a node with a label and tells its number. -/
  addNode : Graph → Label → Graph × NodeId
  /-- Links a node to another one. -/
  link : Graph → NodeId → NodeId → Graph
  /-- The label of a node. -/
  label? : Graph → NodeId → Option Label
  /-- The nodes to which a node is linked. -/
  targets : Graph → NodeId → List NodeId

namespace Graphs

variable {Label : Type}

/-- What operations on graphs promise. -/
structure Lawful (graphs : Graphs Label) : Prop where
  /-- The empty graph has no nodes. -/
  label?_empty : ∀ node, graphs.label? graphs.empty node = none
  /-- What is no node is linked to nothing. -/
  targets_of_absent : ∀ graph node, graphs.label? graph node = none →
    graphs.targets graph node = []
  /-- The number of an added node is new. -/
  label?_new : ∀ graph label, graphs.label? graph (graphs.addNode graph label).2 = none
  /-- Adding a node labels that node and no other one. -/
  label?_addNode : ∀ graph label node, graphs.label? (graphs.addNode graph label).1 node =
    if node = (graphs.addNode graph label).2 then some label else graphs.label? graph node
  /-- Adding a node links nothing. -/
  targets_addNode : ∀ graph label node,
    graphs.targets (graphs.addNode graph label).1 node = graphs.targets graph node
  /-- Linking two nodes keeps all labels. -/
  label?_link : ∀ graph source target, (graphs.label? graph source).isSome →
    (graphs.label? graph target).isSome → ∀ node,
      graphs.label? (graphs.link graph source target) node = graphs.label? graph node
  /-- A new target comes first, and a known one stays where it is. -/
  targets_link_self : ∀ graph source target, (graphs.label? graph source).isSome →
    (graphs.label? graph target).isSome →
      graphs.targets (graphs.link graph source target) source =
        if target ∈ graphs.targets graph source then graphs.targets graph source
        else target :: graphs.targets graph source
  /-- Linking a node links no other one. -/
  targets_link_of_ne : ∀ graph source target, (graphs.label? graph source).isSome →
    (graphs.label? graph target).isSome → ∀ node, node ≠ source →
      graphs.targets (graphs.link graph source target) node = graphs.targets graph node

/-- The nodes of a graph in the order of their numbers, each with its label and its targets. -/
abbrev Adjacency (Label : Type) := List (Label × List NodeId)

namespace Adjacency

/-- Links a node to another one, unless it is linked to it. -/
def link (graph : Adjacency Label) (source target : NodeId) : Adjacency Label :=
  graph.modify source fun node =>
    if target ∈ node.2 then node else (node.1, target :: node.2)

/-- The label of a node. -/
def label? (graph : Adjacency Label) (node : NodeId) : Option Label :=
  graph[node]?.map Prod.fst

/-- The nodes to which a node is linked, the latest one first. -/
def targets (graph : Adjacency Label) (node : NodeId) : List NodeId :=
  (graph[node]?.map Prod.snd).getD []

theorem targets_of_absent {graph : Adjacency Label} {node : NodeId}
    (absent : graph.label? node = none) : graph.targets node = [] := by
  rw [targets, Option.map_eq_none_iff.mp absent, Option.map_none, Option.getD_none]

theorem label?_length (graph : Adjacency Label) : graph.label? graph.length = none := by
  rw [label?, List.getElem?_eq_none (Nat.le_refl _), Option.map_none]

theorem getElem?_append_new_of_lt {graph : Adjacency Label} {node : NodeId}
    (beyond : graph.length < node) (label : Label) :
    (graph ++ [(label, [])])[node]? = graph[node]? := by
  rw [List.getElem?_eq_none (Nat.le_of_lt beyond), List.getElem?_eq_none]
  rw [List.length_append, List.length_singleton]
  exact beyond

theorem label?_append_new (graph : Adjacency Label) (label : Label) (node : NodeId) :
    label? (graph ++ [(label, [])]) node =
      if node = graph.length then some label else graph.label? node := by
  rcases Nat.lt_trichotomy node graph.length with old | rfl | beyond
  · rw [label?, List.getElem?_append_left old, if_neg (Nat.ne_of_lt old), label?]
  · rw [label?, List.getElem?_concat_length, if_pos rfl, Option.map_some]
  · rw [label?, getElem?_append_new_of_lt beyond, if_neg (Nat.ne_of_gt beyond), label?]

theorem targets_append_new (graph : Adjacency Label) (label : Label) (node : NodeId) :
    targets (graph ++ [(label, [])]) node = graph.targets node := by
  rcases Nat.lt_trichotomy node graph.length with old | rfl | beyond
  · rw [targets, List.getElem?_append_left old, targets]
  · rw [targets, List.getElem?_concat_length, targets_of_absent (label?_length graph),
      Option.map_some, Option.getD_some]
  · rw [targets, getElem?_append_new_of_lt beyond, targets]

theorem label?_link (graph : Adjacency Label) (source target node : NodeId) :
    (graph.link source target).label? node = graph.label? node := by
  simp only [label?, link, List.getElem?_modify]
  cases graph[node]? with
  | none => rfl
  | some found =>
      simp only [Option.map_eq_map, Option.map_some, Option.some.injEq]
      split
      · split <;> rfl
      · rfl

theorem targets_link_self {graph : Adjacency Label} {source : NodeId}
    (present : (graph.label? source).isSome) (target : NodeId) :
    (graph.link source target).targets source =
      if target ∈ graph.targets source then graph.targets source
      else target :: graph.targets source := by
  obtain ⟨label, labelled⟩ := Option.isSome_iff_exists.mp present
  obtain ⟨node, found, -⟩ := Option.map_eq_some_iff.mp labelled
  simp only [targets, link, List.getElem?_modify, found, if_pos, Option.map_eq_map,
    Option.map_some, Option.getD_some]
  split <;> rfl

theorem targets_link_of_ne (graph : Adjacency Label) {source node : NodeId}
    (other : node ≠ source) (target : NodeId) :
    (graph.link source target).targets node = graph.targets node := by
  simp [targets, link, Ne.symm other]

end Adjacency

/-- Graphs as lists of their nodes. -/
def adjacency (Label : Type) : Graphs Label where
  Graph := Adjacency Label
  empty := []
  addNode graph label := (graph ++ [(label, [])], graph.length)
  link := Adjacency.link
  label? := Adjacency.label?
  targets := Adjacency.targets

theorem lawful_adjacency (Label : Type) : (adjacency Label).Lawful where
  label?_empty _ := rfl
  targets_of_absent _ _ := Adjacency.targets_of_absent
  label?_new graph _ := Adjacency.label?_length graph
  label?_addNode := Adjacency.label?_append_new
  targets_addNode := Adjacency.targets_append_new
  label?_link graph source target _ _ node := Adjacency.label?_link graph source target node
  targets_link_self _ _ target present _ := Adjacency.targets_link_self present target
  targets_link_of_ne graph _ target _ _ _ other := Adjacency.targets_link_of_ne graph other target

end Graphs
end OptionTree
