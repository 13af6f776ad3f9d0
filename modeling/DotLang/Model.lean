import DotLang.Attributes
import DotLang.Tree
/-!
# Graph models

A model holds a top-level graph with everything in it.  Graphs, nodes and edges
stand in arenas and refer to each other by their index.  A subgraph is held by a
node of the graph around it, so the graphs form a tree below the root, which has
the index zero.
-/

namespace DotLang

/-- Refers to a graph of a model. -/
structure GraphRef where
  /-- The index in the arena. -/
  index : Nat
deriving DecidableEq, Repr

/-- Refers to a node of a model. -/
structure NodeRef where
  /-- The index in the arena. -/
  index : Nat
deriving DecidableEq, Repr

/-- Refers to an edge of a model. -/
structure EdgeRef where
  /-- The index in the arena. -/
  index : Nat
deriving DecidableEq, Repr

/-- A graph of a model: the root or a subgraph. -/
structure Subgraph where
  /-- The name. -/
  name : Option String
  /-- The attributes. -/
  attrs : Attributes
  /-- The nodes that stand directly in it, in the order of creation. -/
  nodes : Array NodeRef
  /-- The edges that stand directly in it, in the order of creation. -/
  edges : Array EdgeRef
  /-- The node that holds it, none for the root. -/
  holder : Option NodeRef
deriving DecidableEq, Repr

/-- A node of a model. -/
structure Node where
  /-- The name. -/
  name : String
  /-- The graph that it stands in. -/
  graph : GraphRef
  /-- The attributes. -/
  attrs : Attributes
  /-- The graph that it holds. -/
  nested : Option GraphRef
deriving DecidableEq, Repr

/-- An edge of a model. -/
structure Edge where
  /-- The node that it starts at. -/
  source : NodeRef
  /-- The node that it leads to. -/
  target : NodeRef
  /-- The graph that it stands in. -/
  graph : GraphRef
  /-- The attributes. -/
  attrs : Attributes
deriving DecidableEq, Repr

/-- A top-level graph with its subgraphs, nodes and edges. -/
structure Model where
  /-- The kind of the graph. -/
  kind : GraphKind
  /-- Whether the graph is strict. -/
  strict : Bool
  /-- The graphs, the root first. -/
  graphs : Array Subgraph
  /-- The nodes of all graphs. -/
  nodes : Array Node
  /-- The edges of all graphs. -/
  edges : Array Edge
deriving DecidableEq, Repr

namespace Subgraph

/-- A graph without nodes and edges. -/
def fresh (name : Option String) (attrs : Attributes) (holder : Option NodeRef) : Subgraph :=
  ⟨name, attrs, #[], #[], holder⟩

/-- Whether the graph is a cluster, which its name tells. -/
def isCluster (g : Subgraph) : Bool := g.name.any fun n => n.startsWith "cluster"

end Subgraph

namespace Model

/-- The model of an empty graph. -/
def new (kind : GraphKind) (name : Option String) : Model :=
  ⟨kind, false, #[.fresh name .empty none], #[], #[]⟩

/-- The top-level graph. -/
def root : GraphRef := ⟨0⟩

/-! ## Looking up -/

/-- The graph that a reference means. -/
def graph? (m : Model) (g : GraphRef) : Option Subgraph := m.graphs[g.index]?

/-- The node that a reference means. -/
def node? (m : Model) (n : NodeRef) : Option Node := m.nodes[n.index]?

/-- The edge that a reference means. -/
def edge? (m : Model) (e : EdgeRef) : Option Edge := m.edges[e.index]?

/-- The name of a graph. -/
def nameOf (m : Model) (g : GraphRef) : Option String := (m.graph? g).bind Subgraph.name

/-- The graph around a subgraph. -/
def parent? (m : Model) (g : GraphRef) : Option GraphRef := do
  let holder ← (← m.graph? g).holder
  return (← m.node? holder).graph

/-- The first node of that name that holds no graph. -/
def findNode? (m : Model) (name : String) : Option NodeRef :=
  (m.nodes.findIdx? fun n => n.nested.isNone && n.name == name).map NodeRef.mk

/-- The first graph of that name, none if that is the root. -/
def findSubgraph? (m : Model) (name : String) : Option GraphRef :=
  ((m.graphs.findIdx? fun g => g.name == some name).filter (· != 0)).map GraphRef.mk

/-- The number of clusters and the number of the other subgraphs. -/
def subgraphCounts (m : Model) : Nat × Nat :=
  let (clusters, others) := (m.graphs.toList.drop 1).partition Subgraph.isCluster
  (clusters.length, others.length)

/-! ## Changing -/

/-- Changes a graph. -/
def modifyGraph (m : Model) (g : GraphRef) (f : Subgraph → Subgraph) : Model :=
  { m with graphs := m.graphs.modify g.index f }

/-- Changes a node. -/
def modifyNode (m : Model) (n : NodeRef) (f : Node → Node) : Model :=
  { m with nodes := m.nodes.modify n.index f }

/-- Changes an edge. -/
def modifyEdge (m : Model) (e : EdgeRef) (f : Edge → Edge) : Model :=
  { m with edges := m.edges.modify e.index f }

/-- Changes the attributes of a graph. -/
def modifyGraphAttrs (m : Model) (g : GraphRef) (f : Attributes → Attributes) : Model :=
  m.modifyGraph g fun s => { s with attrs := f s.attrs }

/-- Changes the attributes of a node. -/
def modifyNodeAttrs (m : Model) (n : NodeRef) (f : Attributes → Attributes) : Model :=
  m.modifyNode n fun s => { s with attrs := f s.attrs }

/-- Changes the attributes of an edge. -/
def modifyEdgeAttrs (m : Model) (e : EdgeRef) (f : Attributes → Attributes) : Model :=
  m.modifyEdge e fun s => { s with attrs := f s.attrs }

/-- Adds a node to a graph, which may hold a graph of its own. -/
def pushNode (m : Model) (g : GraphRef) (name : String) (attrs : Attributes)
    (nested : Option GraphRef) : Model :=
  { m with nodes := m.nodes.push ⟨name, g, attrs, nested⟩ }.modifyGraph g fun s =>
    { s with nodes := s.nodes.push ⟨m.nodes.size⟩ }

/-- Adds a node to a graph. -/
def addNode (m : Model) (g : GraphRef) (name : String) (attrs : Attributes) : NodeRef × Model :=
  (⟨m.nodes.size⟩, m.pushNode g name attrs none)

/-- Adds an edge to a graph.  Several edges may join the same nodes. -/
def addEdge (m : Model) (g : GraphRef) (source target : NodeRef) (attrs : Attributes) :
    EdgeRef × Model :=
  (⟨m.edges.size⟩,
    { m with edges := m.edges.push ⟨source, target, g, attrs⟩ }.modifyGraph g fun s =>
      { s with edges := s.edges.push ⟨m.edges.size⟩ })

/-- Adds a node to a graph, and a new graph that the node holds. -/
def addSubgraph (m : Model) (g : GraphRef) (nodeName : String) (name : Option String)
    (attrs : Attributes) : NodeRef × GraphRef × Model :=
  let holder : NodeRef := ⟨m.nodes.size⟩
  let nested : GraphRef := ⟨m.graphs.size⟩
  let m := m.pushNode g nodeName .empty (some nested)
  (holder, nested, { m with graphs := m.graphs.push (.fresh name attrs (some holder)) })

/-- The number of nodes that hold no graph, counted as the nodes less the
subgraphs. -/
def plainNodeCount (m : Model) : Nat :=
  m.nodes.size - m.subgraphCounts.1 - m.subgraphCounts.2

end Model

end DotLang
