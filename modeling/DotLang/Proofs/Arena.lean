import DotLang.Model
/-!
# The arenas of a model

A model is well-formed if its references agree: every graph lists just the nodes
and edges that stand in it, in the order of creation, and the node that holds a
graph and the graph that a node holds are each other's.  A graph stands further
back in its arena than the graph around it, so graphs nest to a finite depth.

`Model.Reached` are the models that the operations build from an empty one, and
`Model.Reached.wellFormed` says that they are well-formed.  Each operation is
read by what it does to a lookup.
-/

namespace DotLang.Model

variable {m : Model} {g h : GraphRef} {n k : NodeRef} {e d : EdgeRef}

/-! ## Lookups -/

theorem graph?_lt {s : Subgraph} (hs : m.graph? g = some s) : g.index < m.graphs.size :=
  (Array.getElem?_eq_some_iff.1 hs).1

theorem node?_lt {v : Node} (hv : m.node? n = some v) : n.index < m.nodes.size :=
  (Array.getElem?_eq_some_iff.1 hv).1

theorem edge?_lt {v : Edge} (hv : m.edge? e = some v) : e.index < m.edges.size :=
  (Array.getElem?_eq_some_iff.1 hv).1

theorem graph?_of_lt (hg : g.index < m.graphs.size) : ∃ s, m.graph? g = some s :=
  ⟨_, Array.getElem?_eq_getElem hg⟩

theorem node?_of_lt (hn : n.index < m.nodes.size) : ∃ v, m.node? n = some v :=
  ⟨_, Array.getElem?_eq_getElem hn⟩

theorem edge?_of_lt (he : e.index < m.edges.size) : ∃ v, m.edge? e = some v :=
  ⟨_, Array.getElem?_eq_getElem he⟩

theorem nameOf_eq {s : Subgraph} (hs : m.graph? g = some s) : m.nameOf g = s.name := by
  unfold nameOf
  rw [hs]
  rfl

section Changes
variable (m g h n k e d)

theorem graph?_modifyGraph (f : Subgraph → Subgraph) :
    (m.modifyGraph g f).graph? h = if g = h then (m.graph? h).map f else m.graph? h := by
  obtain ⟨i⟩ := g
  obtain ⟨j⟩ := h
  simp [graph?, modifyGraph, Array.getElem?_modify]

theorem node?_modifyNode (f : Node → Node) :
    (m.modifyNode n f).node? k = if n = k then (m.node? k).map f else m.node? k := by
  obtain ⟨i⟩ := n
  obtain ⟨j⟩ := k
  simp [node?, modifyNode, Array.getElem?_modify]

/-- The graph that a node is added to lists it last. -/
theorem graph?_pushNode (name : String) (attrs : Attributes) (nested : Option GraphRef) :
    (m.pushNode g name attrs nested).graph? h =
      if g = h then (m.graph? h).map fun s => { s with nodes := s.nodes.push ⟨m.nodes.size⟩ }
      else m.graph? h :=
  graph?_modifyGraph { m with nodes := m.nodes.push ⟨name, g, attrs, nested⟩ } g h _

theorem node?_pushNode (name : String) (attrs : Attributes) (nested : Option GraphRef) :
    (m.pushNode g name attrs nested).node? k =
      if k.index = m.nodes.size then some ⟨name, g, attrs, nested⟩ else m.node? k := by
  simp [node?, pushNode, modifyGraph, Array.getElem?_push]

/-- The graph that an edge is added to lists it last. -/
theorem graph?_addEdge (source target : NodeRef) (attrs : Attributes) :
    (m.addEdge g source target attrs).2.graph? h =
      if g = h then (m.graph? h).map fun s => { s with edges := s.edges.push ⟨m.edges.size⟩ }
      else m.graph? h :=
  graph?_modifyGraph { m with edges := m.edges.push ⟨source, target, g, attrs⟩ } g h _

theorem edge?_addEdge (source target : NodeRef) (attrs : Attributes) :
    (m.addEdge g source target attrs).2.edge? d =
      if d.index = m.edges.size then some ⟨source, target, g, attrs⟩ else m.edge? d := by
  simp [edge?, addEdge, modifyGraph, Array.getElem?_push]

theorem graph?_addSubgraph (nodeName : String) (name : Option String) (attrs : Attributes) :
    (m.addSubgraph g nodeName name attrs).2.2.graph? h =
      if h.index = m.graphs.size then some (.fresh name attrs (some ⟨m.nodes.size⟩))
      else (m.pushNode g nodeName .empty (some ⟨m.graphs.size⟩)).graph? h := by
  simp [graph?, addSubgraph, pushNode, modifyGraph, Array.getElem?_push]

theorem node?_addSubgraph (nodeName : String) (name : Option String) (attrs : Attributes) :
    (m.addSubgraph g nodeName name attrs).2.2.node? k =
      if k.index = m.nodes.size then some ⟨nodeName, g, .empty, some ⟨m.graphs.size⟩⟩
      else m.node? k :=
  node?_pushNode m g k nodeName .empty (some ⟨m.graphs.size⟩)

end Changes

/-! ## Well-formed models -/

/-- The nodes that stand in a graph, in the order of creation. -/
def nodesIn (m : Model) (g : GraphRef) : List NodeRef :=
  ((List.range m.nodes.size).map NodeRef.mk).filter fun n =>
    (m.node? n).any fun v => v.graph = g

/-- The edges that stand in a graph, in the order of creation. -/
def edgesIn (m : Model) (g : GraphRef) : List EdgeRef :=
  ((List.range m.edges.size).map EdgeRef.mk).filter fun e =>
    (m.edge? e).any fun v => v.graph = g

/-- The references of the model agree. -/
structure WellFormed (m : Model) : Prop where
  root : ∃ s, m.graph? root = some s ∧ s.holder = none
  nodes_listed : ∀ {g s}, m.graph? g = some s → s.nodes.toList = m.nodesIn g
  edges_listed : ∀ {g s}, m.graph? g = some s → s.edges.toList = m.edgesIn g
  node_graph : ∀ {n v}, m.node? n = some v → v.graph.index < m.graphs.size
  edge_graph : ∀ {e v}, m.edge? e = some v → v.graph.index < m.graphs.size
  edge_ends : ∀ {e v}, m.edge? e = some v →
    v.source.index < m.nodes.size ∧ v.target.index < m.nodes.size
  nested : ∀ {n v g}, m.node? n = some v → v.nested = some g →
    v.graph.index < g.index ∧ ∃ s, m.graph? g = some s ∧ s.holder = some n
  held : ∀ {g s}, m.graph? g = some s → g ≠ Model.root →
    ∃ n v, s.holder = some n ∧ m.node? n = some v ∧ v.nested = some g

theorem mem_nodesIn : n ∈ m.nodesIn g ↔ ∃ v, m.node? n = some v ∧ v.graph = g := by
  unfold nodesIn
  rw [List.mem_filter, List.mem_map]
  constructor
  · rintro ⟨_, hn⟩
    cases hv : m.node? n with
    | none => simp [hv] at hn
    | some v => exact ⟨v, rfl, by simpa [hv] using hn⟩
  · rintro ⟨v, hv, rfl⟩
    exact ⟨⟨n.index, List.mem_range.2 (node?_lt hv), rfl⟩, by simp [hv]⟩

theorem mem_edgesIn : e ∈ m.edgesIn g ↔ ∃ v, m.edge? e = some v ∧ v.graph = g := by
  unfold edgesIn
  rw [List.mem_filter, List.mem_map]
  constructor
  · rintro ⟨_, he⟩
    cases hv : m.edge? e with
    | none => simp [hv] at he
    | some v => exact ⟨v, rfl, by simpa [hv] using he⟩
  · rintro ⟨v, hv, rfl⟩
    exact ⟨⟨e.index, List.mem_range.2 (edge?_lt hv), rfl⟩, by simp [hv]⟩

/-- A graph lists the nodes that stand in it. -/
theorem WellFormed.mem_nodes (h : m.WellFormed) {s : Subgraph} (hs : m.graph? g = some s) :
    n ∈ s.nodes.toList ↔ ∃ v, m.node? n = some v ∧ v.graph = g := by
  rw [h.nodes_listed hs, mem_nodesIn]

/-- A graph lists the edges that stand in it. -/
theorem WellFormed.mem_edges (h : m.WellFormed) {s : Subgraph} (hs : m.graph? g = some s) :
    e ∈ s.edges.toList ↔ ∃ v, m.edge? e = some v ∧ v.graph = g := by
  rw [h.edges_listed hs, mem_edgesIn]

theorem WellFormed.graph_of_listed (h : m.WellFormed) {s : Subgraph} (hs : m.graph? g = some s)
    (hn : n ∈ s.nodes.toList) : ∀ v, m.node? n = some v → v.graph = g := by
  intro v hv
  obtain ⟨v', hv', hg⟩ := (h.mem_nodes hs).1 hn
  obtain rfl := Option.some.inj (hv.symm.trans hv')
  exact hg

/-- A new node stands last in its graph. -/
theorem nodesIn_pushNode (m : Model) (g : GraphRef) (name : String) (attrs : Attributes)
    (nested : Option GraphRef) :
    (m.pushNode g name attrs nested).nodesIn h =
      m.nodesIn h ++ if g = h then [⟨m.nodes.size⟩] else [] := by
  have hsize : (m.pushNode g name attrs nested).nodes.size = m.nodes.size + 1 := by
    simp [pushNode, modifyGraph]
  unfold nodesIn
  rw [hsize, List.range_succ, List.map_append, List.filter_append]
  congr 1
  · refine List.filter_congr fun k hk => ?_
    obtain ⟨i, hi, rfl⟩ := List.mem_map.1 hk
    rw [node?_pushNode, if_neg (Nat.ne_of_lt (List.mem_range.1 hi))]
  · simp only [List.map_cons, List.map_nil, List.filter_cons, List.filter_nil]
    rw [node?_pushNode, if_pos rfl]
    by_cases hg : g = h <;> simp [hg]

/-- A new edge stands last in its graph. -/
theorem edgesIn_addEdge (m : Model) (g : GraphRef) (source target : NodeRef)
    (attrs : Attributes) :
    (m.addEdge g source target attrs).2.edgesIn h =
      m.edgesIn h ++ if g = h then [⟨m.edges.size⟩] else [] := by
  have hsize : (m.addEdge g source target attrs).2.edges.size = m.edges.size + 1 := by
    simp [addEdge, modifyGraph]
  unfold edgesIn
  rw [hsize, List.range_succ, List.map_append, List.filter_append]
  congr 1
  · refine List.filter_congr fun k hk => ?_
    obtain ⟨i, hi, rfl⟩ := List.mem_map.1 hk
    rw [edge?_addEdge, if_neg (Nat.ne_of_lt (List.mem_range.1 hi))]
  · simp only [List.map_cons, List.map_nil, List.filter_cons, List.filter_nil]
    rw [edge?_addEdge, if_pos rfl]
    by_cases hg : g = h <;> simp [hg]

/-! ## Attributes do not matter -/

end DotLang.Model

namespace DotLang

/-- The graph without its attributes. -/
def Subgraph.bare (s : Subgraph) : Subgraph := { s with attrs := .empty }

/-- The node without its attributes. -/
def Node.bare (v : Node) : Node := { v with attrs := .empty }

/-- The edge without its attributes. -/
def Edge.bare (v : Edge) : Edge := { v with attrs := .empty }

theorem Subgraph.bare_eq {s s' : Subgraph} :
    s.bare = s'.bare ↔
      s.name = s'.name ∧ s.nodes = s'.nodes ∧ s.edges = s'.edges ∧ s.holder = s'.holder := by
  simp [Subgraph.bare]

theorem Node.bare_eq {v v' : Node} :
    v.bare = v'.bare ↔ v.name = v'.name ∧ v.graph = v'.graph ∧ v.nested = v'.nested := by
  simp [Node.bare]

theorem Node.eq_of_fields {v v' : Node} (name : v.name = v'.name) (graph : v.graph = v'.graph)
    (attrs : v.attrs = v'.attrs) (nested : v.nested = v'.nested) : v = v' := by
  cases v
  cases v'
  simp_all

theorem Edge.bare_eq {v v' : Edge} :
    v.bare = v'.bare ↔ v.source = v'.source ∧ v.target = v'.target ∧ v.graph = v'.graph := by
  simp [Edge.bare]

namespace Model

variable {m m' : Model} {g : GraphRef} {n : NodeRef} {e : EdgeRef}

/-- The model without attributes, and with no word on being strict. -/
def bare (m : Model) : Model :=
  ⟨m.kind, false, m.graphs.map .bare, m.nodes.map .bare, m.edges.map .bare⟩

theorem graph?_bare (m : Model) (g : GraphRef) :
    m.bare.graph? g = (m.graph? g).map Subgraph.bare := by
  simp [graph?, bare]

theorem node?_bare (m : Model) (n : NodeRef) : m.bare.node? n = (m.node? n).map Node.bare := by
  simp [node?, bare]

theorem edge?_bare (m : Model) (e : EdgeRef) : m.bare.edge? e = (m.edge? e).map Edge.bare := by
  simp [edge?, bare]

theorem bare_graphs_size (m : Model) : m.bare.graphs.size = m.graphs.size := by simp [bare]

theorem bare_nodes_size (m : Model) : m.bare.nodes.size = m.nodes.size := by simp [bare]

theorem bare_edges_size (m : Model) : m.bare.edges.size = m.edges.size := by simp [bare]

theorem nodesIn_bare (m : Model) (g : GraphRef) : m.bare.nodesIn g = m.nodesIn g := by
  unfold nodesIn
  rw [bare_nodes_size]
  refine List.filter_congr fun n _ => ?_
  rw [node?_bare]
  cases m.node? n <;> rfl

theorem edgesIn_bare (m : Model) (g : GraphRef) : m.bare.edgesIn g = m.edgesIn g := by
  unfold edgesIn
  rw [bare_edges_size]
  refine List.filter_congr fun e _ => ?_
  rw [edge?_bare]
  cases m.edge? e <;> rfl

section BareEq
variable (he : m.bare = m'.bare)
include he

theorem graph?_of_bare_eq {s' : Subgraph} (hs : m'.graph? g = some s') :
    ∃ s, m.graph? g = some s ∧ s.bare = s'.bare := by
  have h := graph?_bare m g
  rw [he, graph?_bare, hs] at h
  exact Option.map_eq_some_iff.1 h.symm

theorem node?_of_bare_eq {v' : Node} (hv : m'.node? n = some v') :
    ∃ v, m.node? n = some v ∧ v.bare = v'.bare := by
  have h := node?_bare m n
  rw [he, node?_bare, hv] at h
  exact Option.map_eq_some_iff.1 h.symm

theorem edge?_of_bare_eq {v' : Edge} (hv : m'.edge? e = some v') :
    ∃ v, m.edge? e = some v ∧ v.bare = v'.bare := by
  have h := edge?_bare m e
  rw [he, edge?_bare, hv] at h
  exact Option.map_eq_some_iff.1 h.symm

theorem graphs_size_of_bare_eq : m.graphs.size = m'.graphs.size := by
  rw [← bare_graphs_size m, he, bare_graphs_size]

theorem nodes_size_of_bare_eq : m.nodes.size = m'.nodes.size := by
  rw [← bare_nodes_size m, he, bare_nodes_size]

/-- Whether a model is well-formed is seen without its attributes. -/
theorem WellFormed.of_bare_eq (h : m.WellFormed) : m'.WellFormed where
  root := by
    obtain ⟨s, hs, hh⟩ := h.root
    obtain ⟨s', hs', hb⟩ := graph?_of_bare_eq he.symm hs
    obtain ⟨_, _, _, hholder⟩ := Subgraph.bare_eq.1 hb
    exact ⟨s', hs', hholder.trans hh⟩
  nodes_listed := by
    intro g s' hs'
    obtain ⟨s, hs, hb⟩ := graph?_of_bare_eq he hs'
    obtain ⟨_, hnodes, _, _⟩ := Subgraph.bare_eq.1 hb
    rw [← nodesIn_bare, ← he, nodesIn_bare, ← h.nodes_listed hs, hnodes]
  edges_listed := by
    intro g s' hs'
    obtain ⟨s, hs, hb⟩ := graph?_of_bare_eq he hs'
    obtain ⟨_, _, hedges, _⟩ := Subgraph.bare_eq.1 hb
    rw [← edgesIn_bare, ← he, edgesIn_bare, ← h.edges_listed hs, hedges]
  node_graph := by
    intro n v' hv'
    obtain ⟨v, hv, hb⟩ := node?_of_bare_eq he hv'
    obtain ⟨_, hgraph, _⟩ := Node.bare_eq.1 hb
    rw [← hgraph, ← graphs_size_of_bare_eq he]
    exact h.node_graph hv
  edge_graph := by
    intro e v' hv'
    obtain ⟨v, hv, hb⟩ := edge?_of_bare_eq he hv'
    obtain ⟨_, _, hgraph⟩ := Edge.bare_eq.1 hb
    rw [← hgraph, ← graphs_size_of_bare_eq he]
    exact h.edge_graph hv
  edge_ends := by
    intro e v' hv'
    obtain ⟨v, hv, hb⟩ := edge?_of_bare_eq he hv'
    obtain ⟨hsource, htarget, _⟩ := Edge.bare_eq.1 hb
    rw [← hsource, ← htarget, ← nodes_size_of_bare_eq he]
    exact h.edge_ends hv
  nested := by
    intro n v' g hv' hn'
    obtain ⟨v, hv, hb⟩ := node?_of_bare_eq he hv'
    obtain ⟨_, hgraph, hnested⟩ := Node.bare_eq.1 hb
    obtain ⟨hlt, s, hs, hh⟩ := h.nested hv (hnested.trans hn')
    obtain ⟨s', hs', hb'⟩ := graph?_of_bare_eq he.symm hs
    obtain ⟨_, _, _, hholder⟩ := Subgraph.bare_eq.1 hb'
    exact ⟨hgraph ▸ hlt, s', hs', hholder.trans hh⟩
  held := by
    intro g s' hs' hne
    obtain ⟨s, hs, hb⟩ := graph?_of_bare_eq he hs'
    obtain ⟨_, _, _, hholder⟩ := Subgraph.bare_eq.1 hb
    obtain ⟨n, v, hh, hv, hn⟩ := h.held hs hne
    obtain ⟨v', hv', hb'⟩ := node?_of_bare_eq he.symm hv
    obtain ⟨_, _, hnested⟩ := Node.bare_eq.1 hb'
    exact ⟨n, v', hholder.symm.trans hh, hv', hnested.trans hn⟩

end BareEq

theorem bare_modifyGraphAttrs (m : Model) (g : GraphRef) (f : Attributes → Attributes) :
    (m.modifyGraphAttrs g f).bare = m.bare := by
  unfold bare modifyGraphAttrs modifyGraph
  congr 1
  refine Array.ext_getElem? fun i => ?_
  rw [Array.getElem?_map, Array.getElem?_map, Array.getElem?_modify]
  split
  · cases m.graphs[i]? <;> rfl
  · rfl

theorem bare_modifyNodeAttrs (m : Model) (n : NodeRef) (f : Attributes → Attributes) :
    (m.modifyNodeAttrs n f).bare = m.bare := by
  unfold bare modifyNodeAttrs modifyNode
  congr 1
  refine Array.ext_getElem? fun i => ?_
  rw [Array.getElem?_map, Array.getElem?_map, Array.getElem?_modify]
  split
  · cases m.nodes[i]? <;> rfl
  · rfl

theorem bare_modifyEdgeAttrs (m : Model) (e : EdgeRef) (f : Attributes → Attributes) :
    (m.modifyEdgeAttrs e f).bare = m.bare := by
  unfold bare modifyEdgeAttrs modifyEdge
  congr 1
  refine Array.ext_getElem? fun i => ?_
  rw [Array.getElem?_map, Array.getElem?_map, Array.getElem?_modify]
  split
  · cases m.edges[i]? <;> rfl
  · rfl

/-! ## The operations -/

theorem wellFormed_new (kind : GraphKind) (name : Option String) :
    (Model.new kind name).WellFormed := by
  have hroot : ∀ {g s}, (Model.new kind name).graph? g = some s →
      g = root ∧ s = .fresh name .empty none := by
    intro g s hs
    obtain ⟨i⟩ := g
    have hi : i = 0 := by
      have := graph?_lt hs
      simp [Model.new] at this
      omega
    subst hi
    exact ⟨rfl, (Option.some.inj hs).symm⟩
  refine ⟨⟨_, rfl, rfl⟩, ?_, ?_, ?_, ?_, ?_, ?_, ?_⟩
  · intro g s hs
    obtain ⟨rfl, rfl⟩ := hroot hs
    rfl
  · intro g s hs
    obtain ⟨rfl, rfl⟩ := hroot hs
    rfl
  · intro n v hv
    simp [node?, Model.new] at hv
  · intro e v hv
    simp [edge?, Model.new] at hv
  · intro e v hv
    simp [edge?, Model.new] at hv
  · intro n v g hv
    simp [node?, Model.new] at hv
  · intro g s hs hne
    exact absurd (hroot hs).1 hne

/-- A graph lists a node that is pushed to it, and is otherwise unchanged. -/
theorem graph?_pushNode_eq_some {name : String} {attrs : Attributes} {nested : Option GraphRef}
    {h : GraphRef} {s' : Subgraph} (hs' : (m.pushNode g name attrs nested).graph? h = some s') :
    ∃ s, m.graph? h = some s ∧ s'.name = s.name ∧ s'.edges = s.edges ∧ s'.holder = s.holder ∧
      s'.nodes.toList = s.nodes.toList ++ if g = h then [⟨m.nodes.size⟩] else [] := by
  rw [graph?_pushNode] at hs'
  split at hs'
  · next hg =>
      obtain ⟨s, hs, rfl⟩ := Option.map_eq_some_iff.1 hs'
      exact ⟨s, hs, rfl, rfl, rfl, by simp [hg]⟩
  · next hg => exact ⟨s', hs', rfl, rfl, rfl, by simp [hg]⟩

theorem graph?_pushNode_of {name : String} {attrs : Attributes} {nested : Option GraphRef}
    {h : GraphRef} {s : Subgraph} (hs : m.graph? h = some s) :
    ∃ s', (m.pushNode g name attrs nested).graph? h = some s' ∧ s'.holder = s.holder := by
  rw [graph?_pushNode, hs]
  split
  · exact ⟨_, rfl, rfl⟩
  · exact ⟨_, rfl, rfl⟩

theorem node?_pushNode_eq_some {name : String} {attrs : Attributes} {nested : Option GraphRef}
    {v : Node} (hv : (m.pushNode g name attrs nested).node? n = some v) :
    (n = ⟨m.nodes.size⟩ ∧ v = ⟨name, g, attrs, nested⟩) ∨ m.node? n = some v := by
  rw [node?_pushNode] at hv
  split at hv
  · next hn =>
      obtain ⟨i⟩ := n
      exact Or.inl ⟨congrArg NodeRef.mk hn, (Option.some.inj hv).symm⟩
  · exact Or.inr hv

theorem node?_pushNode_of {name : String} {attrs : Attributes} {nested : Option GraphRef}
    {v : Node} (hv : m.node? n = some v) :
    (m.pushNode g name attrs nested).node? n = some v := by
  rw [node?_pushNode, if_neg (Nat.ne_of_lt (node?_lt hv)), hv]

theorem graphs_size_pushNode (m : Model) (g : GraphRef) (name : String) (attrs : Attributes)
    (nested : Option GraphRef) :
    (m.pushNode g name attrs nested).graphs.size = m.graphs.size := by
  simp [pushNode, modifyGraph]

theorem nodes_size_pushNode (m : Model) (g : GraphRef) (name : String) (attrs : Attributes)
    (nested : Option GraphRef) :
    (m.pushNode g name attrs nested).nodes.size = m.nodes.size + 1 := by
  simp [pushNode, modifyGraph]

theorem WellFormed.addNode (h : m.WellFormed) (hg : g.index < m.graphs.size) (name : String)
    (attrs : Attributes) : (m.addNode g name attrs).2.WellFormed where
  root := by
    obtain ⟨s, hs, hh⟩ := h.root
    obtain ⟨s', hs', hh'⟩ := graph?_pushNode_of hs
    exact ⟨s', hs', hh'.trans hh⟩
  nodes_listed := by
    intro k s' hs'
    obtain ⟨s, hs, _, _, _, hn⟩ := graph?_pushNode_eq_some hs'
    rw [hn, h.nodes_listed hs]
    exact (nodesIn_pushNode m g name attrs none).symm
  edges_listed := by
    intro k s' hs'
    obtain ⟨s, hs, _, he, _, _⟩ := graph?_pushNode_eq_some hs'
    rw [he, h.edges_listed hs]
    rfl
  node_graph := by
    intro n v hv
    show v.graph.index < (m.pushNode g name attrs none).graphs.size
    rw [graphs_size_pushNode]
    rcases node?_pushNode_eq_some hv with hv | hv
    · obtain ⟨_, rfl⟩ := hv
      exact hg
    · exact h.node_graph hv
  edge_graph := by
    intro e v hv
    show v.graph.index < (m.pushNode g name attrs none).graphs.size
    rw [graphs_size_pushNode]
    exact h.edge_graph hv
  edge_ends := by
    intro e v hv
    have hsize : (m.addNode g name attrs).2.nodes.size = m.nodes.size + 1 :=
      nodes_size_pushNode m g name attrs none
    rw [hsize]
    exact (h.edge_ends hv).imp Nat.lt_succ_of_lt Nat.lt_succ_of_lt
  nested := by
    intro n v k hv hk
    rcases node?_pushNode_eq_some hv with hv | hv
    · obtain ⟨_, rfl⟩ := hv
      cases hk
    · obtain ⟨hlt, s, hs, hh⟩ := h.nested hv hk
      obtain ⟨s', hs', hh'⟩ := graph?_pushNode_of hs
      exact ⟨hlt, s', hs', hh'.trans hh⟩
  held := by
    intro k s' hs' hne
    obtain ⟨s, hs, _, _, hh, _⟩ := graph?_pushNode_eq_some hs'
    obtain ⟨n, v, hholder, hv, hk⟩ := h.held hs hne
    exact ⟨n, v, hh.trans hholder, node?_pushNode_of hv, hk⟩

/-- A graph lists an edge that is added to it, and is otherwise unchanged. -/
theorem graph?_addEdge_eq_some {source target : NodeRef} {attrs : Attributes} {h : GraphRef}
    {s' : Subgraph} (hs' : (m.addEdge g source target attrs).2.graph? h = some s') :
    ∃ s, m.graph? h = some s ∧ s'.name = s.name ∧ s'.nodes = s.nodes ∧ s'.holder = s.holder ∧
      s'.edges.toList = s.edges.toList ++ if g = h then [⟨m.edges.size⟩] else [] := by
  rw [graph?_addEdge] at hs'
  split at hs'
  · next hg =>
      obtain ⟨s, hs, rfl⟩ := Option.map_eq_some_iff.1 hs'
      exact ⟨s, hs, rfl, rfl, rfl, by simp [hg]⟩
  · next hg => exact ⟨s', hs', rfl, rfl, rfl, by simp [hg]⟩

theorem graph?_addEdge_of {source target : NodeRef} {attrs : Attributes} {h : GraphRef}
    {s : Subgraph} (hs : m.graph? h = some s) :
    ∃ s', (m.addEdge g source target attrs).2.graph? h = some s' ∧ s'.holder = s.holder := by
  rw [graph?_addEdge, hs]
  split
  · exact ⟨_, rfl, rfl⟩
  · exact ⟨_, rfl, rfl⟩

theorem edge?_addEdge_eq_some {source target : NodeRef} {attrs : Attributes} {v : Edge}
    (hv : (m.addEdge g source target attrs).2.edge? e = some v) :
    (e = ⟨m.edges.size⟩ ∧ v = ⟨source, target, g, attrs⟩) ∨ m.edge? e = some v := by
  rw [edge?_addEdge] at hv
  split at hv
  · next he =>
      obtain ⟨i⟩ := e
      exact Or.inl ⟨congrArg EdgeRef.mk he, (Option.some.inj hv).symm⟩
  · exact Or.inr hv

theorem graphs_size_addEdge (m : Model) (g : GraphRef) (source target : NodeRef)
    (attrs : Attributes) : (m.addEdge g source target attrs).2.graphs.size = m.graphs.size := by
  simp [addEdge, modifyGraph]

theorem WellFormed.addEdge (h : m.WellFormed) (hg : g.index < m.graphs.size)
    {source target : NodeRef} (hsource : source.index < m.nodes.size)
    (htarget : target.index < m.nodes.size) (attrs : Attributes) :
    (m.addEdge g source target attrs).2.WellFormed where
  root := by
    obtain ⟨s, hs, hh⟩ := h.root
    obtain ⟨s', hs', hh'⟩ := graph?_addEdge_of hs
    exact ⟨s', hs', hh'.trans hh⟩
  nodes_listed := by
    intro k s' hs'
    obtain ⟨s, hs, _, hn, _, _⟩ := graph?_addEdge_eq_some hs'
    rw [hn, h.nodes_listed hs]
    rfl
  edges_listed := by
    intro k s' hs'
    obtain ⟨s, hs, _, _, _, he⟩ := graph?_addEdge_eq_some hs'
    rw [he, h.edges_listed hs, edgesIn_addEdge]
  node_graph := by
    intro n v hv
    rw [graphs_size_addEdge]
    exact h.node_graph hv
  edge_graph := by
    intro e v hv
    rw [graphs_size_addEdge]
    rcases edge?_addEdge_eq_some hv with hv | hv
    · obtain ⟨_, rfl⟩ := hv
      exact hg
    · exact h.edge_graph hv
  edge_ends := by
    intro e v hv
    rcases edge?_addEdge_eq_some hv with hv | hv
    · obtain ⟨_, rfl⟩ := hv
      exact ⟨hsource, htarget⟩
    · exact h.edge_ends hv
  nested := by
    intro n v k hv hk
    obtain ⟨hlt, s, hs, hh⟩ := h.nested hv hk
    obtain ⟨s', hs', hh'⟩ := graph?_addEdge_of hs
    exact ⟨hlt, s', hs', hh'.trans hh⟩
  held := by
    intro k s' hs' hne
    obtain ⟨s, hs, _, _, hh, _⟩ := graph?_addEdge_eq_some hs'
    obtain ⟨n, v, hholder, hv, hk⟩ := h.held hs hne
    exact ⟨n, v, hh.trans hholder, hv, hk⟩

/-- A graph is the new one, or was there before its holder was pushed. -/
theorem graph?_addSubgraph_eq_some {nodeName : String} {name : Option String}
    {attrs : Attributes} {h : GraphRef} {s : Subgraph}
    (hs : (m.addSubgraph g nodeName name attrs).2.2.graph? h = some s) :
    (h = ⟨m.graphs.size⟩ ∧ s = .fresh name attrs (some ⟨m.nodes.size⟩)) ∨
      (m.pushNode g nodeName .empty (some ⟨m.graphs.size⟩)).graph? h = some s := by
  rw [graph?_addSubgraph] at hs
  split at hs
  · next hh =>
      obtain ⟨i⟩ := h
      exact Or.inl ⟨congrArg GraphRef.mk hh, (Option.some.inj hs).symm⟩
  · exact Or.inr hs

theorem graph?_addSubgraph_of {nodeName : String} {name : Option String} {attrs : Attributes}
    {h : GraphRef} {s : Subgraph} (hs : m.graph? h = some s) :
    ∃ s', (m.addSubgraph g nodeName name attrs).2.2.graph? h = some s' ∧
      s'.holder = s.holder := by
  rw [graph?_addSubgraph, if_neg (Nat.ne_of_lt (graph?_lt hs))]
  exact graph?_pushNode_of hs

theorem graphs_size_addSubgraph (m : Model) (g : GraphRef) (nodeName : String)
    (name : Option String) (attrs : Attributes) :
    (m.addSubgraph g nodeName name attrs).2.2.graphs.size = m.graphs.size + 1 := by
  simp [addSubgraph, pushNode, modifyGraph]

theorem nodes_size_addSubgraph (m : Model) (g : GraphRef) (nodeName : String)
    (name : Option String) (attrs : Attributes) :
    (m.addSubgraph g nodeName name attrs).2.2.nodes.size = m.nodes.size + 1 := by
  simp [addSubgraph, pushNode, modifyGraph]

/-- Nothing stands in a graph before it is made. -/
theorem WellFormed.nodesIn_new (h : m.WellFormed) : m.nodesIn ⟨m.graphs.size⟩ = [] := by
  refine List.eq_nil_iff_forall_not_mem.2 fun n hn => ?_
  obtain ⟨v, hv, hg⟩ := mem_nodesIn.1 hn
  have hlt := h.node_graph hv
  rw [hg] at hlt
  exact absurd hlt (Nat.lt_irrefl _)

theorem WellFormed.edgesIn_new (h : m.WellFormed) : m.edgesIn ⟨m.graphs.size⟩ = [] := by
  refine List.eq_nil_iff_forall_not_mem.2 fun e he => ?_
  obtain ⟨v, hv, hg⟩ := mem_edgesIn.1 he
  have hlt := h.edge_graph hv
  rw [hg] at hlt
  exact absurd hlt (Nat.lt_irrefl _)

theorem WellFormed.addSubgraph (h : m.WellFormed) (hg : g.index < m.graphs.size)
    (nodeName : String) (name : Option String) (attrs : Attributes) :
    (m.addSubgraph g nodeName name attrs).2.2.WellFormed where
  root := by
    obtain ⟨s, hs, hh⟩ := h.root
    obtain ⟨s', hs', hh'⟩ := graph?_addSubgraph_of hs
    exact ⟨s', hs', hh'.trans hh⟩
  nodes_listed := by
    intro k s' hs'
    have hin : (m.addSubgraph g nodeName name attrs).2.2.nodesIn k =
        (m.pushNode g nodeName .empty (some ⟨m.graphs.size⟩)).nodesIn k := rfl
    rw [hin, nodesIn_pushNode]
    rcases graph?_addSubgraph_eq_some hs' with hs' | hs'
    · obtain ⟨rfl, rfl⟩ := hs'
      have hne : g ≠ ⟨m.graphs.size⟩ := by
        rintro rfl
        exact Nat.lt_irrefl _ hg
      rw [h.nodesIn_new, if_neg hne]
      rfl
    · obtain ⟨s, hs, _, _, _, hn⟩ := graph?_pushNode_eq_some hs'
      rw [hn, h.nodes_listed hs]
  edges_listed := by
    intro k s' hs'
    have hin : (m.addSubgraph g nodeName name attrs).2.2.edgesIn k = m.edgesIn k := rfl
    rw [hin]
    rcases graph?_addSubgraph_eq_some hs' with hs' | hs'
    · obtain ⟨rfl, rfl⟩ := hs'
      rw [h.edgesIn_new]
      rfl
    · obtain ⟨s, hs, _, he, _, _⟩ := graph?_pushNode_eq_some hs'
      rw [he, h.edges_listed hs]
  node_graph := by
    intro n v hv
    rw [graphs_size_addSubgraph]
    rcases node?_pushNode_eq_some hv with hv | hv
    · obtain ⟨_, rfl⟩ := hv
      exact Nat.lt_succ_of_lt hg
    · exact Nat.lt_succ_of_lt (h.node_graph hv)
  edge_graph := by
    intro e v hv
    rw [graphs_size_addSubgraph]
    exact Nat.lt_succ_of_lt (h.edge_graph hv)
  edge_ends := by
    intro e v hv
    rw [nodes_size_addSubgraph]
    exact (h.edge_ends hv).imp Nat.lt_succ_of_lt Nat.lt_succ_of_lt
  nested := by
    intro n v k hv hk
    rcases node?_pushNode_eq_some hv with hv | hv
    · obtain ⟨rfl, rfl⟩ := hv
      cases hk
      refine ⟨hg, .fresh name attrs (some ⟨m.nodes.size⟩), ?_, rfl⟩
      rw [graph?_addSubgraph, if_pos rfl]
    · obtain ⟨hlt, s, hs, hh⟩ := h.nested hv hk
      obtain ⟨s', hs', hh'⟩ := graph?_addSubgraph_of hs
      exact ⟨hlt, s', hs', hh'.trans hh⟩
  held := by
    intro k s' hs' hne
    rcases graph?_addSubgraph_eq_some hs' with hs' | hs'
    · obtain ⟨rfl, rfl⟩ := hs'
      refine ⟨⟨m.nodes.size⟩, ⟨nodeName, g, .empty, some ⟨m.graphs.size⟩⟩, rfl, ?_, rfl⟩
      rw [node?_addSubgraph, if_pos rfl]
    · obtain ⟨s, hs, _, _, hh, _⟩ := graph?_pushNode_eq_some hs'
      obtain ⟨n, v, hholder, hv, hk⟩ := h.held hs hne
      exact ⟨n, v, hh.trans hholder, node?_pushNode_of hv, hk⟩

/-! ## Reached models -/

/-- The models that the operations build from an empty one, with references that
are in range.  The attributes of anything may be changed at any time. -/
inductive Reached : Model → Prop
  | new (kind : GraphKind) (name : Option String) : Reached (Model.new kind name)
  | setStrict {m : Model} (strict : Bool) (reached : Reached m) :
      Reached { m with strict := strict }
  | addNode {m : Model} {g : GraphRef} (name : String) (attrs : Attributes)
      (in_range : g.index < m.graphs.size) (reached : Reached m) :
      Reached (m.addNode g name attrs).2
  | addEdge {m : Model} {g : GraphRef} {source target : NodeRef} (attrs : Attributes)
      (in_range : g.index < m.graphs.size) (source_in_range : source.index < m.nodes.size)
      (target_in_range : target.index < m.nodes.size) (reached : Reached m) :
      Reached (m.addEdge g source target attrs).2
  | addSubgraph {m : Model} {g : GraphRef} (nodeName : String) (name : Option String)
      (attrs : Attributes) (in_range : g.index < m.graphs.size) (reached : Reached m) :
      Reached (m.addSubgraph g nodeName name attrs).2.2
  | graphAttrs {m : Model} (g : GraphRef) (f : Attributes → Attributes) (reached : Reached m) :
      Reached (m.modifyGraphAttrs g f)
  | nodeAttrs {m : Model} (n : NodeRef) (f : Attributes → Attributes) (reached : Reached m) :
      Reached (m.modifyNodeAttrs n f)
  | edgeAttrs {m : Model} (e : EdgeRef) (f : Attributes → Attributes) (reached : Reached m) :
      Reached (m.modifyEdgeAttrs e f)

theorem Reached.wellFormed (h : m.Reached) : m.WellFormed := by
  induction h with
  | new kind name => exact wellFormed_new kind name
  | setStrict strict _ ih =>
      refine ih.of_bare_eq ?_
      rfl
  | addNode name attrs in_range _ ih => exact ih.addNode in_range name attrs
  | addEdge attrs in_range source_in_range target_in_range _ ih =>
      exact ih.addEdge in_range source_in_range target_in_range attrs
  | addSubgraph nodeName name attrs in_range _ ih =>
      exact ih.addSubgraph in_range nodeName name attrs
  | graphAttrs g f _ ih => exact ih.of_bare_eq (bare_modifyGraphAttrs _ g f).symm
  | nodeAttrs n f _ ih => exact ih.of_bare_eq (bare_modifyNodeAttrs _ n f).symm
  | edgeAttrs e f _ ih => exact ih.of_bare_eq (bare_modifyEdgeAttrs _ e f).symm

end Model

end DotLang
