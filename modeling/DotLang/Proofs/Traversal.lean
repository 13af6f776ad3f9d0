import DotLang.Proofs.Exporting
import DotLang.Proofs.Nesting
import DotLang.Proofs.Parents
/-!
# Going through a model

The exporter follows the links of a model downwards: from a graph to the nodes that it
lists, and from a node to the graph that it holds.  It keeps no set of what it
has seen.  `Model.Writes` is that recursion, with the elements that it passes and the
statements that it gives.  In a well-formed model it ends, and as two
children of one graph have nothing below them in common, it passes every element
once.

`Model.Arranged` says how the references of a model fit together, and
`Model.Reached.arranged` that they do in all models that the operations build.
-/

namespace DotLang.Model

variable {m : Model} {g inner : GraphRef} {n k : NodeRef} {e : EdgeRef}
  {ns : List NodeRef}

/-! ## The order of the arenas -/

theorem nodesIn_increasing (m : Model) (g : GraphRef) :
    (m.nodesIn g).Pairwise (·.index < ·.index) :=
  .filter _ (List.pairwise_map.2 List.pairwise_lt_range)

theorem edgesIn_increasing (m : Model) (g : GraphRef) :
    (m.edgesIn g).Pairwise (·.index < ·.index) :=
  .filter _ (List.pairwise_map.2 List.pairwise_lt_range)

/-- A graph lists no edge twice. -/
theorem WellFormed.nodup_edges (wf : m.WellFormed) {s : Subgraph} (hs : m.graph? g = some s) :
    s.edges.toList.Nodup := by
  rw [wf.edges_listed hs]
  refine (m.edgesIn_increasing g).imp fun {a b} hlt he => ?_
  rw [he] at hlt
  exact Nat.lt_irrefl _ hlt

/-! ## Elements -/

/-- Something that a model holds. -/
inductive Element
  | graph (g : GraphRef)
  | node (n : NodeRef)
  | edge (e : EdgeRef)
deriving DecidableEq, Repr

/-- The graph that an element stands in.  A graph stands in itself. -/
def home? (m : Model) : Element → Option GraphRef
  | .graph g => (m.graph? g).map fun _ => g
  | .node n => (m.node? n).map Node.graph
  | .edge e => (m.edge? e).map Edge.graph

/-- The element stands in the graph, at any depth. -/
def Within (m : Model) (g : GraphRef) (x : Element) : Prop :=
  ∃ h, m.home? x = some h ∧ m.Below g h

/-- The element is the node, or stands in the graph that the node holds. -/
def Behind (m : Model) (n : NodeRef) (x : Element) : Prop :=
  x = .node n ∨ ∃ v g, m.node? n = some v ∧ v.nested = some g ∧ m.Within g x

theorem home?_node {v : Node} (hv : m.node? n = some v) : m.home? (.node n) = some v.graph := by
  simp [home?, hv]

/-- Nothing that stands in a graph itself stands in a child of it. -/
theorem WellFormed.not_within (wf : m.WellFormed) {x : Element} (hx : m.home? x = some g)
    (parent : m.parent? inner = some g) : ¬ m.Within inner x := by
  rintro ⟨h, hh, below⟩
  obtain rfl := Option.some.inj (hx.symm.trans hh)
  exact Nat.not_le_of_lt (wf.parent_lt parent) (below.le wf)

/-- What is behind a node of a graph stands in the graph. -/
theorem WellFormed.within_of_behind (wf : m.WellFormed) {v : Node} {x : Element}
    (hv : m.node? n = some v) (behind : m.Behind n x) : m.Within v.graph x := by
  cases behind with
  | inl hx =>
      subst hx
      exact ⟨v.graph, home?_node hv, .refl⟩
  | inr hx =>
      obtain ⟨w, g, hw, nested, h, hh, below⟩ := hx
      obtain rfl := Option.some.inj (hv.symm.trans hw)
      exact ⟨h, hh, below.of_parent (wf.parent_of_nested hv nested)⟩

/-- An element of a graph itself is behind no node of the graph but itself. -/
theorem WellFormed.eq_of_behind (wf : m.WellFormed) {v : Node} {x : Element}
    (hv : m.node? n = some v) (hx : m.home? x = some v.graph) (behind : m.Behind n x) :
    x = .node n := by
  cases behind with
  | inl hx => exact hx
  | inr inside =>
      obtain ⟨w, g, hw, nested, within⟩ := inside
      obtain rfl := Option.some.inj (hv.symm.trans hw)
      exact absurd within (wf.not_within hx (wf.parent_of_nested hv nested))

/-- What is behind a node of a graph is behind no other node of it. -/
theorem WellFormed.behind_unique (wf : m.WellFormed) {v w : Node} {x : Element}
    (hv : m.node? n = some v) (hw : m.node? k = some w) (same : v.graph = w.graph)
    (hn : m.Behind n x) (hk : m.Behind k x) : n = k := by
  cases hn with
  | inl hx =>
      have hhome : m.home? x = some w.graph := by rw [hx, home?_node hv, same]
      have := wf.eq_of_behind hw hhome hk
      rw [hx] at this
      exact Element.node.inj this
  | inr inside =>
      obtain ⟨v', a, hv', nested, within⟩ := inside
      obtain rfl := Option.some.inj (hv.symm.trans hv')
      have parent := wf.parent_of_nested hv nested
      cases hk with
      | inl hx =>
          have hhome : m.home? x = some v.graph := by rw [hx, home?_node hw, same]
          exact absurd within (wf.not_within hhome parent)
      | inr inside' =>
          obtain ⟨w', b, hw', nested', within'⟩ := inside'
          obtain rfl := Option.some.inj (hw.symm.trans hw')
          have parent' := wf.parent_of_nested hw nested'
          rw [← same] at parent'
          obtain ⟨h, hh, below⟩ := within
          obtain ⟨h', hh', below'⟩ := within'
          obtain rfl := Option.some.inj (hh.symm.trans hh')
          obtain rfl := below.child_unique wf below' parent parent'
          obtain ⟨_, s, hs, holder⟩ := wf.nested hv nested
          obtain ⟨_, s', hs', holder'⟩ := wf.nested hw nested'
          obtain rfl := Option.some.inj (hs.symm.trans hs')
          exact Option.some.inj (holder.symm.trans holder')

/-- What stands in a graph is the graph, is one of its edges, or is behind one of its
nodes. -/
theorem WellFormed.within_iff (wf : m.WellFormed) {s : Subgraph} (hs : m.graph? g = some s)
    {x : Element} :
    m.Within g x ↔ x = .graph g ∨ (∃ n ∈ s.nodes.toList, m.Behind n x) ∨
      ∃ e ∈ s.edges.toList, x = .edge e := by
  constructor
  · rintro ⟨h, hh, below⟩
    rcases below.eq_or_child with rfl | ⟨inner, parent, below⟩
    · cases x with
      | graph a =>
          obtain ⟨_, _, rfl⟩ := Option.map_eq_some_iff.1 hh
          exact Or.inl rfl
      | node n =>
          have hn := (wf.mem_nodes hs).2 (Option.map_eq_some_iff.1 hh)
          exact Or.inr (Or.inl ⟨n, hn, Or.inl rfl⟩)
      | edge e =>
          have he := (wf.mem_edges hs).2 (Option.map_eq_some_iff.1 hh)
          exact Or.inr (Or.inr ⟨e, he, rfl⟩)
    · obtain ⟨n, v, hv, nested, hg⟩ := wf.holder_of_parent parent
      have hn := (wf.mem_nodes hs).2 ⟨v, hv, hg⟩
      exact Or.inr (Or.inl ⟨n, hn, Or.inr ⟨v, inner, hv, nested, h, hh, below⟩⟩)
  · rintro (rfl | ⟨n, hn, behind⟩ | ⟨e, he, rfl⟩)
    · exact ⟨g, by simp [home?, hs], .refl⟩
    · obtain ⟨v, hv, rfl⟩ := (wf.mem_nodes hs).1 hn
      exact wf.within_of_behind hv behind
    · obtain ⟨v, hv, rfl⟩ := (wf.mem_edges hs).1 he
      exact ⟨v.graph, by simp [home?, hv], .refl⟩

/-! ## The recursion of the exporter -/

mutual

/-- Writing the graph passes these elements, one after the other, and gives this
body. -/
inductive Writes (m : Model) : GraphRef → List Element → List Stmt → Prop
  | mk {g : GraphRef} {s : Subgraph} {passed : List Element} {nodes edges : List Stmt}
      (graph : m.graph? g = some s) (members : WritesNodes m s.nodes.toList passed nodes)
      (joined : DescribesEdges m s.edges.toList edges) :
      Writes m g (.graph g :: (passed ++ s.edges.toList.map .edge))
        (nodes ++ edges ++ s.attrs.entries.map fun attr => .defaults .graph [attr])

/-- Writing the nodes passes these elements, and gives these statements. -/
inductive WritesNodes (m : Model) : List NodeRef → List Element → List Stmt → Prop
  | nil : WritesNodes m [] [] []
  | node {n : NodeRef} {ns : List NodeRef} {v : Node} {passed : List Element}
      {stmts : List Stmt} (node : m.node? n = some v) (ordinary : v.nested = none)
      (rest : WritesNodes m ns passed stmts) :
      WritesNodes m (n :: ns) (.node n :: passed)
        (.node (nodeIdOf v) v.attrs.entries :: stmts)
  | subgraph {n : NodeRef} {ns : List NodeRef} {v : Node} {g : GraphRef}
      {inside passed : List Element} {body stmts : List Stmt} (node : m.node? n = some v)
      (nested : v.nested = some g) (written : Writes m g inside body)
      (rest : WritesNodes m ns passed stmts) :
      WritesNodes m (n :: ns) (.node n :: (inside ++ passed))
        (.subgraph ((m.nameOf g).map .ofText) body :: stmts)

end

mutual

/-- The exporter ends where a body describes the graph. -/
theorem Describes.writes {g : GraphRef} {body : List Stmt} :
    m.Describes g body → ∃ passed, m.Writes g passed body
  | .mk graph members joined =>
      let ⟨_, h⟩ := members.writes
      ⟨_, .mk graph h joined⟩

theorem DescribesNodes.writes {ns : List NodeRef} {stmts : List Stmt} :
    m.DescribesNodes ns stmts → ∃ passed, m.WritesNodes ns passed stmts
  | .nil => ⟨[], .nil⟩
  | .node node ordinary rest =>
      let ⟨_, h⟩ := rest.writes
      ⟨_, .node node ordinary h⟩
  | .subgraph node nested described rest =>
      let ⟨_, hinside⟩ := described.writes
      let ⟨_, h⟩ := rest.writes
      ⟨_, .subgraph node nested hinside h⟩

end

mutual

/-- The links leave the exporter no choice. -/
theorem Writes.unique {g : GraphRef} {passed passed' : List Element} {body body' : List Stmt} :
    m.Writes g passed body → m.Writes g passed' body' → passed = passed' ∧ body = body'
  | .mk graph members joined, .mk graph' members' joined' => by
      obtain rfl := Option.some.inj (graph.symm.trans graph')
      obtain ⟨rfl, rfl⟩ := members.unique members'
      obtain rfl := joined.unique joined'
      exact ⟨rfl, rfl⟩

theorem WritesNodes.unique {ns : List NodeRef} {passed passed' : List Element}
    {stmts stmts' : List Stmt} :
    m.WritesNodes ns passed stmts → m.WritesNodes ns passed' stmts' →
      passed = passed' ∧ stmts = stmts'
  | .nil, .nil => ⟨rfl, rfl⟩
  | .node node _ rest, .node node' _ rest' => by
      obtain rfl := Option.some.inj (node.symm.trans node')
      obtain ⟨rfl, rfl⟩ := rest.unique rest'
      exact ⟨rfl, rfl⟩
  | .subgraph node nested written rest, .subgraph node' nested' written' rest' => by
      obtain rfl := Option.some.inj (node.symm.trans node')
      obtain rfl := Option.some.inj (nested.symm.trans nested')
      obtain ⟨rfl, rfl⟩ := written.unique written'
      obtain ⟨rfl, rfl⟩ := rest.unique rest'
      exact ⟨rfl, rfl⟩
  | .node node ordinary _, .subgraph node' nested' _ _ => by
      obtain rfl := Option.some.inj (node.symm.trans node')
      rw [ordinary] at nested'
      cases nested'
  | .subgraph node' nested' _ _, .node node ordinary _ => by
      obtain rfl := Option.some.inj (node.symm.trans node')
      rw [ordinary] at nested'
      cases nested'

end

/-! ## Everything is passed once -/

/-- The elements behind the nodes are passed, each of them once. -/
structure PassesBehind (m : Model) (ns : List NodeRef) (passed : List Element) : Prop where
  distinct : passed.Nodup
  mem_iff : ∀ x, x ∈ passed ↔ ∃ n ∈ ns, m.Behind n x

/-- The elements in the graph are passed, each of them once. -/
structure PassesWithin (m : Model) (g : GraphRef) (passed : List Element) : Prop where
  distinct : passed.Nodup
  mem_iff : ∀ x, x ∈ passed ↔ m.Within g x

/-- Behind a further node of the graph is nothing that is behind the others. -/
theorem PassesBehind.apart {passed : List Element} (h : m.PassesBehind ns passed)
    (wf : m.WellFormed) (hn : ∃ v, m.node? n = some v ∧ v.graph = g)
    (hns : ∀ k ∈ ns, ∃ v, m.node? k = some v ∧ v.graph = g) (hnot : n ∉ ns) {x : Element}
    (behind : m.Behind n x) : x ∉ passed := by
  intro hx
  obtain ⟨k, hk, hbehind⟩ := (h.mem_iff x).1 hx
  obtain ⟨v, hv, hg⟩ := hn
  obtain ⟨w, hw, hg'⟩ := hns k hk
  obtain rfl := wf.behind_unique hv hw (hg.trans hg'.symm) behind hbehind
  exact hnot hk

/-- A node is passed together with all that is behind it. -/
theorem PassesBehind.cons {inside passed : List Element} (h : m.PassesBehind ns passed)
    (apart : ∀ x, m.Behind n x → x ∉ passed) (distinct : (.node n :: inside).Nodup)
    (hinside : ∀ x, x ∈ Element.node n :: inside ↔ m.Behind n x) :
    m.PassesBehind (n :: ns) (.node n :: (inside ++ passed)) where
  distinct := by
    rw [← List.cons_append]
    refine List.nodup_append.2 ⟨distinct, h.distinct, fun x hx y hy he => ?_⟩
    subst he
    exact apart x ((hinside x).1 hx) hy
  mem_iff x := by
    rw [← List.cons_append, List.mem_append, hinside, h.mem_iff]
    simp

theorem PassesBehind.node {passed : List Element} (h : m.PassesBehind ns passed)
    (apart : ∀ x, m.Behind n x → x ∉ passed) {v : Node} (hv : m.node? n = some v)
    (ordinary : v.nested = none) : m.PassesBehind (n :: ns) (.node n :: passed) := by
  have hbehind : ∀ x, x ∈ [Element.node n] ↔ m.Behind n x := by simp [Behind, hv, ordinary]
  exact h.cons apart (List.nodup_cons.2 ⟨List.not_mem_nil, .nil⟩) hbehind

theorem PassesBehind.subgraph {inside passed : List Element} (h : m.PassesBehind ns passed)
    (apart : ∀ x, m.Behind n x → x ∉ passed) (wf : m.WellFormed) {v : Node}
    (hv : m.node? n = some v) (nested : v.nested = some g) (hinside : m.PassesWithin g inside) :
    m.PassesBehind (n :: ns) (.node n :: (inside ++ passed)) := by
  refine h.cons apart (List.nodup_cons.2 ⟨fun hn => ?_, hinside.distinct⟩) fun x => ?_
  · have parent := wf.parent_of_nested hv nested
    exact wf.not_within (home?_node hv) parent ((hinside.mem_iff _).1 hn)
  · simp [Behind, hv, nested, hinside.mem_iff]

/-- A graph is passed with what is behind its nodes, and with its edges. -/
theorem PassesBehind.graph {s : Subgraph} {passed : List Element} (wf : m.WellFormed)
    (hs : m.graph? g = some s) (h : m.PassesBehind s.nodes.toList passed) :
    m.PassesWithin g (.graph g :: (passed ++ s.edges.toList.map .edge)) := by
  have hnone : ∀ x, m.home? x = some g → (∀ n, x ≠ .node n) → x ∉ passed := by
    intro x hx hne hmem
    obtain ⟨n, hn, behind⟩ := (h.mem_iff x).1 hmem
    obtain ⟨v, hv, rfl⟩ := (wf.mem_nodes hs).1 hn
    exact hne n (wf.eq_of_behind hv hx behind)
  refine ⟨List.nodup_cons.2 ⟨?_, List.nodup_append.2 ⟨h.distinct, ?_, ?_⟩⟩, fun x => ?_⟩
  · rw [List.mem_append]
    rintro (hg | hg)
    · exact hnone (.graph g) (by simp [home?, hs]) (fun _ he => by cases he) hg
    · simp at hg
  · refine List.pairwise_map.2 ((wf.nodup_edges hs).imp fun hne he => hne ?_)
    exact Element.edge.inj he
  · rintro x hx y hy rfl
    obtain ⟨e, he, rfl⟩ := List.mem_map.1 hy
    obtain ⟨v, hv, hg⟩ := (wf.mem_edges hs).1 he
    exact hnone (.edge e) (by simp [home?, hv, hg]) (fun _ he => by cases he) hx
  · rw [wf.within_iff hs, List.mem_cons, List.mem_append, h.mem_iff]
    simp [eq_comm]

mutual

theorem Writes.passes (wf : m.WellFormed) {g : GraphRef} {passed : List Element}
    {body : List Stmt} : m.Writes g passed body → m.PassesWithin g passed
  | .mk hs members _ => by
      have h := members.passes wf (wf.nodup_nodes hs) fun n hn => (wf.mem_nodes hs).1 hn
      exact h.graph wf hs

theorem WritesNodes.passes (wf : m.WellFormed) {g : GraphRef} {ns : List NodeRef}
    {passed : List Element} {stmts : List Stmt} : m.WritesNodes ns passed stmts → ns.Nodup →
      (∀ n ∈ ns, ∃ v, m.node? n = some v ∧ v.graph = g) → m.PassesBehind ns passed
  | .nil, _, _ => ⟨List.nodup_nil, fun x => by simp⟩
  | .node node ordinary rest, distinct, hg => by
      rw [List.nodup_cons] at distinct
      rw [List.forall_mem_cons] at hg
      have h := rest.passes wf distinct.2 hg.2
      exact h.node (fun _ => h.apart wf hg.1 hg.2 distinct.1) node ordinary
  | .subgraph node nested written rest, distinct, hg => by
      rw [List.nodup_cons] at distinct
      rw [List.forall_mem_cons] at hg
      have h := rest.passes wf distinct.2 hg.2
      have hinside := written.passes wf
      exact h.subgraph (fun _ => h.apart wf hg.1 hg.2 distinct.1) wf node nested hinside

end

/-- Everything in the model stands in the root. -/
theorem WellFormed.within_root_iff (wf : m.WellFormed) {x : Element} :
    m.Within Model.root x ↔ ∃ g, m.home? x = some g := by
  constructor
  · rintro ⟨g, hg, _⟩
    exact ⟨g, hg⟩
  · rintro ⟨g, hg⟩
    refine ⟨g, hg, wf.below_root ?_⟩
    cases x with
    | graph a =>
        obtain ⟨s, hs, rfl⟩ := Option.map_eq_some_iff.1 hg
        exact graph?_lt hs
    | node n =>
        obtain ⟨v, hv, rfl⟩ := Option.map_eq_some_iff.1 hg
        exact wf.node_graph hv
    | edge e =>
        obtain ⟨v, hv, rfl⟩ := Option.map_eq_some_iff.1 hg
        exact wf.edge_graph hv

/-- The element has a place in its arena. -/
def Element.InRange (m : Model) : Element → Prop
  | .graph g => g.index < m.graphs.size
  | .node n => n.index < m.nodes.size
  | .edge e => e.index < m.edges.size

theorem inRange_iff {x : Element} : x.InRange m ↔ ∃ g, m.home? x = some g := by
  constructor
  · intro hx
    cases x with
    | graph g =>
        obtain ⟨s, hs⟩ := graph?_of_lt hx
        exact ⟨g, by simp [home?, hs]⟩
    | node n =>
        obtain ⟨v, hv⟩ := node?_of_lt hx
        exact ⟨v.graph, home?_node hv⟩
    | edge e =>
        obtain ⟨v, hv⟩ := edge?_of_lt hx
        exact ⟨v.graph, by simp [home?, hv]⟩
  · rintro ⟨g, hg⟩
    cases x with
    | graph a =>
        obtain ⟨s, hs, _⟩ := Option.map_eq_some_iff.1 hg
        exact graph?_lt hs
    | node n =>
        obtain ⟨v, hv, _⟩ := Option.map_eq_some_iff.1 hg
        exact node?_lt hv
    | edge e =>
        obtain ⟨v, hv, _⟩ := Option.map_eq_some_iff.1 hg
        exact edge?_lt hv

/-- No depth beyond the number of graphs changes what is written. -/
theorem WellFormed.bodyOf_root (wf : m.WellFormed) {depth : Nat} (hd : m.graphs.size ≤ depth) :
    m.bodyOf depth Model.root = m.toTree.body := by
  obtain ⟨s, hs, _⟩ := wf.root
  exact (describes_bodyOf wf (graph?_lt hs) (Nat.le_add_left_of_le hd)).unique wf.describes_toTree

/-- There is no infinite descent from graphs to their children. -/
theorem WellFormed.descent (wf : m.WellFormed) :
    WellFounded fun inner outer => m.parent? inner = some outer := by
  refine Subrelation.wf (fun {inner outer} parent => ?_)
    (measure fun g : GraphRef => m.graphs.size - g.index).wf
  have hlt := wf.parent_lt parent
  obtain ⟨n, v, hv, nested, _⟩ := wf.holder_of_parent parent
  obtain ⟨_, s, hs, _⟩ := wf.nested hv nested
  have := graph?_lt hs
  show m.graphs.size - inner.index < m.graphs.size - outer.index
  omega

/-! ## Counting -/

/-- Every node that holds a graph was made with it. -/
theorem Reached.holders_count (h : m.Reached) :
    m.nodes.countP (fun v => v.nested.isSome) + 1 = m.graphs.size := by
  have hbare : ∀ {a b : Model}, a.bare = b.bare →
      a.nodes.countP (fun v => v.nested.isSome) + 1 = a.graphs.size →
        b.nodes.countP (fun v => v.nested.isSome) + 1 = b.graphs.size := by
    intro a b he ih
    have hcount : ∀ m : Model, m.bare.nodes.countP (fun v => v.nested.isSome) =
        m.nodes.countP (fun v => v.nested.isSome) := fun m => Array.countP_map
    rw [← hcount, ← graphs_size_of_bare_eq he, ← he, hcount, ih]
  induction h with
  | new kind name => rfl
  | setStrict strict _ ih => exact ih
  | addNode name attrs _ _ ih =>
      simpa [Model.addNode, pushNode, modifyGraph, Array.countP_push] using ih
  | addEdge attrs _ _ _ _ ih => simpa [Model.addEdge, modifyGraph] using ih
  | addSubgraph nodeName name attrs _ _ ih =>
      simpa [Model.addSubgraph, pushNode, modifyGraph, Array.countP_push] using ih
  | graphAttrs g f _ ih => exact hbare (bare_modifyGraphAttrs _ g f).symm ih
  | nodeAttrs n f _ ih => exact hbare (bare_modifyNodeAttrs _ n f).symm ih
  | edgeAttrs e f _ ih => exact hbare (bare_modifyEdgeAttrs _ e f).symm ih

/-- Clusters and other subgraphs are all graphs but the root. -/
theorem subgraphCounts_add (m : Model) :
    m.subgraphCounts.1 + m.subgraphCounts.2 = m.graphs.size - 1 := by
  have h := (m.graphs.toList.drop 1).length_eq_countP_add_countP Subgraph.isCluster
  rw [List.length_drop, Array.length_toList, List.countP_eq_length_filter,
    List.countP_eq_length_filter] at h
  simp only [subgraphCounts, List.partition_eq_filter_filter]
  rw [h]
  congr 3
  funext g
  simp

theorem ordinary_add_holders (m : Model) :
    m.nodes.countP (fun v => v.nested.isNone) + m.nodes.countP (fun v => v.nested.isSome) =
      m.nodes.size := by
  have h := m.nodes.toList.length_eq_countP_add_countP (fun v => v.nested.isNone)
  simp only [Array.countP_toList, Array.length_toList] at h
  rw [h]
  congr 2
  funext v
  cases v.nested <;> rfl

/-! ## Arranged models -/

/-- The references of the model fit together, and everything in it can be reached
from the root. -/
structure Arranged (m : Model) : Prop where
  /-- A graph lists its nodes in increasing order. -/
  nodes_increase : ∀ {g s}, m.graph? g = some s → s.nodes.toList.Pairwise (·.index < ·.index)
  /-- A graph lists just the nodes that name it as their graph. -/
  mem_nodes : ∀ {g s}, m.graph? g = some s →
    ∀ n, n ∈ s.nodes.toList ↔ ∃ v, m.node? n = some v ∧ v.graph = g
  /-- A graph lists its edges in increasing order. -/
  edges_increase : ∀ {g s}, m.graph? g = some s → s.edges.toList.Pairwise (·.index < ·.index)
  /-- A graph lists just the edges that name it as their graph. -/
  mem_edges : ∀ {g s}, m.graph? g = some s →
    ∀ e, e ∈ s.edges.toList ↔ ∃ v, m.edge? e = some v ∧ v.graph = g
  /-- The graph of a node is there. -/
  node_graph : ∀ {n v}, m.node? n = some v → v.graph.index < m.graphs.size
  /-- The graph of an edge is there. -/
  edge_graph : ∀ {e v}, m.edge? e = some v → v.graph.index < m.graphs.size
  /-- The graph that a node holds and the node that holds a graph are each other's. -/
  nested_iff : ∀ n g, (∃ v, m.node? n = some v ∧ v.nested = some g) ↔
    ∃ s, m.graph? g = some s ∧ s.holder = some n
  /-- No node holds the root. -/
  root : ∃ s, m.graph? Model.root = some s ∧ s.holder = none
  /-- One node holds every other graph. -/
  held : ∀ g, g.index < m.graphs.size → g ≠ Model.root →
    ∃ n, (∃ v, m.node? n = some v ∧ v.nested = some g) ∧
      ∀ k v, m.node? k = some v → v.nested = some g → k = n
  /-- Every other graph has a parent, and the root has none. -/
  parent : ∀ g, g.index < m.graphs.size → (m.parent? g = none ↔ g = Model.root)
  /-- The parent of a graph is numbered before it. -/
  parent_lt : ∀ g outer, m.parent? g = some outer → outer.index < g.index
  /-- Every chain of parents ends at the root. -/
  chain : ∀ g, g.index < m.graphs.size → m.Below Model.root g
  /-- There is no infinite descent from graphs to their children. -/
  descent : WellFounded fun inner outer => m.parent? inner = some outer
  /-- The exporter ends, in one way, and has passed everything once. -/
  exported : ∃ passed, m.Writes Model.root passed m.toTree.body ∧
    (∀ passed' body, m.Writes Model.root passed' body → passed' = passed) ∧
      passed.Nodup ∧ ∀ x, x ∈ passed ↔ x.InRange m
  /-- The depth that the exporter is given is never used up. -/
  depth : ∀ depth, m.graphs.size ≤ depth → m.bodyOf depth Model.root = m.toTree.body
  /-- There is a node that holds a graph for every graph but the root. -/
  holders : m.nodes.countP (fun v => v.nested.isSome) + 1 = m.graphs.size
  /-- There are no more subgraphs than nodes. -/
  subgraphs : m.subgraphCounts.1 + m.subgraphCounts.2 ≤ m.nodes.size
  /-- The nodes less the subgraphs are the nodes that hold no graph. -/
  ordinary : m.plainNodeCount = m.nodes.countP fun v => v.nested.isNone

/-- The graph that a node holds and the node that holds a graph are each other's. -/
theorem WellFormed.nested_iff (wf : m.WellFormed) :
    (∃ v, m.node? n = some v ∧ v.nested = some g) ↔
      ∃ s, m.graph? g = some s ∧ s.holder = some n := by
  constructor
  · rintro ⟨v, hv, nested⟩
    exact (wf.nested hv nested).2
  · rintro ⟨s, hs, holder⟩
    have hne : g ≠ Model.root := by
      rintro rfl
      obtain ⟨r, hr, hnone⟩ := wf.root
      obtain rfl := Option.some.inj (hs.symm.trans hr)
      cases hnone.symm.trans holder
    obtain ⟨k, v, hk, hv, nested⟩ := wf.held hs hne
    obtain rfl := Option.some.inj (holder.symm.trans hk)
    exact ⟨v, hv, nested⟩

theorem WellFormed.held_once (wf : m.WellFormed) (hg : g.index < m.graphs.size)
    (hne : g ≠ Model.root) : ∃ n, (∃ v, m.node? n = some v ∧ v.nested = some g) ∧
      ∀ k v, m.node? k = some v → v.nested = some g → k = n := by
  obtain ⟨s, hs⟩ := graph?_of_lt hg
  obtain ⟨n, v, holder, hv, nested⟩ := wf.held hs hne
  refine ⟨n, ⟨v, hv, nested⟩, fun k w hw nested' => ?_⟩
  obtain ⟨_, s', hs', holder'⟩ := wf.nested hw nested'
  obtain rfl := Option.some.inj (hs.symm.trans hs')
  exact Option.some.inj (holder'.symm.trans holder)

theorem WellFormed.exported (wf : m.WellFormed) :
    ∃ passed, m.Writes Model.root passed m.toTree.body ∧
      (∀ passed' body, m.Writes Model.root passed' body → passed' = passed) ∧
        passed.Nodup ∧ ∀ x, x ∈ passed ↔ x.InRange m := by
  obtain ⟨passed, written⟩ := wf.describes_toTree.writes
  obtain ⟨distinct, hmem⟩ := written.passes wf
  refine ⟨passed, written, fun _ _ other => (other.unique written).1, distinct, fun x => ?_⟩
  rw [hmem, wf.within_root_iff, inRange_iff]

/-- The references fit together in every model that the operations build. -/
theorem Reached.arranged (h : m.Reached) : m.Arranged := by
  have wf := h.wellFormed
  have hholders := h.holders_count
  have hsubgraphs := m.subgraphCounts_add
  have hnodes := m.ordinary_add_holders
  exact {
    nodes_increase := fun {g s} hs => by
      rw [wf.nodes_listed hs]
      exact m.nodesIn_increasing g
    mem_nodes := fun hs _ => wf.mem_nodes hs
    edges_increase := fun {g s} hs => by
      rw [wf.edges_listed hs]
      exact m.edgesIn_increasing g
    mem_edges := fun hs _ => wf.mem_edges hs
    node_graph := wf.node_graph
    edge_graph := wf.edge_graph
    nested_iff := fun _ _ => wf.nested_iff
    root := wf.root
    held := fun _ => wf.held_once
    parent := fun g hg => by
      constructor
      · refine fun hnone => Decidable.byContradiction fun hne => ?_
        obtain ⟨outer, parent⟩ := wf.exists_parent hg hne
        cases hnone.symm.trans parent
      · rintro rfl
        exact wf.parent_root
    parent_lt := fun _ _ => wf.parent_lt
    chain := fun _ => wf.below_root
    descent := wf.descent
    exported := wf.exported
    depth := fun _ => wf.bodyOf_root
    holders := hholders
    subgraphs := by omega
    ordinary := by
      unfold plainNodeCount
      omega }

theorem arranged_nested :
    let m := (((((Model.new .digraph none).addSubgraph root "s" (some "cluster s")
      .empty).2.2.addNode ⟨1⟩ "a" .empty).2.addSubgraph ⟨1⟩ "t" none .empty).2.2.addEdge ⟨2⟩
        ⟨1⟩ ⟨1⟩ .empty).2.modifyNodeAttrs ⟨1⟩ (·.insert "color" (.ofText "red"))
    m.Reached ∧ m.Arranged := by
  intro m
  have reached : m.Reached :=
    .nodeAttrs _ _ (.addEdge _ (by decide) (by decide) (by decide) (.addSubgraph _ _ _ (by decide)
      (.addNode _ _ (by decide) (.addSubgraph _ _ _ (by decide) (.new .digraph none)))))
  exact ⟨reached, reached.arranged⟩

end DotLang.Model
