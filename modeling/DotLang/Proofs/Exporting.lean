import DotLang.Model.Export
import DotLang.Proofs.Arena
import DotLang.Proofs.Rendering
/-!
# Exporting and parsing

`Model.Describes` says of a body that it describes a graph of a model: its nodes
and subgraphs in order, then its edges, then its attributes.  The exporter finds
that body by recursion to a depth that it bounds by the number of graphs, and
`describes_bodyOf` says that the bound is enough for a well-formed model.

A model is safe if its names, keys and values can be read back.  The text of a
safe model is parsed as its tree, so `Reached.toDot_describes` can say what the parser
gives in terms of the model alone.
-/

namespace DotLang.Model

variable {m : Model}

/-! ## What a body says of a graph -/

/-- A node as an operand of an edge, or the subject of its own statement. -/
def nodeIdOf (v : Node) : NodeId := ⟨.ofText v.name, none⟩

/-- One statement for each of the edges. -/
inductive DescribesEdges (m : Model) : List EdgeRef → List Stmt → Prop
  | nil : DescribesEdges m [] []
  | cons {e : EdgeRef} {es : List EdgeRef} {v : Edge} {source target : Node}
      {stmts : List Stmt} (edge : m.edge? e = some v)
      (has_source : m.node? v.source = some source)
      (has_target : m.node? v.target = some target) (rest : DescribesEdges m es stmts) :
      DescribesEdges m (e :: es)
        (.edge (.node (nodeIdOf source)) [(m.kind.edgeOp, .node (nodeIdOf target))]
          v.attrs.entries :: stmts)

mutual

/-- The body describes the graph: first its nodes, then its edges, then its
attributes. -/
inductive Describes (m : Model) : GraphRef → List Stmt → Prop
  | mk {g : GraphRef} {s : Subgraph} {nodes edges : List Stmt} (graph : m.graph? g = some s)
      (members : DescribesNodes m s.nodes.toList nodes)
      (joined : DescribesEdges m s.edges.toList edges) :
      Describes m g (nodes ++ edges ++ s.attrs.entries.map fun attr => .defaults .graph [attr])

/-- One statement for each of the nodes, which is a subgraph for a node that
holds one. -/
inductive DescribesNodes (m : Model) : List NodeRef → List Stmt → Prop
  | nil : DescribesNodes m [] []
  | node {n : NodeRef} {ns : List NodeRef} {v : Node} {stmts : List Stmt}
      (node : m.node? n = some v) (ordinary : v.nested = none)
      (rest : DescribesNodes m ns stmts) :
      DescribesNodes m (n :: ns) (.node (nodeIdOf v) v.attrs.entries :: stmts)
  | subgraph {n : NodeRef} {ns : List NodeRef} {v : Node} {g : GraphRef}
      {body stmts : List Stmt} (node : m.node? n = some v) (nested : v.nested = some g)
      (described : Describes m g body) (rest : DescribesNodes m ns stmts) :
      DescribesNodes m (n :: ns) (.subgraph ((m.nameOf g).map .ofText) body :: stmts)

end

/-! ## One body describes a graph -/

theorem Describes.parts {g : GraphRef} {body : List Stmt} :
    m.Describes g body → ∃ s nodes edges, m.graph? g = some s ∧
      m.DescribesNodes s.nodes.toList nodes ∧ m.DescribesEdges s.edges.toList edges ∧
        body = nodes ++ edges ++ s.attrs.entries.map fun attr => .defaults .graph [attr]
  | .mk graph members joined => ⟨_, _, _, graph, members, joined, rfl⟩

theorem DescribesEdges.unique {es : List EdgeRef} {stmts stmts' : List Stmt}
    (h : m.DescribesEdges es stmts) (h' : m.DescribesEdges es stmts') : stmts = stmts' := by
  induction h generalizing stmts' with
  | nil =>
      cases h'
      rfl
  | cons edge has_source has_target _ ih =>
      cases h' with
      | cons edge' has_source' has_target' rest' =>
          obtain rfl := Option.some.inj (edge.symm.trans edge')
          obtain rfl := Option.some.inj (has_source.symm.trans has_source')
          obtain rfl := Option.some.inj (has_target.symm.trans has_target')
          rw [ih rest']

mutual

theorem Describes.unique {g : GraphRef} {body body' : List Stmt} :
    m.Describes g body → m.Describes g body' → body = body'
  | .mk graph members joined, .mk graph' members' joined' => by
      obtain rfl := Option.some.inj (graph.symm.trans graph')
      rw [members.unique members', joined.unique joined']

theorem DescribesNodes.unique {ns : List NodeRef} {stmts stmts' : List Stmt} :
    m.DescribesNodes ns stmts → m.DescribesNodes ns stmts' → stmts = stmts'
  | .nil, .nil => rfl
  | .node node _ rest, .node node' _ rest' => by
      obtain rfl := Option.some.inj (node.symm.trans node')
      rw [rest.unique rest']
  | .subgraph node nested described rest, .subgraph node' nested' described' rest' => by
      obtain rfl := Option.some.inj (node.symm.trans node')
      obtain rfl := Option.some.inj (nested.symm.trans nested')
      rw [described.unique described', rest.unique rest']
  | .node node ordinary _, .subgraph node' nested' _ _ => by
      obtain rfl := Option.some.inj (node.symm.trans node')
      rw [ordinary] at nested'
      cases nested'
  | .subgraph node' nested' _ _, .node node ordinary _ => by
      obtain rfl := Option.some.inj (node.symm.trans node')
      rw [ordinary] at nested'
      cases nested'

end

/-! ## Reading a description -/

section Inversion
variable {n : NodeRef} {ns : List NodeRef} {v : Node} {g : GraphRef} {stmts : List Stmt}

theorem DescribesNodes.of_ordinary (h : m.DescribesNodes (n :: ns) stmts)
    (hv : m.node? n = some v) (ho : v.nested = none) :
    ∃ rest, stmts = .node (nodeIdOf v) v.attrs.entries :: rest ∧ m.DescribesNodes ns rest := by
  cases h with
  | node hv' _ rest =>
      obtain rfl := Option.some.inj (hv.symm.trans hv')
      exact ⟨_, rfl, rest⟩
  | subgraph hv' hn _ _ =>
      obtain rfl := Option.some.inj (hv.symm.trans hv')
      rw [ho] at hn
      cases hn

theorem DescribesNodes.of_nested (h : m.DescribesNodes (n :: ns) stmts)
    (hv : m.node? n = some v) (hn : v.nested = some g) :
    ∃ body rest, stmts = .subgraph ((m.nameOf g).map .ofText) body :: rest ∧
      m.Describes g body ∧ m.DescribesNodes ns rest := by
  cases h with
  | node hv' ho _ =>
      obtain rfl := Option.some.inj (hv.symm.trans hv')
      rw [ho] at hn
      cases hn
  | subgraph hv' hn' described rest =>
      obtain rfl := Option.some.inj (hv.symm.trans hv')
      obtain rfl := Option.some.inj (hn.symm.trans hn')
      exact ⟨_, _, rfl, described, rest⟩

theorem DescribesNodes.of_node {id : NodeId} {attrs : AttrList}
    (h : m.DescribesNodes ns (.node id attrs :: stmts)) :
    ∃ n ms v, ns = n :: ms ∧ m.node? n = some v ∧ v.nested = none ∧ id = nodeIdOf v ∧
      attrs = v.attrs.entries ∧ m.DescribesNodes ms stmts := by
  cases h with
  | node hv ho rest => exact ⟨_, _, _, rfl, hv, ho, rfl, rfl, rest⟩

theorem DescribesNodes.of_subgraph {name : Option Id} {body : List Stmt}
    (h : m.DescribesNodes ns (.subgraph name body :: stmts)) :
    ∃ n ms v g, ns = n :: ms ∧ m.node? n = some v ∧ v.nested = some g ∧
      name = (m.nameOf g).map .ofText ∧ m.Describes g body ∧ m.DescribesNodes ms stmts := by
  cases h with
  | subgraph hv hn described rest => exact ⟨_, _, _, _, rfl, hv, hn, rfl, described, rest⟩

theorem DescribesEdges.of_edge {es : List EdgeRef} {tail head : NodeId} {op : EdgeOp}
    {attrs : AttrList}
    (h : m.DescribesEdges es (.edge (.node tail) [(op, .node head)] attrs :: stmts)) :
    ∃ e ds v source target, es = e :: ds ∧ m.edge? e = some v ∧ m.node? v.source = some source ∧
      m.node? v.target = some target ∧ tail = nodeIdOf source ∧ head = nodeIdOf target ∧
        attrs = v.attrs.entries ∧ m.DescribesEdges ds stmts := by
  cases h with
  | cons edge has_source has_target rest =>
      exact ⟨_, _, _, _, _, rfl, edge, has_source, has_target, rfl, rfl, rfl, rest⟩

end Inversion

/-! ## The body that the exporter finds -/

theorem describesEdges_edgeStmt (h : m.WellFormed) {es : List EdgeRef}
    (hes : ∀ e ∈ es, e.index < m.edges.size) :
    m.DescribesEdges es ((es.filterMap m.edge?).map m.edgeStmt) := by
  induction es with
  | nil => exact .nil
  | cons e es ih =>
      obtain ⟨v, hv⟩ := edge?_of_lt (hes e List.mem_cons_self)
      obtain ⟨hs, ht⟩ := h.edge_ends hv
      obtain ⟨source, hs⟩ := node?_of_lt hs
      obtain ⟨target, ht⟩ := node?_of_lt ht
      have hrest := ih fun d hd => hes d (List.mem_cons_of_mem _ hd)
      rw [List.filterMap_cons_some hv, List.map_cons]
      have hstmt : m.edgeStmt v = .edge (.node (nodeIdOf source))
          [(m.kind.edgeOp, .node (nodeIdOf target))] v.attrs.entries := by
        simp [edgeStmt, operandOf, nodeIdOf, hs, ht]
      rw [hstmt]
      exact .cons hv hs ht hrest

/-- Graphs cannot nest deeper than there are graphs behind the first. -/
theorem describes_bodyOf (h : m.WellFormed) {depth : Nat} {g : GraphRef}
    (hg : g.index < m.graphs.size) (hd : m.graphs.size ≤ g.index + depth) :
    m.Describes g (m.bodyOf depth g) := by
  induction depth generalizing g with
  | zero => omega
  | succ depth ih =>
      obtain ⟨s, hs⟩ := graph?_of_lt hg
      unfold bodyOf
      rw [hs]
      refine .mk hs ?_ ?_
      · have hin : ∀ n ∈ s.nodes.toList, ∃ v, m.node? n = some v ∧ v.graph = g :=
          fun n hn => (h.mem_nodes hs).1 hn
        generalize s.nodes.toList = ns at hin
        induction ns with
        | nil => exact .nil
        | cons n ns ihn =>
            obtain ⟨v, hv, hvg⟩ := hin n List.mem_cons_self
            have hrest := ihn fun k hk => hin k (List.mem_cons_of_mem _ hk)
            rw [List.filterMap_cons_some hv, List.map_cons]
            cases hk : v.nested with
            | none => exact .node hv hk hrest
            | some k =>
                obtain ⟨hlt, s', hs', _⟩ := h.nested hv hk
                rw [hvg] at hlt
                exact .subgraph hv hk (ih (graph?_lt hs') (by omega)) hrest
      · refine describesEdges_edgeStmt h fun e he => ?_
        obtain ⟨v, hv, _⟩ := (h.mem_edges hs).1 he
        exact edge?_lt hv

/-- The tree of a model describes the model from its root. -/
theorem WellFormed.describes_toTree (h : m.WellFormed) : m.Describes Model.root m.toTree.body := by
  obtain ⟨s, hs, _⟩ := h.root
  exact describes_bodyOf h (graph?_lt hs) (Nat.le_add_left _ _)

/-! ## Safe models -/

/-- Every name, key and value of the model can be written and be read back. -/
structure Safe (m : Model) : Prop where
  graph_name : ∀ s ∈ m.graphs, ∀ name ∈ s.name, (Id.ofText name).Safe
  node_name : ∀ v ∈ m.nodes, (Id.ofText v.name).Safe
  graph_attrs : ∀ s ∈ m.graphs, SafeEntries s.attrs.entries
  node_attrs : ∀ v ∈ m.nodes, SafeEntries v.attrs.entries
  edge_attrs : ∀ v ∈ m.edges, SafeEntries v.attrs.entries

theorem Safe.nameOf (h : m.Safe) {g : GraphRef} {i : Id}
    (hi : i ∈ (m.nameOf g).map Id.ofText) : i.Safe := by
  obtain ⟨name, hn, rfl⟩ := Option.map_eq_some_iff.1 (Option.mem_def.1 hi)
  obtain ⟨s, hs, hn⟩ := Option.bind_eq_some_iff.1 hn
  exact h.graph_name s (Array.mem_of_getElem? hs) name hn

theorem Safe.nodeIdOf (h : m.Safe) {n : NodeRef} {v : Node} (hv : m.node? n = some v) :
    (nodeIdOf v).Safe :=
  ⟨h.node_name v (Array.mem_of_getElem? hv), fun _ hp => by cases hp⟩

theorem writableBody_append {op : EdgeOp} {stmts more : List Stmt} (h : WritableBody op stmts)
    (h' : WritableBody op more) : WritableBody op (stmts ++ more) := by
  induction stmts with
  | nil => exact h'
  | cons s stmts ih =>
      cases h with
      | cons stmt rest => exact .cons stmt (ih rest)

theorem DescribesEdges.writable (safe : m.Safe) {es : List EdgeRef} {stmts : List Stmt}
    (h : m.DescribesEdges es stmts) : WritableBody m.kind.edgeOp stmts := by
  induction h with
  | nil => exact .nil
  | cons edge has_source has_target _ ih =>
      refine .cons (.edge (.node (safe.nodeIdOf has_source))
        (.cons (.node (safe.nodeIdOf has_target)) .nil) (by simp) ?_) ih
      exact safe.edge_attrs _ (Array.mem_of_getElem? edge)

/-- The statements for the attributes of a graph. -/
theorem writableBody_attrs {op : EdgeOp} {attrs : AttrList} (h : SafeEntries attrs) :
    WritableBody op (attrs.map fun attr => .defaults .graph [attr]) := by
  induction attrs with
  | nil => exact .nil
  | cons e attrs ih =>
      refine .cons (.defaults .graph ?_) (ih fun e' he' => h e' (List.mem_cons_of_mem _ he'))
      intro e' he'
      rw [List.mem_singleton.1 he']
      exact h e List.mem_cons_self

mutual

theorem Describes.writable (safe : m.Safe) {g : GraphRef} {body : List Stmt} :
    m.Describes g body → WritableBody m.kind.edgeOp body
  | .mk graph members joined => by
      refine writableBody_append (writableBody_append (members.writable safe)
        (joined.writable safe)) (writableBody_attrs ?_)
      exact safe.graph_attrs _ (Array.mem_of_getElem? graph)

theorem DescribesNodes.writable (safe : m.Safe) {ns : List NodeRef} {stmts : List Stmt} :
    m.DescribesNodes ns stmts → WritableBody m.kind.edgeOp stmts
  | .nil => .nil
  | .node node _ rest =>
      .cons (.node (safe.nodeIdOf node) (safe.node_attrs _ (Array.mem_of_getElem? node)))
        (rest.writable safe)
  | .subgraph _ _ described rest =>
      .cons (.subgraph (fun _ hi => safe.nameOf hi) (described.writable safe))
        (rest.writable safe)

end

theorem WellFormed.writable_toTree (h : m.WellFormed) (safe : m.Safe) : m.toTree.Writable :=
  ⟨fun _ hi => safe.nameOf hi, h.describes_toTree.writable safe⟩

/-- The text of a safe model is parsed as its tree. -/
theorem WellFormed.parse_toDot (h : m.WellFormed) (safe : m.Safe) :
    Tree.parse m.toDot = .ok [m.toTree] :=
  Tree.parse_render (h.writable_toTree safe)

/-- The text of a safe model that the operations build is parsed as one graph,
which has the mode, kind and name of the model and describes its graphs from the
root. -/
theorem Reached.toDot_describes (h : m.Reached) (safe : m.Safe) :
    ∃ t, Tree.parse m.toDot = .ok [t] ∧ t.strict = m.strict ∧ t.kind = m.kind ∧
      t.name = (m.nameOf Model.root).map Id.ofText ∧ m.Describes Model.root t.body :=
  ⟨m.toTree, h.wellFormed.parse_toDot safe, rfl, rfl, rfl, h.wellFormed.describes_toTree⟩

theorem toDot_describes_nested :
    let m := ((((Model.new .digraph (some "G")).addSubgraph root "s" (some "cluster 1")
      .empty).2.2.addNode ⟨1⟩ "say \"a\"" (.ofList [("label", .html "<i>")])).2.addEdge root
        ⟨1⟩ ⟨1⟩ (.ofList [("weight", .ofText "2.5")])).2
    m.Reached ∧ m.Safe ∧ ∃ t, Tree.parse m.toDot = .ok [t] ∧ t.strict = m.strict ∧
      t.kind = m.kind ∧ t.name = (m.nameOf root).map Id.ofText ∧ m.Describes root t.body := by
  intro m
  have reached : m.Reached :=
    .addEdge _ (by decide) (by decide) (by decide) (.addNode _ _ (by decide)
      (.addSubgraph _ _ _ (by decide) (.new .digraph (some "G"))))
  have safe : m.Safe := ⟨by decide +kernel, by decide +kernel, by decide +kernel,
    by decide +kernel, by decide +kernel⟩
  exact ⟨reached, safe, reached.toDot_describes safe⟩

end DotLang.Model
