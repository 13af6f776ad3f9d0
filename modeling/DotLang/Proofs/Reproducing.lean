import DotLang.Proofs.Declaring
/-!
# The same model again

A model whose subgraphs were opened only once is built again from its tree.  Both
models are laid out in the order of their text and are described by the same
statements, so they agree in every node, and in every graph up to the numbers of
its edges.  `Tree.build_toTree` is the main statement.
-/

namespace DotLang

/-! ## The parts of a body -/

/-- The statement is written for a node, which may hold a graph. -/
def Stmt.isMember : Stmt → Bool
  | .node .. => true
  | .subgraph .. => true
  | _ => false

/-- The statement is written for an edge. -/
def Stmt.isEdge : Stmt → Bool
  | .edge .. => true
  | _ => false

namespace Model

variable {m m' : Model} {ns ns' : List NodeRef} {es es' : List EdgeRef} {stmts : List Stmt}
  {g : GraphRef} {c d d' : Marks}

theorem DescribesNodes.isMember (h : m.DescribesNodes ns stmts) : ∀ s ∈ stmts, s.isMember := by
  induction ns generalizing stmts with
  | nil =>
      cases h
      exact fun s hs => absurd hs List.not_mem_nil
  | cons n ns ih =>
      cases h with
      | node _ _ rest => exact List.forall_mem_cons.2 ⟨rfl, ih rest⟩
      | subgraph _ _ _ rest => exact List.forall_mem_cons.2 ⟨rfl, ih rest⟩

theorem DescribesEdges.isEdge (h : m.DescribesEdges es stmts) : ∀ s ∈ stmts, s.isEdge := by
  induction h with
  | nil => exact fun s hs => absurd hs List.not_mem_nil
  | cons _ _ _ _ ih => exact List.forall_mem_cons.2 ⟨rfl, ih⟩

/-- The statements for the attributes of a graph. -/
def attrStmts (attrs : AttrList) : List Stmt := attrs.map fun attr => .defaults .graph [attr]

theorem filter_attrStmts {p : Stmt → Bool} (hp : ∀ l, p (.defaults .graph l) = false)
    (attrs : AttrList) : (attrStmts attrs).filter p = [] := by
  refine List.filter_eq_nil_iff.2 fun s hs => ?_
  obtain ⟨attr, _, rfl⟩ := List.mem_map.1 hs
  rw [hp]
  exact Bool.false_ne_true

theorem filter_isMember {nodes edges : List Stmt} (hn : ∀ s ∈ nodes, s.isMember)
    (he : ∀ s ∈ edges, s.isEdge) (attrs : AttrList) :
    (nodes ++ edges ++ attrStmts attrs).filter Stmt.isMember = nodes := by
  have hedges : edges.filter Stmt.isMember = [] := by
    refine List.filter_eq_nil_iff.2 fun s hs => ?_
    have hedge := he s hs
    cases s with
    | edge => exact Bool.false_ne_true
    | node => cases hedge
    | defaults => cases hedge
    | subgraph => cases hedge
  rw [List.filter_append, List.filter_append, hedges, filter_attrStmts (fun _ => rfl),
    List.filter_eq_self.2 hn, List.append_nil, List.append_nil]

theorem filter_isEdge {edges : List Stmt} (he : ∀ s ∈ edges, s.isEdge) (attrs : AttrList) :
    (edges ++ attrStmts attrs).filter Stmt.isEdge = edges := by
  rw [List.filter_append, filter_attrStmts (fun _ => rfl), List.filter_eq_self.2 he,
    List.append_nil]

/-- The three parts of a body are told apart by the kind of their statements. -/
theorem parts_eq {nodes nodes' edges edges' : List Stmt} {attrs attrs' : AttrList}
    (hn : ∀ s ∈ nodes, s.isMember) (hn' : ∀ s ∈ nodes', s.isMember)
    (he : ∀ s ∈ edges, s.isEdge) (he' : ∀ s ∈ edges', s.isEdge)
    (h : nodes ++ edges ++ attrStmts attrs = nodes' ++ edges' ++ attrStmts attrs') :
    nodes = nodes' ∧ edges = edges' ∧ attrs = attrs' := by
  obtain rfl : nodes = nodes' := by
    rw [← filter_isMember hn he attrs, h, filter_isMember hn' he']
  rw [List.append_assoc, List.append_assoc] at h
  have h := List.append_cancel_left h
  obtain rfl : edges = edges' := by
    rw [← filter_isEdge he attrs, h, filter_isEdge he']
  refine ⟨rfl, rfl, (List.map_inj_right fun a a' ha => ?_).1 (List.append_cancel_left h)⟩
  injection ha with _ ha
  injection ha

/-! ## Models that are described alike -/

theorem nodeIdOf_inj {v v' : Node} (h : nodeIdOf v = nodeIdOf v') : v.name = v'.name := by
  have h := congrArg (fun i : NodeId => i.name.value) h
  simpa [nodeIdOf] using h

theorem map_ofText_inj {name name' : Option String}
    (h : name.map Id.ofText = name'.map Id.ofText) : name = name' := by
  rw [← Builder.map_ofText_value name, h, Builder.map_ofText_value]

/-- The graphs agree, and their edges are described by the same statements. -/
def Alike (m m' : Model) (g : GraphRef) : Prop :=
  ∃ s s' edges, m.graph? g = some s ∧ m'.graph? g = some s' ∧ s.name = s'.name ∧
    s.holder = s'.holder ∧ s.nodes = s'.nodes ∧ s.attrs = s'.attrs ∧
      m.DescribesEdges s.edges.toList edges ∧ m'.DescribesEdges s'.edges.toList edges

/-- Two models agree in some nodes and what is below them, all between the
numbers. -/
structure AlikeBetween (m m' : Model) (c d : Marks) : Prop where
  nodes : ∀ i, c.node ≤ i → i < d.node → m.node? ⟨i⟩ = m'.node? ⟨i⟩
  graphs : ∀ j, c.graph ≤ j → j < d.graph → Alike m m' ⟨j⟩

theorem AlikeBetween.refl (c : Marks) : AlikeBetween m m' c c :=
  ⟨fun _ hle hlt => absurd hlt (Nat.not_lt.2 hle), fun _ hle hlt => absurd hlt (Nat.not_lt.2 hle)⟩

/-- The models agree in one more node in front. -/
theorem AlikeBetween.node (node : m.node? ⟨c.node⟩ = m'.node? ⟨c.node⟩)
    (behind : AlikeBetween m m' c.behindNode d) : AlikeBetween m m' c d := by
  refine ⟨fun i hle hlt => ?_, behind.graphs⟩
  rcases Nat.eq_or_lt_of_le hle with hi | hi
  · exact hi ▸ node
  · exact behind.nodes i hi hlt

/-- The models agree in one more subgraph in front, and in all that is in it. -/
theorem AlikeBetween.subgraph {name : Option String}
    (node : m.node? ⟨c.node⟩ = m'.node? ⟨c.node⟩) (graph : Alike m m' ⟨c.graph⟩)
    (inner : AlikeBetween m m' (c.inSubgraph name) c1) (behind : AlikeBetween m m' c1 d) :
    AlikeBetween m m' c d := by
  refine ⟨fun i hle hlt => ?_, fun j hle hlt => ?_⟩
  · rcases Nat.eq_or_lt_of_le hle with hi | hi
    · exact hi ▸ node
    · rcases Nat.lt_or_ge i c1.node with hlt | hge
      · exact inner.nodes i hi hlt
      · exact behind.nodes i hge hlt
  · rcases Nat.eq_or_lt_of_le hle with hj | hj
    · exact hj ▸ graph
    · rcases Nat.lt_or_ge j c1.graph with hlt | hge
      · exact inner.graphs j hj hlt
      · exact behind.graphs j hge hlt

/-- Nodes that are laid out from the same numbers and described by the same
statements are the same. -/
theorem Laid.alike (h : m.Laid ns c d) (wf : m.WellFormed) (wf' : m'.WellFormed)
    (h' : m'.Laid ns' c d') (hg : ∀ n ∈ ns, ∀ v, m.node? n = some v → v.graph = g)
    (hg' : ∀ n ∈ ns', ∀ v, m'.node? n = some v → v.graph = g)
    (described : m.DescribesNodes ns stmts) (described' : m'.DescribesNodes ns' stmts) :
    ns = ns' ∧ d = d' ∧ AlikeBetween m m' c d := by
  induction h generalizing ns' d' g stmts with
  | nil c =>
      cases described
      cases described'
      cases h'
      exact ⟨rfl, rfl, .refl c⟩
  | @node c d v ns node ordinary _ ih =>
      obtain ⟨rest, rfl, hrest⟩ := described.of_ordinary node ordinary
      obtain ⟨n', ms, v', rfl, node', ordinary', hid, hattrs, hrest'⟩ := described'.of_node
      obtain ⟨rfl, laid'⟩ := h'.of_ordinary node' ordinary'
      have hgraph := (hg _ List.mem_cons_self _ node).trans (hg' _ List.mem_cons_self _ node').symm
      have hv : v = v' := Node.eq_of_fields (nodeIdOf_inj hid) hgraph
        (congrArg Attributes.mk hattrs) (ordinary.trans ordinary'.symm)
      obtain ⟨rfl, rfl, behind⟩ := ih laid' (fun n hn => hg n (List.mem_cons_of_mem _ hn))
        (fun n hn => hg' n (List.mem_cons_of_mem _ hn)) hrest hrest'
      exact ⟨rfl, rfl, .node (by rw [node, node', hv]) behind⟩
  | @subgraph c c1 d v s ns node nested attrs graph holder members ends _ ihm ih =>
      obtain ⟨body, rest, rfl, hbody, hrest⟩ := described.of_nested node nested
      obtain ⟨n', ms, v', k, rfl, node', nested', hid, hbody', hrest'⟩ := described'.of_subgraph
      obtain ⟨rfl, rfl, attrs', s', c1', graph', holder', members', laid'⟩ :=
        h'.of_nested node' nested'
      rw [nameOf_eq graph, nameOf_eq graph'] at hid
      have hname : s.name = s'.name := map_ofText_inj hid
      obtain ⟨_, hs, hholder⟩ := (wf.nested node nested).2
      obtain rfl := Option.some.inj (graph.symm.trans hs)
      obtain ⟨_, hs', hholder'⟩ := (wf'.nested node' nested').2
      obtain rfl := Option.some.inj (graph'.symm.trans hs')
      obtain ⟨_, nodes, edges, hs, hnodes, hedges, hparts⟩ := hbody.parts
      obtain rfl := Option.some.inj (graph.symm.trans hs)
      obtain ⟨_, nodes', edges', hs', hnodes', hedges', hparts'⟩ := hbody'.parts
      obtain rfl := Option.some.inj (graph'.symm.trans hs')
      obtain ⟨rfl, rfl, hentries⟩ := parts_eq hnodes.isMember hnodes'.isMember hedges.isEdge
        hedges'.isEdge (hparts.symm.trans hparts')
      rw [← hname] at members' holder'
      obtain ⟨hmembers, rfl, inner⟩ := ihm members'
        (fun n hn => wf.graph_of_listed graph hn) (fun n hn => wf'.graph_of_listed graph' hn)
        hnodes hnodes'
      have hgraph := (hg _ List.mem_cons_self _ node).trans (hg' _ List.mem_cons_self _ node').symm
      have hv : v = v' := Node.eq_of_fields (holder.trans holder'.symm) hgraph
        (attrs.trans attrs'.symm) (nested.trans nested'.symm)
      obtain ⟨rfl, rfl, behind⟩ := ih laid' (fun n hn => hg n (List.mem_cons_of_mem _ hn))
        (fun n hn => hg' n (List.mem_cons_of_mem _ hn)) hrest hrest'
      have alike : Alike m m' ⟨c.graph⟩ := ⟨s, s', edges, graph, graph', hname,
        hholder.trans hholder'.symm, Array.toList_inj.1 hmembers, congrArg Attributes.mk hentries,
        hedges, hedges'⟩
      exact ⟨rfl, rfl, .subgraph (by rw [node, node', hv]) alike inner behind⟩

/-! ## Edges -/

/-- The edges of a graph in order: where each starts and leads to, and its
attributes. -/
def edgeSequence (m : Model) (s : Subgraph) : List (Option (NodeRef × NodeRef × Attributes)) :=
  s.edges.toList.map fun e => (m.edge? e).map fun v => (v.source, v.target, v.attrs)

/-- Edges that are described by the same statements join the same nodes, if the
models agree in their nodes. -/
theorem DescribesEdges.data_eq (hnodes : ∀ n, m.node? n = m'.node? n) (h : m.Built)
    (h' : m'.Built) (joined : m.DescribesEdges es stmts) (joined' : m'.DescribesEdges es' stmts) :
    (es.map fun e => (m.edge? e).map fun v => (v.source, v.target, v.attrs)) =
      es'.map fun e => (m'.edge? e).map fun v => (v.source, v.target, v.attrs) := by
  -- A node that holds no graph is known by its name.
  have node_eq : ∀ {n n' : NodeRef} {w w' : Node}, m.Ordinary n → m'.Ordinary n' →
      m.node? n = some w → m'.node? n' = some w' → nodeIdOf w = nodeIdOf w' → n = n' := by
    rintro n n' w w' ⟨x, hx, ho⟩ ⟨x', hx', ho'⟩ hw hw' hid
    obtain rfl := Option.some.inj (hw.symm.trans hx)
    obtain rfl := Option.some.inj (hw'.symm.trans hx')
    exact h.node_names hw ((hnodes n').trans hw') ho ho' (nodeIdOf_inj hid)
  induction joined generalizing es' with
  | nil =>
      cases joined'
      rfl
  | @cons e es v source target stmts edge has_source has_target _ ih =>
      obtain ⟨e', ms, v', source', target', rfl, edge', has_source', has_target', hsource, htarget,
        hattrs, rest'⟩ := joined'.of_edge
      obtain ⟨hs, ht⟩ := h.ends edge
      obtain ⟨hs', ht'⟩ := h'.ends edge'
      have hsource := node_eq hs hs' has_source has_source' hsource
      have htarget := node_eq ht ht' has_target has_target' htarget
      have hattrs : v.attrs = v'.attrs := congrArg Attributes.mk hattrs
      rw [List.map_cons, List.map_cons, ih rest', edge, edge']
      simp only [Option.map_some, hsource, htarget, hattrs]

/-! ## The model of a tree that is built again -/

/-- The models agree in all but the numbers of edges. -/
structure SameUpToEdges (m' m : Model) : Prop where
  kind : m'.kind = m.kind
  strict : m'.strict = m.strict
  nodes : m'.nodes = m.nodes
  graph_count : m'.graphs.size = m.graphs.size
  graphs : ∀ {g s}, m.graph? g = some s → ∃ s', m'.graph? g = some s' ∧ s'.name = s.name ∧
    s'.holder = s.holder ∧ s'.nodes = s.nodes ∧ s'.attrs = s.attrs ∧
      m'.edgeSequence s' = m.edgeSequence s

/-- Built models that are laid out in the order of the same tree agree. -/
theorem Built.sameUpToEdges (h : m.Built) (h' : m'.Built) (tree : m'.toTree = m.toTree)
    {s s' : Subgraph} {k k' : Nat} (hs : m.graph? Model.root = some s)
    (hs' : m'.graph? Model.root = some s')
    (laid : m.Laid s.nodes.toList .start ⟨m.nodes.size, m.graphs.size, k⟩)
    (laid' : m'.Laid s'.nodes.toList .start ⟨m'.nodes.size, m'.graphs.size, k'⟩) :
    m'.SameUpToEdges m := by
  have body := h.wellFormed.describes_toTree
  have body' := h'.wellFormed.describes_toTree
  rw [tree] at body'
  obtain ⟨_, nodes, edges, hroot, hnodes, hedges, hparts⟩ := body.parts
  obtain rfl := Option.some.inj (hs.symm.trans hroot)
  obtain ⟨_, nodes', edges', hroot', hnodes', hedges', hparts'⟩ := body'.parts
  obtain rfl := Option.some.inj (hs'.symm.trans hroot')
  obtain ⟨rfl, rfl, hentries⟩ := parts_eq hnodes.isMember hnodes'.isMember hedges.isEdge
    hedges'.isEdge (hparts.symm.trans hparts')
  obtain ⟨hmembers, hmarks, between⟩ := laid.alike h.wellFormed h'.wellFormed laid'
    (fun n hn => h.wellFormed.graph_of_listed hs hn)
    (fun n hn => h'.wellFormed.graph_of_listed hs' hn) hnodes hnodes'
  injection hmarks with hnode_size hgraph_size
  have hnode : ∀ n, m.node? n = m'.node? n := by
    rintro ⟨i⟩
    rcases Nat.lt_or_ge i m.nodes.size with hlt | hge
    · exact between.nodes i (Nat.zero_le i) hlt
    · show m.nodes[i]? = m'.nodes[i]?
      rw [Array.getElem?_eq_none hge, Array.getElem?_eq_none (hnode_size ▸ hge)]
  have alike : ∀ g : GraphRef, g.index < m.graphs.size → Alike m m' g := by
    rintro ⟨_ | j⟩ hlt
    · obtain ⟨_, hr, hholder⟩ := h.wellFormed.root
      obtain ⟨_, hr', hholder'⟩ := h'.wellFormed.root
      obtain rfl := Option.some.inj (hs.symm.trans hr)
      obtain rfl := Option.some.inj (hs'.symm.trans hr')
      have hname := congrArg Tree.name tree
      have hname : s'.name = s.name := by
        rw [← nameOf_eq hs, ← nameOf_eq hs']
        exact map_ofText_inj hname
      exact ⟨s, s', edges, hs, hs', hname.symm, hholder.trans hholder'.symm,
        Array.toList_inj.1 hmembers, congrArg Attributes.mk hentries, hedges, hedges'⟩
    · exact between.graphs (j + 1) (Nat.succ_pos j) hlt
  refine ⟨congrArg Tree.kind tree, congrArg Tree.strict tree, ?_, hgraph_size.symm, ?_⟩
  · exact (Array.ext_getElem? fun i => hnode ⟨i⟩).symm
  · intro g t ht
    obtain ⟨_, t', stmts, hg, hg', hname, hholder, hn, hattrs, hjoined, hjoined'⟩ :=
      alike g (graph?_lt ht)
    obtain rfl := Option.some.inj (ht.symm.trans hg)
    exact ⟨t', hg', hname.symm, hholder.symm, hn.symm, hattrs.symm,
      (hjoined.data_eq hnode h h' hjoined').symm⟩

end Model

/-- A tree whose subgraphs have different names builds a model whose own tree
builds the same model up to the numbers of edges. -/
theorem Tree.build_toTree {t : Tree} {m : Model} {log : List LogEvent}
    (built : t.build = (.ok m, log)) (distinct : Stmt.DistinctSubgraphs t.body) :
    m.Describes Model.root m.toTree.body ∧ m.toTree.kind = t.kind ∧ m.toTree.strict = t.strict ∧
      m.toTree.name.map Id.value = t.name.map Id.value ∧
        ∃ m' log', m.toTree.build = (.ok m', log') ∧ m'.SameUpToEdges m := by
  obtain ⟨b, hrun, rfl, _⟩ := Tree.build_eq_ok.1 built
  have hbuilt := Tree.built hrun
  obtain ⟨kind, strict, s, anonymous, hs, name, laid⟩ := Tree.laid hrun distinct
  have plain := Tree.plain_toTree hrun distinct
  obtain ⟨b', hrun', htree⟩ := plain.runs
  obtain ⟨_, _, s', anonymous', hs', _, laid'⟩ := Tree.laid hrun' plain.distinct
  refine ⟨hbuilt.wellFormed.describes_toTree, kind, strict, ?_, b'.model, b'.log,
    Tree.build_eq_ok.2 ⟨b', hrun', rfl, rfl⟩, ?_⟩
  · show ((b.model.nameOf Model.root).map Id.ofText).map Id.value = _
    rw [Builder.map_ofText_value, Model.nameOf_eq hs, name]
  · exact hbuilt.sameUpToEdges (Tree.built hrun') htree hs hs' laid laid'

theorem Tree.exists_build {t : Tree} (h : t.build.1.isOk = true) :
    ∃ m log, t.build = (.ok m, log) := by
  cases hb : t.build with
  | mk r log =>
      rw [hb] at h
      cases r with
      | ok m => exact ⟨m, log, rfl⟩
      | error e => cases h

theorem Tree.build_toTree_nested :
    let t : Tree := ⟨true, .digraph, some (.ofText "g"), [
      .defaults .node [("shape", .ofText "box")],
      .edge (.node ⟨.ofText "a", some "n"⟩) [(.arrow, .subgraph (some (.ofText "cluster s"))
        [.node ⟨.ofText "b", none⟩ [], .defaults .graph [("label", .html "<i>")],
          .subgraph none [.node ⟨.ofText "c", none⟩ []]])] [("weight", .ofText "2")]]⟩
    Stmt.DistinctSubgraphs t.body ∧ ∃ m log, t.build = (.ok m, log) ∧
      m.Describes Model.root m.toTree.body ∧ m.toTree.kind = t.kind ∧
        m.toTree.strict = t.strict ∧ m.toTree.name.map Id.value = t.name.map Id.value ∧
          ∃ m' log', m.toTree.build = (.ok m', log') ∧ m'.SameUpToEdges m := by
  intro t
  have distinct : Stmt.DistinctSubgraphs t.body := by decide +kernel
  obtain ⟨m, log, built⟩ := Tree.exists_build (t := t) (by decide +kernel)
  exact ⟨distinct, m, log, built, Tree.build_toTree built distinct⟩

end DotLang
