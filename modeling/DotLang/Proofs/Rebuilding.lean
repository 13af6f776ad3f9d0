import DotLang.Import
import DotLang.Proofs.Exporting
import DotLang.Proofs.Following
import DotLang.Proofs.Layout
/-!
# Plain trees

A tree is plain if it has the form that the exporter writes and can be built by
just going along it: in every body there are first the nodes and subgraphs, all
with new names, then edges between nodes that were declared before, then the
attributes of the graph.  All values are valid, and no list has a name twice.

`Tree.Plain.runs` says that a plain tree is built, and that it is the tree of the
model that it builds.  While it is built there are no defaults but those that
the present body has set at its end, so none is added to anything.
-/

namespace DotLang

/-! ## Plain trees -/

/-- The names of nodes and of subgraphs that are declared. -/
structure Seen where
  nodes : List String
  subgraphs : List String
deriving DecidableEq, Repr

namespace Seen

/-- Before the first statement. -/
def nothing : Seen := ⟨[], []⟩

/-- The names with one more node. -/
def withNode (k : Seen) (name : String) : Seen := { k with nodes := name :: k.nodes }

/-- The names with one more subgraph, which may have no name. -/
def withSubgraph (k : Seen) (name : Option String) : Seen :=
  { k with subgraphs := name.toList ++ k.subgraphs }

end Seen

/-- The attributes are valid, and no name occurs twice. -/
structure PlainAttrs (element : Element) (attrs : AttrList) : Prop where
  valid : Schema.validateList element attrs = .ok ()
  distinct : (attrs.map Prod.fst).Nodup

/-- Edges between nodes with names among these. -/
inductive PlainEdges (op : EdgeOp) (names : List String) : List Stmt → Prop
  | nil : PlainEdges op names []
  | cons {source target : String} {attrs : AttrList} {stmts : List Stmt}
      (has_source : source ∈ names) (has_target : target ∈ names)
      (plain : PlainAttrs .edge attrs) (rest : PlainEdges op names stmts) :
      PlainEdges op names (.edge (.node ⟨.ofText source, none⟩)
        [(op, .node ⟨.ofText target, none⟩)] attrs :: stmts)

mutual

/-- The body declares nodes and subgraphs, then edges, then the attributes of its
graph. -/
inductive PlainBody (op : EdgeOp) : Seen → List Stmt → Seen → Prop
  | mk {k k' : Seen} {members edges : List Stmt} {attrs : AttrList}
      (declared : PlainMembers op k members k') (joined : PlainEdges op k'.nodes edges)
      (plain : PlainAttrs .graph attrs) :
      PlainBody op k (members ++ edges ++ attrs.map fun attr => .defaults .graph [attr]) k'

/-- The statements declare nodes and subgraphs with new names. -/
inductive PlainMembers (op : EdgeOp) : Seen → List Stmt → Seen → Prop
  | nil (k : Seen) : PlainMembers op k [] k
  | node {k k' : Seen} {name : String} {attrs : AttrList} {stmts : List Stmt}
      (fresh : name ∉ k.nodes) (plain : PlainAttrs .node attrs)
      (rest : PlainMembers op (k.withNode name) stmts k') :
      PlainMembers op k (.node ⟨.ofText name, none⟩ attrs :: stmts) k'
  | subgraph {k k1 k' : Seen} {name : Option String} {body stmts : List Stmt}
      (fresh : ∀ n ∈ name, n ∉ k.subgraphs)
      (inner : PlainBody op (k.withSubgraph name) body k1)
      (rest : PlainMembers op k1 stmts k') :
      PlainMembers op k (.subgraph (name.map .ofText) body :: stmts) k'

end

/-- The tree is plain. -/
structure Tree.Plain (t : Tree) : Prop where
  name : ∃ name : Option String, t.name = name.map .ofText
  body : ∃ k, PlainBody t.kind.edgeOp .nothing t.body k

/-! ## Models that go on -/

namespace Model

/-- The model goes on from another by changes to one graph only. -/
structure Continues (g : GraphRef) (m m' : Model) : Prop where
  kind : m'.kind = m.kind
  strict : m'.strict = m.strict
  nodes : ∀ {n v}, m.node? n = some v → m'.node? n = some v
  graphs : ∀ {h s}, h ≠ g → m.graph? h = some s → m'.graph? h = some s
  edges : ∀ {e v}, m.edge? e = some v → m'.edge? e = some v

variable {m m' m1 : Model} {g : GraphRef}

theorem Continues.refl (g : GraphRef) (m : Model) : Continues g m m :=
  ⟨rfl, rfl, id, fun _ hs => hs, id⟩

theorem Continues.trans (h : Continues g m m1) (h' : Continues g m1 m') : Continues g m m' :=
  ⟨h'.kind.trans h.kind, h'.strict.trans h.strict, fun hv => h'.nodes (h.nodes hv),
    fun hne hs => h'.graphs hne (h.graphs hne hs), fun hv => h'.edges (h.edges hv)⟩

theorem Continues.nameOf (h : Continues g m m') {k : GraphRef} (hne : k ≠ g)
    (hk : k.index < m.graphs.size) : m'.nameOf k = m.nameOf k := by
  obtain ⟨s, hs⟩ := graph?_of_lt hk
  unfold Model.nameOf
  rw [hs, h.graphs hne hs]

theorem DescribesEdges.of_continues (ext : Continues g m m') {es : List EdgeRef}
    {stmts : List Stmt} (h : m.DescribesEdges es stmts) : m'.DescribesEdges es stmts := by
  induction h with
  | nil => exact .nil
  | cons edge has_source has_target _ ih =>
      rw [← ext.kind]
      exact .cons (ext.edges edge) (ext.nodes has_source) (ext.nodes has_target) ih

mutual

/-- A graph further back in the arena does not lie around the one that goes on. -/
theorem Describes.of_continues (wf : m.WellFormed) (ext : Continues g m m') {k : GraphRef}
    {body : List Stmt} : m.Describes k body → g.index < k.index → m'.Describes k body
  | .mk graph members joined, hlt => by
      have hne : k ≠ g := by
        rintro rfl
        exact Nat.lt_irrefl _ hlt
      refine .mk (ext.graphs hne graph) (members.of_continues wf ext fun n hn v hv => ?_)
        (joined.of_continues ext)
      rw [wf.graph_of_listed graph hn v hv]
      exact Nat.le_of_lt hlt

theorem DescribesNodes.of_continues (wf : m.WellFormed) (ext : Continues g m m')
    {ns : List NodeRef} {stmts : List Stmt} : m.DescribesNodes ns stmts →
      (∀ n ∈ ns, ∀ v, m.node? n = some v → g.index ≤ v.graph.index) →
        m'.DescribesNodes ns stmts
  | .nil, _ => .nil
  | .node node ordinary rest, below =>
      .node (ext.nodes node) ordinary
        (rest.of_continues wf ext fun n hn => below n (List.mem_cons_of_mem _ hn))
  | @DescribesNodes.subgraph _ n ns v k body stmts node nested described rest, below => by
      obtain ⟨hlt, s, hs, _⟩ := wf.nested node nested
      have hgk := Nat.lt_of_le_of_lt (below _ List.mem_cons_self _ node) hlt
      have hne : k ≠ g := by
        rintro rfl
        exact Nat.lt_irrefl _ hgk
      rw [← ext.nameOf hne (graph?_lt hs)]
      exact .subgraph (ext.nodes node) nested (described.of_continues wf ext hgk)
        (rest.of_continues wf ext fun n hn => below n (List.mem_cons_of_mem _ hn))

end

theorem DescribesNodes.append {ns ms : List NodeRef} {stmts more : List Stmt}
    (h : m.DescribesNodes ns stmts) (h' : m.DescribesNodes ms more) :
    m.DescribesNodes (ns ++ ms) (stmts ++ more) := by
  induction ns generalizing stmts with
  | nil =>
      cases h
      exact h'
  | cons n ns ih =>
      cases h with
      | node node ordinary rest => exact .node node ordinary (ih rest)
      | subgraph node nested described rest => exact .subgraph node nested described (ih rest)

end Model

/-! ## Steps along a plain tree -/

/-- Where there are no defaults, an element has just its own attributes. -/
theorem Defaults.resolve_of_empty {d : Defaults} (h : d.current = .empty) {element : Element}
    {attrs : AttrList} (distinct : (attrs.map Prod.fst).Nodup) :
    d.resolve element attrs = ⟨attrs⟩ := by
  have hempty : d.current.get element = .empty := by
    rw [h]
    cases element <;> rfl
  have he : (Attributes.empty.insertList attrs).entries = [] ++ attrs :=
    Attributes.entries_insertList distinct
  unfold Defaults.resolve
  rw [hempty]
  exact congrArg Attributes.mk he

namespace Builder

variable {b b' b1 b2 : Builder} {k k' k1 : Seen} {op : EdgeOp} {stmts : List Stmt}
  {n : NodeRef} {g : GraphRef} {attrs : AttrList} {s : Subgraph}

/-- The tables have just the names that are declared. -/
structure Knows (k : Seen) (b : Builder) : Prop where
  nodes : ∀ name, name ∈ k.nodes ↔ ∃ n, (name, n) ∈ b.nodes.flat
  subgraphs : ∀ name, name ∈ k.subgraphs ↔ ∃ g, (name, g) ∈ b.subgraphs.flat

/-- The statement declares one more node of the present graph, which the
statement describes. -/
structure Declares (first : Stmt) (k1 : Seen) (s : Subgraph) (b b1 : Builder) : Prop where
  runs : Runs (stmt first) b () b1
  knows : b1.Knows k1
  defaults : b1.defaults = b.defaults
  continues : Model.Continues b.current b.model b1.model
  described : ∃ n, b1.model.graph? b.current = some { s with nodes := s.nodes.push n } ∧
    b1.model.DescribesNodes [n] [first]

/-- The statements declare further nodes of the present graph, which they
describe. -/
structure DeclaresAll (stmts : List Stmt) (k' : Seen) (s : Subgraph) (b b' : Builder) :
    Prop where
  runs : Runs (body stmts) b () b'
  knows : b'.Knows k'
  defaults : b'.defaults = b.defaults
  continues : Model.Continues b.current b.model b'.model
  described : ∃ ns : List NodeRef,
    b'.model.graph? b.current = some { s with nodes := s.nodes ++ ns.toArray } ∧
      b'.model.DescribesNodes ns stmts

/-- The body builds all of the present graph, which the body describes. -/
structure Builds (stmts : List Stmt) (k' : Seen) (s : Subgraph) (b b' : Builder) : Prop where
  runs : Runs (body stmts) b () b'
  knows : b'.Knows k'
  continues : Model.Continues b.current b.model b'.model
  name : b'.model.nameOf b.current = s.name
  described : b'.model.Describes b.current stmts

theorem DeclaresAll.nil (knows : b.Knows k) (hs : b.model.graph? b.current = some s) :
    DeclaresAll [] k s b b :=
  ⟨runs_body_nil.2 rfl, knows, rfl, .refl _ _, [], by simpa using hs, .nil⟩

theorem Declares.cons {first : Stmt} (h : Declares first k1 s b b1)
    (hc : b.Coherent)
    (rest : ∀ s1, b1.model.graph? b1.current = some s1 → ∃ b', DeclaresAll stmts k' s1 b1 b') :
    ∃ b', DeclaresAll (first :: stmts) k' s b b' := by
  obtain ⟨runs, _, defaults, continues, n, hgraph, hdescribed⟩ := h
  have hk := stmt_keeps first runs hc
  have hcurrent := hk.balanced.current
  obtain ⟨b', hrest⟩ := rest _ (hcurrent ▸ hgraph)
  obtain ⟨ns, hgraph', hdescribed'⟩ := hrest.described
  have hcontinues := hrest.continues
  rw [hcurrent] at hgraph' hcontinues
  refine ⟨b', runs_body_cons.2 ⟨b1, runs, hrest.runs⟩, hrest.knows, hrest.defaults.trans defaults,
    continues.trans hcontinues, n :: ns, by simpa using hgraph', ?_⟩
  have hfirst : b'.model.DescribesNodes [n] [first] := by
    refine hdescribed.of_continues hk.coherent.model hcontinues fun k hk' v hv => ?_
    have hg := hk.coherent.model.graph_of_listed hgraph (by simp [List.mem_singleton.1 hk']) v hv
    exact Nat.le_of_eq (by rw [hg])
  exact hfirst.append hdescribed'

/-- A node with a new name. -/
theorem declares_node {name : String} (knows : b.Knows k)
    (hd : b.defaults.current = .empty) (hs : b.model.graph? b.current = some s)
    (fresh : name ∉ k.nodes) (plain : PlainAttrs .node attrs) :
    ∃ b1, Declares (.node ⟨.ofText name, none⟩ attrs) (k.withNode name) s b b1 := by
  have hnew : b.nodes.find? name = none :=
    Names.find?_eq_none.2 fun n hn => fresh ((knows.nodes name).2 ⟨n, hn⟩)
  obtain ⟨o, he, _, _⟩ := mentioned_all_eq [⟨b.model.nodes.size⟩] (b.created name attrs)
  have hmodel : (b.created name attrs).model =
      b.model.pushNode b.current name ⟨attrs⟩ none := by
    show b.model.pushNode b.current name (b.defaults.resolve .node attrs) none = _
    rw [Defaults.resolve_of_empty hd plain.distinct]
  have hgraph : (b.model.pushNode b.current name ⟨attrs⟩ none).graph? b.current =
      some { s with nodes := s.nodes.push ⟨b.model.nodes.size⟩ } := by
    rw [Model.graph?_pushNode, if_pos rfl, hs]
    rfl
  have hnode : (b.model.pushNode b.current name ⟨attrs⟩ none).node? ⟨b.model.nodes.size⟩ =
      some ⟨name, b.current, ⟨attrs⟩, none⟩ := by
    rw [Model.node?_pushNode, if_pos rfl]
  refine ⟨{ b.created name attrs with opened := o }, ?_, ⟨fun name' => ?_, knows.subgraphs⟩, rfl,
    ?_, ⟨b.model.nodes.size⟩, ?_, ?_⟩
  · refine runs_stmt_node.2 ⟨plain.valid, ⟨b.model.nodes.size⟩, runs_node.2 (Or.inr ?_)⟩
    rw [Id.ofText_value]
    exact ⟨hnew, rfl, he.symm⟩
  · show name' ∈ name :: k.nodes ↔ ∃ n, (name', n) ∈ (b.nodes.insert name _).flat
    rw [Names.flat_insert, List.mem_cons, knows.nodes]
    constructor
    · rintro (rfl | ⟨n, hn⟩)
      · exact ⟨_, List.mem_cons_self⟩
      · exact ⟨n, List.mem_cons_of_mem _ hn⟩
    · rintro ⟨n, hn⟩
      rcases List.mem_cons.1 hn with hn | hn
      · exact Or.inl (congrArg Prod.fst hn)
      · exact Or.inr ⟨n, hn⟩
  · show Model.Continues b.current b.model (b.created name attrs).model
    rw [hmodel]
    refine ⟨rfl, rfl, Model.node?_pushNode_of, fun hne hk => ?_, id⟩
    rw [Model.graph?_pushNode, if_neg (Ne.symm hne), hk]
  · show (b.created name attrs).model.graph? b.current = _
    rw [hmodel, hgraph]
  · show (b.created name attrs).model.DescribesNodes _ _
    rw [hmodel]
    exact .node hnode rfl .nil

theorem map_ofText_value (name : Option String) :
    (name.map Id.ofText).map Id.value = name := by
  cases name with
  | none => rfl
  | some n => exact congrArg some (Id.ofText_value n)

/-- In the body of a new subgraph its own name is known too. -/
theorem Knows.inSubgraph (knows : b.Knows k) (name : Option String) :
    (((b.nested name).reported (.created (b.holderName name))).entered
      ⟨b.model.graphs.size⟩).Knows (k.withSubgraph name) := by
  refine ⟨knows.nodes, fun n => ?_⟩
  show _ ↔ ∃ g, (n, g) ∈ (b.nested name).subgraphs.flat
  rw [Seen.withSubgraph, List.mem_append, Option.mem_toList, knows.subgraphs]
  constructor
  · rintro (hname | ⟨g, hg⟩)
    · exact ⟨_, mem_subgraphs_nested.2 (Or.inl ⟨hname, rfl⟩)⟩
    · exact ⟨g, mem_subgraphs_nested.2 (Or.inr hg)⟩
  · rintro ⟨g, hg⟩
    exact (mem_subgraphs_nested.1 hg).imp And.left fun hg => ⟨g, hg⟩

/-- A subgraph with a new name or none, whose body is built from an empty
graph. -/
theorem declares_subgraph {name : Option String} {stmts : List Stmt} (hc : b.Coherent)
    (knows : b.Knows k) (hd : b.defaults.current = .empty)
    (hs : b.model.graph? b.current = some s) (fresh : ∀ n ∈ name, n ∉ k.subgraphs)
    (inner : ∀ e : Builder, e.Coherent → e.Knows (k.withSubgraph name) →
      e.defaults.current = .empty → e.model.kind = b.model.kind → ∀ holder,
        e.model.graph? e.current = some (.fresh name .empty holder) →
          ∃ b2, Builds stmts k1 (.fresh name .empty holder) e b2) :
    ∃ b1, Declares (.subgraph (name.map .ofText) stmts) k1 s b b1 := by
  have hnew : name.bind b.subgraphs.find? = none := by
    cases name with
    | none => rfl
    | some n =>
        exact Names.find?_eq_none.2 fun g hg => fresh n rfl ((knows.subgraphs n).2 ⟨g, hg⟩)
  have ho : Runs (openGraph name) b _ _ := runs_openGraph.2 (Or.inr ⟨hnew, rfl, rfl⟩)
  obtain ⟨hk1, hlt⟩ := openGraph_keeps ho hc
  have hentered := hk1.coherent.entered hlt
  have hempty : b.defaults.current.graph = .empty := congrArg Frame.graph hd
  have hgraph := graph?_nested name b
  rw [hempty] at hgraph
  obtain ⟨b2, h2⟩ := inner _ hentered (knows.inSubgraph name) hd rfl _ hgraph
  have hk2 := body_keeps stmts h2.runs hentered
  have hnodes := hk2.balanced.two_le_nodes hk1.coherent.node_depth
  have hsubgraphs := hk2.balanced.two_le_subgraphs hk1.coherent.subgraph_depth
  obtain ⟨opened, closed, he⟩ := kept_mentioned_eq name ⟨b.model.graphs.size⟩
    (b2.opened.headD []) (b2.left b.current b.defaults)
  have hcontinues := h2.continues
  refine ⟨{ b2.left b.current b.defaults with opened := opened, closed := closed }, ?_, ?_, rfl,
    ?_, ⟨b.model.nodes.size⟩, ?_, ?_⟩
  · refine runs_stmt_subgraph.2 ⟨b2.opened.headD [], ?_⟩
    rw [map_ofText_value]
    exact runs_subgraph.2 ⟨_, _, b2, b.defaults, ho, h2.runs, hk2.balanced.leave?, rfl, he.symm⟩
  · refine ⟨fun n => (h2.knows.nodes n).trans ?_, fun n => (h2.knows.subgraphs n).trans ?_⟩
    · exact exists_congr fun a => (Names.mem_flat_hoist hnodes).symm
    · exact exists_congr fun a => (Names.mem_flat_hoist hsubgraphs).symm
  · refine ⟨hcontinues.kind, hcontinues.strict, ?_, ?_, hcontinues.edges⟩
    · intro n v hv
      exact hcontinues.nodes (Model.node?_pushNode_of hv)
    · intro g t hne ht
      have hlt := Model.graph?_lt ht
      refine hcontinues.graphs ?_ ((graph?_nested_of_lt hlt hne).trans ht)
      rintro rfl
      exact Nat.lt_irrefl _ hlt
  · exact hcontinues.graphs hc.current_ne_new (graph?_nested_current hs)
  · have hname : b2.model.nameOf ⟨b.model.graphs.size⟩ = name := h2.name
    have hstmt := Model.DescribesNodes.subgraph (hcontinues.nodes (node?_nested name b)) rfl
      h2.described .nil
    rw [hname] at hstmt
    exact hstmt

/-! ## Edges and attributes -/

theorem merged_nil (n : NodeRef) (b : Builder) : b.merged n [] = b := by
  have hnodes : b.model.nodes.modify n.index
      (fun s => { s with attrs := s.attrs.insertList [] }) = b.model.nodes := by
    refine Array.ext_getElem? fun i => ?_
    rw [Array.getElem?_modify]
    split
    · cases b.model.nodes[i]? <;> rfl
    · rfl
  unfold merged Model.modifyNodeAttrs Model.modifyNode
  rw [hnodes]

/-- A known node is only mentioned. -/
theorem runs_node_known {name : String} (h : b.nodes.find? name = some n) :
    ∃ o, Runs (node name []) b n { b with opened := o } := by
  obtain ⟨o, he, _, _⟩ := mentioned_all_eq [n] b
  refine ⟨o, runs_node.2 (Or.inl ⟨h, ?_⟩)⟩
  rw [merged_nil]
  exact he.symm

/-- The statements join nodes in the present graph, and describe the new
edges. -/
structure Joins (stmts : List Stmt) (s : Subgraph) (b b' : Builder) : Prop where
  runs : Runs (body stmts) b () b'
  current : b'.current = b.current
  nodes : b'.nodes = b.nodes
  subgraphs : b'.subgraphs = b.subgraphs
  continues : Model.Continues b.current b.model b'.model
  described : ∃ es : List EdgeRef,
    b'.model.graph? b.current = some { s with edges := s.edges ++ es.toArray } ∧
      b'.model.DescribesEdges es stmts

/-- One edge between two known nodes. -/
theorem runs_stmt_joined (op : EdgeOp) {source target : String} {tail head : NodeRef}
    (hsource : b.nodes.find? source = some tail) (htarget : b.nodes.find? target = some head)
    (hd : b.defaults.current = .empty) (plain : PlainAttrs .edge attrs) :
    ∃ o, Runs (stmt (.edge (.node ⟨.ofText source, none⟩) [(op, .node ⟨.ofText target, none⟩)]
      attrs)) b () { b.joined ⟨attrs⟩ tail head with opened := o } := by
  obtain ⟨o1, h1⟩ := runs_node_known hsource
  obtain ⟨o2, h2⟩ := runs_node_known (b := { b with opened := o1 }) htarget
  refine ⟨o2, runs_stmt_edge.2 ⟨plain.valid, [⟨tail, none⟩], [[⟨head, none⟩]],
    { b with opened := o1 }, { b with opened := o2 }, ?_, ?_, ?_⟩⟩
  · refine runs_operand_node.2 ⟨tail, ?_, rfl⟩
    rw [Id.ofText_value]
    exact h1
  · refine runs_heads_cons.2 ⟨_, [], _, runs_operand_node.2 ⟨head, ?_, rfl⟩,
      runs_heads_nil.2 ⟨rfl, rfl⟩, rfl⟩
    rw [Id.ofText_value]
    exact h2
  · refine runs_connectChain_pair (runs_connect.2 ⟨_, _, .none, .none, ?_⟩)
    show _ = Builder.joined (b.defaults.resolve .edge attrs) tail head { b with opened := o2 }
    rw [Defaults.resolve_of_empty hd plain.distinct]
    rfl

theorem joins_edges {names : List String} (h : PlainEdges op names stmts) (hc : b.Coherent)
    (hop : b.model.kind.edgeOp = op) (knows : ∀ name ∈ names, ∃ n, (name, n) ∈ b.nodes.flat)
    (hd : b.defaults.current = .empty) (hs : b.model.graph? b.current = some s) :
    ∃ b', Joins stmts s b b' := by
  induction h generalizing b s with
  | nil =>
      exact ⟨b, runs_body_nil.2 rfl, rfl, rfl, rfl, .refl _ _, [], by simpa using hs, .nil⟩
  | @cons source target attrs stmts has_source has_target plain _ ih =>
      obtain ⟨tail, htail⟩ := knows source has_source
      obtain ⟨head, hhead⟩ := knows target has_target
      have htail := hc.node_names.find?_eq_some.2 htail
      have hhead := hc.node_names.find?_eq_some.2 hhead
      obtain ⟨o, hrun⟩ := runs_stmt_joined op htail hhead hd plain
      have hk := stmt_keeps _ hrun hc
      have hgraph : (b.model.addEdge b.current tail head ⟨attrs⟩).2.graph? b.current =
          some { s with edges := s.edges.push ⟨b.model.edges.size⟩ } := by
        rw [Model.graph?_addEdge, if_pos rfl, hs]
        rfl
      have hfirst : Model.Continues b.current b.model
          (b.model.addEdge b.current tail head ⟨attrs⟩).2 := by
        refine ⟨rfl, rfl, id, fun hne ht => ?_, fun {e v} hv => ?_⟩
        · rw [Model.graph?_addEdge, if_neg (Ne.symm hne), ht]
        · rw [Model.edge?_addEdge, if_neg (Nat.ne_of_lt (Model.edge?_lt hv)), hv]
      have hedge : (b.model.addEdge b.current tail head ⟨attrs⟩).2.edge? ⟨b.model.edges.size⟩ =
          some ⟨tail, head, b.current, ⟨attrs⟩⟩ := by
        rw [Model.edge?_addEdge, if_pos rfl]
      obtain ⟨b', hrest⟩ := ih hk.coherent hop knows hd hgraph
      obtain ⟨es, hgraph', hdescribed⟩ := hrest.described
      have hgraph' : b'.model.graph? b.current = _ := hgraph'
      obtain ⟨v, hv, _, hvname⟩ := hc.nodes.1 (hc.node_names.find?_eq_some.1 htail)
      obtain ⟨w, hw, _, hwname⟩ := hc.nodes.1 (hc.node_names.find?_eq_some.1 hhead)
      have hcontinues := hfirst.trans hrest.continues
      refine ⟨b', runs_body_cons.2 ⟨_, hrun, hrest.runs⟩, hrest.current, hrest.nodes,
        hrest.subgraphs, hcontinues, ⟨b.model.edges.size⟩ :: es, by simpa using hgraph', ?_⟩
      have hstmt := Model.DescribesEdges.cons (hrest.continues.edges hedge)
        (hcontinues.nodes hv) (hcontinues.nodes hw) hdescribed
      rw [hcontinues.kind, hop] at hstmt
      subst hvname
      subst hwname
      exact hstmt

/-- The statements that set the attributes of the present graph. -/
theorem runs_attrs (hvalid : ∀ e ∈ attrs, Schema.validate .graph e.1 e.2 = .ok ())
    (hs : b.model.graph? b.current = some s) :
    ∃ b', Runs (body (attrs.map fun attr => .defaults .graph [attr])) b () b' ∧
      b'.current = b.current ∧ b'.nodes = b.nodes ∧ b'.subgraphs = b.subgraphs ∧
      Model.Continues b.current b.model b'.model ∧
      b'.model.graph? b.current = some { s with attrs := s.attrs.insertList attrs } := by
  induction attrs generalizing b s with
  | nil => exact ⟨b, runs_body_nil.2 rfl, rfl, rfl, rfl, .refl _ _, hs⟩
  | cons e attrs ih =>
      have hgraph : (b.defaulted .graph [e]).model.graph? b.current =
          some { s with attrs := s.attrs.insertList [e] } := by
        rw [model_defaulted_graph, Model.modifyGraphAttrs, Model.graph?_modifyGraph, if_pos rfl, hs]
        rfl
      have hfirst : Model.Continues b.current b.model (b.defaulted .graph [e]).model := by
        refine ⟨rfl, rfl, id, fun hne ht => ?_, id⟩
        rw [model_defaulted_graph, Model.modifyGraphAttrs, Model.graph?_modifyGraph,
          if_neg (Ne.symm hne), ht]
      have hrun : Runs (stmt (.defaults .graph [e])) b () (b.defaulted .graph [e]) := by
        refine runs_stmt_defaults.2 ⟨Schema.validateList_eq_ok.2 fun e' he' => ?_, rfl⟩
        rw [List.mem_singleton.1 he']
        exact hvalid e List.mem_cons_self
      obtain ⟨b', hrest, hcurrent, hnodes, hsubgraphs, hcontinues, hgraph'⟩ :=
        ih (fun e' he' => hvalid e' (List.mem_cons_of_mem _ he')) hgraph
      exact ⟨b', runs_body_cons.2 ⟨_, hrun, hrest⟩, hcurrent, hnodes, hsubgraphs,
        hfirst.trans hcontinues, hgraph'⟩

/-- A body that declares, joins and sets its attributes builds an empty graph. -/
theorem DeclaresAll.builds {name : Option String} {holder : Option NodeRef}
    {members edges : List Stmt} (h : DeclaresAll members k' (.fresh name .empty holder) b b1)
    (hc : b.Coherent) (hop : b.model.kind.edgeOp = op) (hd : b.defaults.current = .empty)
    (joined : PlainEdges op k'.nodes edges) (plain : PlainAttrs .graph attrs) :
    ∃ b', Builds (members ++ edges ++ attrs.map fun attr => .defaults .graph [attr]) k'
      (.fresh name .empty holder) b b' := by
  have hk := body_keeps members h.runs hc
  have hcurrent := hk.balanced.current
  obtain ⟨ns, hgraph1, hnodes⟩ := h.described
  rw [← hcurrent] at hgraph1
  obtain ⟨b2, h2⟩ := joins_edges joined hk.coherent (by rw [h.continues.kind, hop])
    (fun name hn => (h.knows.nodes name).1 hn) (h.defaults ▸ hd) hgraph1
  obtain ⟨es, hgraph2, hedges⟩ := h2.described
  rw [← h2.current] at hgraph2
  obtain ⟨b', hrun, hcurrent', hnodes', hsubgraphs', hcontinues', hgraph'⟩ :=
    runs_attrs (Schema.validateList_eq_ok.1 plain.valid) hgraph2
  have hc2 := h2.continues
  rw [hcurrent] at hc2
  rw [h2.current, hcurrent] at hcontinues' hgraph'
  have hempty : Attributes.empty.insertList attrs = ⟨attrs⟩ :=
    congrArg Attributes.mk (Attributes.entries_insertList (a := .empty) plain.distinct)
  refine ⟨b', ?_, ?_, h.continues.trans (hc2.trans hcontinues'), ?_, ?_⟩
  · exact runs_body_append.2 ⟨b2, runs_body_append.2 ⟨b1, h.runs, h2.runs⟩, hrun⟩
  · refine ⟨fun name => ?_, fun name => ?_⟩
    · rw [hnodes', h2.nodes]
      exact h.knows.nodes name
    · rw [hsubgraphs', h2.subgraphs]
      exact h.knows.subgraphs name
  · unfold Model.nameOf
    rw [hgraph']
    rfl
  · have hgraph : b'.model.graph? b.current =
        some ⟨name, ⟨attrs⟩, ns.toArray, es.toArray, holder⟩ := by
      rw [hgraph']
      simp [Subgraph.fresh, hempty]
    have hcontinues := hc2.trans hcontinues'
    refine .mk hgraph (hnodes.of_continues hk.coherent.model hcontinues fun n hn v hv => ?_)
      (hedges.of_continues hcontinues')
    have hg := hk.coherent.model.graph_of_listed hgraph1 (by simpa [Subgraph.fresh] using hn) v hv
    exact Nat.le_of_eq (by rw [hg, hcurrent])

mutual

theorem plainBody_builds {k k' : Seen} {stmts : List Stmt} {op : EdgeOp} :
    PlainBody op k stmts k' → ∀ {b : Builder} {name : Option String} {holder : Option NodeRef},
      b.Coherent → b.Knows k → b.defaults.current = .empty → b.model.kind.edgeOp = op →
        b.model.graph? b.current = some (.fresh name .empty holder) →
          ∃ b', Builds stmts k' (.fresh name .empty holder) b b'
  | .mk declared joined plain, b, name, holder, hc, knows, hd, hop, hs => by
      obtain ⟨b1, h1⟩ := plainMembers_declares declared hc knows hd hop hs
      exact h1.builds hc hop hd joined plain

theorem plainMembers_declares {k k' : Seen} {stmts : List Stmt} {op : EdgeOp} :
    PlainMembers op k stmts k' → ∀ {b : Builder} {s : Subgraph},
      b.Coherent → b.Knows k → b.defaults.current = .empty → b.model.kind.edgeOp = op →
        b.model.graph? b.current = some s → ∃ b', DeclaresAll stmts k' s b b'
  | .nil k, b, s, _, knows, _, _, hs => ⟨b, .nil knows hs⟩
  | .node fresh plain rest, b, s, hc, knows, hd, hop, hs => by
      obtain ⟨b1, h1⟩ := declares_node knows hd hs fresh plain
      refine h1.cons hc fun s1 hs1 => ?_
      exact plainMembers_declares rest (stmt_keeps _ h1.runs hc).coherent h1.knows
        (h1.defaults ▸ hd) (by rw [h1.continues.kind, hop]) hs1
  | .subgraph fresh inner rest, b, s, hc, knows, hd, hop, hs => by
      obtain ⟨b1, h1⟩ := declares_subgraph hc knows hd hs fresh fun e he hk hde hkind holder hse =>
        plainBody_builds inner he hk hde (by rw [hkind, hop]) hse
      refine h1.cons hc fun s1 hs1 => ?_
      exact plainMembers_declares rest (stmt_keeps _ h1.runs hc).coherent h1.knows
        (h1.defaults ▸ hd) (by rw [h1.continues.kind, hop]) hs1

end

end Builder

/-! ## Whole trees -/

theorem Model.Describes.eq_toTree {t : Tree} {m : Model} (wf : m.WellFormed)
    (kind : m.kind = t.kind) (strict : m.strict = t.strict)
    (name : (m.nameOf Model.root).map Id.ofText = t.name)
    (body : m.Describes Model.root t.body) : m.toTree = t := by
  obtain ⟨s, k, n, stmts⟩ := t
  have hbody : m.bodyOf m.graphs.size Model.root = stmts := wf.describes_toTree.unique body
  unfold Model.toTree
  rw [hbody, kind, strict, name]

/-- A plain tree is built, and it is the tree of the model that it builds. -/
theorem Tree.Plain.runs {t : Tree} (h : t.Plain) :
    ∃ b, Runs (Builder.tree t) (.new t.kind (t.name.map Id.value)) () b ∧
      b.model.toTree = t := by
  obtain ⟨⟨name, hname⟩, k, hbody⟩ := h
  have hc := Builder.coherent_started t.kind (t.name.map Id.value) t.strict
  have hknows : ((Builder.new t.kind (t.name.map Id.value)).started t.strict).Knows .nothing := by
    refine ⟨fun _ => ?_, fun _ => ?_⟩
    · simp [Seen.nothing, Builder.started, Builder.new]
    · simp [Seen.nothing, Builder.started, Builder.new]
  obtain ⟨b1, h1⟩ := Builder.plainBody_builds hbody hc hknows rfl rfl rfl
  have hk := Builder.body_keeps t.body h1.runs hc
  refine ⟨b1.finished, Builder.runs_tree.2 ⟨b1, h1.runs, rfl⟩, ?_⟩
  refine Model.Describes.eq_toTree hk.coherent.model h1.continues.kind h1.continues.strict ?_
    h1.described
  have hroot : b1.model.nameOf Model.root = t.name.map Id.value := h1.name
  show (b1.model.nameOf Model.root).map Id.ofText = t.name
  rw [hroot, hname, Builder.map_ofText_value]

/-- Building a tree is one run of the builder. -/
theorem Tree.build_eq_ok {t : Tree} {m : Model} {log : List LogEvent} :
    t.build = (.ok m, log) ↔
      ∃ b, Runs (Builder.tree t) (.new t.kind (t.name.map Id.value)) () b ∧ b.model = m ∧
        b.log = log := by
  unfold Tree.build Runs EStateM.run
  cases Builder.tree t (.new t.kind (t.name.map Id.value)) with
  | ok u b =>
      constructor
      · intro h
        cases h
        exact ⟨b, rfl, rfl, rfl⟩
      · rintro ⟨b', h, rfl, rfl⟩
        cases h
        rfl
  | error e b =>
      constructor
      · intro h
        cases h
      · rintro ⟨b', h, _⟩
        cases h

/-- A run of the builder over the tree leaves the model. -/
def Tree.Builds (t : Tree) (m : Model) : Prop :=
  ∃ b, Runs (Builder.tree t) (.new t.kind (t.name.map Id.value)) () b ∧ b.model = m

/-- The models of an import are those of its trees, one by one. -/
theorem importTrees_builds {ts : List Tree} {ms : List Model}
    (imported : (importTrees ts).result = .ok ms) : List.Forall₂ Tree.Builds ts ms := by
  induction ts generalizing ms with
  | nil =>
      cases imported
      exact .nil
  | cons t ts ih =>
      unfold importTrees at imported
      cases hb : t.build with
      | mk r log =>
          rw [hb] at imported
          cases r with
          | error e => cases imported
          | ok first =>
              cases hrest : (importTrees ts).result with
              | error e =>
                  simp only [hrest] at imported
                  cases imported
              | ok rest =>
                  simp only [hrest] at imported
                  cases imported
                  obtain ⟨b, hrun, hmodel, _⟩ := Tree.build_eq_ok.1 hb
                  exact .cons ⟨b, hrun, hmodel⟩ (ih hrest)

theorem importText_builds {text : String} {ms : List Model}
    (imported : (importText text).result = .ok ms) :
    ∃ trees, Tree.parse text = .ok trees ∧ List.Forall₂ Tree.Builds trees ms := by
  unfold importText at imported
  cases hp : Tree.parse text with
  | error e =>
      rw [hp] at imported
      cases imported
  | ok trees =>
      rw [hp] at imported
      exact ⟨trees, rfl, importTrees_builds imported⟩

/-- Every model of an import is what a run of the builder leaves. -/
theorem importText_runs {text : String} {ms : List Model}
    (imported : (importText text).result = .ok ms) {m : Model} (hm : m ∈ ms) :
    ∃ t b, Runs (Builder.tree t) (.new t.kind (t.name.map Id.value)) () b ∧ b.model = m := by
  obtain ⟨trees, _, hbuilds⟩ := importText_builds imported
  obtain ⟨t, _, hrun⟩ := forall₂_exists_left hbuilds hm
  exact ⟨t, hrun⟩

end DotLang
