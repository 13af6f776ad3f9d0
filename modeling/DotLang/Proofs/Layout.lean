import DotLang.Proofs.Coherence
import DotLang.Proofs.Provenance
/-!
# The layout of a model

As long as no subgraph is opened again, the builder numbers nodes and graphs in
the order of the text: a node that holds a graph comes before all that stands in
the graph, and that comes before what stands behind the subgraph.
`Model.Laid` says that some nodes of a graph are numbered in this way.  It fixes
the names of the nodes that hold graphs as well, and that no edge of a nested
graph leads to a node that is numbered later.

The invariant of a visit is `Builder.Grows`: the present graph gets further nodes
that are laid out from the numbers before the visit to the numbers behind it, and
everything that was there keeps its place.
-/

namespace DotLang

/-! ## Names of subgraphs -/

/-- The name, if it is the name of a graph. -/
def Part.graphName? : Part → Option String
  | .graph name => some name
  | _ => none

/-- The names of graphs among the parts, in order. -/
def graphNames (ps : List Part) : List String := ps.filterMap Part.graphName?

/-- No two subgraphs of the body have the same name. -/
def Stmt.DistinctSubgraphs (body : List Stmt) : Prop := (graphNames (Stmt.partsBody body)).Nodup

instance (body : List Stmt) : Decidable (Stmt.DistinctSubgraphs body) :=
  inferInstanceAs (Decidable (List.Nodup _))

@[simp] theorem graphNames_append (ps qs : List Part) :
    graphNames (ps ++ qs) = graphNames ps ++ graphNames qs := List.filterMap_append

@[simp] theorem graphNames_graphParts (name : Option Id) :
    graphNames (Id.graphParts name) = (name.map Id.value).toList := by
  cases name <;> rfl

/-! ## Layouts -/

/-- The numbers that the next node, the next graph and the last subgraph without
a name have. -/
structure Marks where
  node : Nat
  graph : Nat
  anonymous : Nat
deriving DecidableEq, Repr

/-- The numbers in an empty graph. -/
def Marks.start : Marks := ⟨0, 1, 0⟩

/-- The numbers behind a node. -/
def Marks.behindNode (c : Marks) : Marks := { c with node := c.node + 1 }

/-- The numbers in a new subgraph. -/
def Marks.inSubgraph (c : Marks) (name : Option String) : Marks :=
  ⟨c.node + 1, c.graph + 1, if name.isNone then c.anonymous + 1 else c.anonymous⟩

/-- The name of the node that holds a new subgraph. -/
def Marks.holderName (c : Marks) (name : Option String) : String :=
  name.getD (holderNumbered (c.anonymous + 1))

namespace Model

/-- The nodes are numbered in the order of the text, between two numbers. -/
inductive Laid (m : Model) : List NodeRef → Marks → Marks → Prop
  | nil (c : Marks) : Laid m [] c c
  | node {c c' : Marks} {v : Node} {ns : List NodeRef} (node : m.node? ⟨c.node⟩ = some v)
      (ordinary : v.nested = none) (rest : Laid m ns c.behindNode c') :
      Laid m (⟨c.node⟩ :: ns) c c'
  | subgraph {c c1 c' : Marks} {v : Node} {s : Subgraph} {ns : List NodeRef}
      (node : m.node? ⟨c.node⟩ = some v) (nested : v.nested = some ⟨c.graph⟩)
      (attrs : v.attrs = .empty) (graph : m.graph? ⟨c.graph⟩ = some s)
      (holder : v.name = c.holderName s.name)
      (members : Laid m s.nodes.toList (c.inSubgraph s.name) c1)
      (ends : ∀ e ∈ s.edges.toList, ∃ v, m.edge? e = some v ∧ v.source.index < c1.node ∧
        v.target.index < c1.node)
      (rest : Laid m ns c1 c') : Laid m (⟨c.node⟩ :: ns) c c'

variable {m m' m1 : Model} {g : GraphRef} {ns ms : List NodeRef} {c c1 c' : Marks}

theorem Laid.append (h : m.Laid ns c c1) (h' : m.Laid ms c1 c') : m.Laid (ns ++ ms) c c' := by
  induction h with
  | nil => exact h'
  | node node ordinary _ ih => exact .node node ordinary (ih h')
  | subgraph node nested attrs graph holder members ends _ _ ih =>
      exact .subgraph node nested attrs graph holder members ends (ih h')

theorem Laid.of_ordinary {n : NodeRef} {v : Node} (h : m.Laid (n :: ns) c c')
    (hv : m.node? n = some v) (ho : v.nested = none) :
    n = ⟨c.node⟩ ∧ m.Laid ns c.behindNode c' := by
  cases h with
  | node _ _ rest => exact ⟨rfl, rest⟩
  | subgraph hv' hn =>
      obtain rfl := Option.some.inj (hv.symm.trans hv')
      rw [ho] at hn
      cases hn

theorem Laid.of_nested {n : NodeRef} {v : Node} (h : m.Laid (n :: ns) c c')
    (hv : m.node? n = some v) (hn : v.nested = some g) :
    n = ⟨c.node⟩ ∧ g = ⟨c.graph⟩ ∧ v.attrs = .empty ∧ ∃ s c1, m.graph? g = some s ∧
      v.name = c.holderName s.name ∧ m.Laid s.nodes.toList (c.inSubgraph s.name) c1 ∧
        m.Laid ns c1 c' := by
  cases h with
  | node hv' ho =>
      obtain rfl := Option.some.inj (hv.symm.trans hv')
      rw [ho] at hn
      cases hn
  | subgraph hv' hn' attrs graph holder members _ rest =>
      obtain rfl := Option.some.inj (hv.symm.trans hv')
      obtain rfl := Option.some.inj (hn.symm.trans hn')
      exact ⟨rfl, rfl, attrs, _, _, graph, holder, members, rest⟩

/-- The model goes on from another by changes to one graph and to attributes of
nodes that hold none. -/
structure Extends (g : GraphRef) (m m' : Model) : Prop where
  kind : m'.kind = m.kind
  strict : m'.strict = m.strict
  nodes : ∀ {n v}, m.node? n = some v → ∃ v', m'.node? n = some v' ∧ v'.bare = v.bare
  holders : ∀ {n v}, m.node? n = some v → v.nested ≠ none → m'.node? n = some v
  graphs : ∀ {h s}, h ≠ g → m.graph? h = some s → m'.graph? h = some s
  edges : ∀ {e v}, m.edge? e = some v → m'.edge? e = some v

theorem Extends.refl (g : GraphRef) (m : Model) : Extends g m m :=
  ⟨rfl, rfl, fun hv => ⟨_, hv, rfl⟩, fun hv _ => hv, fun _ hs => hs, id⟩

theorem Extends.trans (h : Extends g m m1) (h' : Extends g m1 m') : Extends g m m' where
  kind := h'.kind.trans h.kind
  strict := h'.strict.trans h.strict
  nodes := by
    intro n v hv
    obtain ⟨v1, hv1, hb1⟩ := h.nodes hv
    obtain ⟨v', hv', hb'⟩ := h'.nodes hv1
    exact ⟨v', hv', hb'.trans hb1⟩
  holders := fun hv hn => h'.holders (h.holders hv hn) hn
  graphs := fun hne hs => h'.graphs hne (h.graphs hne hs)
  edges := fun hv => h'.edges (h.edges hv)

/-- What is laid out in a graph stays so when the graph itself goes on, since
everything below the graph is as before. -/
theorem Laid.of_extends (h : m.Laid ns c c') (wf : m.WellFormed) (ext : Extends g m m')
    (below : ∀ n ∈ ns, ∀ v, m.node? n = some v → g.index ≤ v.graph.index) :
    m'.Laid ns c c' := by
  induction h with
  | nil => exact .nil _
  | node node ordinary _ ih =>
      obtain ⟨v', hv', hb⟩ := ext.nodes node
      obtain ⟨_, _, hnested⟩ := Node.bare_eq.1 hb
      exact .node hv' (hnested.trans ordinary) (ih fun n hn => below n (List.mem_cons_of_mem _ hn))
  | @subgraph c c1 c' v s ns node nested attrs graph holder members ends _ ihm ih =>
      have hle := below _ List.mem_cons_self v node
      obtain ⟨hlt, _⟩ := wf.nested node nested
      have hlt : v.graph.index < c.graph := hlt
      have hne : (⟨c.graph⟩ : GraphRef) ≠ g := by
        rintro rfl
        exact absurd hlt (Nat.not_lt.2 hle)
      have hinner : ∀ n ∈ s.nodes.toList, ∀ v, m.node? n = some v → g.index ≤ v.graph.index := by
        intro n hn v' hv'
        rw [wf.graph_of_listed graph hn v' hv']
        exact Nat.le_of_lt (Nat.lt_of_le_of_lt hle hlt)
      refine .subgraph (ext.holders node (by simp [nested])) nested attrs (ext.graphs hne graph)
        holder (ihm hinner) (fun e he => ?_) (ih fun n hn => below n (List.mem_cons_of_mem _ hn))
      obtain ⟨w, hw, hends⟩ := ends e he
      exact ⟨w, ext.edges hw, hends⟩

end Model

namespace Builder

/-- The numbers that are next. -/
def marks (b : Builder) : Marks := ⟨b.model.nodes.size, b.model.graphs.size, b.anonymous⟩

/-- The present graph gets nodes in order, and subgraphs with names among the
parts. -/
structure Grows (ps : List Part) (b b' : Builder) : Prop where
  extends_current : Model.Extends b.current b.model b'.model
  laid : ∀ {s}, b.model.graph? b.current = some s → ∃ s' ns,
    b'.model.graph? b.current = some s' ∧ s'.name = s.name ∧
      s'.nodes.toList = s.nodes.toList ++ ns ∧ b'.model.Laid ns b.marks b'.marks
  named : ∀ {name g}, (name, g) ∈ b'.subgraphs.flat →
    (name, g) ∈ b.subgraphs.flat ∨ name ∈ graphNames ps

/-- The subgraphs among the parts have different names, which are all new. -/
structure Unseen (ps : List Part) (b : Builder) : Prop where
  distinct : (graphNames ps).Nodup
  new : ∀ name ∈ graphNames ps, ∀ g, (name, g) ∉ b.subgraphs.flat

variable {b b' b1 b2 : Builder} {ps qs : List Part} {n : NodeRef} {g : GraphRef} {name : String}
  {attrs : AttrList}

theorem Unseen.left (h : Unseen (ps ++ qs) b) : Unseen ps b := by
  obtain ⟨distinct, new⟩ := h
  rw [graphNames_append] at distinct new
  exact ⟨(List.nodup_append.1 distinct).1, fun n hn => new n (List.mem_append_left _ hn)⟩

theorem Unseen.after (h : Unseen (ps ++ qs) b) (hg : Grows ps b b1) : Unseen qs b1 := by
  obtain ⟨distinct, new⟩ := h
  rw [graphNames_append] at distinct new
  obtain ⟨_, hqs, hdisjoint⟩ := List.nodup_append.1 distinct
  refine ⟨hqs, fun n hn g hm => ?_⟩
  rcases hg.named hm with hm | hm
  · exact new n (List.mem_append_right _ hn) g hm
  · exact hdisjoint n hm n hn rfl

theorem Grows.mono (h : Grows ps b b') (hsub : graphNames ps ⊆ graphNames qs) : Grows qs b b' :=
  ⟨h.extends_current, h.laid, fun hm => (h.named hm).imp_right fun hn => hsub hn⟩

/-- What was laid out before stays so, as it is all below the present graph. -/
theorem Grows.trans (h : Grows ps b b1) (h' : Grows qs b1 b') (hc : b1.Coherent)
    (current : b1.current = b.current) : Grows (ps ++ qs) b b' where
  extends_current := h.extends_current.trans (current ▸ h'.extends_current)
  laid := by
    intro s hs
    obtain ⟨s1, ns, hs1, hname1, hnodes1, laid1⟩ := h.laid hs
    have hs1' := hs1
    rw [← current] at hs1'
    obtain ⟨s', ms, hs', hname', hnodes', laid'⟩ := h'.laid hs1'
    rw [current] at hs'
    refine ⟨s', ns ++ ms, hs', hname'.trans hname1, ?_, ?_⟩
    · rw [hnodes', hnodes1, List.append_assoc]
    · refine (laid1.of_extends hc.model h'.extends_current fun n hn v hv => ?_).append laid'
      have hin : n ∈ s1.nodes.toList := hnodes1 ▸ List.mem_append_right _ hn
      have hg := hc.model.graph_of_listed hs1 hin v hv
      exact Nat.le_of_eq (by rw [hg, current])
  named := by
    intro name g hm
    rw [graphNames_append]
    rcases h'.named hm with hm | hm
    · exact (h.named hm).imp_right (List.mem_append_left _)
    · exact Or.inr (List.mem_append_right _ hm)

/-! ## Steps -/

/-- A step that adds no nodes and no subgraphs. -/
theorem Grows.of_extends (ext : Model.Extends b.current b.model b'.model)
    (hgraph : ∀ {s}, b.model.graph? b.current = some s → ∃ s',
      b'.model.graph? b.current = some s' ∧ s'.name = s.name ∧ s'.nodes = s.nodes)
    (hmarks : b'.marks = b.marks) (hsubgraphs : b'.subgraphs = b.subgraphs) :
    Grows [] b b' where
  extends_current := ext
  laid := by
    intro s hs
    obtain ⟨s', hs', hname, hnodes⟩ := hgraph hs
    refine ⟨s', [], hs', hname, ?_, hmarks ▸ .nil _⟩
    rw [hnodes, List.append_nil]
  named := by
    intro name g hm
    rw [hsubgraphs] at hm
    exact Or.inl hm

/-- A step that does not change the model. -/
theorem Grows.same (hm : b'.model = b.model) (ha : b'.anonymous = b.anonymous)
    (hs : b'.subgraphs = b.subgraphs) : Grows [] b b' := by
  refine .of_extends ?_ ?_ ?_ hs
  · rw [hm]
    exact .refl _ _
  · intro s hs
    exact ⟨s, hm ▸ hs, rfl, rfl⟩
  · unfold marks
    rw [hm, ha]

theorem Grows.mentioned (b : Builder) (n : NodeRef) : Grows [] b (b.mentioned n) := by
  unfold Builder.mentioned
  split
  · exact .same rfl rfl rfl
  · exact .same rfl rfl rfl

theorem Grows.merged (hn : b.model.Ordinary n) (attrs : AttrList) :
    Grows [] b (b.merged n attrs) := by
  have he : (b.merged n attrs).model.bare = b.model.bare := Model.bare_modifyNodeAttrs _ _ _
  refine .of_extends ⟨rfl, rfl, ?_, ?_, fun _ hs => hs, fun he => he⟩ (fun hs => ⟨_, hs, rfl, rfl⟩) ?_ rfl
  · intro k v hv
    exact Model.node?_of_bare_eq he hv
  · intro k v hv hk
    have hne : n ≠ k := by
      rintro rfl
      obtain ⟨v', hv', ho⟩ := hn
      obtain rfl := Option.some.inj (hv.symm.trans hv')
      exact hk ho
    show (b.model.modifyNodeAttrs n _).node? k = some v
    unfold Model.modifyNodeAttrs
    rw [Model.node?_modifyNode, if_neg hne, hv]
  · unfold marks
    rw [Model.nodes_size_of_bare_eq he, Model.graphs_size_of_bare_eq he]
    rfl

theorem Grows.created (b : Builder) (name : String) (attrs : AttrList) :
    Grows [] b (b.created name attrs) where
  extends_current := by
    refine ⟨rfl, rfl, ?_, ?_, ?_, fun he => he⟩
    · intro k v hv
      exact ⟨v, Model.node?_pushNode_of hv, rfl⟩
    · intro k v hv _
      exact Model.node?_pushNode_of hv
    · intro h s hne hs
      show (b.model.pushNode b.current name _ none).graph? h = some s
      rw [Model.graph?_pushNode, if_neg (Ne.symm hne), hs]
  laid := by
    intro s hs
    refine ⟨{ s with nodes := s.nodes.push ⟨b.model.nodes.size⟩ }, [⟨b.model.nodes.size⟩], ?_,
      rfl, by simp, ?_⟩
    · show (b.model.pushNode b.current name _ none).graph? b.current = _
      rw [Model.graph?_pushNode, if_pos rfl, hs]
      rfl
    · have hmarks : (b.created name attrs).marks = b.marks.behindNode := by
        show Marks.mk (b.model.pushNode b.current name _ none).nodes.size
          (b.model.pushNode b.current name _ none).graphs.size b.anonymous = _
        rw [Model.nodes_size_pushNode, Model.graphs_size_pushNode]
        rfl
      rw [hmarks]
      refine Model.Laid.node (c := b.marks)
        (v := ⟨name, b.current, b.defaults.resolve .node attrs, none⟩) ?_ rfl (.nil _)
      show (b.model.pushNode b.current name _ none).node? ⟨b.model.nodes.size⟩ = _
      rw [Model.node?_pushNode, if_pos rfl]
  named := Or.inl

theorem node_grows (h : Runs (node name attrs) b n b') (hc : b.Coherent) : Grows [] b b' := by
  rcases runs_node.1 h with h | h
  · obtain ⟨hn, rfl⟩ := h
    have hm := Grows.merged (hc.sound.ordinary hn) attrs
    exact hm.trans (.mentioned _ n) (hc.merged n attrs) rfl
  · obtain ⟨hn, rfl, rfl⟩ := h
    exact (Grows.created b name attrs).trans (.mentioned _ _) (hc.created hn attrs) rfl

theorem Grows.defaulted (b : Builder) (element : Element) (attrs : AttrList) :
    Grows [] b (b.defaulted element attrs) := by
  by_cases he : element = .graph
  · subst he
    refine .of_extends ⟨rfl, rfl, fun hv => ⟨_, hv, rfl⟩, fun hv _ => hv, ?_, fun he => he⟩ ?_ ?_
      rfl
    · intro h s hne hs
      rw [model_defaulted_graph, Model.modifyGraphAttrs, Model.graph?_modifyGraph,
        if_neg (Ne.symm hne), hs]
    · intro s hs
      refine ⟨{ s with attrs := s.attrs.insertList attrs }, ?_, rfl, rfl⟩
      rw [model_defaulted_graph, Model.modifyGraphAttrs, Model.graph?_modifyGraph, if_pos rfl, hs]
      rfl
    · have hsize := Model.graphs_size_of_bare_eq
        (Model.bare_modifyGraphAttrs b.model b.current (·.insertList attrs))
      unfold marks
      rw [model_defaulted_graph, hsize]
      rfl
  · unfold Builder.defaulted
    rw [if_neg he]
    exact .same rfl rfl rfl

theorem Grows.joined (b : Builder) (attrs : Attributes) (tail head : NodeRef) :
    Grows [] b (b.joined attrs tail head) := by
  refine .of_extends ⟨rfl, rfl, fun hv => ⟨_, hv, rfl⟩, fun hv _ => hv, ?_, ?_⟩ ?_ ?_ rfl
  · intro h s hne hs
    show (b.model.addEdge b.current tail head attrs).2.graph? h = some s
    rw [Model.graph?_addEdge, if_neg (Ne.symm hne), hs]
  · intro e v hv
    show (b.model.addEdge b.current tail head attrs).2.edge? e = some v
    rw [Model.edge?_addEdge, if_neg (Nat.ne_of_lt (Model.edge?_lt hv)), hv]
  · intro s hs
    refine ⟨{ s with edges := s.edges.push ⟨b.model.edges.size⟩ }, ?_, rfl, rfl⟩
    show (b.model.addEdge b.current tail head attrs).2.graph? b.current = _
    rw [Model.graph?_addEdge, if_pos rfl, hs]
    rfl
  · have hsize : (b.joined attrs tail head).model.graphs.size = b.model.graphs.size :=
      Model.graphs_size_addEdge _ _ _ _ _
    unfold marks
    rw [hsize]
    rfl

theorem connected_grows {es : List Endpoint} (h : Connected attrs es b b') (hc : b.Coherent)
    (hes : ∀ e ∈ es, b.model.Ordinary e.node) : Grows [] b b' := by
  induction h with
  | refl b => exact .same rfl rfl rfl
  | @step b b1 b' tail head tail_mem head_mem connect rest ih =>
      obtain ⟨_, resolved, _, _, rfl⟩ := runs_connect.1 connect
      have hj := hc.joined (hes tail tail_mem) (hes head head_mem) resolved
      exact (Grows.joined b resolved tail.node head.node).trans (ih hj hes) hj rfl

/-! ## Runs -/

theorem marks_nested (sub : Option String) (b : Builder) :
    (b.nested sub).marks = b.marks.inSubgraph sub := by
  have hnodes : (b.nested sub).model.nodes.size = b.model.nodes.size + 1 :=
    Model.nodes_size_addSubgraph _ _ _ _ _
  have hgraphs : (b.nested sub).model.graphs.size = b.model.graphs.size + 1 :=
    Model.graphs_size_addSubgraph _ _ _ _ _
  show Marks.mk (b.nested sub).model.nodes.size (b.nested sub).model.graphs.size _ = _
  rw [hnodes, hgraphs]
  rfl

theorem node?_nested (sub : Option String) (b : Builder) :
    (b.nested sub).model.node? ⟨b.model.nodes.size⟩ =
      some ⟨b.holderName sub, b.current, .empty, some ⟨b.model.graphs.size⟩⟩ := by
  show (b.model.addSubgraph b.current _ sub _).2.2.node? _ = _
  rw [Model.node?_addSubgraph, if_pos rfl]

theorem graph?_nested (sub : Option String) (b : Builder) :
    (b.nested sub).model.graph? ⟨b.model.graphs.size⟩ =
      some (.fresh sub b.defaults.current.graph (some ⟨b.model.nodes.size⟩)) := by
  show (b.model.addSubgraph b.current _ sub _).2.2.graph? _ = _
  rw [Model.graph?_addSubgraph, if_pos rfl]

/-- A new subgraph changes no graph but the one around it. -/
theorem graph?_nested_of_lt {sub : Option String} (hg : g.index < b.model.graphs.size)
    (hne : g ≠ b.current) : (b.nested sub).model.graph? g = b.model.graph? g := by
  show (b.model.addSubgraph b.current _ sub _).2.2.graph? g = _
  rw [Model.graph?_addSubgraph, if_neg (Nat.ne_of_lt hg), Model.graph?_pushNode,
    if_neg (Ne.symm hne)]

theorem graph?_nested_current {sub : Option String} {s : Subgraph}
    (hs : b.model.graph? b.current = some s) :
    (b.nested sub).model.graph? b.current =
      some { s with nodes := s.nodes.push ⟨b.model.nodes.size⟩ } := by
  show (b.model.addSubgraph b.current _ sub _).2.2.graph? b.current = _
  rw [Model.graph?_addSubgraph, if_neg (Nat.ne_of_lt (Model.graph?_lt hs)),
    Model.graph?_pushNode, if_pos rfl, hs]
  rfl

/-- The body of a new subgraph goes on from the state in which it is made.  Then
the graph around it gets the holder, and behind it what the body adds. -/
theorem Grows.nested {sub : Option String} (hc : b.Coherent) (hc2 : b2.Coherent)
    (h : Model.Extends ⟨b.model.graphs.size⟩ (b.nested sub).model b2.model)
    (inner : ∃ s ns, b2.model.graph? ⟨b.model.graphs.size⟩ = some s ∧ s.name = sub ∧
      s.nodes.toList = ns ∧ b2.model.Laid ns (b.marks.inSubgraph sub) b2.marks)
    (named : ∀ {name g}, (name, g) ∈ b2.subgraphs.flat →
      (name, g) ∈ b.subgraphs.flat ∨ name ∈ graphNames ps) : Grows ps b b2 where
  extends_current := by
    refine ⟨h.kind, h.strict, ?_, ?_, ?_, fun hv => h.edges hv⟩
    · intro n v hv
      exact h.nodes (Model.node?_pushNode_of hv)
    · intro n v hv hn
      exact h.holders (Model.node?_pushNode_of hv) hn
    · intro k s hne hs
      have hlt := Model.graph?_lt hs
      refine h.graphs ?_ ((graph?_nested_of_lt hlt hne).trans hs)
      rintro rfl
      exact Nat.lt_irrefl _ hlt
  laid := by
    intro s hs
    obtain ⟨s', ns, hs', rfl, rfl, laid⟩ := inner
    refine ⟨_, [⟨b.model.nodes.size⟩], h.graphs hc.current_ne_new (graph?_nested_current hs), rfl,
      by simp, ?_⟩
    have holder := h.holders (node?_nested s'.name b) (by simp)
    refine Model.Laid.subgraph (c := b.marks) holder rfl rfl hs' rfl laid (fun e he => ?_) (.nil _)
    obtain ⟨v, hv, _⟩ := (hc2.model.mem_edges hs').1 he
    obtain ⟨hsource, htarget⟩ := hc2.ends hv
    exact ⟨v, hv, hsource.lt, htarget.lt⟩
  named := named

theorem subgraph_grows {name : Option Id} {body : Build Unit} {members : Members}
    (h : Runs (subgraph (name.map Id.value) body) b members b') (hc : b.Coherent)
    (unseen : Unseen (Id.graphParts name ++ ps) b)
    (hkeeps : ∀ {b b'}, Runs body b () b' → b.Coherent → Keeps b b')
    (hgrows : ∀ {b b'}, Runs body b () b' → b.Coherent → Unseen ps b → Grows ps b b') :
    Grows (Id.graphParts name ++ ps) b b' := by
  have hkeep := subgraph_keeps h hc hkeeps
  obtain ⟨g, b1, b2, defaults, ho, hbody, hd, rfl, rfl⟩ := runs_subgraph.1 h
  have hnew : (name.map Id.value).bind b.subgraphs.find? = none := by
    cases name with
    | none => rfl
    | some i =>
        refine Names.find?_eq_none.2 fun g hm => unseen.new i.value ?_ g hm
        simp
  obtain ⟨hk1, hg⟩ := openGraph_keeps ho hc
  have hentered := hk1.coherent.entered hg
  obtain ⟨opened, closed, he⟩ := kept_mentioned_eq (name.map Id.value) g (b2.opened.headD [])
    (b2.left b1.current defaults)
  rw [he] at hkeep ⊢
  rcases runs_openGraph.1 ho with ho | ho
  · rw [hnew] at ho
    cases ho.1
  · obtain ⟨_, rfl, rfl⟩ := ho
    have hbound : ∀ {n g}, (n, g) ∈ (b.nested (name.map Id.value)).subgraphs.flat →
        (n, g) ∈ b.subgraphs.flat ∨ n ∈ graphNames (Id.graphParts name) := by
      intro n g hm
      rcases mem_subgraphs_nested.1 hm with ⟨hname, _⟩ | hm
      · right
        obtain ⟨i, rfl, rfl⟩ := Option.map_eq_some_iff.1 hname
        simp
      · exact Or.inl hm
    have hunseen : Unseen ps (((b.nested (name.map Id.value)).reported
        (.created (b.holderName (name.map Id.value)))).entered ⟨b.model.graphs.size⟩) := by
      obtain ⟨distinct, new⟩ := unseen
      rw [graphNames_append] at distinct new
      obtain ⟨_, hps, hdisjoint⟩ := List.nodup_append.1 distinct
      refine ⟨hps, fun n hn g hm => ?_⟩
      rcases hbound hm with hm | hm
      · exact new n (List.mem_append_right _ hn) g hm
      · exact hdisjoint n hm n hn rfl
    have hg2 := hgrows hbody hentered hunseen
    obtain ⟨s', ns, hs', hname, hnodes, laid⟩ := hg2.laid (graph?_nested _ b)
    have hmarks := marks_nested (name.map Id.value) b
    refine Grows.nested hc hkeep.1.coherent hg2.extends_current ⟨s', ns, hs', hname, ?_, ?_⟩ ?_
    · rw [hnodes]
      rfl
    · rw [← hmarks]
      exact laid
    · intro n k hm
      rw [graphNames_append]
      have hdepth := (hkeeps hbody hentered).balanced.two_le_subgraphs hk1.coherent.subgraph_depth
      have hm : (n, k) ∈ b2.subgraphs.hoist.flat := hm
      rw [Names.mem_flat_hoist hdepth] at hm
      rcases hg2.named hm with hm | hm
      · exact (hbound hm).imp_right (List.mem_append_left _)
      · exact Or.inr (List.mem_append_right _ hm)

mutual

theorem stmt_grows {b b' : Builder} :
    (s : Stmt) → Runs (stmt s) b () b' → b.Coherent → Unseen s.parts b → Grows s.parts b b'
  | .node id attrs, h, hc, _ => by
      obtain ⟨_, n, hn⟩ := runs_stmt_node.1 h
      exact (node_grows hn hc).mono (List.nil_subset _)
  | .edge tail hops attrs, h, hc, hu => by
      obtain ⟨_, first, rest, b1, b2, ho, hh, h⟩ := runs_stmt_edge.1 h
      rw [Stmt.parts] at hu ⊢
      obtain ⟨hk1, hfirst⟩ := operand_keeps tail ho hc
      obtain ⟨hk2, hrest⟩ := heads_keeps hops hh hk1.coherent
      have hg1 := operand_grows tail ho hc hu.left.left
      have hg2 := heads_grows hops hh hk1.coherent (hu.left.after hg1)
      have hes : ∀ e ∈ (first :: rest).flatten, b2.model.Ordinary e.node := by
        rw [List.flatten_cons]
        exact List.forall_mem_append.2
          ⟨fun e he => hk2.balanced.ordinary (hfirst e he), hrest⟩
      have hg3 := connected_grows (connected_chain h) hk2.coherent hes
      have hg12 := hg1.trans hg2 hk1.coherent hk1.balanced.current
      have hk12 := hk1.trans hk2
      exact hg12.trans (hg3.mono (List.nil_subset _)) hk12.coherent hk12.balanced.current
  | .defaults element attrs, h, hc, _ => by
      obtain ⟨_, rfl⟩ := runs_stmt_defaults.1 h
      exact (Grows.defaulted b element attrs).mono (List.nil_subset _)
  | .subgraph name stmts, h, hc, hu => by
      obtain ⟨members, hs⟩ := runs_stmt_subgraph.1 h
      rw [Stmt.parts] at hu ⊢
      exact subgraph_grows hs hc hu (body_keeps stmts) (body_grows stmts)

theorem operand_grows {b b' : Builder} {es : List Endpoint} :
    (o : Operand) → Runs (operand o) b es b' → b.Coherent → Unseen o.parts b →
      Grows o.parts b b'
  | .node id, h, hc, _ => by
      obtain ⟨n, hn, _⟩ := runs_operand_node.1 h
      exact (node_grows hn hc).mono (List.nil_subset _)
  | .subgraph name stmts, h, hc, hu => by
      obtain ⟨members, hs, _, _⟩ := runs_operand_subgraph.1 h
      rw [Operand.parts] at hu ⊢
      exact subgraph_grows hs hc hu (body_keeps stmts) (body_grows stmts)

theorem heads_grows {b b' : Builder} {ops : List (List Endpoint)} :
    (hops : List (EdgeOp × Operand)) → Runs (heads hops) b ops b' → b.Coherent →
      Unseen (Stmt.partsHops hops) b → Grows (Stmt.partsHops hops) b b'
  | [], h, hc, _ => by
      obtain ⟨_, rfl⟩ := runs_heads_nil.1 h
      exact (Grows.same rfl rfl rfl).mono (List.nil_subset _)
  | (op, head) :: hops, h, hc, hu => by
      obtain ⟨first, rest, b1, ho, hh, _⟩ := runs_heads_cons.1 h
      rw [Stmt.partsHops] at hu ⊢
      obtain ⟨hk1, _⟩ := operand_keeps head ho hc
      have hg1 := operand_grows head ho hc hu.left
      exact hg1.trans (heads_grows hops hh hk1.coherent (hu.after hg1)) hk1.coherent
        hk1.balanced.current

theorem body_grows {b b' : Builder} :
    (stmts : List Stmt) → Runs (body stmts) b () b' → b.Coherent →
      Unseen (Stmt.partsBody stmts) b → Grows (Stmt.partsBody stmts) b b'
  | [], h, hc, _ => by
      rw [runs_body_nil.1 h]
      exact (Grows.same rfl rfl rfl).mono (List.nil_subset _)
  | first :: rest, h, hc, hu => by
      obtain ⟨b1, hs, h⟩ := runs_body_cons.1 h
      rw [Stmt.partsBody] at hu ⊢
      have hk1 := stmt_keeps first hs hc
      have hg1 := stmt_grows first hs hc hu.left
      exact hg1.trans (body_grows rest h hk1.coherent (hu.after hg1)) hk1.coherent
        hk1.balanced.current

end

end Builder

/-- A tree whose subgraphs have different names builds a model that is laid out
in the order of the text, with the kind, the mode and the name of the tree. -/
theorem Tree.laid {t : Tree} {b : Builder}
    (h : Runs (Builder.tree t) (.new t.kind (t.name.map Id.value)) () b)
    (distinct : Stmt.DistinctSubgraphs t.body) :
    b.model.kind = t.kind ∧ b.model.strict = t.strict ∧
      ∃ s anonymous, b.model.graph? Model.root = some s ∧ s.name = t.name.map Id.value ∧
        b.model.Laid s.nodes.toList .start
          ⟨b.model.nodes.size, b.model.graphs.size, anonymous⟩ := by
  obtain ⟨b1, hbody, rfl⟩ := Builder.runs_tree.1 h
  have hg := Builder.body_grows t.body hbody (Builder.coherent_started _ _ _)
    ⟨distinct, fun _ _ _ hm => by cases hm⟩
  obtain ⟨s, ns, hs, hname, hnodes, laid⟩ := hg.laid rfl
  refine ⟨hg.extends_current.kind, hg.extends_current.strict, s, b1.anonymous, hs, hname, ?_⟩
  rw [hnodes]
  exact laid

end DotLang
