import DotLang.Proofs.Rebuilding
/-!
# Models with plain trees

`Model.Built` are the facts that hold of every model that the builder makes:
references agree, names are used once, edges join nodes that hold no graph, and
attributes are valid.  If such a model is laid out in the order of the text, its
tree is plain, since every end of an edge has a smaller number than what stands
behind the graph of the edge.  `Tree.plain_toTree` says so of the model of a tree
whose subgraphs have different names.
-/

namespace DotLang

namespace Model

/-! ## Built models -/

/-- The model is as the builder leaves it. -/
structure Built (m : Model) : Prop where
  wellFormed : m.WellFormed
  node_names : ∀ {n n' v v'}, m.node? n = some v → m.node? n' = some v' → v.nested = none →
    v'.nested = none → v.name = v'.name → n = n'
  graph_names : ∀ {g g' name}, g ≠ Model.root → g' ≠ Model.root → m.nameOf g = some name →
    m.nameOf g' = some name → g = g'
  ends : ∀ {e v}, m.edge? e = some v → m.Ordinary v.source ∧ m.Ordinary v.target
  attributes : m.MadeOf fun _ => True

theorem plainAttrs {element : Element} {a : Attributes} {F : Part → Prop}
    (h : a.MadeOf F element) : PlainAttrs element a.entries :=
  ⟨Schema.validateList_eq_ok.2 h.valid, h.distinct⟩

end Model

theorem Names.Distinct.eq_of_mem {α : Type} {t : Names α} (h : t.Distinct) {name : String}
    {a a' : α} (ha : (name, a) ∈ t.flat) (ha' : (name, a') ∈ t.flat) : a = a' :=
  Option.some.inj ((h.find?_eq_some.2 ha).symm.trans (h.find?_eq_some.2 ha'))

theorem Builder.Coherent.built {b : Builder} (h : b.Coherent)
    (attributes : b.model.MadeOf fun _ => True) : b.model.Built where
  wellFormed := h.model
  node_names := by
    intro n n' v v' hv hv' ho ho' hname
    exact h.node_names.eq_of_mem (h.nodes.2 ⟨v, hv, ho, hname⟩) (h.nodes.2 ⟨v', hv', ho', rfl⟩)
  graph_names := by
    intro g g' name hg hg' hn hn'
    exact h.subgraph_names.eq_of_mem (h.subgraphs.2 ⟨hg, hn⟩) (h.subgraphs.2 ⟨hg', hn'⟩)
  ends := h.ends
  attributes := attributes

/-- The model of a tree is as the builder leaves it. -/
theorem Tree.built {t : Tree} {b : Builder}
    (h : Runs (Builder.tree t) (.new t.kind (t.name.map Id.value)) () b) : b.model.Built := by
  have attributes : b.model.MadeOf fun _ => True := Tree.madeOf h fun _ _ => trivial
  obtain ⟨b1, hbody, rfl⟩ := Builder.runs_tree.1 h
  have hk := Builder.body_keeps t.body hbody (Builder.coherent_started _ _ _)
  exact hk.coherent.built attributes

/-! ## Subgraphs of plain trees -/

theorem graphNames_entries (element : Element) (attrs : AttrList) :
    graphNames (AttrList.parts element attrs) = [] := by
  refine List.filterMap_eq_nil_iff.2 fun p hp => ?_
  obtain ⟨e, _, rfl⟩ := List.mem_map.1 hp
  rfl

theorem PlainEdges.graphNames {op : EdgeOp} {names : List String} {stmts : List Stmt}
    (h : PlainEdges op names stmts) : graphNames (Stmt.partsBody stmts) = [] := by
  induction h with
  | nil => rfl
  | cons _ _ _ _ ih =>
      rw [Stmt.partsBody, graphNames_append, ih, Stmt.parts, graphNames_append,
        graphNames_entries]
      rfl

theorem graphNames_attrs (attrs : AttrList) :
    graphNames (Stmt.partsBody (attrs.map fun attr => .defaults .graph [attr])) = [] := by
  induction attrs with
  | nil => rfl
  | cons e attrs ih =>
      rw [List.map_cons, Stmt.partsBody, graphNames_append, ih, Stmt.parts, graphNames_entries]
      rfl

mutual

/-- The names of subgraphs that are declared behind a body are those before and
those in it. -/
theorem PlainBody.subgraphs {op : EdgeOp} {k k' : Seen} {stmts : List Stmt} :
    PlainBody op k stmts k' →
      k'.subgraphs = (graphNames (Stmt.partsBody stmts)).reverse ++ k.subgraphs ∧
        (k.subgraphs.Nodup → k'.subgraphs.Nodup)
  | .mk declared joined _ => by
      rw [Stmt.partsBody_append, Stmt.partsBody_append, graphNames_append, graphNames_append,
        joined.graphNames, graphNames_attrs, List.append_nil, List.append_nil]
      exact declared.subgraphs

theorem PlainMembers.subgraphs {op : EdgeOp} {k k' : Seen} {stmts : List Stmt} :
    PlainMembers op k stmts k' →
      k'.subgraphs = (graphNames (Stmt.partsBody stmts)).reverse ++ k.subgraphs ∧
        (k.subgraphs.Nodup → k'.subgraphs.Nodup)
  | .nil _ => ⟨rfl, id⟩
  | @PlainMembers.node _ _ _ name attrs stmts _ _ rest => by
      have hnode : graphNames (.node (Id.ofText name).value :: AttrList.parts .node attrs) = [] :=
        graphNames_entries _ _
      rw [Stmt.partsBody, Stmt.parts, graphNames_append, hnode, List.nil_append]
      exact rest.subgraphs
  | @PlainMembers.subgraph _ k _ _ name body stmts fresh inner rest => by
      obtain ⟨he1, hnodup1⟩ := inner.subgraphs
      obtain ⟨he, hnodup⟩ := rest.subgraphs
      rw [Stmt.partsBody, Stmt.parts, graphNames_append, graphNames_append,
        graphNames_graphParts, Builder.map_ofText_value, he, he1]
      cases name with
      | none =>
          refine ⟨?_, fun hk => ?_⟩
          · simp [Seen.withSubgraph]
          · rw [← he1, ← he]
            exact hnodup (hnodup1 hk)
      | some n =>
          refine ⟨?_, fun hk => ?_⟩
          · simp [Seen.withSubgraph]
          · rw [← he1, ← he]
            exact hnodup (hnodup1 (List.nodup_cons.2 ⟨fresh n rfl, hk⟩))

end

/-- The subgraphs of a plain tree have different names. -/
theorem Tree.Plain.distinct {t : Tree} (h : t.Plain) : Stmt.DistinctSubgraphs t.body := by
  obtain ⟨_, k, hbody⟩ := h
  obtain ⟨he, hnodup⟩ := hbody.subgraphs
  have hnodup := hnodup List.nodup_nil
  rw [he] at hnodup
  exact (List.reverse_perm _).nodup_iff.1 (List.nodup_append.1 hnodup).1

/-! ## Names below a number -/

namespace Model

/-- The names are those of the nodes and subgraphs with smaller numbers. -/
structure SeenBelow (m : Model) (c : Marks) (k : Seen) : Prop where
  nodes : ∀ name, name ∈ k.nodes ↔
    ∃ n v, m.node? n = some v ∧ n.index < c.node ∧ v.nested = none ∧ v.name = name
  subgraphs : ∀ name, name ∈ k.subgraphs ↔
    ∃ g, g ≠ Model.root ∧ g.index < c.graph ∧ m.nameOf g = some name

variable {m : Model} {c c' : Marks} {k : Seen} {ns : List NodeRef} {stmts : List Stmt}

theorem SeenBelow.behindNode (h : m.SeenBelow c k) {v : Node} (hv : m.node? ⟨c.node⟩ = some v)
    (ordinary : v.nested = none) : m.SeenBelow c.behindNode (k.withNode v.name) where
  nodes := by
    intro name
    show name ∈ v.name :: k.nodes ↔ _
    rw [List.mem_cons, h.nodes]
    constructor
    · rintro (rfl | ⟨n, w, hw, hlt, ho, hname⟩)
      · exact ⟨_, v, hv, Nat.lt_succ_self _, ordinary, rfl⟩
      · exact ⟨n, w, hw, Nat.lt_succ_of_lt hlt, ho, hname⟩
    · rintro ⟨n, w, hw, hlt, ho, rfl⟩
      rcases Nat.lt_succ_iff_lt_or_eq.1 hlt with hlt | he
      · exact Or.inr ⟨n, w, hw, hlt, ho, rfl⟩
      · obtain ⟨i⟩ := n
        obtain rfl : i = c.node := he
        obtain rfl := Option.some.inj (hv.symm.trans hw)
        exact Or.inl rfl
  subgraphs := h.subgraphs

theorem SeenBelow.inSubgraph (h : m.SeenBelow c k) {v : Node} (hv : m.node? ⟨c.node⟩ = some v)
    (nested : v.nested ≠ none) {s : Subgraph} (hs : m.graph? ⟨c.graph⟩ = some s)
    (hroot : 0 < c.graph) : m.SeenBelow (c.inSubgraph s.name) (k.withSubgraph s.name) where
  nodes := by
    intro name
    refine (h.nodes name).trans ⟨?_, ?_⟩
    · rintro ⟨n, w, hw, hlt, ho, hname⟩
      exact ⟨n, w, hw, Nat.lt_succ_of_lt hlt, ho, hname⟩
    · rintro ⟨n, w, hw, hlt, ho, hname⟩
      rcases Nat.lt_succ_iff_lt_or_eq.1 hlt with hlt | he
      · exact ⟨n, w, hw, hlt, ho, hname⟩
      · obtain ⟨i⟩ := n
        obtain rfl : i = c.node := he
        obtain rfl := Option.some.inj (hv.symm.trans hw)
        exact absurd ho nested
  subgraphs := by
    intro name
    have hname : m.nameOf ⟨c.graph⟩ = s.name := nameOf_eq hs
    show name ∈ s.name.toList ++ k.subgraphs ↔ _
    rw [List.mem_append, Option.mem_toList, h.subgraphs]
    constructor
    · rintro (hn | ⟨g, hne, hlt, hg⟩)
      · refine ⟨⟨c.graph⟩, fun he => ?_, Nat.lt_succ_self _, hname.trans hn⟩
        exact absurd (congrArg GraphRef.index he) (Nat.ne_of_gt hroot)
      · exact ⟨g, hne, Nat.lt_succ_of_lt hlt, hg⟩
    · rintro ⟨g, hne, hlt, hg⟩
      rcases Nat.lt_succ_iff_lt_or_eq.1 hlt with hlt | he
      · exact Or.inr ⟨g, hne, hlt, hg⟩
      · obtain ⟨i⟩ := g
        obtain rfl : i = c.graph := he
        exact Or.inl (hname.symm.trans hg)

/-! ## From the layout to the tree -/

/-- Edges whose ends have smaller numbers. -/
theorem Built.plainEdges (h : m.Built) (seen : m.SeenBelow c k) {es : List EdgeRef}
    (ends : ∀ e ∈ es, ∃ v, m.edge? e = some v ∧ v.source.index < c.node ∧
      v.target.index < c.node) (described : m.DescribesEdges es stmts) :
    PlainEdges m.kind.edgeOp k.nodes stmts := by
  induction described with
  | nil => exact .nil
  | @cons e es v source target stmts edge has_source has_target _ ih =>
      obtain ⟨v', hv', hsource, htarget⟩ := ends e List.mem_cons_self
      obtain rfl := Option.some.inj (edge.symm.trans hv')
      obtain ⟨⟨w, hw, ho⟩, ⟨w', hw', ho'⟩⟩ := h.ends edge
      obtain rfl := Option.some.inj (has_source.symm.trans hw)
      obtain rfl := Option.some.inj (has_target.symm.trans hw')
      exact .cons ((seen.nodes _).2 ⟨_, _, hw, hsource, ho, rfl⟩)
        ((seen.nodes _).2 ⟨_, _, hw', htarget, ho', rfl⟩)
        (plainAttrs (h.attributes.edge_attrs edge))
        (ih fun e he => ends e (List.mem_cons_of_mem _ he))

/-- The numbers of graphs are not taken back. -/
theorem Laid.graph_le (h : m.Laid ns c c') : c.graph ≤ c'.graph := by
  induction h with
  | nil => exact Nat.le_refl _
  | node _ _ _ ih => exact ih
  | subgraph _ _ _ _ _ _ _ _ ihm ih => exact Nat.le_trans (Nat.le_of_succ_le ihm) ih

theorem Laid.plainMembers (laid : m.Laid ns c c') (h : m.Built) (hroot : 0 < c.graph)
    (seen : m.SeenBelow c k) (described : m.DescribesNodes ns stmts) :
    ∃ k', PlainMembers m.kind.edgeOp k stmts k' ∧ m.SeenBelow c' k' := by
  induction laid generalizing k stmts with
  | nil =>
      cases described
      exact ⟨k, .nil k, seen⟩
  | @node c c' v ns node ordinary _ ih =>
      obtain ⟨rest, rfl, hrest⟩ := described.of_ordinary node ordinary
      have fresh : v.name ∉ k.nodes := by
        intro hm
        obtain ⟨n, w, hw, hlt, ho, hname⟩ := (seen.nodes _).1 hm
        obtain rfl := h.node_names hw node ho ordinary hname
        exact Nat.lt_irrefl _ hlt
      obtain ⟨k', plain, seen'⟩ := ih hroot (seen.behindNode node ordinary) hrest
      exact ⟨k', .node fresh (plainAttrs (h.attributes.node_attrs node)) plain, seen'⟩
  | @subgraph c c1 c' v s ns node nested _ graph _ members ends _ ihm ih =>
      obtain ⟨body, rest, rfl, hbody, hrest⟩ := described.of_nested node nested
      have hname : m.nameOf ⟨c.graph⟩ = s.name := nameOf_eq graph
      have hne : (⟨c.graph⟩ : GraphRef) ≠ Model.root := fun he =>
        absurd (congrArg GraphRef.index he) (Nat.ne_of_gt hroot)
      have fresh : ∀ n ∈ s.name, n ∉ k.subgraphs := by
        intro n hn hm
        obtain ⟨g, hgne, hlt, hg⟩ := (seen.subgraphs _).1 hm
        obtain rfl := h.graph_names hgne hne hg (hname.trans hn)
        exact Nat.lt_irrefl _ hlt
      obtain ⟨s', nodes, edges, graph', hnodes, hedges, rfl⟩ := hbody.parts
      obtain rfl := Option.some.inj (graph.symm.trans graph')
      obtain ⟨k1, plain, seen1⟩ := ihm (Nat.succ_pos _)
        (seen.inSubgraph node (by simp [nested]) graph hroot) hnodes
      have hpos := Nat.lt_of_lt_of_le (Nat.succ_pos _) members.graph_le
      obtain ⟨k', plain', seen'⟩ := ih hpos seen1 hrest
      rw [hname]
      exact ⟨k', .subgraph fresh (.mk plain (h.plainEdges seen1 ends hedges)
        (plainAttrs (h.attributes.graph_attrs graph))) plain', seen'⟩

/-- A built model that is laid out in the order of the text has a plain tree. -/
theorem Built.plain_toTree (h : m.Built) {s : Subgraph} (hs : m.graph? Model.root = some s)
    (laid : m.Laid s.nodes.toList .start c) (hsize : c.node = m.nodes.size) :
    m.toTree.Plain := by
  refine ⟨⟨m.nameOf Model.root, rfl⟩, ?_⟩
  have start : m.SeenBelow .start .nothing := by
    refine ⟨fun name => ?_, fun name => ?_⟩
    · constructor
      · intro hm
        cases hm
      · rintro ⟨_, _, _, hlt, _⟩
        exact absurd hlt (Nat.not_lt_zero _)
    · constructor
      · intro hm
        cases hm
      · rintro ⟨⟨i⟩, hne, hlt, _⟩
        obtain rfl : i = 0 := Nat.lt_one_iff.1 hlt
        exact absurd rfl hne
  obtain ⟨s', nodes, edges, hs', members, joined, hbody⟩ := h.wellFormed.describes_toTree.parts
  obtain rfl := Option.some.inj (hs.symm.trans hs')
  obtain ⟨k', plain, seen'⟩ := laid.plainMembers h Nat.one_pos start members
  rw [hbody]
  refine ⟨k', .mk plain (h.plainEdges seen' (fun e he => ?_) joined)
    (plainAttrs (h.attributes.graph_attrs hs))⟩
  obtain ⟨v, hv, _⟩ := (h.wellFormed.mem_edges hs).1 he
  obtain ⟨hsource, htarget⟩ := h.ends hv
  rw [hsize]
  exact ⟨v, hv, hsource.lt, htarget.lt⟩

end Model

/-- A tree whose subgraphs have different names builds a model whose own tree is
plain. -/
theorem Tree.plain_toTree {t : Tree} {b : Builder}
    (h : Runs (Builder.tree t) (.new t.kind (t.name.map Id.value)) () b)
    (distinct : Stmt.DistinctSubgraphs t.body) : b.model.toTree.Plain := by
  obtain ⟨_, _, s, anonymous, hs, _, laid⟩ := Tree.laid h distinct
  exact (Tree.built h).plain_toTree hs laid rfl

end DotLang
