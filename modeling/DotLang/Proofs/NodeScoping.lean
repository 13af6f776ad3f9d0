import DotLang.Proofs.Following
/-!
# Nodes follow their mentions

The nodes of a built model that hold no graph are the nodes that its text mentions,
in the order of their first mentions and each once.  The first mention places a node
in the graph of its body and gives it the defaults in force there and its own
attributes.  Every later mention adds its own attributes and nothing else.

`Draft.Mentioned` says this of one node and the mentions of a walk, and
`Draft.Listed` of all nodes.  Every event of a walk keeps it, so it holds of built
models: `Tree.node_attrs` for the attributes, and `Tree.nodes_by_first_mention` for
the names and places.
-/

namespace DotLang

namespace Model

variable {m m' : Model} {name : String}

/-- The nodes that hold no graph, in order. -/
def ordinaryNodes (m : Model) : List Node := m.nodes.toList.filter fun v => v.nested.isNone

theorem mem_names_ordinaryNodes :
    name ∈ m.ordinaryNodes.map Node.name ↔ ∃ n, m.Named n name := by
  unfold ordinaryNodes
  rw [List.mem_map]
  constructor
  · rintro ⟨v, hv, rfl⟩
    obtain ⟨hmem, ho⟩ := List.mem_filter.1 hv
    obtain ⟨i, hi⟩ := List.getElem?_of_mem hmem
    rw [Array.getElem?_toList] at hi
    exact ⟨⟨i⟩, v, hi, Option.isNone_iff_eq_none.1 ho, rfl⟩
  · rintro ⟨n, v, hv, ho, rfl⟩
    refine ⟨v, List.mem_filter.2 ⟨?_, Option.isNone_iff_eq_none.2 ho⟩, rfl⟩
    exact Array.mem_toList_iff.2 (Array.mem_of_getElem? hv)

/-- The names of nodes are seen without their attributes. -/
theorem names_ordinaryNodes_bare (m : Model) :
    m.bare.ordinaryNodes.map Node.name = m.ordinaryNodes.map Node.name := by
  unfold ordinaryNodes bare
  rw [Array.toList_map, List.filter_map, List.map_map]
  rfl

theorem names_ordinaryNodes_of_bare_eq (he : m.bare = m'.bare) :
    m.ordinaryNodes.map Node.name = m'.ordinaryNodes.map Node.name := by
  rw [← names_ordinaryNodes_bare m, he, names_ordinaryNodes_bare]

theorem ordinaryNodes_pushNode (m : Model) (g : GraphRef) (name : String) (attrs : Attributes)
    (nested : Option GraphRef) :
    (m.pushNode g name attrs nested).ordinaryNodes =
      m.ordinaryNodes ++ if nested.isNone then [⟨name, g, attrs, nested⟩] else [] := by
  unfold ordinaryNodes
  show (m.nodes.push _).toList.filter _ = _
  rw [Array.toList_push, List.filter_append]
  cases nested <;> rfl

end Model

theorem Attributes.ofList_append (l l' : AttrList) :
    ofList (l ++ l') = (ofList l).insertList l' := insertList_append _ l l'

namespace Draft

variable {d d' : Draft} {ms : List Mention} {o : Mention} {v : Node}

/-- The node is as its mentions say.  The first one places it, in the graph of its
body, and applies the defaults. -/
def Mentioned (d : Draft) (ms : List Mention) (v : Node) : Prop :=
  ∃ first later, ms.filter (fun o => o.name = v.name) = first :: later ∧
    d.Knows first.scope.subgraph ∧ v.graph = d.ref first.scope.subgraph ∧
      v.attrs = .ofList (first.scope.entries .node ++ first.attrs ++
        later.flatMap Mention.attrs)

/-- The nodes are those of the mentions, in order. -/
structure Listed (d : Draft) (ms : List Mention) : Prop where
  names : d.model.ordinaryNodes.map Node.name = (ms.map Mention.name).eraseDups
  node : ∀ {n v}, d.model.node? n = some v → v.nested = none → d.Mentioned ms v

theorem Mentioned.extends (h : d.Mentioned ms v) (ext : d.Extends d') : d'.Mentioned ms v := by
  obtain ⟨first, later, hms, hknown, hgraph, hattrs⟩ := h
  exact ⟨first, later, hms, ext.knows hknown, hgraph.trans (ext.ref_eq hknown).symm, hattrs⟩

/-- A mention of another node does not matter. -/
theorem Mentioned.of_ne (h : d.Mentioned ms v) (hname : o.name ≠ v.name) :
    d.Mentioned (ms ++ [o]) v := by
  obtain ⟨first, later, hms, h⟩ := h
  refine ⟨first, later, ?_, h⟩
  rw [List.filter_append, hms, List.filter_singleton]
  simp [hname]

/-- A further mention of a node adds its attributes. -/
theorem Mentioned.again (h : d.Mentioned ms v) (hname : o.name = v.name) :
    d.Mentioned (ms ++ [o]) { v with attrs := v.attrs.insertList o.attrs } := by
  obtain ⟨first, later, hms, hknown, hgraph, hattrs⟩ := h
  refine ⟨first, later ++ [o], ?_, hknown, hgraph, ?_⟩
  · rw [List.filter_append, hms, List.filter_singleton]
    simp [hname]
  · rw [hattrs, ← Attributes.ofList_append, List.flatMap_append, List.flatMap_singleton,
      List.append_assoc _ _ o.attrs]

/-- The first mention of a node. -/
theorem mentioned_first (hnew : o.name ∉ ms.map Mention.name)
    (known : d.Knows o.scope.subgraph) :
    d.Mentioned (ms ++ [o]) ⟨o.name, d.ref o.scope.subgraph,
      (Attributes.ofList (o.scope.entries .node)).insertList o.attrs, none⟩ := by
  refine ⟨o, [], ?_, known, rfl, ?_⟩
  · have hnone : ms.filter (fun p => p.name = o.name) = [] := by
      refine List.filter_eq_nil_iff.2 fun p hp => ?_
      rw [decide_eq_true_eq]
      rintro he
      exact hnew (List.mem_map.2 ⟨p, hp, he⟩)
    rw [List.filter_append, hnone, List.filter_singleton]
    simp
  · rw [List.flatMap_nil, List.append_nil, Attributes.ofList_append]

/-! ## Steps -/

theorem Listed.of_nodes (h : d.Listed ms) (nodes : d'.model.nodes = d.model.nodes)
    (ext : d.Extends d') : d'.Listed ms := by
  refine ⟨?_, fun {n v} hv ho => ?_⟩
  · rw [← h.names]
    unfold Model.ordinaryNodes
    rw [nodes]
  · have hv' : d.model.node? n = some v := by
      rw [← hv]
      unfold Model.node?
      rw [nodes]
    exact (h.node hv' ho).extends ext

theorem Listed.mention (h : d.Listed ms) (distinct : d.model.DistinctNames)
    (known : d.Knows o.scope.subgraph) : (d.mention o).Listed (ms ++ [o]) := by
  have ext := d.extends_mention o
  have hnames : (∃ n, d.model.Named n o.name) ↔ o.name ∈ ms.map Mention.name := by
    rw [← Model.mem_names_ordinaryNodes, h.names, List.mem_eraseDups]
  cases hn : d.model.findNode? o.name with
  | some n =>
      have hnamed := Model.findNode?_named hn
      have hmodel := model_mention_known hn
      refine ⟨?_, fun {k v'} hv' ho => ?_⟩
      · rw [hmodel, Model.names_ordinaryNodes_of_bare_eq (Model.bare_modifyNodeAttrs _ _ _),
          h.names, List.map_append, List.map_singleton, eraseDups_concat,
          if_pos (hnames.1 ⟨n, hnamed⟩)]
      · rw [hmodel, Model.modifyNodeAttrs, Model.node?_modifyNode] at hv'
        split at hv'
        · next he =>
            subst he
            obtain ⟨v, hv, rfl⟩ := Option.map_eq_some_iff.1 hv'
            have hname : o.name = v.name := hnamed.name_eq ⟨v, hv, ho, rfl⟩
            exact ((h.node hv ho).again hname).extends ext
        · next hne =>
            have hname : o.name ≠ v'.name := fun he =>
              hne (distinct hnamed (he ▸ ⟨v', hv', ho, rfl⟩))
            exact ((h.node hv' ho).of_ne hname).extends ext
  | none =>
      have hnew : o.name ∉ ms.map Mention.name := fun hmem => by
        obtain ⟨n, hnamed⟩ := hnames.2 hmem
        exact Model.findNode?_eq_none.1 hn n hnamed
      have hmodel := model_mention_new hn
      refine ⟨?_, fun {k v'} hv' ho => ?_⟩
      · rw [hmodel, Model.ordinaryNodes_pushNode, List.map_append, h.names, List.map_append,
          List.map_singleton, eraseDups_concat, if_neg hnew]
        rfl
      · rw [hmodel] at hv'
        rcases Model.node?_pushNode_eq_some hv' with ⟨_, rfl⟩ | hv
        · exact (mentioned_first hnew known).extends ext
        · have hname : o.name ≠ v'.name := fun he =>
            Model.findNode?_eq_none.1 hn k (he ▸ ⟨v', hv, ho, rfl⟩)
          exact ((h.node hv ho).of_ne hname).extends ext

theorem Listed.opening (h : d.Listed ms) (o : Opening) : (d.opening o).Listed ms := by
  have ext := d.extends_opening o
  by_cases hk : o.key ∈ d.subgraphs
  · rwa [Draft.opening, if_pos hk]
  · refine ⟨?_, fun {k v} hv ho => ?_⟩
    · rw [Draft.opening, if_neg hk]
      show (d.model.pushNode _ _ _ (some _)).ordinaryNodes.map Node.name = _
      rw [Model.ordinaryNodes_pushNode, ← h.names]
      simp
    · rw [Draft.opening, if_neg hk] at hv
      rcases Model.node?_pushNode_eq_some hv with ⟨_, rfl⟩ | hv
      · cases ho
      · exact (h.node hv ho).extends ext

/-- Every event of a walk keeps the nodes those of its mentions. -/
theorem Listed.add {w : List Occurrence} {o : Occurrence} (h : d.Listed (mentionsOf w))
    (fits : d.Fits o) : (d.add o).Listed (mentionsOf (w ++ [o])) := by
  have ext := d.extends_add o
  obtain ⟨scope, event⟩ := o
  cases event with
  | node name attrs =>
      rw [mentionsOf_concat w rfl]
      exact h.mention fits.distinct fits.known
  | endpoint name =>
      rw [mentionsOf_concat w rfl]
      exact h.mention fits.distinct fits.known
  | setting element attrs =>
      rw [mentionsOf_concat_none w rfl]
      exact h.of_nodes (nodes_setting d scope element attrs) ext
  | opening key =>
      rw [mentionsOf_concat_none w rfl]
      exact h.opening ⟨scope, key⟩
  | edges operands attrs =>
      rw [mentionsOf_concat_none w rfl]
      exact h.of_nodes (nodes_links _ _) ext

/-- The nodes at the end of a walk are those that it mentions. -/
theorem Replays.listed {kind : GraphKind} {name : Option String} {strict : Bool}
    {w : List Occurrence} (h : (start kind name strict).Replays w d) : d.Listed (mentionsOf w) := by
  refine Replays.keeps (fun w d => d.Listed (mentionsOf w)) []
    (fun fits hd => hd.add fits) h ⟨rfl, fun hv => ?_⟩
  cases hv

end Draft

/-! ## Built models -/

section Built
variable {t : Tree} {kind : GraphKind} {name : Option String} {b : Builder}

/-- The attributes of a node are set by the settings for nodes that stand in front of
its first mention, directly in a body around it, then by the entries of that mention,
and then by those of its later mentions. -/
theorem Tree.node_attrs (h : Runs (Builder.tree t) (.new kind name) () b) {n : NodeRef}
    {v : Node} (hv : b.model.node? n = some v) (ordinary : v.nested = none) :
    ∃ first later, t.mentions.filter (fun o => o.name = v.name) = first :: later ∧
      v.attrs = .ofList (first.scope.entries .node ++ first.attrs ++
        later.flatMap Mention.attrs) := by
  obtain ⟨d, hmodel, hd⟩ := Tree.makes h
  rw [← hmodel] at hv
  obtain ⟨first, later, hms, _, _, hattrs⟩ := hd.replays.listed.node hv ordinary
  exact ⟨first, later, hms, hattrs⟩

theorem Tree.node_attrs_reopened :
    let t : Tree := ⟨false, .digraph, none, [
      .defaults .node [("shape", .ofText "box")],
      .subgraph (some (.ofText "s")) [
        .defaults .node [("color", .ofText "red")],
        .edge (.node ⟨.ofText "a", none⟩) [(.arrow, .node ⟨.ofText "b", none⟩)] []],
      .defaults .node [("shape", .ofText "oval")],
      .node ⟨.ofText "a", none⟩ [("label", .ofText "x")],
      .subgraph (some (.ofText "s")) [.node ⟨.ofText "c", none⟩ []]]⟩
    let v : Node := ⟨"a", ⟨1⟩,
      ⟨[("shape", .ofText "box"), ("color", .ofText "red"), ("label", .ofText "x")]⟩, none⟩
    ∃ b, Runs (Builder.tree t) (.new t.kind (t.name.map Id.value)) () b ∧
      b.model.node? ⟨1⟩ = some v ∧ v.nested = none ∧
        ∃ first later, t.mentions.filter (fun o => o.name = v.name) = first :: later ∧
          v.attrs = .ofList (first.scope.entries .node ++ first.attrs ++
            later.flatMap Mention.attrs) := by
  intro t v
  obtain ⟨b, hrun, hv⟩ := Tree.exists_runs (t := t) (p := fun m => m.node? ⟨1⟩ = some v)
    (by decide +kernel)
  have hv := of_decide_eq_true hv
  exact ⟨b, hrun, hv, rfl, Tree.node_attrs hrun hv rfl⟩

/-- The names of the nodes are the mentioned names, in the order of their first
mentions and each once.  A node is listed by the graph of the body in which its first
mention stands. -/
theorem Tree.nodes_by_first_mention (h : Runs (Builder.tree t) (.new kind name) () b) :
    b.model.ordinaryNodes.map Node.name = (t.mentions.map Mention.name).eraseDups ∧
      ∀ n v, b.model.node? n = some v → v.nested = none →
        ∃ first g, t.mentions.find? (fun o => o.name = v.name) = some first ∧
          v.graph = t.graphRef first.scope.subgraph ∧ b.model.graph? v.graph = some g ∧
            g.name = first.scope.subgraph.elim name SubgraphKey.name ∧
              n ∈ g.nodes.toList := by
  obtain ⟨d, hmodel, hd⟩ := Tree.makes h
  rw [← hmodel]
  have hlisted := hd.replays.listed
  refine ⟨hlisted.names, fun n v hv ho => ?_⟩
  obtain ⟨first, later, hms, hknown, hgraph, _⟩ := hlisted.node hv ho
  obtain ⟨g, hg⟩ := Model.graph?_of_lt (hd.wellFormed.node_graph hv)
  refine ⟨first, g, ?_, ?_, hg, ?_, ?_⟩
  · rw [← List.head?_filter]
    exact congrArg List.head? hms
  · rw [hgraph, hd.ref_eq]
  · rw [← Model.nameOf_eq hg, hgraph, hd.nameOf_ref hknown]
  · exact (hd.wellFormed.mem_nodes hg).2 ⟨v, hv, rfl⟩

theorem Tree.nodes_by_first_mention_reopened :
    let t : Tree := ⟨false, .digraph, some (.ofText "g"), [
      .edge (.subgraph (some (.ofText "s")) [.node ⟨.ofText "a", none⟩ []])
        [(.arrow, .subgraph none [.node ⟨.ofText "b", none⟩ [], .node ⟨.ofText "a", none⟩ []])] [],
      .node ⟨.ofText "c", none⟩ [],
      .subgraph (some (.ofText "s")) [.node ⟨.ofText "c", none⟩ [], .node ⟨.ofText "d", none⟩ []]]⟩
    ∃ b, Runs (Builder.tree t) (.new t.kind (t.name.map Id.value)) () b ∧
      b.model.ordinaryNodes.map Node.name = (t.mentions.map Mention.name).eraseDups ∧
        ∀ n v, b.model.node? n = some v → v.nested = none →
          ∃ first g, t.mentions.find? (fun o => o.name = v.name) = some first ∧
            v.graph = t.graphRef first.scope.subgraph ∧ b.model.graph? v.graph = some g ∧
              g.name = first.scope.subgraph.elim (t.name.map Id.value) SubgraphKey.name ∧
                n ∈ g.nodes.toList := by
  intro t
  obtain ⟨b, hrun, _⟩ := Tree.exists_runs (t := t) (p := fun _ => true) (by decide +kernel)
  exact ⟨b, hrun, Tree.nodes_by_first_mention hrun⟩

end Built

end DotLang
