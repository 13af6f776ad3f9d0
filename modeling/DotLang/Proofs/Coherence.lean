import DotLang.Proofs.Intact
/-!
# Builder and model agree

While a graph is built, the tables of names are an index of the model: the table
of nodes has just the nodes that hold no graph, and the table of subgraphs just
the graphs other than the root.  Whatever the builder keeps of nodes (members of
bodies, ends of edges) refers to nodes that hold no graph.  `Builder.Coherent`
says this of a state.

A visit keeps it, and leaves all that is open as it was: the present graph, the
frames of defaults, the scopes of names and the bodies.  `Builder.Keeps` says
this of two states, and `body_keeps` of every run.
-/

namespace DotLang

section Model
variable {m m' : Model} {g : GraphRef}

theorem Model.nameOf_of_bare_eq (he : m.bare = m'.bare) (g : GraphRef) :
    m'.nameOf g = m.nameOf g := by
  have h := Model.graph?_bare m g
  rw [he, Model.graph?_bare] at h
  unfold Model.nameOf
  cases hs : m.graph? g with
  | none =>
      rw [hs] at h
      rw [Option.map_eq_none_iff.1 h]
  | some s =>
      rw [hs] at h
      obtain ⟨s', hs', hb⟩ := Option.map_eq_some_iff.1 h
      rw [hs']
      exact (Subgraph.bare_eq.1 hb).1

theorem Model.nameOf_pushNode (m : Model) (g h : GraphRef) (name : String) (attrs : Attributes)
    (nested : Option GraphRef) : (m.pushNode g name attrs nested).nameOf h = m.nameOf h := by
  unfold Model.nameOf
  rw [Model.graph?_pushNode]
  split
  · cases m.graph? h <;> rfl
  · rfl

theorem Model.nameOf_addEdge (m : Model) (g h : GraphRef) (source target : NodeRef)
    (attrs : Attributes) : (m.addEdge g source target attrs).2.nameOf h = m.nameOf h := by
  unfold Model.nameOf
  rw [Model.graph?_addEdge]
  split
  · cases m.graph? h <;> rfl
  · rfl

theorem Model.nameOf_addSubgraph (m : Model) (g h : GraphRef) (nodeName : String)
    (name : Option String) (attrs : Attributes) :
    (m.addSubgraph g nodeName name attrs).2.2.nameOf h =
      if h.index = m.graphs.size then name else m.nameOf h := by
  unfold Model.nameOf
  rw [Model.graph?_addSubgraph]
  split
  · rfl
  · exact Model.nameOf_pushNode m g h nodeName .empty _

end Model

namespace Builder

/-- The tables and lists of the builder agree with its model. -/
structure Coherent (b : Builder) : Prop where
  model : b.model.WellFormed
  current : b.current.index < b.model.graphs.size
  node_names : b.nodes.Distinct
  nodes : ∀ {name n}, (name, n) ∈ b.nodes.flat ↔
    ∃ v, b.model.node? n = some v ∧ v.nested = none ∧ v.name = name
  subgraph_names : b.subgraphs.Distinct
  subgraphs : ∀ {name g}, (name, g) ∈ b.subgraphs.flat ↔
    g ≠ Model.root ∧ b.model.nameOf g = some name
  opened : ∀ ms ∈ b.opened, ∀ n ∈ ms, b.model.Ordinary n
  closed : ∀ c ∈ b.closed, ∀ n ∈ c.2, b.model.Ordinary n
  ends : ∀ {e v}, b.model.edge? e = some v →
    b.model.Ordinary v.source ∧ b.model.Ordinary v.target
  node_depth : 1 ≤ b.nodes.depth
  subgraph_depth : 1 ≤ b.subgraphs.depth

variable {b b' b1 b2 : Builder} {n : NodeRef} {g : GraphRef} {name : String}

/-- Where the tables are an index of the model, what they refer to is there. -/
theorem Coherent.sound (h : b.Coherent) : b.Sound where
  model := h.model
  current := h.current
  nodes := fun p hp =>
    let ⟨v, hv, ho, _⟩ := h.nodes.1 hp
    ⟨v, hv, ho⟩
  subgraphs := fun p hp => by
    obtain ⟨_, hname⟩ := h.subgraphs.1 hp
    obtain ⟨s, hs, _⟩ := Option.bind_eq_some_iff.1 hname
    exact Model.graph?_lt hs
  opened := h.opened
  closed := h.closed
  ends := h.ends

/-! ## Changes keep the agreement -/

theorem Coherent.mentioned (h : b.Coherent) (hn : b.model.Ordinary n) :
    (b.mentioned n).Coherent := by
  have hs := h.sound.mentioned hn
  unfold Builder.mentioned at hs ⊢
  split at hs
  · exact h
  · exact ⟨h.model, h.current, h.node_names, h.nodes, h.subgraph_names, h.subgraphs, hs.opened,
      h.closed, h.ends, h.node_depth, h.subgraph_depth⟩

/-- A change of attributes and defaults. -/
theorem Coherent.of_bare_eq (h : b.Coherent) {m : Model} (he : b.model.bare = m.bare)
    (defaults : Defaults) : Coherent { b with model := m, defaults := defaults } where
  model := (h.sound.of_bare_eq he defaults).model
  current := (h.sound.of_bare_eq he defaults).current
  node_names := h.node_names
  nodes := by
    intro name n
    refine h.nodes.trans ⟨?_, ?_⟩
    · rintro ⟨v, hv, hn, hname⟩
      obtain ⟨v', hv', hb⟩ := Model.node?_of_bare_eq he.symm hv
      obtain ⟨hname', _, hnested⟩ := Node.bare_eq.1 hb
      exact ⟨v', hv', hnested.trans hn, hname'.trans hname⟩
    · rintro ⟨v, hv, hn, hname⟩
      obtain ⟨v', hv', hb⟩ := Model.node?_of_bare_eq he hv
      obtain ⟨hname', _, hnested⟩ := Node.bare_eq.1 hb
      exact ⟨v', hv', hnested.trans hn, hname'.trans hname⟩
  subgraph_names := h.subgraph_names
  subgraphs := by
    intro name g
    show _ ↔ g ≠ Model.root ∧ m.nameOf g = some name
    rw [Model.nameOf_of_bare_eq he]
    exact h.subgraphs
  opened := (h.sound.of_bare_eq he defaults).opened
  closed := (h.sound.of_bare_eq he defaults).closed
  ends := (h.sound.of_bare_eq he defaults).ends
  node_depth := h.node_depth
  subgraph_depth := h.subgraph_depth

theorem Coherent.merged (h : b.Coherent) (n : NodeRef) (attrs : AttrList) :
    (b.merged n attrs).Coherent :=
  h.of_bare_eq (bare_merged n attrs b) b.defaults

theorem Coherent.defaulted (h : b.Coherent) (element : Element) (attrs : AttrList) :
    (b.defaulted element attrs).Coherent :=
  h.of_bare_eq (bare_defaulted element attrs b) (b.defaults.set element attrs)

theorem Coherent.reported (h : b.Coherent) (e : LogEvent) : (b.reported e).Coherent :=
  ⟨h.model, h.current, h.node_names, h.nodes, h.subgraph_names, h.subgraphs, h.opened, h.closed,
    h.ends, h.node_depth, h.subgraph_depth⟩

theorem Coherent.created (h : b.Coherent) (hn : b.nodes.find? name = none) (attrs : AttrList) :
    (b.created name attrs).Coherent where
  model := (h.sound.created name attrs).model
  current := (h.sound.created name attrs).current
  node_names := h.node_names.insert hn
  nodes := by
    intro name' n
    show (name', n) ∈ (b.nodes.insert name ⟨b.model.nodes.size⟩).flat ↔
      ∃ v, (b.model.pushNode b.current name _ none).node? n = some v ∧ _
    rw [Names.flat_insert, List.mem_cons, Model.node?_pushNode]
    constructor
    · rintro (he | hm)
      · obtain ⟨rfl, rfl⟩ := Prod.mk.inj he
        exact ⟨_, if_pos rfl, rfl, rfl⟩
      · obtain ⟨v, hv, ho, hname⟩ := h.nodes.1 hm
        exact ⟨v, by rw [if_neg (Nat.ne_of_lt (Model.node?_lt hv)), hv], ho, hname⟩
    · rintro ⟨v, hv, ho, hname⟩
      split at hv
      · next hi =>
          obtain rfl := Option.some.inj hv
          obtain ⟨i⟩ := n
          obtain rfl : i = b.model.nodes.size := hi
          obtain rfl : name = name' := hname
          exact Or.inl rfl
      · exact Or.inr (h.nodes.2 ⟨v, hv, ho, hname⟩)
  subgraph_names := h.subgraph_names
  subgraphs := by
    intro name' g
    show _ ↔ g ≠ Model.root ∧ (b.model.pushNode b.current name _ none).nameOf g = some name'
    rw [Model.nameOf_pushNode]
    exact h.subgraphs
  opened := (h.sound.created name attrs).opened
  closed := (h.sound.created name attrs).closed
  ends := (h.sound.created name attrs).ends
  node_depth := by
    show 1 ≤ (b.nodes.insert name _).depth
    rw [Names.depth_insert h.node_depth]
    exact h.node_depth
  subgraph_depth := h.subgraph_depth

theorem Coherent.joined (h : b.Coherent) {tail head : NodeRef} (ht : b.model.Ordinary tail)
    (hh : b.model.Ordinary head) (attrs : Attributes) : (b.joined attrs tail head).Coherent where
  model := (h.sound.joined ht hh attrs).model
  current := (h.sound.joined ht hh attrs).current
  node_names := h.node_names
  nodes := h.nodes
  subgraph_names := h.subgraph_names
  subgraphs := by
    intro name' g
    show _ ↔ g ≠ Model.root ∧ (b.model.addEdge b.current tail head attrs).2.nameOf g = some name'
    rw [Model.nameOf_addEdge]
    exact h.subgraphs
  opened := h.opened
  closed := h.closed
  ends := (h.sound.joined ht hh attrs).ends
  node_depth := h.node_depth
  subgraph_depth := h.subgraph_depth

/-- The present graph is not the one that a new subgraph becomes. -/
theorem Coherent.current_ne_new (h : b.Coherent) : b.current ≠ ⟨b.model.graphs.size⟩ := by
  intro he
  exact absurd (congrArg GraphRef.index he) (Nat.ne_of_lt h.current)

theorem Coherent.nested (h : b.Coherent) {name : Option String}
    (hn : name.bind b.subgraphs.find? = none) : (b.nested name).Coherent where
  model := (h.sound.nested name).model
  current := (h.sound.nested name).current
  node_names := h.node_names
  nodes := by
    intro name' n
    show _ ↔ ∃ v, (b.model.addSubgraph b.current _ name _).2.2.node? n = some v ∧ _
    rw [Model.node?_addSubgraph]
    refine h.nodes.trans ⟨?_, ?_⟩
    · rintro ⟨v, hv, ho, hname⟩
      exact ⟨v, by rw [if_neg (Nat.ne_of_lt (Model.node?_lt hv)), hv], ho, hname⟩
    · rintro ⟨v, hv, ho, hname⟩
      split at hv
      · obtain rfl := Option.some.inj hv
        cases ho
      · exact ⟨v, hv, ho, hname⟩
  subgraph_names := by
    cases name with
    | none => exact h.subgraph_names
    | some n => exact h.subgraph_names.insert hn
  subgraphs := by
    intro name' g
    rw [mem_subgraphs_nested]
    show _ ↔ g ≠ Model.root ∧ (b.model.addSubgraph b.current _ name _).2.2.nameOf g = some name'
    rw [Model.nameOf_addSubgraph]
    by_cases hg : g.index = b.model.graphs.size
    · rw [if_pos hg]
      have hroot : 0 < b.model.graphs.size := Nat.zero_lt_of_lt h.current
      have hnot : (name', g) ∉ b.subgraphs.flat := by
        intro hm
        have hlt := h.sound.graph_lt (h.subgraph_names.find?_eq_some.2 hm)
        omega
      constructor
      · rintro (⟨hname, _⟩ | hm)
        · refine ⟨?_, hname⟩
          rintro rfl
          exact absurd hg (Nat.ne_of_lt hroot)
        · exact absurd hm hnot
      · rintro ⟨_, hname⟩
        exact Or.inl ⟨hname, congrArg GraphRef.mk hg⟩
    · rw [if_neg hg, ← h.subgraphs]
      constructor
      · rintro (⟨_, rfl⟩ | hm)
        · exact absurd rfl hg
        · exact hm
      · exact Or.inr
  opened := (h.sound.nested name).opened
  closed := (h.sound.nested name).closed
  ends := (h.sound.nested name).ends
  node_depth := h.node_depth
  subgraph_depth := by
    cases name with
    | none => exact h.subgraph_depth
    | some n =>
        show 1 ≤ (b.subgraphs.insert n _).depth
        rw [Names.depth_insert h.subgraph_depth]
        exact h.subgraph_depth

theorem Coherent.entered (h : b.Coherent) (hg : g.index < b.model.graphs.size) :
    (b.entered g).Coherent where
  model := h.model
  current := hg
  node_names := h.node_names
  nodes := h.nodes
  subgraph_names := h.subgraph_names
  subgraphs := h.subgraphs
  opened := (h.sound.entered hg).opened
  closed := (h.sound.entered hg).closed
  ends := h.ends
  node_depth := Nat.le_add_left _ _
  subgraph_depth := Nat.le_add_left _ _

theorem Coherent.left (h : b.Coherent) (hg : g.index < b.model.graphs.size)
    (hn : 2 ≤ b.nodes.depth) (hs : 2 ≤ b.subgraphs.depth) (defaults : Defaults) :
    (b.left g defaults).Coherent where
  model := h.model
  current := hg
  node_names := h.node_names.hoist hn
  nodes := (Names.mem_flat_hoist hn).trans h.nodes
  subgraph_names := h.subgraph_names.hoist hs
  subgraphs := (Names.mem_flat_hoist hs).trans h.subgraphs
  opened := fun ms hms => h.opened ms (List.mem_of_mem_tail hms)
  closed := h.closed
  ends := h.ends
  node_depth := by
    have hd := Names.depth_hoist hn
    show 1 ≤ b.nodes.hoist.depth
    omega
  subgraph_depth := by
    have hd := Names.depth_hoist hs
    show 1 ≤ b.subgraphs.hoist.depth
    omega

theorem mentioned_eq (n : NodeRef) (b : Builder) :
    b.mentioned n = { b with opened := b.opened.modifyHead (·.add n) } := by
  obtain ⟨_, _, _, _, _, opened, _, _, _⟩ := b
  cases opened <;> rfl

theorem mentioned_all (ms : Members) (b : Builder) :
    ms.foldl (fun b n => b.mentioned n) b =
      { b with opened := b.opened.modifyHead fun l => ms.foldl Members.add l } := by
  induction ms generalizing b with
  | nil =>
      show b = { b with opened := b.opened.modifyHead id }
      rw [List.modifyHead_id, id]
  | cons n ms ih =>
      rw [List.foldl_cons, ih, mentioned_eq, List.modifyHead_modifyHead]
      rfl

/-- Mentioning nodes changes the members of the innermost body at most. -/
theorem mentioned_all_eq (ms : Members) (b : Builder) :
    ∃ o, ms.foldl (fun b n => b.mentioned n) b = { b with opened := o } ∧
      o.tail = b.opened.tail ∧ o.length = b.opened.length :=
  ⟨_, mentioned_all ms b, List.tail_modifyHead, List.length_modifyHead⟩

/-- Behind a subgraph its members are passed on and kept, and nothing else
happens. -/
theorem kept_mentioned_eq (name : Option String) (g : GraphRef) (ms : Members) (b : Builder) :
    ∃ opened closed, (ms.foldl (fun b n => b.mentioned n) b).kept name g ms =
      { b with opened := opened, closed := closed } := by
  obtain ⟨o, he, _, _⟩ := mentioned_all_eq ms b
  rw [he]
  unfold Builder.kept
  split
  · exact ⟨_, _, rfl⟩
  · exact ⟨_, _, rfl⟩

theorem Coherent.mentioned_all (h : b.Coherent) {ms : Members}
    (hms : ∀ n ∈ ms, b.model.Ordinary n) :
    (ms.foldl (fun b n => b.mentioned n) b).Coherent := by
  induction ms generalizing b with
  | nil => exact h
  | cons n ms ih =>
      have hmodel : (b.mentioned n).model = b.model := by
        unfold Builder.mentioned
        split <;> rfl
      refine ih (h.mentioned (hms n List.mem_cons_self)) fun k hk => ?_
      rw [hmodel]
      exact hms k (List.mem_cons_of_mem _ hk)

theorem Coherent.kept (h : b.Coherent) {ms : Members} (hms : ∀ n ∈ ms, b.model.Ordinary n)
    (name : Option String) (g : GraphRef) : (b.kept name g ms).Coherent := by
  have hs := h.sound.kept hms name g
  unfold Builder.kept at hs ⊢
  by_cases hname : name.isSome
  · rw [if_pos hname] at hs ⊢
    exact ⟨h.model, h.current, h.node_names, h.nodes, h.subgraph_names, h.subgraphs, h.opened,
      hs.closed, h.ends, h.node_depth, h.subgraph_depth⟩
  · rw [if_neg hname]
    exact h

/-! ## Visits keep what is open -/

/-- What a visit leaves as it was, and what it does not take away. -/
structure Balanced (b b' : Builder) : Prop where
  current : b'.current = b.current
  outer : b'.defaults.outer = b.defaults.outer
  node_depth : b'.nodes.depth = b.nodes.depth
  subgraph_depth : b'.subgraphs.depth = b.subgraphs.depth
  opened_tail : b'.opened.tail = b.opened.tail
  opened_length : b'.opened.length = b.opened.length
  graphs : b.model.graphs.size ≤ b'.model.graphs.size
  ordinary : ∀ {n}, b.model.Ordinary n → b'.model.Ordinary n

theorem Balanced.refl (b : Builder) : Balanced b b :=
  ⟨rfl, rfl, rfl, rfl, rfl, rfl, Nat.le_refl _, id⟩

theorem Balanced.trans (h : Balanced b b1) (h' : Balanced b1 b2) : Balanced b b2 :=
  ⟨h'.current.trans h.current, h'.outer.trans h.outer, h'.node_depth.trans h.node_depth,
    h'.subgraph_depth.trans h.subgraph_depth, h'.opened_tail.trans h.opened_tail,
    h'.opened_length.trans h.opened_length, Nat.le_trans h.graphs h'.graphs,
    fun hn => h'.ordinary (h.ordinary hn)⟩

theorem balanced_merged (n : NodeRef) (attrs : AttrList) (b : Builder) :
    Balanced b (b.merged n attrs) :=
  ⟨rfl, rfl, rfl, rfl, rfl, rfl, Nat.le_of_eq (Model.graphs_size_of_bare_eq (bare_merged n attrs b)),
    fun hk => hk.of_bare_eq (bare_merged n attrs b)⟩

theorem balanced_created (h : 1 ≤ b.nodes.depth) (name : String) (attrs : AttrList) :
    Balanced b (b.created name attrs) :=
  ⟨rfl, rfl, Names.depth_insert h _ _, rfl, rfl, rfl,
    Nat.le_of_eq (Model.graphs_size_pushNode _ _ _ _ _).symm, fun hk => hk.pushNode _ _ _ _⟩

theorem balanced_mentioned_all (ms : Members) (b : Builder) :
    Balanced b (ms.foldl (fun b n => b.mentioned n) b) := by
  obtain ⟨o, he, ht, hl⟩ := mentioned_all_eq ms b
  rw [he]
  exact ⟨rfl, rfl, rfl, rfl, ht, hl, Nat.le_refl _, id⟩

theorem balanced_defaulted (element : Element) (attrs : AttrList) (b : Builder) :
    Balanced b (b.defaulted element attrs) :=
  ⟨rfl, rfl, rfl, rfl, rfl, rfl,
    Nat.le_of_eq (Model.graphs_size_of_bare_eq (bare_defaulted element attrs b)),
    fun hk => hk.of_bare_eq (bare_defaulted element attrs b)⟩

theorem balanced_joined (attrs : Attributes) (tail head : NodeRef) (b : Builder) :
    Balanced b (b.joined attrs tail head) :=
  ⟨rfl, rfl, rfl, rfl, rfl, rfl, Nat.le_of_eq (Model.graphs_size_addEdge _ _ _ _ _).symm, id⟩

theorem balanced_reported (e : LogEvent) (b : Builder) : Balanced b (b.reported e) :=
  ⟨rfl, rfl, rfl, rfl, rfl, rfl, Nat.le_refl _, id⟩

theorem balanced_nested (h : 1 ≤ b.subgraphs.depth) (name : Option String) :
    Balanced b (b.nested name) where
  current := rfl
  outer := rfl
  node_depth := rfl
  subgraph_depth := by
    cases name with
    | none => rfl
    | some n => exact Names.depth_insert h _ _
  opened_tail := rfl
  opened_length := rfl
  graphs := by
    rw [graphs_size_nested]
    exact Nat.le_succ _
  ordinary := fun hk => hk.pushNode _ _ _ _

theorem balanced_kept (name : Option String) (g : GraphRef) (ms : Members) (b : Builder) :
    Balanced b (b.kept name g ms) := by
  unfold Builder.kept
  split
  · exact ⟨rfl, rfl, rfl, rfl, rfl, rfl, Nat.le_refl _, id⟩
  · exact .refl b

/-- A visit keeps the agreement, and leaves what is open as it was. -/
structure Keeps (b b' : Builder) : Prop where
  coherent : b'.Coherent
  balanced : Balanced b b'

theorem Coherent.keeps (h : b.Coherent) : Keeps b b := ⟨h, .refl b⟩

theorem Keeps.trans (h : Keeps b b1) (h' : Keeps b1 b2) : Keeps b b2 :=
  ⟨h'.coherent, h.balanced.trans h'.balanced⟩

/-! ## Behind the body of a subgraph -/

/-- The body leaves the frames around it, so those before it come back. -/
theorem Balanced.leave? {g : GraphRef} (h : Balanced (b.entered g) b') :
    b'.defaults.leave? = some b.defaults := by
  unfold Defaults.leave?
  rw [h.outer]
  rfl

theorem Balanced.two_le_nodes {g : GraphRef} (h : Balanced (b.entered g) b')
    (hn : 1 ≤ b.nodes.depth) : 2 ≤ b'.nodes.depth := by
  rw [h.node_depth]
  exact Nat.succ_le_succ hn

theorem Balanced.two_le_subgraphs {g : GraphRef} (h : Balanced (b.entered g) b')
    (hs : 1 ≤ b.subgraphs.depth) : 2 ≤ b'.subgraphs.depth := by
  rw [h.subgraph_depth]
  exact Nat.succ_le_succ hs

/-- Behind the body everything around it is as it was in front of it. -/
theorem Balanced.left {g : GraphRef} (h : Balanced (b.entered g) b') (hn : 1 ≤ b.nodes.depth)
    (hs : 1 ≤ b.subgraphs.depth) : Balanced b (b'.left b.current b.defaults) where
  current := rfl
  outer := rfl
  node_depth := Nat.succ_inj.1 ((Names.depth_hoist (h.two_le_nodes hn)).trans h.node_depth)
  subgraph_depth :=
    Nat.succ_inj.1 ((Names.depth_hoist (h.two_le_subgraphs hs)).trans h.subgraph_depth)
  opened_tail := congrArg List.tail h.opened_tail
  opened_length := congrArg List.length h.opened_tail
  graphs := h.graphs
  ordinary := h.ordinary

theorem node_keeps {attrs : AttrList} (h : Runs (node name attrs) b n b') (hc : b.Coherent) :
    Keeps b b' ∧ b'.model.Ordinary n := by
  rcases runs_node.1 h with h | h
  · obtain ⟨hn, rfl⟩ := h
    have ho := (balanced_merged n attrs b).ordinary (hc.sound.ordinary hn)
    have hm := balanced_mentioned_all [n] (b.merged n attrs)
    exact ⟨⟨(hc.merged n attrs).mentioned ho, (balanced_merged n attrs b).trans hm⟩,
      hm.ordinary ho⟩
  · obtain ⟨hn, rfl, rfl⟩ := h
    have ho : (b.created name attrs).model.Ordinary ⟨b.model.nodes.size⟩ :=
      b.model.ordinary_addNode b.current name _
    have hb := balanced_created hc.node_depth name attrs
    have hm := balanced_mentioned_all [⟨b.model.nodes.size⟩] (b.created name attrs)
    exact ⟨⟨(hc.created hn attrs).mentioned ho, hb.trans hm⟩, hm.ordinary ho⟩

theorem setDefaults_keeps (hc : b.Coherent) (element : Element) (attrs : AttrList) :
    Keeps b (b.defaulted element attrs) :=
  ⟨hc.defaulted element attrs, balanced_defaulted element attrs b⟩

theorem connected_keeps {attrs : AttrList} {es : List Endpoint} (h : Connected attrs es b b')
    (hc : b.Coherent) (hes : ∀ e ∈ es, b.model.Ordinary e.node) : Keeps b b' := by
  induction h with
  | refl b => exact hc.keeps
  | @step b b1 b' tail head tail_mem head_mem connect _ ih =>
      obtain ⟨_, resolved, _, _, rfl⟩ := runs_connect.1 connect
      have hk : Keeps b (b.joined resolved tail.node head.node) :=
        ⟨hc.joined (hes tail tail_mem) (hes head head_mem) resolved, balanced_joined _ _ _ b⟩
      exact hk.trans (ih hk.coherent fun e he => hk.balanced.ordinary (hes e he))

theorem openGraph_keeps {name : Option String} (h : Runs (openGraph name) b g b')
    (hc : b.Coherent) : Keeps b b' ∧ g.index < b'.model.graphs.size := by
  rcases runs_openGraph.1 h with h | h
  · obtain ⟨hg, rfl⟩ := h
    obtain ⟨n, rfl, hn⟩ := Option.bind_eq_some_iff.1 hg
    exact ⟨⟨hc.reported _, balanced_reported _ b⟩, hc.sound.graph_lt hn⟩
  · obtain ⟨hg, rfl, rfl⟩ := h
    have hb := balanced_nested hc.subgraph_depth name
    refine ⟨⟨(hc.nested hg).reported _, hb.trans (balanced_reported _ _)⟩, ?_⟩
    show _ < (b.nested name).model.graphs.size
    rw [graphs_size_nested]
    exact Nat.lt_succ_self _

/-- A visited subgraph keeps what its body keeps, and its members are nodes that
hold no graph. -/
theorem subgraph_keeps {name : Option String} {body : Build Unit} {members : Members}
    (h : Runs (subgraph name body) b members b') (hc : b.Coherent)
    (hbody : ∀ {b b'}, Runs body b () b' → b.Coherent → Keeps b b') :
    Keeps b b' ∧ ∀ n ∈ members, b'.model.Ordinary n := by
  obtain ⟨g, b1, b2, defaults, ho, hb, hd, rfl, rfl⟩ := runs_subgraph.1 h
  obtain ⟨hk1, hg⟩ := openGraph_keeps ho hc
  have hk2 := hbody hb (hk1.coherent.entered hg)
  have hbal := hk2.balanced
  obtain rfl : b1.defaults = defaults := Option.some.inj (hbal.leave?.symm.trans hd)
  have hc1 := hk1.coherent
  have hleft : Keeps b1 (b2.left b1.current b1.defaults) :=
    ⟨hk2.coherent.left (Nat.lt_of_lt_of_le hc1.current hbal.graphs)
      (hbal.two_le_nodes hc1.node_depth) (hbal.two_le_subgraphs hc1.subgraph_depth) _,
      hbal.left hc1.node_depth hc1.subgraph_depth⟩
  have hmembers := hk2.coherent.sound.innermost
  have hall := balanced_mentioned_all (b2.opened.headD []) (b2.left b1.current b1.defaults)
  have hkept : Keeps b1 ((b2.opened.headD []).foldl (fun b n => b.mentioned n)
      (b2.left b1.current b1.defaults)) :=
    hleft.trans ⟨hleft.coherent.mentioned_all hmembers, hall⟩
  have hb := balanced_kept name g (b2.opened.headD []) ((b2.opened.headD []).foldl
    (fun b n => b.mentioned n) (b2.left b1.current b1.defaults))
  refine ⟨hk1.trans ⟨hkept.coherent.kept (fun n hn => hall.ordinary (hmembers n hn)) name g, ?_⟩,
    fun n hn => hb.ordinary (hall.ordinary (hmembers n hn))⟩
  exact hkept.balanced.trans hb

mutual

theorem stmt_keeps {b b' : Builder} :
    (s : Stmt) → Runs (stmt s) b () b' → b.Coherent → Keeps b b'
  | .node id attrs, h, hc => by
      obtain ⟨_, n, hn⟩ := runs_stmt_node.1 h
      exact (node_keeps hn hc).1
  | .edge tail hops attrs, h, hc => by
      obtain ⟨_, first, rest, b1, b2, ho, hh, h⟩ := runs_stmt_edge.1 h
      obtain ⟨hk1, hfirst⟩ := operand_keeps tail ho hc
      obtain ⟨hk2, hrest⟩ := heads_keeps hops hh hk1.coherent
      refine (hk1.trans hk2).trans (connected_keeps (connected_chain h) hk2.coherent ?_)
      intro e he
      rw [List.flatten_cons] at he
      rcases List.mem_append.1 he with he | he
      · exact hk2.balanced.ordinary (hfirst e he)
      · exact hrest e he
  | .defaults element attrs, h, hc => by
      obtain ⟨_, rfl⟩ := runs_stmt_defaults.1 h
      exact setDefaults_keeps hc element attrs
  | .subgraph name stmts, h, hc => by
      obtain ⟨members, hs⟩ := runs_stmt_subgraph.1 h
      exact (subgraph_keeps hs hc (body_keeps stmts)).1

theorem operand_keeps {b b' : Builder} {es : List Endpoint} :
    (o : Operand) → Runs (operand o) b es b' → b.Coherent →
      Keeps b b' ∧ ∀ e ∈ es, b'.model.Ordinary e.node
  | .node id, h, hc => by
      obtain ⟨n, hn, rfl⟩ := runs_operand_node.1 h
      obtain ⟨hk, ho⟩ := node_keeps hn hc
      exact ⟨hk, fun e he => List.mem_singleton.1 he ▸ ho⟩
  | .subgraph name stmts, h, hc => by
      obtain ⟨members, hs, _, rfl⟩ := runs_operand_subgraph.1 h
      obtain ⟨hk, hm⟩ := subgraph_keeps hs hc (body_keeps stmts)
      refine ⟨hk, fun e he => ?_⟩
      obtain ⟨n, hn, rfl⟩ := List.mem_map.1 he
      exact hm n hn

theorem heads_keeps {b b' : Builder} {ops : List (List Endpoint)} :
    (hops : List (EdgeOp × Operand)) → Runs (heads hops) b ops b' → b.Coherent →
      Keeps b b' ∧ ∀ e ∈ ops.flatten, b'.model.Ordinary e.node
  | [], h, hc => by
      obtain ⟨rfl, rfl⟩ := runs_heads_nil.1 h
      exact ⟨hc.keeps, fun e he => absurd he List.not_mem_nil⟩
  | (op, head) :: hops, h, hc => by
      obtain ⟨first, rest, b1, ho, hh, rfl⟩ := runs_heads_cons.1 h
      obtain ⟨hk1, hfirst⟩ := operand_keeps head ho hc
      obtain ⟨hk2, hrest⟩ := heads_keeps hops hh hk1.coherent
      refine ⟨hk1.trans hk2, fun e he => ?_⟩
      rw [List.flatten_cons] at he
      rcases List.mem_append.1 he with he | he
      · exact hk2.balanced.ordinary (hfirst e he)
      · exact hrest e he

theorem body_keeps {b b' : Builder} :
    (stmts : List Stmt) → Runs (body stmts) b () b' → b.Coherent → Keeps b b'
  | [], h, hc => by
      rw [runs_body_nil.1 h]
      exact hc.keeps
  | first :: rest, h, hc => by
      obtain ⟨b1, hs, h⟩ := runs_body_cons.1 h
      have hk := stmt_keeps first hs hc
      exact hk.trans (body_keeps rest h hk.coherent)

end

/-- The builder of an empty graph agrees with its model. -/
theorem coherent_started (kind : GraphKind) (name : Option String) (strict : Bool) :
    ((new kind name).started strict).Coherent where
  model := by
    refine (Model.wellFormed_new kind name).of_bare_eq ?_
    rfl
  current := Nat.zero_lt_one
  node_names := List.nodup_nil
  nodes := by
    intro name n
    constructor
    · intro hm
      cases hm
    · rintro ⟨v, hv, _⟩
      cases hv
  subgraph_names := List.nodup_nil
  subgraphs := by
    intro n g
    constructor
    · intro hm
      cases hm
    · rintro ⟨hne, hn⟩
      obtain ⟨_ | i⟩ := g
      · exact absurd rfl hne
      · cases hn
  opened := fun ms hms => absurd hms List.not_mem_nil
  closed := fun c hc => absurd hc List.not_mem_nil
  ends := by
    intro e v hv
    cases hv
  node_depth := Nat.le_refl 1
  subgraph_depth := Nat.le_refl 1

end Builder

end DotLang
