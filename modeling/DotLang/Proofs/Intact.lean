import DotLang.Proofs.Arena
import DotLang.Proofs.BuilderSteps
import DotLang.Proofs.NameTable
/-!
# Intact states of the builder

The builder keeps references to its model: the present graph, the tables of names, the
members of open and of closed subgraphs, and the ends of edges.  A state is intact if
those to graphs are in range and those to nodes mean nodes that hold no graph, and
sound if its model is well-formed as well.

Every change that the builder makes keeps a state sound.  None of them needs to know
how many scopes, frames or bodies are open, so this holds of the state that a failed
visit leaves behind, too.
-/

namespace DotLang

/-- The reference means a node that holds no graph. -/
def Model.Ordinary (m : Model) (n : NodeRef) : Prop :=
  ∃ v, m.node? n = some v ∧ v.nested = none

section Model
variable {m m' m1 : Model} {n : NodeRef}

theorem Model.Ordinary.lt (h : m.Ordinary n) : n.index < m.nodes.size := by
  obtain ⟨v, hv, _⟩ := h
  exact Model.node?_lt hv

theorem Model.Ordinary.of_bare_eq (he : m.bare = m'.bare) (h : m.Ordinary n) :
    m'.Ordinary n := by
  obtain ⟨v, hv, hn⟩ := h
  obtain ⟨v', hv', hb⟩ := Model.node?_of_bare_eq he.symm hv
  obtain ⟨_, _, hnested⟩ := Node.bare_eq.1 hb
  exact ⟨v', hv', hnested.trans hn⟩

theorem Model.Ordinary.pushNode (h : m.Ordinary n) (g : GraphRef) (name : String)
    (attrs : Attributes) (nested : Option GraphRef) :
    (m.pushNode g name attrs nested).Ordinary n := by
  obtain ⟨v, hv, hn⟩ := h
  exact ⟨v, Model.node?_pushNode_of hv, hn⟩

/-- A new node without a graph. -/
theorem Model.ordinary_addNode (m : Model) (g : GraphRef) (name : String) (attrs : Attributes) :
    (m.addNode g name attrs).2.Ordinary ⟨m.nodes.size⟩ := by
  refine ⟨⟨name, g, attrs, none⟩, ?_, rfl⟩
  show (m.pushNode g name attrs none).node? _ = _
  rw [Model.node?_pushNode, if_pos rfl]

end Model

namespace Builder

/-- What the builder refers to is there. -/
structure Intact (b : Builder) : Prop where
  current : b.current.index < b.model.graphs.size
  nodes : ∀ p ∈ b.nodes.flat, b.model.Ordinary p.2
  subgraphs : ∀ p ∈ b.subgraphs.flat, p.2.index < b.model.graphs.size
  opened : ∀ ms ∈ b.opened, ∀ n ∈ ms, b.model.Ordinary n
  closed : ∀ c ∈ b.closed, ∀ n ∈ c.2, b.model.Ordinary n

/-- What the builder refers to is there, and its model is well-formed. -/
structure Sound (b : Builder) : Prop extends b.Intact where
  model : b.model.WellFormed
  ends : ∀ {e v}, b.model.edge? e = some v →
    b.model.Ordinary v.source ∧ b.model.Ordinary v.target

variable {b : Builder} {n : NodeRef} {g : GraphRef} {name : String}

/-! ## What is found -/

/-- A node that is found by its name holds no graph. -/
theorem Intact.ordinary (h : b.Intact) (hn : b.nodes.find? name = some n) :
    b.model.Ordinary n :=
  h.nodes _ (Names.mem_flat_of_find? hn)

/-- A subgraph that is found by its name is in the model. -/
theorem Intact.graph_lt (h : b.Intact) (hg : b.subgraphs.find? name = some g) :
    g.index < b.model.graphs.size :=
  h.subgraphs _ (Names.mem_flat_of_find? hg)

/-- The members of the innermost open subgraph hold no graph. -/
theorem Intact.innermost (h : b.Intact) : ∀ n ∈ b.opened.headD [], b.model.Ordinary n := by
  intro n hn
  cases ho : b.opened with
  | nil =>
      rw [ho] at hn
      cases hn
  | cons ms rest =>
      rw [ho] at hn
      exact h.opened ms (ho ▸ List.mem_cons_self) n hn

/-! ## Changes keep a state sound -/

theorem Sound.mentioned (h : b.Sound) (hn : b.model.Ordinary n) : (b.mentioned n).Sound := by
  unfold Builder.mentioned
  cases ho : b.opened with
  | nil => exact h
  | cons ms rest =>
      refine ⟨⟨h.current, h.nodes, h.subgraphs, ?_, h.closed⟩, h.model, h.ends⟩
      intro ms' hms k hk
      rcases List.mem_cons.1 hms with hms | hms
      · subst hms
        unfold Members.add at hk
        split at hk
        · exact h.opened ms (ho ▸ List.mem_cons_self) k hk
        · rcases List.mem_append.1 hk with hk | hk
          · exact h.opened ms (ho ▸ List.mem_cons_self) k hk
          · exact List.mem_singleton.1 hk ▸ hn
      · exact h.opened ms' (ho ▸ List.mem_cons_of_mem _ hms) k hk

/-- A change of attributes and defaults. -/
theorem Sound.of_bare_eq (h : b.Sound) {m : Model} (he : b.model.bare = m.bare)
    (defaults : Defaults) : Sound { b with model := m, defaults := defaults } where
  model := h.model.of_bare_eq he
  current := (Model.graphs_size_of_bare_eq he) ▸ h.current
  nodes := fun p hp => (h.nodes p hp).of_bare_eq he
  subgraphs := fun p hp => (Model.graphs_size_of_bare_eq he) ▸ h.subgraphs p hp
  opened := fun ms hms k hk => (h.opened ms hms k hk).of_bare_eq he
  closed := fun c hc k hk => (h.closed c hc k hk).of_bare_eq he
  ends := by
    intro e v hv
    obtain ⟨v', hv', hb⟩ := Model.edge?_of_bare_eq he hv
    obtain ⟨hsource, htarget, _⟩ := Edge.bare_eq.1 hb
    rw [← hsource, ← htarget]
    exact (h.ends hv').imp (·.of_bare_eq he) (·.of_bare_eq he)

theorem bare_merged (n : NodeRef) (attrs : AttrList) (b : Builder) :
    b.model.bare = (b.merged n attrs).model.bare :=
  (Model.bare_modifyNodeAttrs _ _ _).symm

theorem bare_defaulted (element : Element) (attrs : AttrList) (b : Builder) :
    b.model.bare = (b.defaulted element attrs).model.bare := by
  unfold defaulted
  split
  · exact (Model.bare_modifyGraphAttrs _ _ _).symm
  · rfl

theorem Sound.merged (h : b.Sound) (n : NodeRef) (attrs : AttrList) : (b.merged n attrs).Sound :=
  h.of_bare_eq (bare_merged n attrs b) b.defaults

theorem Sound.defaulted (h : b.Sound) (element : Element) (attrs : AttrList) :
    (b.defaulted element attrs).Sound :=
  h.of_bare_eq (bare_defaulted element attrs b) (b.defaults.set element attrs)

theorem Sound.reported (h : b.Sound) (e : LogEvent) : (b.reported e).Sound :=
  ⟨⟨h.current, h.nodes, h.subgraphs, h.opened, h.closed⟩, h.model, h.ends⟩

theorem Sound.created (h : b.Sound) (name : String) (attrs : AttrList) :
    (b.created name attrs).Sound where
  model := h.model.addNode h.current name _
  current := by
    show _ < (b.model.pushNode b.current name _ none).graphs.size
    rw [Model.graphs_size_pushNode]
    exact h.current
  nodes := by
    intro p hp
    rcases List.mem_cons.1 (Names.flat_insert .. ▸ hp) with rfl | hp
    · exact b.model.ordinary_addNode b.current name _
    · exact (h.nodes p hp).pushNode _ _ _ _
  subgraphs := by
    intro p hp
    show _ < (b.model.pushNode b.current name _ none).graphs.size
    rw [Model.graphs_size_pushNode]
    exact h.subgraphs p hp
  opened := fun ms hms k hk => (h.opened ms hms k hk).pushNode _ _ _ _
  closed := fun c hc k hk => (h.closed c hc k hk).pushNode _ _ _ _
  ends := fun hv => (h.ends hv).imp (·.pushNode _ _ _ _) (·.pushNode _ _ _ _)

theorem Sound.joined (h : b.Sound) {tail head : NodeRef} (ht : b.model.Ordinary tail)
    (hh : b.model.Ordinary head) (attrs : Attributes) : (b.joined attrs tail head).Sound where
  model := h.model.addEdge h.current ht.lt hh.lt attrs
  current := by
    show _ < (b.model.addEdge b.current tail head attrs).2.graphs.size
    rw [Model.graphs_size_addEdge]
    exact h.current
  nodes := h.nodes
  subgraphs := by
    intro p hp
    show _ < (b.model.addEdge b.current tail head attrs).2.graphs.size
    rw [Model.graphs_size_addEdge]
    exact h.subgraphs p hp
  opened := h.opened
  closed := h.closed
  ends := by
    intro e v hv
    rcases Model.edge?_addEdge_eq_some hv with hv | hv
    · obtain ⟨_, rfl⟩ := hv
      exact ⟨ht, hh⟩
    · exact h.ends hv

/-- A new subgraph is known by its name, if it has one. -/
theorem mem_subgraphs_nested {name : Option String} {n : String} {g : GraphRef} :
    (n, g) ∈ (b.nested name).subgraphs.flat ↔
      (name = some n ∧ g = ⟨b.model.graphs.size⟩) ∨ (n, g) ∈ b.subgraphs.flat := by
  cases name with
  | none => simp [Builder.nested]
  | some n' => simp [Builder.nested, eq_comm]

theorem graphs_size_nested (name : Option String) (b : Builder) :
    (b.nested name).model.graphs.size = b.model.graphs.size + 1 :=
  Model.graphs_size_addSubgraph _ _ _ _ _

theorem Sound.nested (h : b.Sound) (name : Option String) : (b.nested name).Sound where
  model := h.model.addSubgraph h.current _ name _
  current := by
    rw [graphs_size_nested]
    exact Nat.lt_succ_of_lt h.current
  nodes := fun p hp => (h.nodes p hp).pushNode _ _ _ _
  subgraphs := by
    intro p hp
    rw [graphs_size_nested]
    rcases mem_subgraphs_nested.1 hp with ⟨_, hg⟩ | hp
    · rw [hg]
      exact Nat.lt_succ_self _
    · exact Nat.lt_succ_of_lt (h.subgraphs p hp)
  opened := fun ms hms k hk => (h.opened ms hms k hk).pushNode _ _ _ _
  closed := fun c hc k hk => (h.closed c hc k hk).pushNode _ _ _ _
  ends := fun hv => (h.ends hv).imp (·.pushNode _ _ _ _) (·.pushNode _ _ _ _)

theorem mem_of_lookup_eq_some {l : List (GraphRef × Members)} {ms : Members}
    (h : l.lookup g = some ms) : (g, ms) ∈ l := by
  obtain ⟨_, _, rfl, _⟩ := List.lookup_eq_some_iff.1 h
  exact List.mem_append_right _ List.mem_cons_self

theorem Sound.entered (h : b.Sound) (hg : g.index < b.model.graphs.size) :
    (b.entered g).Sound where
  model := h.model
  current := hg
  nodes := h.nodes
  subgraphs := h.subgraphs
  opened := by
    intro ms hms k hk
    rcases List.mem_cons.1 hms with hms | hms
    · subst hms
      cases hl : b.closed.lookup g with
      | none =>
          rw [hl] at hk
          cases hk
      | some ms =>
          rw [hl] at hk
          exact h.closed _ (mem_of_lookup_eq_some hl) k hk
    · exact h.opened ms hms k hk
  closed := fun c hc => h.closed c (List.mem_filter.1 hc).1
  ends := h.ends

theorem Sound.left (h : b.Sound) (hg : g.index < b.model.graphs.size) (defaults : Defaults) :
    (b.left g defaults).Sound where
  model := h.model
  current := hg
  nodes := fun p hp => h.nodes p (Names.mem_flat_of_hoist hp)
  subgraphs := fun p hp => h.subgraphs p (Names.mem_flat_of_hoist hp)
  opened := fun ms hms => h.opened ms (List.mem_of_mem_tail hms)
  closed := h.closed
  ends := h.ends

theorem Sound.kept (h : b.Sound) {ms : Members} (hms : ∀ n ∈ ms, b.model.Ordinary n)
    (name : Option String) (g : GraphRef) : (b.kept name g ms).Sound := by
  unfold Builder.kept
  split
  · refine ⟨⟨h.current, h.nodes, h.subgraphs, h.opened, ?_⟩, h.model, h.ends⟩
    intro c hc
    rcases List.mem_cons.1 hc with hc | hc
    · subst hc
      exact hms
    · exact h.closed c (List.mem_filter.1 hc).1
  · exact h

/-! ## Starts and ends of visits -/

theorem sound_new (kind : GraphKind) (name : Option String) : (new kind name).Sound where
  model := Model.wellFormed_new kind name
  current := Nat.zero_lt_one
  nodes := fun _ hp => absurd hp List.not_mem_nil
  subgraphs := fun _ hp => absurd hp List.not_mem_nil
  opened := fun _ hms => absurd hms List.not_mem_nil
  closed := fun _ hc => absurd hc List.not_mem_nil
  ends := by
    intro e v hv
    cases hv

theorem Sound.started (h : b.Sound) (strict : Bool) : (b.started strict).Sound where
  model := by
    refine h.model.of_bare_eq ?_
    rfl
  current := h.current
  nodes := h.nodes
  subgraphs := h.subgraphs
  opened := h.opened
  closed := h.closed
  ends := h.ends

/-- Behind the body of a top-level graph its names are dropped. -/
theorem Sound.dropped (h : b.Sound) :
    Sound { b with nodes := b.nodes.drop, subgraphs := b.subgraphs.drop } where
  model := h.model
  current := h.current
  nodes := fun p hp => h.nodes p (Names.mem_flat_of_drop hp)
  subgraphs := fun p hp => h.subgraphs p (Names.mem_flat_of_drop hp)
  opened := h.opened
  closed := h.closed
  ends := h.ends

end Builder

end DotLang
