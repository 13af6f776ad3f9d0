import DotLang.Proofs.Coherence
import DotLang.Proofs.Provenance
/-!
# What a visit widens

A visit leaves what is open as it was, and takes no name away.  `Names.Widens` says of a
table that the scopes around the innermost one did not change and that what was found is
still found, and `Builder.Widens` says it of the builder.  `Builder.Resolves` says that the
names of a text are found and its nodes listed.  Both hold behind every visit that succeeds
(`Builder.body_widens`).

A scope that widens a table can be hoisted: it only got names that were not found, so it
hides none of the scopes around it (`Names.Widens.hoist`).  No agreement between the tables
and the model is needed for this.  So it holds as well behind visits that failed and left
their scopes open.
-/

namespace DotLang

/-! ## Tables of names -/

/-- The scopes around the innermost one are the same, and every name that was found is
found. -/
structure Names.Widens {α : Type} (t t' : Names α) : Prop where
  outer : t'.drop = t.drop
  kept : ∀ {name a}, t.find? name = some a → t'.find? name = some a

namespace Names

variable {α : Type} {t t' t1 : Names α} {name : String}

theorem Widens.refl (t : Names α) : t.Widens t := ⟨rfl, id⟩

theorem Widens.trans (h : t.Widens t1) (h' : t1.Widens t') : t.Widens t' :=
  ⟨h'.outer.trans h.outer, fun hf => h'.kept (h.kept hf)⟩

theorem widens_insert (hn : t.find? name = none) (a : α) : t.Widens (t.insert name a) where
  outer := rfl
  kept {k v} hk := by
    rw [find?_insert, if_neg, hk]
    rintro rfl
    cases hn.symm.trans hk

theorem Widens.find?_hoist (h : t.enter.Widens t') (hd : 2 ≤ t'.depth) (name : String) :
    t'.hoist.find? name = t'.find? name := by
  refine Names.find?_hoist hd (fun hf => ?_) name
  rw [h.outer] at hf
  exact h.kept hf

theorem Widens.hoist (h : t.enter.Widens t') (hd : 2 ≤ t'.depth) : t.Widens t'.hoist where
  outer := (drop_hoist hd).trans (congrArg drop h.outer)
  kept hf := (h.find?_hoist hd _).trans (h.kept hf)

end Names

/-! ## Lists of members -/

namespace Members

theorem subset_add (ms : Members) (n : NodeRef) : ms ⊆ ms.add n := by
  unfold add
  split
  · exact List.Subset.refl ms
  · exact List.subset_append_left ms [n]

theorem mem_add (ms : Members) (n : NodeRef) : n ∈ ms.add n := by
  unfold add
  split
  · assumption
  · exact List.mem_concat_self

end Members

namespace Builder

variable {b b' b1 b2 : Builder} {n : NodeRef} {g : GraphRef} {members : Members}
  {ps qs : List Part}

/-! ## What a visit widens -/

/-- The node is a member of the innermost body, if one is open. -/
def Lists (b : Builder) (n : NodeRef) : Prop := ∀ ms ∈ b.opened.head?, n ∈ ms

/-- What is open is as it was, and every name and every member is still there. -/
structure Widens (b b' : Builder) : Prop extends Balanced b b' where
  nodes : b.nodes.Widens b'.nodes
  subgraphs : b.subgraphs.Widens b'.subgraphs
  lists : ∀ {n}, b.Lists n → b'.Lists n

/-- There is a scope for nodes and one for subgraphs. -/
structure Scoped (b : Builder) : Prop where
  node_depth : 1 ≤ b.nodes.depth
  subgraph_depth : 1 ≤ b.subgraphs.depth

/-- The names among the parts are found, and the nodes among them are listed. -/
structure Resolves (ps : List Part) (b : Builder) : Prop where
  nodes : ∀ {k}, .node k ∈ ps → ∃ n, b.nodes.find? k = some n ∧ b.Lists n
  graphs : ∀ {k}, .graph k ∈ ps → ∃ g, b.subgraphs.find? k = some g

theorem Lists.mem_innermost (h : b.Lists n) (ho : b.opened ≠ []) : n ∈ b.opened.headD [] := by
  cases hms : b.opened with
  | nil => exact absurd hms ho
  | cons ms rest => exact h ms (by rw [hms]; rfl)

theorem Widens.refl (b : Builder) : Widens b b := ⟨.refl b, .refl _, .refl _, id⟩

theorem Widens.trans (h : Widens b b1) (h' : Widens b1 b2) : Widens b b2 where
  toBalanced := h.toBalanced.trans h'.toBalanced
  nodes := h.nodes.trans h'.nodes
  subgraphs := h.subgraphs.trans h'.subgraphs
  lists hn := h'.lists (h.lists hn)

theorem Scoped.entered (b : Builder) (g : GraphRef) : (b.entered g).Scoped :=
  ⟨Nat.le_add_left 1 _, Nat.le_add_left 1 _⟩

theorem Scoped.widens (hb : b.Scoped) (h : Widens b b') : b'.Scoped :=
  ⟨h.node_depth ▸ hb.node_depth, h.subgraph_depth ▸ hb.subgraph_depth⟩

theorem Resolves.widens (hr : Resolves ps b) (h : Widens b b') : Resolves ps b' where
  nodes hk :=
    let ⟨n, hn, hl⟩ := hr.nodes hk
    ⟨n, h.nodes.kept hn, h.lists hl⟩
  graphs hk :=
    let ⟨g, hg⟩ := hr.graphs hk
    ⟨g, h.subgraphs.kept hg⟩

theorem Resolves.append (hp : Resolves ps b) (hq : Resolves qs b) : Resolves (ps ++ qs) b where
  nodes hk := (List.mem_append.1 hk).elim hp.nodes hq.nodes
  graphs hk := (List.mem_append.1 hk).elim hp.graphs hq.graphs

theorem resolves_nil (b : Builder) : Resolves [] b := ⟨by simp, by simp⟩

/-- Entries of attributes name nothing. -/
theorem resolves_attrs (element : Element) (attrs : AttrList) (b : Builder) :
    Resolves (AttrList.parts element attrs) b :=
  ⟨by simp [AttrList.parts], by simp [AttrList.parts]⟩

theorem resolves_node {k : String} (hn : b.nodes.find? k = some n) (hl : b.Lists n) :
    Resolves [.node k] b where
  nodes hk := by
    obtain rfl := Part.node.inj (List.mem_singleton.1 hk)
    exact ⟨n, hn, hl⟩
  graphs hk := by cases List.mem_singleton.1 hk

/-- The port of an operand becomes entries of edges. -/
theorem resolves_nodeId {id : NodeId} (h : Resolves [.node id.name.value] b) :
    Resolves id.parts b :=
  Resolves.append h ⟨by simp, by simp⟩

/-! ### Changes that widen -/

/-- A change that leaves the tables of names and the bodies alone. -/
theorem Balanced.widens (h : Balanced b b') (hn : b'.nodes = b.nodes)
    (hs : b'.subgraphs = b.subgraphs) (ho : b'.opened = b.opened) : Widens b b' where
  toBalanced := h
  nodes := hn ▸ .refl _
  subgraphs := hs ▸ .refl _
  lists hl := by
    unfold Lists
    rw [ho]
    exact hl

theorem lists_mentioned (n : NodeRef) (b : Builder) : (b.mentioned n).Lists n := by
  unfold Lists
  rw [mentioned_eq]
  intro ms hms
  obtain ⟨_, _, rfl⟩ := Option.map_eq_some_iff.1 (List.head?_modifyHead ▸ hms)
  exact Members.mem_add _ n

theorem widens_mentioned (n : NodeRef) (b : Builder) : Widens b (b.mentioned n) where
  toBalanced := balanced_mentioned_all [n] b
  nodes := by
    rw [mentioned_eq]
    exact .refl _
  subgraphs := by
    rw [mentioned_eq]
    exact .refl _
  lists {k} hl := by
    unfold Lists
    rw [mentioned_eq]
    intro ms hms
    obtain ⟨l, hm, rfl⟩ := Option.map_eq_some_iff.1 (List.head?_modifyHead ▸ hms)
    exact Members.subset_add l n (hl l hm)

theorem widens_mentioned_all (ms : Members) (b : Builder) :
    Widens b (ms.foldl (fun b n => b.mentioned n) b) := by
  induction ms generalizing b with
  | nil => exact .refl b
  | cons n ms ih => exact (widens_mentioned n b).trans (ih _)

theorem lists_mentioned_all {ms : Members} (hn : n ∈ ms) (b : Builder) :
    (ms.foldl (fun b n => b.mentioned n) b).Lists n := by
  induction ms generalizing b with
  | nil => cases hn
  | cons m ms ih =>
      rcases List.mem_cons.1 hn with rfl | hn
      · exact (widens_mentioned_all ms _).lists (lists_mentioned n b)
      · exact ih hn _

theorem widens_created {name : String} (hn : b.nodes.find? name = none) (hb : b.Scoped)
    (attrs : AttrList) : Widens b (b.created name attrs) where
  toBalanced := balanced_created hb.node_depth name attrs
  nodes := Names.widens_insert hn _
  subgraphs := .refl _
  lists := id

theorem widens_nested {name : Option String} (hn : name.bind b.subgraphs.find? = none)
    (hb : b.Scoped) : Widens b (b.nested name) where
  toBalanced := balanced_nested hb.subgraph_depth name
  nodes := .refl _
  subgraphs := by
    cases name with
    | none => exact .refl _
    | some n => exact Names.widens_insert hn _
  lists := id

theorem kept_eq (name : Option String) (g : GraphRef) (ms : Members) (b : Builder) :
    ∃ closed, b.kept name g ms = { b with closed := closed } := by
  unfold Builder.kept
  split
  · exact ⟨_, rfl⟩
  · exact ⟨_, rfl⟩

theorem widens_kept (name : Option String) (g : GraphRef) (ms : Members) (b : Builder) :
    Widens b (b.kept name g ms) := by
  obtain ⟨closed, he⟩ := kept_eq name g ms b
  exact (balanced_kept name g ms b).widens (he ▸ rfl) (he ▸ rfl) (he ▸ rfl)

/-! ### Steps that widen -/

theorem node_widens {name : String} {attrs : AttrList} (h : Runs (node name attrs) b n b')
    (hb : b.Scoped) : Widens b b' ∧ b'.nodes.find? name = some n ∧ b'.Lists n := by
  rcases runs_node.1 h with h | h
  · obtain ⟨hn, rfl⟩ := h
    have hw := ((balanced_merged n attrs b).widens rfl rfl rfl).trans (widens_mentioned n _)
    exact ⟨hw, hw.nodes.kept hn, lists_mentioned n _⟩
  · obtain ⟨hn, rfl, rfl⟩ := h
    have hm := widens_mentioned ⟨b.model.nodes.size⟩ (b.created name attrs)
    refine ⟨(widens_created hn hb attrs).trans hm, hm.nodes.kept ?_, lists_mentioned _ _⟩
    show (b.nodes.insert name _).find? name = _
    rw [Names.find?_insert, if_pos rfl]

theorem connected_widens {attrs : AttrList} {es : List Endpoint} (h : Connected attrs es b b') :
    Widens b b' := by
  induction h with
  | refl b => exact .refl b
  | step _ _ connect _ ih =>
      obtain ⟨_, resolved, _, _, rfl⟩ := runs_connect.1 connect
      exact ((balanced_joined resolved _ _ _).widens rfl rfl rfl).trans ih

theorem openGraph_widens {name : Option String} (h : Runs (openGraph name) b g b')
    (hb : b.Scoped) :
    Widens b b' ∧ (∀ n ∈ name, b'.subgraphs.find? n = some g) ∧ b'.defaults = b.defaults ∧
      b'.opened = b.opened := by
  rcases runs_openGraph.1 h with h | h
  · obtain ⟨hg, rfl⟩ := h
    refine ⟨(balanced_reported _ b).widens rfl rfl rfl, fun n hn => ?_, rfl, rfl⟩
    obtain rfl := Option.mem_def.1 hn
    exact hg
  · obtain ⟨hg, rfl, rfl⟩ := h
    have hr := (balanced_reported (.created (b.holderName name)) (b.nested name)).widens rfl rfl rfl
    refine ⟨(widens_nested hg hb).trans hr, fun n hn => ?_, rfl, rfl⟩
    obtain rfl := Option.mem_def.1 hn
    show (b.subgraphs.insert n _).find? n = _
    rw [Names.find?_insert, if_pos rfl]

theorem Widens.left (h : Widens (b.entered g) b') (hb : b.Scoped) :
    Widens b (b'.left b.current b.defaults) where
  toBalanced := h.toBalanced.left hb.node_depth hb.subgraph_depth
  nodes := h.nodes.hoist (h.two_le_nodes hb.node_depth)
  subgraphs := h.subgraphs.hoist (h.two_le_subgraphs hb.subgraph_depth)
  lists {n} hl := by
    have hopened : (b'.left b.current b.defaults).opened = b.opened := h.opened_tail
    unfold Lists
    rw [hopened]
    exact hl

/-- What a visit of a subgraph with these parts and members does. -/
structure Visited (ps : List Part) (members : Members) (b b' : Builder) : Prop
    extends Widens b b' where
  defaults : b'.defaults = b.defaults
  opened : b'.opened = b.opened.modifyHead fun ms => members.foldl Members.add ms
  listed : ∀ n ∈ members, b'.Lists n
  mentioned : ∀ {k}, .node k ∈ ps → ∃ n ∈ members, b'.nodes.find? k = some n
  declared : ∀ {k}, .graph k ∈ ps → ∃ g, b'.subgraphs.find? k = some g

theorem Visited.resolves (h : Visited ps members b b') : Resolves ps b' where
  nodes hk :=
    let ⟨n, hn, hfound⟩ := h.mentioned hk
    ⟨n, hfound, h.listed n hn⟩
  graphs := h.declared

theorem subgraph_visited {name : Option Id} {body : Build Unit}
    (h : Runs (subgraph (name.map Id.value) body) b members b') (hb : b.Scoped)
    (hbody : ∀ {b b'}, Runs body b () b' → b.Scoped → Widens b b' ∧ Resolves ps b') :
    Visited (Id.graphParts name ++ ps) members b b' := by
  obtain ⟨g, b1, b2, defaults, ho, hrun, hd, rfl, rfl⟩ := runs_subgraph.1 h
  obtain ⟨hw1, hname, hdefaults, hopened⟩ := openGraph_widens ho hb
  have hb1 := hb.widens hw1
  obtain ⟨hw2, hr2⟩ := hbody hrun (.entered b1 g)
  obtain rfl : b1.defaults = defaults := Option.some.inj (hw2.leave?.symm.trans hd)
  -- Behind the body: its members are passed on and kept.
  obtain ⟨closed, hstate⟩ := kept_eq (name.map Id.value) g (b2.opened.headD [])
    ((b2.opened.headD []).foldl (fun b n => b.mentioned n) (b2.left b1.current b1.defaults))
  have hkept := widens_kept (name.map Id.value) g (b2.opened.headD [])
    ((b2.opened.headD []).foldl (fun b n => b.mentioned n) (b2.left b1.current b1.defaults))
  have hlast := (widens_mentioned_all (b2.opened.headD []) _).trans hkept
  have houter : (b2.left b1.current b1.defaults).opened = b.opened :=
    hw2.opened_tail.trans hopened
  refine ⟨hw1.trans ((hw2.left hb1).trans hlast), ?_, ?_, ?_, ?_, ?_⟩
  · rw [hstate, mentioned_all]
    exact hdefaults
  · rw [hstate, mentioned_all, ← houter]
  · intro n hn
    exact hkept.lists (lists_mentioned_all hn _)
  · intro k hk
    have hk : .node k ∈ ps := by simpa [Id.graphParts] using hk
    obtain ⟨n, hn, hl⟩ := hr2.nodes hk
    have hopen : b2.opened ≠ [] := by
      rw [← List.length_pos_iff, hw2.opened_length]
      exact Nat.succ_pos _
    have hhoist := hw2.nodes.find?_hoist (hw2.two_le_nodes hb1.node_depth) k
    exact ⟨n, hl.mem_innermost hopen, hlast.nodes.kept (hhoist.trans hn)⟩
  · intro k hk
    rcases List.mem_append.1 hk with hk | hk
    · obtain ⟨i, hi, hk⟩ := List.mem_map.1 hk
      obtain rfl := Part.graph.inj hk
      have hfound := hname i.value (Option.mem_map_of_mem _ (Option.mem_toList.1 hi))
      exact ⟨g, ((hw2.left hb1).trans hlast).subgraphs.kept hfound⟩
    · obtain ⟨g', hg'⟩ := hr2.graphs hk
      have hhoist := hw2.subgraphs.find?_hoist (hw2.two_le_subgraphs hb1.subgraph_depth) k
      exact ⟨g', hlast.subgraphs.kept (hhoist.trans hg')⟩

mutual

theorem stmt_widens {b b' : Builder} :
    (s : Stmt) → Runs (stmt s) b () b' → b.Scoped → Widens b b' ∧ Resolves s.parts b'
  | .node id attrs, h, hb => by
      obtain ⟨_, n, hrun⟩ := runs_stmt_node.1 h
      obtain ⟨hw, hn, hl⟩ := node_widens hrun hb
      exact ⟨hw, (resolves_node hn hl).append (resolves_attrs .node attrs b')⟩
  | .edge tail hops attrs, h, hb => by
      obtain ⟨_, first, rest, b1, b2, ho, hh, h⟩ := runs_stmt_edge.1 h
      obtain ⟨hw1, hr1⟩ := operand_widens tail ho hb
      obtain ⟨hw2, hr2⟩ := heads_widens hops hh (hb.widens hw1)
      have hw3 := connected_widens (connected_chain h)
      exact ⟨(hw1.trans hw2).trans hw3,
        (((hr1.widens hw2).append hr2).widens hw3).append (resolves_attrs .edge attrs b')⟩
  | .defaults element attrs, h, hb => by
      obtain ⟨_, rfl⟩ := runs_stmt_defaults.1 h
      exact ⟨(balanced_defaulted element attrs b).widens rfl rfl rfl,
        resolves_attrs element attrs _⟩
  | .subgraph name stmts, h, hb => by
      obtain ⟨members, hs⟩ := runs_stmt_subgraph.1 h
      have hv := subgraph_visited hs hb (body_widens stmts)
      exact ⟨hv.toWidens, hv.resolves⟩

theorem operand_widens {b b' : Builder} {es : List Endpoint} :
    (o : Operand) → Runs (operand o) b es b' → b.Scoped → Widens b b' ∧ Resolves o.parts b'
  | .node id, h, hb => by
      obtain ⟨n, hrun, rfl⟩ := runs_operand_node.1 h
      obtain ⟨hw, hn, hl⟩ := node_widens hrun hb
      exact ⟨hw, resolves_nodeId (resolves_node hn hl)⟩
  | .subgraph name stmts, h, hb => by
      obtain ⟨members, hs, _⟩ := runs_operand_subgraph.1 h
      have hv := subgraph_visited hs hb (body_widens stmts)
      exact ⟨hv.toWidens, hv.resolves⟩

theorem heads_widens {b b' : Builder} {ops : List (List Endpoint)} :
    (hops : List (EdgeOp × Operand)) → Runs (heads hops) b ops b' → b.Scoped →
      Widens b b' ∧ Resolves (Stmt.partsHops hops) b'
  | [], h, hb => by
      obtain ⟨rfl, rfl⟩ := runs_heads_nil.1 h
      exact ⟨.refl _, resolves_nil _⟩
  | (op, head) :: hops, h, hb => by
      obtain ⟨first, rest, b1, ho, hh, rfl⟩ := runs_heads_cons.1 h
      obtain ⟨hw1, hr1⟩ := operand_widens head ho hb
      obtain ⟨hw2, hr2⟩ := heads_widens hops hh (hb.widens hw1)
      exact ⟨hw1.trans hw2, (hr1.widens hw2).append hr2⟩

theorem body_widens {b b' : Builder} :
    (stmts : List Stmt) → Runs (body stmts) b () b' → b.Scoped →
      Widens b b' ∧ Resolves (Stmt.partsBody stmts) b'
  | [], h, hb => by
      obtain rfl := runs_body_nil.1 h
      exact ⟨.refl _, resolves_nil _⟩
  | first :: rest, h, hb => by
      obtain ⟨b1, hs, h⟩ := runs_body_cons.1 h
      obtain ⟨hw1, hr1⟩ := stmt_widens first hs hb
      obtain ⟨hw2, hr2⟩ := body_widens rest h (hb.widens hw1)
      exact ⟨hw1.trans hw2, (hr1.widens hw2).append hr2⟩

end

end Builder

end DotLang
