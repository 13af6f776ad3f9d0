import DotLang.Proofs.Following
/-!
# Graphs follow their first openings

The graphs of a built model are the root and the subgraphs of its text, in the order
in which their first bodies are opened.  Bodies with the same name belong to one
subgraph, and each body without a name is a subgraph of its own, known by a number:
the numbers count from one in the order of opening.

The first opening of a subgraph places the node that holds it, in the graph of the
body around it, and names the node.  Later openings change neither.  `Draft.Placed`
says this of one such node, and `Tree.graphs_by_first_opening` of built models.
-/

namespace DotLang

/-! ## Numbers -/

/-- The numbers of the subgraphs without a name that a walk opens. -/
def numbersOf (w : List Occurrence) : List Nat :=
  (openingsOf w).filterMap fun o => o.key.number?

theorem numbersOf_append (w w' : List Occurrence) :
    numbersOf (w ++ w') = numbersOf w ++ numbersOf w' := by
  unfold numbersOf openingsOf
  rw [List.filterMap_append, List.filterMap_append]

theorem Course.unnamed_closing (outer inner : Course) (name : Option String) :
    (outer.closing inner name).unnamed = inner.unnamed := by
  have hfold : ∀ (names : List String) (c : Course),
      (names.foldl Course.mention c).unnamed = c.unnamed := by
    intro names
    induction names with
    | nil => exact fun _ => rfl
    | cons n names ih => exact fun c => (ih _).trans (c.unnamed_mention n)
  unfold Course.closing
  cases name with
  | none => exact hfold _ _
  | some name => exact hfold _ _

/-- The course `c'` is further on than `c` by the opened numbers, which follow each
other. -/
structure Course.Counts (c : Course) (numbers : List Nat) (c' : Course) : Prop where
  numbers_eq : numbers = List.range' (c.unnamed + 1) numbers.length
  unnamed_eq : c'.unnamed = c.unnamed + numbers.length

namespace Course.Counts

variable {c c1 c' inner : Course} {l l' : List Nat} {name : Option String}

theorem nil (h : c'.unnamed = c.unnamed) : c.Counts [] c' := ⟨rfl, h⟩

theorem append (h : c.Counts l c1) (h' : c1.Counts l' c') : c.Counts (l ++ l') c' := by
  refine ⟨?_, ?_⟩
  · rw [List.length_append, ← List.range'_append_1, ← h.numbers_eq]
    have hl' := h'.numbers_eq
    rw [h.unnamed_eq] at hl'
    rw [show c.unnamed + 1 + l.length = c.unnamed + l.length + 1 by omega, ← hl']
  · rw [h'.unnamed_eq, h.unnamed_eq, List.length_append, Nat.add_assoc]

/-- A subgraph without a name takes the next number. -/
theorem subgraph (h : (c.opening name).Counts l inner) :
    c.Counts ((c.key name).number?.toList ++ l) (c.closing inner name) := by
  cases name with
  | some name => exact ⟨h.numbers_eq, (unnamed_closing _ _ _).trans h.unnamed_eq⟩
  | none =>
      refine ⟨?_, ?_⟩
      · show (c.unnamed + 1) :: l = List.range' (c.unnamed + 1) (l.length + 1)
        rw [List.range'_succ]
        exact congrArg (List.cons _) h.numbers_eq
      · rw [unnamed_closing, h.unnamed_eq]
        show c.unnamed + 1 + l.length = c.unnamed + (l.length + 1)
        omega

end Course.Counts

theorem numbersOf_opening (scope : Scope) (key : SubgraphKey) (w : List Occurrence) :
    numbersOf (⟨scope, .opening key⟩ :: w) = key.number?.toList ++ numbersOf w := by
  show List.filterMap _ (⟨scope, key⟩ :: openingsOf w) = _
  cases key <;> rfl

mutual

theorem Stmt.counts (scope : Scope) (c : Course) :
    (s : Stmt) → c.Counts (numbersOf (s.walk scope c)) (s.course c)
  | .node id attrs => .nil (c.unnamed_mention _)
  | .edge tail hops attrs => by
      have h := (tail.counts scope c).append (Stmt.countsHops scope (tail.course c) hops)
      rw [← numbersOf_append, ← List.append_nil (numbersOf _)] at h
      rw [Stmt.walk, numbersOf_append]
      exact h
  | .defaults element attrs => .nil rfl
  | .subgraph name body => by
      rw [Stmt.walk, Stmt.course, numbersOf_opening]
      exact (Stmt.countsBody _ _ body).subgraph

theorem Operand.counts (scope : Scope) (c : Course) :
    (o : Operand) → c.Counts (numbersOf (o.walk scope c)) (o.course c)
  | .node id => .nil (c.unnamed_mention _)
  | .subgraph name body => by
      rw [Operand.walk, Operand.course, numbersOf_opening]
      exact (Stmt.countsBody _ _ body).subgraph

theorem Stmt.countsHops (scope : Scope) (c : Course) :
    (hops : List (EdgeOp × Operand)) →
      c.Counts (numbersOf (Stmt.walkHops scope c hops)) (Stmt.courseHops c hops)
  | [] => .nil rfl
  | (op, head) :: hops => by
      rw [Stmt.walkHops, numbersOf_append]
      exact (head.counts scope c).append (Stmt.countsHops scope (head.course c) hops)

theorem Stmt.countsBody (scope : Scope) (c : Course) :
    (body : List Stmt) → c.Counts (numbersOf (Stmt.walkBody scope c body)) (Stmt.courseBody c body)
  | [] => .nil rfl
  | first :: rest => by
      rw [Stmt.walkBody, numbersOf_append]
      exact (first.counts scope c).append (Stmt.countsBody _ (first.course c) rest)

end

/-- The subgraphs without a name are numbered from one in the order of opening. -/
theorem Tree.numbers_openings (t : Tree) :
    (t.openings.filterMap fun o => o.key.number?) =
      List.range' 1 (t.openings.countP fun o => o.key.name.isNone) := by
  have h := (Stmt.countsBody .top .start t.body).numbers_eq
  have hlength : (numbersOf t.walk).length = t.openings.countP fun o => o.key.name.isNone := by
    unfold numbersOf
    rw [List.length_filterMap_eq_countP]
    refine List.countP_congr fun o _ => ?_
    cases o.key <;> simp [SubgraphKey.number?, SubgraphKey.name]
  rw [← hlength]
  exact h

/-! ## Nodes that hold graphs -/

namespace Draft

variable {d d' : Draft} {ops : List Opening} {o : Opening} {v : Node} {g : GraphRef}

/-- The node holds the graph of a subgraph and is as the first opening of it says. -/
def Placed (d : Draft) (ops : List Opening) (v : Node) (g : GraphRef) : Prop :=
  ∃ first, ops.find? (fun o => o.key = first.key) = some first ∧ first.key ∈ d.subgraphs ∧
    g = d.ref (some first.key) ∧ d.Knows first.scope.subgraph ∧
      v.graph = d.ref first.scope.subgraph ∧ v.name = first.key.holder ∧ v.attrs = .empty

/-- Every node that holds a graph is placed by an opening. -/
def Holding (d : Draft) (ops : List Opening) : Prop :=
  ∀ {n v g}, d.model.node? n = some v → v.nested = some g → d.Placed ops v g

theorem Placed.extends (h : d.Placed ops v g) (ext : d.Extends d') : d'.Placed ops v g := by
  obtain ⟨first, hops, hkey, rfl, hknown, hgraph, hv⟩ := h
  exact ⟨first, hops, ext.subgraphs.subset hkey, (ext.ref_eq (Draft.knows_some.2 hkey)).symm,
    ext.knows hknown, hgraph.trans (ext.ref_eq hknown).symm, hv⟩

/-- A further opening does not matter. -/
theorem Placed.again (h : d.Placed ops v g) (o : Opening) : d.Placed (ops ++ [o]) v g := by
  obtain ⟨first, hops, h⟩ := h
  refine ⟨first, ?_, h⟩
  rw [List.find?_append, hops]
  rfl

/-! ## Steps -/

theorem Holding.of_nodes (h : d.Holding ops) (nodes : d'.model.nodes = d.model.nodes)
    (ext : d.Extends d') : d'.Holding ops := by
  intro n v g hv hg
  unfold Model.node? at hv
  rw [nodes] at hv
  exact (h hv hg).extends ext

theorem Holding.mention (h : d.Holding ops) (o : Mention) : (d.mention o).Holding ops := by
  intro n v g hv hg
  refine Placed.extends (h (n := n) ?_ hg) (d.extends_mention o)
  cases hn : d.model.findNode? o.name with
  | some k =>
      rw [model_mention_known hn, Model.modifyNodeAttrs, Model.node?_modifyNode] at hv
      split at hv
      · next he =>
          -- The changed node holds no graph.
          subst he
          obtain ⟨u, hu, rfl⟩ := Option.map_eq_some_iff.1 hv
          obtain ⟨u', hu', ho, _⟩ := Model.findNode?_named hn
          obtain rfl := Option.some.inj (hu.symm.trans hu')
          cases ho.symm.trans hg
      · exact hv
  | none =>
      rw [model_mention_new hn] at hv
      rcases Model.node?_pushNode_eq_some hv with ⟨_, rfl⟩ | hv
      · cases hg
      · exact hv

theorem Holding.opening (h : d.Holding ops) (aligned : d.Aligned)
    (subgraphs : d.subgraphs = (ops.map Opening.key).eraseDups)
    (known : d.Knows o.scope.subgraph) : (d.opening o).Holding (ops ++ [o]) := by
  have ext := d.extends_opening o
  intro n v g hv hg
  by_cases hk : o.key ∈ d.subgraphs
  · rw [Draft.opening, if_pos hk] at hv ⊢
    exact (h hv hg).again o
  · have hmem : o.key ∈ (d.opening o).subgraphs := by
      rw [subgraphs_opening, if_neg hk]
      exact List.mem_concat_self
    have hnone : ops.find? (fun p => p.key = o.key) = none := by
      refine List.find?_eq_none.2 fun p hp => ?_
      rw [decide_eq_true_eq]
      intro he
      rw [subgraphs, List.mem_eraseDups] at hk
      exact hk (List.mem_map.2 ⟨p, hp, he⟩)
    rw [Draft.opening, if_neg hk] at hv
    rcases Model.node?_pushNode_eq_some hv with ⟨_, rfl⟩ | hv
    · obtain rfl := Option.some.inj hg
      refine ⟨o, ?_, hmem, (aligned.ref_opening hk).symm, ext.knows known,
        (ext.ref_eq known).symm, rfl, rfl⟩
      rw [List.find?_append, hnone]
      simp
    · exact ((h hv hg).again o).extends ext

theorem Holding.add {w : List Occurrence} {o : Occurrence} (h : d.Holding (openingsOf w))
    (aligned : d.Aligned) (subgraphs : d.subgraphs = subgraphsOf w) (fits : d.Fits o) :
    (d.add o).Holding (openingsOf (w ++ [o])) := by
  obtain ⟨scope, event⟩ := o
  cases event with
  | opening key =>
      rw [openingsOf_concat]
      exact h.opening aligned subgraphs fits.known
  | node name attrs =>
      rw [openingsOf_concat_none w rfl]
      exact h.mention _
  | endpoint name =>
      rw [openingsOf_concat_none w rfl]
      exact h.mention _
  | setting element attrs =>
      rw [openingsOf_concat_none w rfl]
      exact h.of_nodes (nodes_setting d scope element attrs) (d.extends_setting scope element attrs)
  | edges operands attrs =>
      rw [openingsOf_concat_none w rfl]
      exact h.of_nodes (nodes_links _ _) (d.extends_links _)

/-- Every node that holds a graph is placed by an opening of the walk. -/
theorem Replays.holding {kind : GraphKind} {name : Option String} {strict : Bool}
    {w : List Occurrence} (h : (start kind name strict).Replays w d) :
    d.Holding (openingsOf w) := by
  refine (Replays.keeps
    (fun w d => d.Aligned ∧ d.subgraphs = subgraphsOf w ∧ d.Holding (openingsOf w)) [] ?_ h
    ⟨aligned_start kind name strict, rfl, fun hv => ?_⟩).2.2
  · rintro w d o fits ⟨aligned, subgraphs, holding⟩
    exact ⟨aligned.add o, subgraphs_add subgraphs o, holding.add aligned subgraphs fits⟩
  · cases hv

end Draft

/-! ## Built models -/

section Built
variable {t : Tree} {kind : GraphKind} {name : Option String} {b : Builder}

/-- The graphs are the root and the subgraphs in the order in which they are opened
first, where those without a name are numbered in the order of opening.  Each is held by
a node in the graph of the body that its first opening stands in.  The node is named
after the subgraph or by its number, and has no attributes. -/
theorem Tree.graphs_by_first_opening (h : Runs (Builder.tree t) (.new kind name) () b) :
    b.model.graphs.toList.map Subgraph.name = name :: t.subgraphs.map SubgraphKey.name ∧
      (t.openings.filterMap fun o => o.key.number?) =
        List.range' 1 (t.openings.countP fun o => o.key.name.isNone) ∧
      ∀ key ∈ t.subgraphs, ∃ first s n v outer,
        t.openings.find? (fun o => o.key = key) = some first ∧
          b.model.graph? (t.graphRef (some key)) = some s ∧ s.holder = some n ∧
            b.model.node? n = some v ∧ v.nested = some (t.graphRef (some key)) ∧
              v.name = key.holder ∧ v.attrs = .empty ∧
                v.graph = t.graphRef first.scope.subgraph ∧
                  b.model.graph? v.graph = some outer ∧ n ∈ outer.nodes.toList := by
  obtain ⟨d, hmodel, hd⟩ := Tree.makes h
  rw [← hmodel]
  refine ⟨?_, t.numbers_openings, fun key hkey => ?_⟩
  · rw [hd.aligned.names, hd.nameOf_root, hd.subgraphs]
  · rw [← hd.subgraphs, ← Draft.knows_some] at hkey
    obtain ⟨s, hs⟩ := Model.graph?_of_lt (hd.aligned.ref_lt hkey)
    obtain ⟨n, v, hholder, hv, hnested⟩ := hd.wellFormed.held hs (d.ref_ne_root key)
    obtain ⟨first, hfirst, hmem, href, _, hgraph, hname, hattrs⟩ :=
      hd.replays.holding hv hnested
    obtain rfl := Draft.ref_inj hmem href.symm
    obtain ⟨outer, houter⟩ := Model.graph?_of_lt (hd.wellFormed.node_graph hv)
    rw [hd.ref_eq] at hs hnested hgraph
    exact ⟨first, s, n, v, outer, hfirst, hs, hholder, hv, hnested, hname, hattrs, hgraph, houter,
      (hd.wellFormed.mem_nodes houter).2 ⟨v, hv, rfl⟩⟩

theorem Tree.graphs_by_first_opening_nested :
    let t : Tree := ⟨false, .graph, some (.ofText "g"), [
      .subgraph (some (.ofText "s")) [
        .subgraph (some (.ofText "s")) [.node ⟨.ofText "a", none⟩ []],
        .edge (.subgraph none [.node ⟨.ofText "b", none⟩ []])
          [(.line, .subgraph (some (.ofText "r")) [.node ⟨.ofText "c", none⟩ []])] []],
      .subgraph none [.subgraph (some (.ofText "r")) []]]⟩
    ∃ b, Runs (Builder.tree t) (.new t.kind (t.name.map Id.value)) () b ∧
      b.model.graphs.toList.map Subgraph.name =
        t.name.map Id.value :: t.subgraphs.map SubgraphKey.name ∧
      (t.openings.filterMap fun o => o.key.number?) =
        List.range' 1 (t.openings.countP fun o => o.key.name.isNone) ∧
      ∀ key ∈ t.subgraphs, ∃ first s n v outer,
        t.openings.find? (fun o => o.key = key) = some first ∧
          b.model.graph? (t.graphRef (some key)) = some s ∧ s.holder = some n ∧
            b.model.node? n = some v ∧ v.nested = some (t.graphRef (some key)) ∧
              v.name = key.holder ∧ v.attrs = .empty ∧
                v.graph = t.graphRef first.scope.subgraph ∧
                  b.model.graph? v.graph = some outer ∧ n ∈ outer.nodes.toList := by
  intro t
  obtain ⟨b, hrun, _⟩ := Tree.exists_runs (t := t) (p := fun _ => true) (by decide +kernel)
  exact ⟨b, hrun, Tree.graphs_by_first_opening hrun⟩

end Built

end DotLang
