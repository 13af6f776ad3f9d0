import DotLang.Proofs.Declaring
/-!
# Graphs inside graphs

In a well-formed model every graph but the root is held by one node, so the way
from a node outwards is fixed, and a node stands below one node of a graph at
most.  `Model.Under` is that relation.  It follows that the statements that
describe a built model declare every node and every subgraph once, even where
the text that the model was built from opened a subgraph again.
-/

namespace DotLang

/-! ## Names that a body declares -/

mutual

/-- The names of the nodes that the statement declares. -/
def Stmt.declaredNodes : Stmt → List String
  | .node id _ => [id.name.value]
  | .subgraph _ body => Stmt.declaredNodesAll body
  | _ => []

/-- The names of the nodes that the statements of a body declare. -/
def Stmt.declaredNodesAll : List Stmt → List String
  | [] => []
  | first :: rest => first.declaredNodes ++ Stmt.declaredNodesAll rest

end

theorem Stmt.declaredNodesAll_append (stmts more : List Stmt) :
    Stmt.declaredNodesAll (stmts ++ more) =
      Stmt.declaredNodesAll stmts ++ Stmt.declaredNodesAll more := by
  induction stmts with
  | nil => simp [Stmt.declaredNodesAll]
  | cons s stmts ih => simp [Stmt.declaredNodesAll, ih]

theorem declaredNodesAll_attrs (attrs : AttrList) :
    Stmt.declaredNodesAll (attrs.map fun attr => .defaults .graph [attr]) = [] := by
  induction attrs with
  | nil => rfl
  | cons e attrs ih => simp [Stmt.declaredNodesAll, Stmt.declaredNodes, ih]

namespace Model

variable {m : Model} {g : GraphRef} {n k x : NodeRef} {ns visited : List NodeRef} {es : List EdgeRef}
  {stmts : List Stmt}

theorem DescribesEdges.declaredNodes (h : m.DescribesEdges es stmts) :
    Stmt.declaredNodesAll stmts = [] := by
  induction h with
  | nil => rfl
  | cons _ _ _ _ ih => simp [Stmt.declaredNodesAll, Stmt.declaredNodes, ih]

theorem DescribesEdges.graphNames (h : m.DescribesEdges es stmts) :
    graphNames (Stmt.partsBody stmts) = [] := by
  induction h with
  | nil => rfl
  | cons _ _ _ _ ih =>
      rw [Stmt.partsBody, graphNames_append, ih, Stmt.parts, graphNames_append,
        graphNames_entries]
      rfl

/-! ## The way outwards -/

/-- The node is this one, or stands somewhere in the graph that this one holds. -/
inductive Under (m : Model) : NodeRef → NodeRef → Prop
  | refl (n : NodeRef) : Under m n n
  | step {x p n : NodeRef} {v : Node} {s : Subgraph} (node : m.node? x = some v)
      (graph : m.graph? v.graph = some s) (holder : s.holder = some p) (rest : Under m p n) :
      Under m x n

theorem Under.trans (h : m.Under x k) (h' : m.Under k n) : m.Under x n := by
  induction h with
  | refl => exact h'
  | step node graph holder _ ih => exact .step node graph holder (ih h')

/-- The node that holds the graph of a node stands in a graph further ahead. -/
theorem WellFormed.holder_lt (wf : m.WellFormed) {v : Node} {s : Subgraph}
    (graph : m.graph? v.graph = some s) (holder : s.holder = some k) :
    ∃ w, m.node? k = some w ∧ w.graph.index < v.graph.index := by
  have hroot : v.graph ≠ Model.root := by
    intro he
    obtain ⟨r, hr, hnone⟩ := wf.root
    rw [he] at graph
    obtain rfl := Option.some.inj (graph.symm.trans hr)
    rw [hnone] at holder
    cases holder
  obtain ⟨k', w, hk, hw, hn⟩ := wf.held graph hroot
  obtain rfl := Option.some.inj (holder.symm.trans hk)
  exact ⟨w, hw, (wf.nested hw hn).1⟩

/-- A node below another one stands in a graph further back. -/
theorem Under.eq_or_lt (wf : m.WellFormed) (h : m.Under x n) {v w : Node}
    (hv : m.node? x = some v) (hw : m.node? n = some w) :
    x = n ∨ w.graph.index < v.graph.index := by
  induction h generalizing v with
  | refl => exact Or.inl rfl
  | step node graph holder _ ih =>
      obtain rfl := Option.some.inj (hv.symm.trans node)
      obtain ⟨u, hu, hlt⟩ := wf.holder_lt graph holder
      rcases ih hu hw with he | hlt'
      · subst he
        obtain rfl := Option.some.inj (hu.symm.trans hw)
        exact Or.inr hlt
      · exact Or.inr (Nat.lt_trans hlt' hlt)

/-- A node stands below one node of a graph at most. -/
theorem Under.unique (wf : m.WellFormed) (h : m.Under x n) (h' : m.Under x k) {v w : Node}
    (hv : m.node? n = some v) (hw : m.node? k = some w) (same : v.graph = w.graph) : n = k := by
  induction h with
  | refl =>
      rcases h'.eq_or_lt wf hv hw with he | hlt
      · exact he
      · rw [same] at hlt
        exact absurd hlt (Nat.lt_irrefl _)
  | @step x p n u s node graph holder rest ih =>
      cases h' with
      | refl =>
          have hback : m.Under k n := .step node graph holder rest
          rcases hback.eq_or_lt wf hw hv with he | hlt
          · exact he.symm
          · rw [same] at hlt
            exact absurd hlt (Nat.lt_irrefl _)
      | step node' graph' holder' rest' =>
          obtain rfl := Option.some.inj (node.symm.trans node')
          obtain rfl := Option.some.inj (graph.symm.trans graph')
          obtain rfl := Option.some.inj (holder.symm.trans holder')
          exact ih rest' hv

/-- What stands below a node of a graph stands below the holder of the graph, and
is not the holder. -/
theorem WellFormed.under_holder (wf : m.WellFormed) {v : Node} {s : Subgraph}
    (hv : m.node? n = some v) (nested : v.nested = some g) (hs : m.graph? g = some s)
    (hk : k ∈ s.nodes.toList) (below : m.Under x k) : m.Under x n ∧ x ≠ n := by
  obtain ⟨hlt, _, hs', holder⟩ := wf.nested hv nested
  obtain rfl := Option.some.inj (hs.symm.trans hs')
  obtain ⟨w, hw, rfl⟩ := (wf.mem_nodes hs).1 hk
  refine ⟨below.trans (.step hw hs holder (.refl n)), ?_⟩
  rintro rfl
  rcases below.eq_or_lt wf hv hw with he | hlt'
  · subst he
    obtain rfl := Option.some.inj (hv.symm.trans hw)
    exact Nat.lt_irrefl _ hlt
  · exact Nat.lt_asymm hlt hlt'

/-! ## Everything is declared once -/

/-- The name of a node that holds no graph. -/
def ordinaryName? (m : Model) (n : NodeRef) : Option String :=
  (m.node? n).bind fun v => if v.nested = none then some v.name else none

/-- The name of the graph that a node holds. -/
def nestedName? (m : Model) (n : NodeRef) : Option String :=
  (m.node? n).bind fun v => v.nested.bind m.nameOf

/-- The statements declare the names of these nodes, which are all different and
stand below the given ones. -/
structure DeclaresOnce (m : Model) (ns : List NodeRef) (stmts : List Stmt)
    (visited : List NodeRef) : Prop where
  distinct : visited.Nodup
  below : ∀ x ∈ visited, ∃ n ∈ ns, m.Under x n
  nodes : Stmt.declaredNodesAll stmts = visited.filterMap m.ordinaryName?
  subgraphs : graphNames (Stmt.partsBody stmts) = visited.filterMap m.nestedName?

/-- A graph lists no node twice. -/
theorem WellFormed.nodup_nodes (wf : m.WellFormed) {s : Subgraph} (hs : m.graph? g = some s) :
    s.nodes.toList.Nodup := by
  rw [wf.nodes_listed hs]
  refine List.Pairwise.filter _ (List.Pairwise.map _ (fun a b h => ?_) List.nodup_range)
  exact fun he => h (congrArg NodeRef.index he)

/-- Nothing below a further node of the graph is declared by the other nodes. -/
theorem DeclaresOnce.apart (h : m.DeclaresOnce ns stmts visited) (wf : m.WellFormed)
    (hn : ∃ v, m.node? n = some v ∧ v.graph = g)
    (hns : ∀ k ∈ ns, ∃ v, m.node? k = some v ∧ v.graph = g) (hnot : n ∉ ns) :
    ∀ x ∈ visited, ¬ m.Under x n := by
  intro x hx hunder
  obtain ⟨k, hk, hbelow⟩ := h.below x hx
  obtain ⟨v, hv, hg⟩ := hn
  obtain ⟨w, hw, hg'⟩ := hns k hk
  obtain rfl := hunder.unique wf hbelow hv hw (hg.trans hg'.symm)
  exact hnot hk

theorem DeclaresOnce.node (h : m.DeclaresOnce ns stmts visited)
    (apart : ∀ x ∈ visited, ¬ m.Under x n) {v : Node} (hv : m.node? n = some v)
    (ordinary : v.nested = none) (attrs : AttrList) :
    m.DeclaresOnce (n :: ns) (.node (nodeIdOf v) attrs :: stmts) (n :: visited) := by
  have hname : m.ordinaryName? n = some v.name := by simp [ordinaryName?, hv, ordinary]
  have hnested : m.nestedName? n = none := by simp [nestedName?, hv, ordinary]
  refine ⟨List.nodup_cons.2 ⟨fun hn => apart n hn (.refl n), h.distinct⟩, ?_, ?_, ?_⟩
  · intro x hx
    rcases List.mem_cons.1 hx with hx | hx
    · subst hx
      exact ⟨x, List.mem_cons_self, .refl x⟩
    · obtain ⟨k, hk, hbelow⟩ := h.below x hx
      exact ⟨k, List.mem_cons_of_mem _ hk, hbelow⟩
  · rw [List.filterMap_cons_some hname, ← h.nodes]
    simp [Stmt.declaredNodesAll, Stmt.declaredNodes, nodeIdOf]
  · rw [List.filterMap_cons_none hnested, ← h.subgraphs, Stmt.partsBody, Stmt.parts,
      graphNames_append]
    exact congrArg (· ++ _) (graphNames_entries .node attrs)

theorem DeclaresOnce.subgraph (h : m.DeclaresOnce ns stmts visited)
    (apart : ∀ x ∈ visited, ¬ m.Under x n) {v : Node} {s : Subgraph} {body : List Stmt}
    {inner : List NodeRef} (wf : m.WellFormed) (hv : m.node? n = some v)
    (nested : v.nested = some g) (hs : m.graph? g = some s)
    (hinner : m.DeclaresOnce s.nodes.toList body inner) :
    m.DeclaresOnce (n :: ns) (.subgraph ((m.nameOf g).map .ofText) body :: stmts)
      (n :: (inner ++ visited)) := by
  have hname : m.ordinaryName? n = none := by simp [ordinaryName?, hv, nested]
  have hnested : m.nestedName? n = m.nameOf g := by simp [nestedName?, hv, nested]
  have hunder : ∀ x ∈ inner, m.Under x n ∧ x ≠ n := by
    intro x hx
    obtain ⟨k, hk, hbelow⟩ := hinner.below x hx
    exact wf.under_holder hv nested hs hk hbelow
  refine ⟨List.nodup_cons.2 ⟨?_, ?_⟩, ?_, ?_, ?_⟩
  · rw [List.mem_append]
    rintro (hn | hn)
    · exact (hunder n hn).2 rfl
    · exact apart n hn (.refl n)
  · refine List.nodup_append.2 ⟨hinner.distinct, h.distinct, fun x hx y hy he => ?_⟩
    subst he
    exact apart x hy (hunder x hx).1
  · intro x hx
    rcases List.mem_cons.1 hx with hx | hx
    · subst hx
      exact ⟨x, List.mem_cons_self, .refl x⟩
    · rcases List.mem_append.1 hx with hx | hx
      · exact ⟨n, List.mem_cons_self, (hunder x hx).1⟩
      · obtain ⟨k, hk, hbelow⟩ := h.below x hx
        exact ⟨k, List.mem_cons_of_mem _ hk, hbelow⟩
  · rw [List.filterMap_cons_none hname, List.filterMap_append, ← hinner.nodes, ← h.nodes,
      Stmt.declaredNodesAll, Stmt.declaredNodes]
  · rw [Stmt.partsBody, Stmt.parts, graphNames_append, graphNames_append,
      graphNames_graphParts, Builder.map_ofText_value, hinner.subgraphs, h.subgraphs,
      List.append_assoc, ← List.filterMap_append]
    cases hg : m.nameOf g with
    | none =>
        rw [List.filterMap_cons_none (hnested.trans hg)]
        rfl
    | some name =>
        rw [List.filterMap_cons_some (hnested.trans hg)]
        rfl

mutual

theorem Describes.declaresOnce (wf : m.WellFormed) {g : GraphRef} {body : List Stmt} :
    m.Describes g body → ∀ {s : Subgraph}, m.graph? g = some s →
      ∃ visited, m.DeclaresOnce s.nodes.toList body visited
  | .mk graph members joined, s, hs => by
      obtain rfl := Option.some.inj (graph.symm.trans hs)
      obtain ⟨visited, h⟩ := members.declaresOnce wf (wf.nodup_nodes hs)
        fun n hn => (wf.mem_nodes hs).1 hn
      refine ⟨visited, h.distinct, h.below, ?_, ?_⟩
      · rw [Stmt.declaredNodesAll_append, Stmt.declaredNodesAll_append, joined.declaredNodes,
          declaredNodesAll_attrs, List.append_nil, List.append_nil]
        exact h.nodes
      · rw [Stmt.partsBody_append, Stmt.partsBody_append, graphNames_append, graphNames_append,
          joined.graphNames, graphNames_attrs, List.append_nil, List.append_nil]
        exact h.subgraphs

theorem DescribesNodes.declaresOnce (wf : m.WellFormed) {g : GraphRef} {ns : List NodeRef}
    {stmts : List Stmt} : m.DescribesNodes ns stmts → ns.Nodup →
      (∀ n ∈ ns, ∃ v, m.node? n = some v ∧ v.graph = g) →
        ∃ visited, m.DeclaresOnce ns stmts visited
  | .nil, _, _ => ⟨[], .nil, fun _ hx => absurd hx List.not_mem_nil, rfl, rfl⟩
  | .node node ordinary rest, distinct, hg => by
      rw [List.nodup_cons] at distinct
      rw [List.forall_mem_cons] at hg
      obtain ⟨visited, h⟩ := rest.declaresOnce wf distinct.2 hg.2
      exact ⟨_, h.node (h.apart wf hg.1 hg.2 distinct.1) node ordinary _⟩
  | .subgraph node nested described rest, distinct, hg => by
      rw [List.nodup_cons] at distinct
      rw [List.forall_mem_cons] at hg
      obtain ⟨visited, h⟩ := rest.declaresOnce wf distinct.2 hg.2
      obtain ⟨_, s, hs, _⟩ := wf.nested node nested
      obtain ⟨inner, hinner⟩ := described.declaresOnce wf hs
      exact ⟨_, h.subgraph (h.apart wf hg.1 hg.2 distinct.1) wf node nested hs hinner⟩

end

theorem Built.ordinaryName?_inj (h : m.Built) {name : String}
    (hn : m.ordinaryName? n = some name) (hk : m.ordinaryName? k = some name) : n = k := by
  obtain ⟨v, hv, hname⟩ := Option.bind_eq_some_iff.1 hn
  obtain ⟨w, hw, hname'⟩ := Option.bind_eq_some_iff.1 hk
  split at hname
  · next ho =>
      split at hname'
      · next ho' =>
          refine h.node_names hv hw ho ho' (Option.some.inj (hname.trans hname'.symm))
      · cases hname'
  · cases hname

theorem Built.nestedName?_inj (h : m.Built) {name : String}
    (hn : m.nestedName? n = some name) (hk : m.nestedName? k = some name) : n = k := by
  have hgraph : ∀ {x}, m.nestedName? x = some name →
      ∃ g s, g ≠ Model.root ∧ m.nameOf g = some name ∧ m.graph? g = some s ∧
        s.holder = some x := by
    intro x hx
    obtain ⟨v, hv, hname⟩ := Option.bind_eq_some_iff.1 hx
    obtain ⟨g, hg, hname⟩ := Option.bind_eq_some_iff.1 hname
    obtain ⟨hlt, s, hs, hholder⟩ := h.wellFormed.nested hv hg
    refine ⟨g, s, fun he => ?_, hname, hs, hholder⟩
    rw [he] at hlt
    exact Nat.not_lt_zero _ hlt
  obtain ⟨g, s, hg, hname, hs, hholder⟩ := hgraph hn
  obtain ⟨g', s', hg', hname', hs', hholder'⟩ := hgraph hk
  obtain rfl := h.graph_names hg hg' hname hname'
  obtain rfl := Option.some.inj (hs.symm.trans hs')
  exact Option.some.inj (hholder.symm.trans hholder')

/-- The names that the tree of a built model declares are different. -/
theorem Built.distinct_toTree (h : m.Built) :
    (Stmt.declaredNodesAll m.toTree.body).Nodup ∧ Stmt.DistinctSubgraphs m.toTree.body := by
  obtain ⟨s, hs, _⟩ := h.wellFormed.root
  obtain ⟨visited, hd⟩ := h.wellFormed.describes_toTree.declaresOnce h.wellFormed hs
  refine ⟨?_, ?_⟩
  · rw [hd.nodes]
    refine List.Pairwise.filterMap _ (fun n k hne a ha b hb he => hne ?_) hd.distinct
    exact h.ordinaryName?_inj ha (he ▸ hb)
  · unfold Stmt.DistinctSubgraphs
    rw [hd.subgraphs]
    refine List.Pairwise.filterMap _ (fun n k hne a ha b hb he => hne ?_) hd.distinct
    exact h.nestedName?_inj ha (he ▸ hb)

end Model

end DotLang
