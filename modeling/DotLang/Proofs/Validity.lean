import DotLang.Proofs.Rebuilding
/-!
# Imported models are valid

A model is valid if every value follows the grammar that its attribute has on the
element.  Lists are checked where they stand, but their entries may end up somewhere
else: the defaults of a body go to the nodes, edges and graphs that are new in it, a
later mention adds to a node, and a port becomes an attribute of an edge.  No entry
changes the kind of its element on the way, and `Model.MadeOf` follows each to where
it ends up.
-/

namespace DotLang

/-! ## Valid models -/

/-- Every value follows the grammar that its attribute has on the element. -/
def Attributes.Valid (element : Element) (a : Attributes) : Prop :=
  ∀ e ∈ a.entries, Schema.validate element e.1 e.2 = .ok ()

instance (element : Element) (a : Attributes) : Decidable (a.Valid element) :=
  inferInstanceAs (Decidable (∀ e ∈ a.entries, _))

/-- The attributes of all graphs, nodes and edges are valid. -/
structure Model.Valid (m : Model) : Prop where
  graphs : ∀ s ∈ m.graphs, s.attrs.Valid .graph
  nodes : ∀ v ∈ m.nodes, v.attrs.Valid .node
  edges : ∀ e ∈ m.edges, e.attrs.Valid .edge

namespace Model

theorem MadeOf.valid {F : Part → Prop} {m : Model} (h : m.MadeOf F) : m.Valid where
  graphs := by
    intro s hs
    obtain ⟨i, hi⟩ := Array.mem_iff_getElem?.1 hs
    exact (h.graph_attrs (g := ⟨i⟩) hi).valid
  nodes := by
    intro v hv
    obtain ⟨i, hi⟩ := Array.mem_iff_getElem?.1 hv
    exact (h.node_attrs (n := ⟨i⟩) hi).valid
  edges := by
    intro v hv
    obtain ⟨i, hi⟩ := Array.mem_iff_getElem?.1 hv
    exact (h.edge_attrs (e := ⟨i⟩) hi).valid

end Model

/-- The builder leaves a valid model, whatever the tree. -/
theorem Tree.valid {t : Tree} {b : Builder}
    (h : Runs (Builder.tree t) (.new t.kind (t.name.map Id.value)) () b) : b.model.Valid :=
  (Tree.madeOf (F := fun _ => True) h fun _ _ => trivial).valid

/-! ## Imports -/

/-- Every model of an import is valid. -/
theorem importText_valid {text : String} {ms : List Model}
    (imported : (importText text).result = .ok ms) : ∀ m ∈ ms, m.Valid := by
  intro m hm
  obtain ⟨t, b, hrun, rfl⟩ := importText_runs imported hm
  exact Tree.valid hrun

/-- The node `a` has entries of three lists, the subgraph has one of the graph around it,
and the edge has a port. -/
theorem importText_valid_everywhere :
    let text := "digraph \x7b graph [bgcolor=red] node [shape=box] edge [weight=2] a [width=1] " ++
      "subgraph s \x7b fontcolor=blue a [color=green] a:n -> b [penwidth=3] \x7d \x7d"
    let m := (Model.new .digraph none).modifyGraphAttrs Model.root
      (·.insert "bgcolor" (.ofText "red"))
    let m := (m.addNode Model.root "a" (.ofList
      [("shape", .ofText "box"), ("width", .ofText "1"), ("color", .ofText "green")])).2
    let m := (m.addSubgraph Model.root "s" (some "s") (.ofList
      [("bgcolor", .ofText "red"), ("fontcolor", .ofText "blue")])).2.2
    let m := (m.addNode ⟨1⟩ "b" (.ofList [("shape", .ofText "box")])).2
    let m := (m.addEdge ⟨1⟩ ⟨0⟩ ⟨2⟩ (.ofList
      [("weight", .ofText "2"), ("penwidth", .ofText "3"), ("tailport", .ofText "n")])).2
    (importText text).result = .ok [m] ∧ ∀ m' ∈ [m], m'.Valid := by
  intro text m₁ m₂ m₃ m₄ m
  have imported : (importText text).result = .ok [m] := by decide +kernel
  exact ⟨imported, importText_valid imported⟩

-- A model that is built by other means may well be invalid.
example : ¬ ((Model.new .graph none).addNode Model.root "a"
    (.ofList [("width", .ofText "wide")])).2.Valid := fun h =>
  absurd (h.nodes _ Array.mem_push_self) (by decide +kernel)

end DotLang
