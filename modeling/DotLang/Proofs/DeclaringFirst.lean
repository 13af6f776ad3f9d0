import DotLang.Proofs.Nesting
/-!
# Declared before use

`Tree.DeclaresFirst` goes along a tree and asks of every edge whether the nodes
that it joins were declared before it.  For the tree of a built model this is all
that is left to ask: `Built.plain_iff` says that the tree is plain just if every
edge stands behind the nodes that it joins.
-/

namespace DotLang

/-! ## Going along a tree -/

/-- The operand is a node with one of the names. -/
def Operand.isDeclared (names : List String) : Operand → Bool
  | .node id => names.contains id.name.value
  | .subgraph .. => false

mutual

/-- The names of nodes that are declared behind the statement.  There are none if
it joins a node that is not declared before. -/
def Stmt.declare? (names : List String) : Stmt → Option (List String)
  | .node id _ => some (id.name.value :: names)
  | .edge tail hops _ =>
      if tail.isDeclared names && hops.all fun hop => hop.2.isDeclared names then some names
      else none
  | .defaults .. => some names
  | .subgraph _ body => Stmt.declareAll? names body

/-- The names of nodes that are declared behind the statements of a body. -/
def Stmt.declareAll? (names : List String) : List Stmt → Option (List String)
  | [] => some names
  | first :: rest =>
      match first.declare? names with
      | none => none
      | some names => Stmt.declareAll? names rest

end

/-- Every edge of the tree stands behind the statements for the nodes that it
joins. -/
def Tree.DeclaresFirst (t : Tree) : Prop := (Stmt.declareAll? [] t.body).isSome = true

instance (t : Tree) : Decidable t.DeclaresFirst := inferInstanceAs (Decidable (_ = true))

variable {op : EdgeOp} {names names' : List String} {stmts more : List Stmt} {k k' : Seen}

theorem Stmt.declareAll?_cons {first : Stmt} :
    Stmt.declareAll? names (first :: stmts) =
      (first.declare? names).bind fun names => Stmt.declareAll? names stmts := by
  rw [Stmt.declareAll?]
  cases first.declare? names <;> rfl

theorem Stmt.declareAll?_append :
    Stmt.declareAll? names (stmts ++ more) =
      (Stmt.declareAll? names stmts).bind fun names => Stmt.declareAll? names more := by
  induction stmts generalizing names with
  | nil => rfl
  | cons first stmts ih =>
      rw [List.cons_append, Stmt.declareAll?_cons, Stmt.declareAll?_cons]
      cases first.declare? names with
      | none => rfl
      | some names => exact ih

theorem Stmt.declareAll?_attrs (attrs : AttrList) :
    Stmt.declareAll? names (attrs.map fun attr => .defaults .graph [attr]) = some names := by
  induction attrs with
  | nil => rfl
  | cons e attrs ih => rw [List.map_cons, Stmt.declareAll?_cons, Stmt.declare?, Option.bind_some, ih]

/-- Going along an edge between two nodes. -/
theorem Stmt.declare?_edge {source target : String} {attrs : AttrList} :
    Stmt.declare? names (.edge (.node ⟨.ofText source, none⟩)
      [(op, .node ⟨.ofText target, none⟩)] attrs) = some names' ↔
        source ∈ names ∧ target ∈ names ∧ names' = names := by
  unfold Stmt.declare?
  by_cases hs : source ∈ names
  · by_cases ht : target ∈ names
    · simp [Operand.isDeclared, hs, ht, eq_comm]
    · simp [Operand.isDeclared, hs, ht]
  · simp [Operand.isDeclared, hs]

mutual

/-- What is declared behind a statement was declared before it or is declared by
it. -/
theorem Stmt.declare?_eq_some {names names' : List String} :
    (s : Stmt) → s.declare? names = some names' → names' = s.declaredNodes.reverse ++ names
  | .node id attrs, h => by
      rw [Stmt.declare?] at h
      exact (Option.some.inj h).symm
  | .edge tail hops attrs, h => by
      rw [Stmt.declare?] at h
      split at h
      · exact (Option.some.inj h).symm
      · cases h
  | .defaults element attrs, h => by
      rw [Stmt.declare?] at h
      exact (Option.some.inj h).symm
  | .subgraph name body, h => by
      rw [Stmt.declare?] at h
      exact Stmt.declareAll?_eq_some body h

theorem Stmt.declareAll?_eq_some {names names' : List String} :
    (stmts : List Stmt) → Stmt.declareAll? names stmts = some names' →
      names' = (Stmt.declaredNodesAll stmts).reverse ++ names
  | [], h => (Option.some.inj h).symm
  | first :: rest, h => by
      rw [Stmt.declareAll?_cons] at h
      obtain ⟨names1, hfirst, hrest⟩ := Option.bind_eq_some_iff.1 h
      rw [Stmt.declareAll?_eq_some rest hrest, Stmt.declare?_eq_some first hfirst,
        Stmt.declaredNodesAll, List.reverse_append, List.append_assoc]

end

/-! ## Plain trees -/

theorem PlainEdges.declareAll? (h : PlainEdges op names stmts) :
    Stmt.declareAll? names stmts = some names := by
  induction h with
  | nil => rfl
  | cons has_source has_target _ _ ih =>
      rw [Stmt.declareAll?_cons, Stmt.declare?_edge.2 ⟨has_source, has_target, rfl⟩,
        Option.bind_some, ih]

mutual

theorem PlainBody.declareAll? {op : EdgeOp} {k k' : Seen} {stmts : List Stmt} :
    PlainBody op k stmts k' → Stmt.declareAll? k.nodes stmts = some k'.nodes
  | .mk declared joined _ => by
      rw [Stmt.declareAll?_append, Stmt.declareAll?_append, declared.declareAll?,
        Option.bind_some, joined.declareAll?, Option.bind_some, Stmt.declareAll?_attrs]

theorem PlainMembers.declareAll? {op : EdgeOp} {k k' : Seen} {stmts : List Stmt} :
    PlainMembers op k stmts k' → Stmt.declareAll? k.nodes stmts = some k'.nodes
  | .nil _ => rfl
  | .node _ _ rest => by
      rw [Stmt.declareAll?_cons, Stmt.declare?, Option.bind_some, Id.ofText_value]
      exact rest.declareAll?
  | @PlainMembers.subgraph _ k k1 _ _ body _ _ inner rest => by
      have hinner : Stmt.declareAll? k.nodes body = some k1.nodes := inner.declareAll?
      rw [Stmt.declareAll?_cons, Stmt.declare?, hinner, Option.bind_some]
      exact rest.declareAll?

end

theorem Tree.Plain.declaresFirst {t : Tree} (h : t.Plain) : t.DeclaresFirst := by
  obtain ⟨_, k, hbody⟩ := h
  have hdeclare : Stmt.declareAll? [] t.body = some k.nodes := hbody.declareAll?
  unfold Tree.DeclaresFirst
  rw [hdeclare]
  rfl

namespace Model

variable {m : Model}

/-- The edges of a built model that join declared nodes are plain. -/
theorem Built.plainEdges_of_declareAll? (h : m.Built) {es : List EdgeRef}
    (described : m.DescribesEdges es stmts)
    (declared : Stmt.declareAll? names stmts = some names') :
    PlainEdges m.kind.edgeOp names stmts ∧ names' = names := by
  induction described with
  | nil => exact ⟨.nil, (Option.some.inj declared).symm⟩
  | cons edge has_source has_target _ ih =>
      rw [Stmt.declareAll?_cons] at declared
      obtain ⟨names1, hfirst, hrest⟩ := Option.bind_eq_some_iff.1 declared
      obtain ⟨hsource, htarget, rfl⟩ := Stmt.declare?_edge.1 hfirst
      obtain ⟨plain, he⟩ := ih hrest
      exact ⟨.cons hsource htarget (plainAttrs (h.attributes.edge_attrs edge)) plain, he⟩

/-- The names of nodes and of subgraphs that are declared behind the statements,
together with those before, are different. -/
structure NewNames (k : Seen) (stmts : List Stmt) : Prop where
  nodes : ((Stmt.declaredNodesAll stmts).reverse ++ k.nodes).Nodup
  subgraphs : ((graphNames (Stmt.partsBody stmts)).reverse ++ k.subgraphs).Nodup

theorem NewNames.left (h : NewNames k (stmts ++ more)) : NewNames k stmts := by
  obtain ⟨nodes, subgraphs⟩ := h
  rw [Stmt.declaredNodesAll_append, List.reverse_append, List.append_assoc] at nodes
  rw [Stmt.partsBody_append, graphNames_append, List.reverse_append, List.append_assoc]
    at subgraphs
  exact ⟨(List.nodup_append.1 nodes).2.1, (List.nodup_append.1 subgraphs).2.1⟩

theorem NewNames.node {v : Node} {attrs : AttrList}
    (h : NewNames k (.node (nodeIdOf v) attrs :: stmts)) :
    v.name ∉ k.nodes ∧ NewNames (k.withNode v.name) stmts := by
  obtain ⟨nodes, subgraphs⟩ := h
  rw [Stmt.declaredNodesAll, List.reverse_append, List.append_assoc] at nodes
  have hname : (Stmt.node (nodeIdOf v) attrs).declaredNodes.reverse ++ k.nodes =
      v.name :: k.nodes := by
    simp [Stmt.declaredNodes, nodeIdOf]
  rw [hname] at nodes
  have hparts : graphNames (Stmt.node (nodeIdOf v) attrs).parts = [] := graphNames_entries _ _
  rw [Stmt.partsBody, graphNames_append, hparts] at subgraphs
  exact ⟨(List.nodup_cons.1 (List.nodup_append.1 nodes).2.1).1, nodes, subgraphs⟩

theorem NewNames.subgraph {name : Option String} {body : List Stmt}
    (h : NewNames k (.subgraph (name.map .ofText) body :: stmts)) :
    (∀ n ∈ name, n ∉ k.subgraphs) ∧ NewNames (k.withSubgraph name) body ∧
      ∀ k1 : Seen, k1.nodes = (Stmt.declaredNodesAll body).reverse ++ k.nodes →
        k1.subgraphs = (graphNames (Stmt.partsBody body)).reverse ++
          (k.withSubgraph name).subgraphs → NewNames k1 stmts := by
  obtain ⟨nodes, subgraphs⟩ := h
  rw [Stmt.declaredNodesAll, List.reverse_append, List.append_assoc, Stmt.declaredNodes] at nodes
  have hname : name.toList.reverse ++ k.subgraphs = (k.withSubgraph name).subgraphs := by
    cases name <;> rfl
  rw [Stmt.partsBody, graphNames_append, Stmt.parts, graphNames_append, graphNames_graphParts,
    Builder.map_ofText_value, List.reverse_append, List.reverse_append, List.append_assoc,
    List.append_assoc, hname] at subgraphs
  have hinner := (List.nodup_append.1 subgraphs).2.1
  refine ⟨fun n hn => ?_, ⟨(List.nodup_append.1 nodes).2.1, hinner⟩, fun k1 hk1 hk1' => ?_⟩
  · obtain rfl := Option.mem_def.1 hn
    exact (List.nodup_cons.1 (List.nodup_append.1 hinner).2.1).1
  · rw [← hk1] at nodes
    rw [← hk1'] at subgraphs
    exact ⟨nodes, subgraphs⟩

mutual

theorem Describes.plainBody (h : m.Built) {g : GraphRef} {body : List Stmt} :
    m.Describes g body → ∀ {k : Seen} {names : List String}, NewNames k body →
      Stmt.declareAll? k.nodes body = some names → ∃ k', PlainBody m.kind.edgeOp k body k'
  | .mk graph members joined, k, names, new, declared => by
      rw [Stmt.declareAll?_append, Stmt.declareAll?_append] at declared
      obtain ⟨names2, hbody, _⟩ := Option.bind_eq_some_iff.1 declared
      obtain ⟨names1, hmembers, hjoined⟩ := Option.bind_eq_some_iff.1 hbody
      obtain ⟨k', plain⟩ := members.plainMembers h new.left.left hmembers
      obtain rfl := Option.some.inj (plain.declareAll?.symm.trans hmembers)
      exact ⟨k', .mk plain (h.plainEdges_of_declareAll? joined hjoined).1
        (plainAttrs (h.attributes.graph_attrs graph))⟩

theorem DescribesNodes.plainMembers (h : m.Built) {ns : List NodeRef} {stmts : List Stmt} :
    m.DescribesNodes ns stmts → ∀ {k : Seen} {names : List String}, NewNames k stmts →
      Stmt.declareAll? k.nodes stmts = some names →
        ∃ k', PlainMembers m.kind.edgeOp k stmts k'
  | .nil, k, _, _, _ => ⟨k, .nil k⟩
  | .node node ordinary rest, k, names, new, declared => by
      obtain ⟨fresh, new⟩ := new.node
      rw [Stmt.declareAll?_cons, Stmt.declare?, Option.bind_some, nodeIdOf,
        Id.ofText_value] at declared
      obtain ⟨k', plain⟩ := rest.plainMembers h new declared
      exact ⟨k', .node fresh (plainAttrs (h.attributes.node_attrs node)) plain⟩
  | @DescribesNodes.subgraph _ n ns v g body stmts node nested described rest, k, names, new,
      declared => by
      obtain ⟨fresh, new, hrest⟩ := new.subgraph
      rw [Stmt.declareAll?_cons, Stmt.declare?] at declared
      obtain ⟨names1, hbody, declared⟩ := Option.bind_eq_some_iff.1 declared
      obtain ⟨k1, plain⟩ := described.plainBody h new hbody
      obtain rfl : k1.nodes = names1 := Option.some.inj (plain.declareAll?.symm.trans hbody)
      obtain ⟨k', plain'⟩ := rest.plainMembers h
        (hrest k1 (Stmt.declareAll?_eq_some body hbody) plain.subgraphs.1) declared
      exact ⟨k', .subgraph fresh plain plain'⟩

end

/-- The tree of a built model is plain just if every edge stands behind the nodes
that it joins. -/
theorem Built.plain_iff (h : m.Built) : m.toTree.Plain ↔ m.toTree.DeclaresFirst := by
  refine ⟨Tree.Plain.declaresFirst, fun declared => ⟨⟨m.nameOf Model.root, rfl⟩, ?_⟩⟩
  obtain ⟨names, hnames⟩ := Option.isSome_iff_exists.1 declared
  obtain ⟨nodes, subgraphs⟩ := h.distinct_toTree
  have new : NewNames .nothing m.toTree.body := by
    refine ⟨?_, ?_⟩
    · rw [Seen.nothing, List.append_nil]
      exact (List.reverse_perm _).nodup_iff.2 nodes
    · rw [Seen.nothing, List.append_nil]
      exact (List.reverse_perm _).nodup_iff.2 subgraphs
  exact h.wellFormed.describes_toTree.plainBody h new hnames

end Model

end DotLang
