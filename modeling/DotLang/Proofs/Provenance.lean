import DotLang.Proofs.Arena
import DotLang.Proofs.BuilderSteps
/-!
# Where names and attributes come from

The builder makes up no attributes, and no names but those of the nodes that
hold subgraphs without a name.  `Stmt.parts` are the names and entries that a
statement brings along, and `Model.MadeOf F` says that those of a model satisfy
`F`, that its values are valid, and that no dictionary has a name twice.  A tree
whose parts satisfy `F` builds such a model.

Ports become attributes of edges, of the end that the node is at.  A node in the
middle of a chain is at both.
-/

namespace DotLang

/-- A name or an entry that a text brings to a model. -/
inductive Part
  | graph (name : String)
  | node (name : String)
  | entry (element : Element) (key : String) (value : Id)
deriving DecidableEq, Repr

/-- The parts of a list of attributes. -/
def AttrList.parts (element : Element) (attrs : AttrList) : List Part :=
  attrs.map fun e => .entry element e.1 e.2

/-- The parts of the name of a graph. -/
def Id.graphParts (name : Option Id) : List Part := name.toList.map fun i => .graph i.value

/-- The parts of an operand that is a node. -/
def NodeId.parts (id : NodeId) : List Part :=
  .node id.name.value :: id.port.toList.flatMap fun p =>
    [.entry .edge "tailport" (Id.ofText p), .entry .edge "headport" (Id.ofText p)]

mutual

/-- The parts of a statement. -/
def Stmt.parts : Stmt → List Part
  | .node id attrs => .node id.name.value :: AttrList.parts .node attrs
  | .edge tail hops attrs => tail.parts ++ Stmt.partsHops hops ++ AttrList.parts .edge attrs
  | .defaults element attrs => AttrList.parts element attrs
  | .subgraph name body => Id.graphParts name ++ Stmt.partsBody body

/-- The parts of an operand. -/
def Operand.parts : Operand → List Part
  | .node id => id.parts
  | .subgraph name body => Id.graphParts name ++ Stmt.partsBody body

/-- The parts of the operands behind the first one. -/
def Stmt.partsHops : List (EdgeOp × Operand) → List Part
  | [] => []
  | (_, head) :: hops => head.parts ++ Stmt.partsHops hops

/-- The parts of a body. -/
def Stmt.partsBody : List Stmt → List Part
  | [] => []
  | first :: rest => first.parts ++ Stmt.partsBody rest

end

/-- The parts of a tree. -/
def Tree.parts (t : Tree) : List Part := Id.graphParts t.name ++ Stmt.partsBody t.body

theorem Stmt.partsBody_append (stmts more : List Stmt) :
    Stmt.partsBody (stmts ++ more) = Stmt.partsBody stmts ++ Stmt.partsBody more := by
  induction stmts with
  | nil => simp [Stmt.partsBody]
  | cons s stmts ih => simp [Stmt.partsBody, ih]

variable {F : Part → Prop} {element : Element}

/-! ## Dictionaries -/

/-- The entries are valid and satisfy `F`, and no name occurs twice. -/
structure Attributes.MadeOf (F : Part → Prop) (element : Element) (a : Attributes) : Prop where
  distinct : a.keys.Nodup
  valid : ∀ e ∈ a.entries, Schema.validate element e.1 e.2 = .ok ()
  parts : ∀ e ∈ a.entries, F (.entry element e.1 e.2)

namespace Attributes

theorem mem_insertEntry {key : String} {value : Id} {l : List (String × Id)} {e : String × Id}
    (h : e ∈ insertEntry key value l) : e = (key, value) ∨ e ∈ l := by
  induction l with
  | nil => exact Or.inl (List.mem_singleton.1 h)
  | cons p l ih =>
      obtain ⟨k, v⟩ := p
      unfold insertEntry at h
      split at h
      · next hk =>
          subst hk
          rcases List.mem_cons.1 h with h | h
          · exact Or.inl h
          · exact Or.inr (List.mem_cons_of_mem _ h)
      · rcases List.mem_cons.1 h with h | h
        · exact Or.inr (h ▸ List.mem_cons_self)
        · exact (ih h).imp_right (List.mem_cons_of_mem _)

theorem nodup_insertEntry {key : String} {value : Id} {l : List (String × Id)}
    (h : (l.map Prod.fst).Nodup) : ((insertEntry key value l).map Prod.fst).Nodup := by
  induction l with
  | nil => simp [insertEntry]
  | cons p l ih =>
      obtain ⟨k, v⟩ := p
      rw [List.map_cons, List.nodup_cons] at h
      unfold insertEntry
      split
      · rw [List.map_cons, List.nodup_cons]
        exact h
      · next hk =>
          rw [List.map_cons, List.nodup_cons]
          refine ⟨fun hm => ?_, ih h.2⟩
          obtain ⟨e, he, hek⟩ := List.mem_map.1 hm
          rcases mem_insertEntry he with he | he
          · subst he
            exact hk hek.symm
          · exact h.1 (List.mem_map.2 ⟨e, he, hek⟩)

/-- The entry of a new name goes last. -/
theorem insertEntry_of_not_mem {key : String} {value : Id} {l : List (String × Id)}
    (h : key ∉ l.map Prod.fst) : insertEntry key value l = l ++ [(key, value)] := by
  induction l with
  | nil => rfl
  | cons p l ih =>
      obtain ⟨k, v⟩ := p
      rw [List.map_cons, List.mem_cons, not_or] at h
      unfold insertEntry
      rw [if_neg (Ne.symm h.1), ih h.2, List.cons_append]

/-- Entries with new names go last, in order. -/
theorem entries_insertList {a : Attributes} {l : List (String × Id)}
    (h : ((a.entries ++ l).map Prod.fst).Nodup) : (a.insertList l).entries = a.entries ++ l := by
  induction l generalizing a with
  | nil => simp [insertList]
  | cons e l ih =>
      have hnew : e.1 ∉ a.entries.map Prod.fst := by
        intro hm
        rw [List.map_append, List.nodup_append] at h
        exact h.2.2 _ hm _ (List.mem_map.2 ⟨e, List.mem_cons_self, rfl⟩) rfl
      have hstep : (a.insert e.1 e.2).entries = a.entries ++ [e] := insertEntry_of_not_mem hnew
      have hrest : ((a.insert e.1 e.2).insertList l).entries = _ := ih (by
        rw [hstep, List.append_assoc]
        exact h)
      rw [hstep, List.append_assoc] at hrest
      exact hrest

theorem madeOf_empty : Attributes.empty.MadeOf F element :=
  ⟨List.nodup_nil, fun _ he => absurd he List.not_mem_nil,
    fun _ he => absurd he List.not_mem_nil⟩

theorem MadeOf.insert {a : Attributes} (h : a.MadeOf F element) {key : String} {value : Id}
    (valid : Schema.validate element key value = .ok ()) (part : F (.entry element key value)) :
    (a.insert key value).MadeOf F element where
  distinct := nodup_insertEntry h.distinct
  valid := by
    intro e he
    rcases mem_insertEntry he with he | he
    · subst he
      exact valid
    · exact h.valid e he
  parts := by
    intro e he
    rcases mem_insertEntry he with he | he
    · subst he
      exact part
    · exact h.parts e he

/-- The entries of a list are valid and satisfy `F`. -/
structure ListOf (F : Part → Prop) (element : Element) (l : AttrList) : Prop where
  valid : Schema.validateList element l = .ok ()
  parts : ∀ p ∈ AttrList.parts element l, F p

theorem ListOf.nil : ListOf F element [] := ⟨rfl, fun _ hp => by cases hp⟩

theorem MadeOf.insertList {a : Attributes} (h : a.MadeOf F element) {l : AttrList}
    (hl : ListOf F element l) : (a.insertList l).MadeOf F element := by
  have hvalid := Schema.validateList_eq_ok.1 hl.valid
  have hparts : ∀ e ∈ l, F (.entry element e.1 e.2) := fun e he =>
    hl.parts _ (List.mem_map.2 ⟨e, he, rfl⟩)
  clear hl
  induction l generalizing a with
  | nil => exact h
  | cons e l ih =>
      exact ih (h.insert (hvalid e List.mem_cons_self) (hparts e List.mem_cons_self))
        (fun e' he' => hvalid e' (List.mem_cons_of_mem _ he'))
        (fun e' he' => hparts e' (List.mem_cons_of_mem _ he'))

end Attributes

/-! ## Models -/

/-- The name of a node that holds a subgraph without a name. -/
def holderNumbered (k : Nat) : String := "%" ++ toString k

/-- All names and attributes of the model satisfy `F`. -/
structure Model.MadeOf (F : Part → Prop) (m : Model) : Prop where
  graph_name : ∀ {g s}, m.graph? g = some s → ∀ name ∈ s.name, F (.graph name)
  node_name : ∀ {n v}, m.node? n = some v →
    F (.node v.name) ∨ F (.graph v.name) ∨ ∃ k, v.name = holderNumbered k
  graph_attrs : ∀ {g s}, m.graph? g = some s → s.attrs.MadeOf F .graph
  node_attrs : ∀ {n v}, m.node? n = some v → v.attrs.MadeOf F .node
  edge_attrs : ∀ {e v}, m.edge? e = some v → v.attrs.MadeOf F .edge

namespace Model.MadeOf

variable {m : Model} {a : Attributes} {name : String} {l : AttrList}

theorem new {kind : GraphKind} {name : Option String} (hname : ∀ n ∈ name, F (.graph n)) :
    (Model.new kind name).MadeOf F := by
  have hroot : ∀ {g s}, (Model.new kind name).graph? g = some s → s = .fresh name .empty none := by
    intro g s hs
    obtain ⟨_ | i⟩ := g
    · exact (Option.some.inj hs).symm
    · cases hs
  refine ⟨?_, ?_, ?_, ?_, ?_⟩
  · intro g s hs
    rw [hroot hs]
    exact hname
  · intro n v hv
    cases hv
  · intro g s hs
    rw [hroot hs]
    exact Attributes.madeOf_empty
  · intro n v hv
    cases hv
  · intro e v hv
    cases hv

theorem setStrict (h : m.MadeOf F) (strict : Bool) : Model.MadeOf F { m with strict := strict } :=
  ⟨h.graph_name, h.node_name, h.graph_attrs, h.node_attrs, h.edge_attrs⟩

theorem modifyNodeAttrs (h : m.MadeOf F) (hl : Attributes.ListOf F .node l) (n : NodeRef) :
    (m.modifyNodeAttrs n (·.insertList l)).MadeOf F := by
  have hnode : ∀ {k v'}, (m.modifyNodeAttrs n (·.insertList l)).node? k = some v' →
      ∃ v, m.node? k = some v ∧ v'.name = v.name ∧
        (v'.attrs = v.attrs ∨ v'.attrs = v.attrs.insertList l) := by
    intro k v' hv'
    unfold Model.modifyNodeAttrs at hv'
    rw [Model.node?_modifyNode] at hv'
    split at hv'
    · obtain ⟨v, hv, rfl⟩ := Option.map_eq_some_iff.1 hv'
      exact ⟨v, hv, rfl, Or.inr rfl⟩
    · exact ⟨v', hv', rfl, Or.inl rfl⟩
  refine ⟨h.graph_name, ?_, h.graph_attrs, ?_, h.edge_attrs⟩
  · intro k v' hv'
    obtain ⟨v, hv, hname, _⟩ := hnode hv'
    rw [hname]
    exact h.node_name hv
  · intro k v' hv'
    obtain ⟨v, hv, _, hattrs⟩ := hnode hv'
    rcases hattrs with hattrs | hattrs
    · rw [hattrs]
      exact h.node_attrs hv
    · rw [hattrs]
      exact (h.node_attrs hv).insertList hl

theorem modifyGraphAttrs (h : m.MadeOf F) (hl : Attributes.ListOf F .graph l) (g : GraphRef) :
    (m.modifyGraphAttrs g (·.insertList l)).MadeOf F := by
  have hgraph : ∀ {k s'}, (m.modifyGraphAttrs g (·.insertList l)).graph? k = some s' →
      ∃ s, m.graph? k = some s ∧ s'.name = s.name ∧
        (s'.attrs = s.attrs ∨ s'.attrs = s.attrs.insertList l) := by
    intro k s' hs'
    unfold Model.modifyGraphAttrs at hs'
    rw [Model.graph?_modifyGraph] at hs'
    split at hs'
    · obtain ⟨s, hs, rfl⟩ := Option.map_eq_some_iff.1 hs'
      exact ⟨s, hs, rfl, Or.inr rfl⟩
    · exact ⟨s', hs', rfl, Or.inl rfl⟩
  refine ⟨?_, h.node_name, ?_, h.node_attrs, h.edge_attrs⟩
  · intro k s' hs'
    obtain ⟨s, hs, hname, _⟩ := hgraph hs'
    rw [hname]
    exact h.graph_name hs
  · intro k s' hs'
    obtain ⟨s, hs, _, hattrs⟩ := hgraph hs'
    rcases hattrs with hattrs | hattrs
    · rw [hattrs]
      exact h.graph_attrs hs
    · rw [hattrs]
      exact (h.graph_attrs hs).insertList hl

/-- A new node, with or without a graph in it. -/
theorem pushNode (h : m.MadeOf F)
    (hname : F (.node name) ∨ F (.graph name) ∨ ∃ k, name = holderNumbered k)
    (ha : a.MadeOf F .node) (g : GraphRef) (nested : Option GraphRef) :
    (m.pushNode g name a nested).MadeOf F := by
  have hgraph : ∀ {k s'}, (m.pushNode g name a nested).graph? k = some s' →
      ∃ s, m.graph? k = some s ∧ s'.name = s.name ∧ s'.attrs = s.attrs := by
    intro k s' hs'
    rw [Model.graph?_pushNode] at hs'
    split at hs'
    · obtain ⟨s, hs, rfl⟩ := Option.map_eq_some_iff.1 hs'
      exact ⟨s, hs, rfl, rfl⟩
    · exact ⟨s', hs', rfl, rfl⟩
  refine ⟨?_, ?_, ?_, ?_, h.edge_attrs⟩
  · intro k s' hs'
    obtain ⟨s, hs, hname, _⟩ := hgraph hs'
    rw [hname]
    exact h.graph_name hs
  · intro n v hv
    rcases Model.node?_pushNode_eq_some hv with hv | hv
    · obtain ⟨_, rfl⟩ := hv
      exact hname
    · exact h.node_name hv
  · intro k s' hs'
    obtain ⟨s, hs, _, hattrs⟩ := hgraph hs'
    rw [hattrs]
    exact h.graph_attrs hs
  · intro n v hv
    rcases Model.node?_pushNode_eq_some hv with hv | hv
    · obtain ⟨_, rfl⟩ := hv
      exact ha
    · exact h.node_attrs hv

theorem addEdge (h : m.MadeOf F) (ha : a.MadeOf F .edge) (g : GraphRef)
    (source target : NodeRef) : (m.addEdge g source target a).2.MadeOf F := by
  have hgraph : ∀ {k s'}, (m.addEdge g source target a).2.graph? k = some s' →
      ∃ s, m.graph? k = some s ∧ s'.name = s.name ∧ s'.attrs = s.attrs := by
    intro k s' hs'
    rw [Model.graph?_addEdge] at hs'
    split at hs'
    · obtain ⟨s, hs, rfl⟩ := Option.map_eq_some_iff.1 hs'
      exact ⟨s, hs, rfl, rfl⟩
    · exact ⟨s', hs', rfl, rfl⟩
  refine ⟨?_, h.node_name, ?_, h.node_attrs, ?_⟩
  · intro k s' hs'
    obtain ⟨s, hs, hname, _⟩ := hgraph hs'
    rw [hname]
    exact h.graph_name hs
  · intro k s' hs'
    obtain ⟨s, hs, _, hattrs⟩ := hgraph hs'
    rw [hattrs]
    exact h.graph_attrs hs
  · intro e v hv
    rcases Model.edge?_addEdge_eq_some hv with hv | hv
    · obtain ⟨_, rfl⟩ := hv
      exact ha
    · exact h.edge_attrs hv

theorem addSubgraph (h : m.MadeOf F) {sub : Option String}
    (hholder : F (.node name) ∨ F (.graph name) ∨ ∃ k, name = holderNumbered k)
    (hsub : ∀ n ∈ sub, F (.graph n)) (ha : a.MadeOf F .graph) (g : GraphRef) :
    (m.addSubgraph g name sub a).2.2.MadeOf F := by
  have hpush := h.pushNode hholder Attributes.madeOf_empty g (some ⟨m.graphs.size⟩)
  refine ⟨?_, hpush.node_name, ?_, hpush.node_attrs, h.edge_attrs⟩
  · intro k s hs
    rcases Model.graph?_addSubgraph_eq_some hs with hs | hs
    · obtain ⟨_, rfl⟩ := hs
      exact hsub
    · exact hpush.graph_name hs
  · intro k s hs
    rcases Model.graph?_addSubgraph_eq_some hs with hs | hs
    · obtain ⟨_, rfl⟩ := hs
      exact ha
    · exact hpush.graph_attrs hs

end Model.MadeOf

/-! ## Steps of the builder -/

/-- All defaults satisfy `F`. -/
def Defaults.MadeOf (F : Part → Prop) (d : Defaults) : Prop :=
  ∀ f ∈ d.current :: d.outer, ∀ element, (f.get element).MadeOf F element

namespace Builder

/-- What the builder has so far satisfies `F`. -/
structure MadeOf (F : Part → Prop) (b : Builder) : Prop where
  model : b.model.MadeOf F
  defaults : b.defaults.MadeOf F

variable {b b' b1 : Builder} {n : NodeRef} {g : GraphRef} {name : String} {attrs : AttrList}

theorem madeOf_new {kind : GraphKind} {name : Option String}
    (hname : ∀ n ∈ name, F (.graph n)) : (Builder.new kind name).MadeOf F where
  model := .new hname
  defaults := by
    intro f hf element
    rw [List.mem_singleton.1 hf]
    cases element <;> exact Attributes.madeOf_empty

theorem MadeOf.of_eq (h : b.MadeOf F) (hm : b'.model = b.model)
    (hd : b'.defaults = b.defaults) : b'.MadeOf F := by
  refine ⟨?_, ?_⟩
  · rw [hm]
    exact h.model
  · rw [hd]
    exact h.defaults

theorem MadeOf.mentioned (h : b.MadeOf F) (n : NodeRef) : (b.mentioned n).MadeOf F := by
  unfold Builder.mentioned
  split
  · exact h
  · exact h.of_eq rfl rfl

theorem MadeOf.mentioned_all (h : b.MadeOf F) (ms : Members) :
    (ms.foldl (fun b n => b.mentioned n) b).MadeOf F := by
  induction ms generalizing b with
  | nil => exact h
  | cons n ms ih => exact ih (h.mentioned n)

/-- The attributes of a new element. -/
theorem MadeOf.resolve (h : b.MadeOf F) (hl : Attributes.ListOf F element attrs) :
    (b.defaults.resolve element attrs).MadeOf F element :=
  (h.defaults _ List.mem_cons_self element).insertList hl

theorem node_madeOf (h : Runs (node name attrs) b n b') (hb : b.MadeOf F)
    (hname : F (.node name)) (hl : Attributes.ListOf F .node attrs) : b'.MadeOf F := by
  rcases runs_node.1 h with h | h
  · obtain ⟨_, rfl⟩ := h
    have hmerged : (b.merged n attrs).MadeOf F :=
      ⟨hb.model.modifyNodeAttrs hl n, hb.defaults⟩
    exact hmerged.mentioned n
  · obtain ⟨_, rfl, rfl⟩ := h
    have hcreated : (b.created name attrs).MadeOf F :=
      ⟨hb.model.pushNode (Or.inl hname) (hb.resolve hl) b.current none, hb.defaults⟩
    exact hcreated.mentioned _

theorem MadeOf.defaulted (h : b.MadeOf F) (hl : Attributes.ListOf F element attrs) :
    (b.defaulted element attrs).MadeOf F where
  model := by
    unfold Builder.defaulted
    by_cases he : element = .graph
    · subst he
      exact h.model.modifyGraphAttrs hl b.current
    · rw [if_neg he]
      exact h.model
  defaults := by
    intro f hf el
    rcases List.mem_cons.1 hf with hf | hf
    · subst hf
      have hold := fun el => h.defaults _ List.mem_cons_self el
      cases element <;> cases el <;>
        first
        | exact (hold _).insertList hl
        | exact hold _
    · exact h.defaults f (List.mem_cons_of_mem _ hf) el

/-- The port of an endpoint satisfies `F` at either end of an edge. -/
def Endpoint.MadeOf (F : Part → Prop) (e : Endpoint) : Prop :=
  ∀ p ∈ e.port, F (.entry .edge "tailport" (Id.ofText p)) ∧
    F (.entry .edge "headport" (Id.ofText p))

theorem Ported.madeOf {key : String} {port : Option String} {a r : Attributes}
    (h : Ported key port a r) (ha : a.MadeOf F .edge)
    (hp : ∀ p ∈ port, F (.entry .edge key (Id.ofText p))) : r.MadeOf F .edge := by
  cases h with
  | none => exact ha
  | some valid => exact ha.insert valid (hp _ rfl)

theorem connected_madeOf {es : List Endpoint} (h : Connected attrs es b b') (hb : b.MadeOf F)
    (hl : Attributes.ListOf F .edge attrs) (hes : ∀ e ∈ es, Endpoint.MadeOf F e) :
    b'.MadeOf F := by
  induction h with
  | refl b => exact hb
  | step tail_mem head_mem connect _ ih =>
      obtain ⟨r, resolved, ht, hh, rfl⟩ := runs_connect.1 connect
      have hr := ht.madeOf (hb.resolve hl) fun p hp => (hes _ tail_mem p hp).1
      have hresolved := hh.madeOf hr fun p hp => (hes _ head_mem p hp).2
      exact ih ⟨hb.model.addEdge hresolved _ _ _, hb.defaults⟩

theorem openGraph_madeOf {name : Option String} (h : Runs (openGraph name) b g b')
    (hb : b.MadeOf F) (hname : ∀ n ∈ name, F (.graph n)) : b'.MadeOf F := by
  rcases runs_openGraph.1 h with h | h
  · obtain ⟨_, rfl⟩ := h
    exact hb.of_eq rfl rfl
  · obtain ⟨_, _, rfl⟩ := h
    refine ⟨hb.model.addSubgraph ?_ hname (hb.defaults _ List.mem_cons_self .graph) b.current,
      hb.defaults⟩
    cases name with
    | none => exact Or.inr (Or.inr ⟨b.anonymous + 1, rfl⟩)
    | some n => exact Or.inr (Or.inl (hname n rfl))

theorem subgraph_madeOf {name : Option String} {body : Build Unit} {members : Members}
    (h : Runs (subgraph name body) b members b') (hb : b.MadeOf F)
    (hname : ∀ n ∈ name, F (.graph n))
    (hbody : ∀ {b b'}, Runs body b () b' → b.MadeOf F → b'.MadeOf F) : b'.MadeOf F := by
  obtain ⟨g, b1, b2, defaults, ho, hrun, hd, rfl, rfl⟩ := runs_subgraph.1 h
  have h1 := openGraph_madeOf ho hb hname
  have hentered : (b1.entered g).MadeOf F := by
    refine ⟨h1.model, fun f hf => ?_⟩
    rcases List.mem_cons.1 hf with hf | hf
    · exact h1.defaults f (hf ▸ List.mem_cons_self)
    · exact h1.defaults f hf
  have h2 := hbody hrun hentered
  have hleft : (b2.left b1.current defaults).MadeOf F := by
    refine ⟨h2.model, fun f hf => ?_⟩
    unfold Defaults.leave? at hd
    split at hd
    · cases hd
    · next f' rest houter =>
        obtain rfl := Option.some.inj hd
        exact h2.defaults f (List.mem_cons_of_mem _ (houter ▸ hf))
  have hall := hleft.mentioned_all (b2.opened.headD [])
  unfold Builder.kept
  split
  · exact hall.of_eq rfl rfl
  · exact hall

/-! ## Runs of the builder -/

theorem mem_graphParts {name : Option Id} (h : ∀ p ∈ Id.graphParts name, F p) :
    ∀ n ∈ name.map Id.value, F (.graph n) := by
  intro n hn
  obtain ⟨i, rfl, rfl⟩ := Option.map_eq_some_iff.1 (Option.mem_def.1 hn)
  exact h _ (List.mem_singleton.2 rfl)

mutual

theorem stmt_madeOf {b b' : Builder} :
    (s : Stmt) → Runs (stmt s) b () b' → b.MadeOf F → (∀ p ∈ s.parts, F p) → b'.MadeOf F
  | .node id attrs, h, hb, hp => by
      obtain ⟨valid, n, hn⟩ := runs_stmt_node.1 h
      rw [Stmt.parts, List.forall_mem_cons] at hp
      exact node_madeOf hn hb hp.1 ⟨valid, hp.2⟩
  | .edge tail hops attrs, h, hb, hp => by
      obtain ⟨valid, first, rest, b1, b2, ho, hh, h⟩ := runs_stmt_edge.1 h
      rw [Stmt.parts, List.forall_mem_append, List.forall_mem_append] at hp
      obtain ⟨⟨htail, hhops⟩, hattrs⟩ := hp
      obtain ⟨h1, hfirst⟩ := operand_madeOf tail ho hb htail
      obtain ⟨h2, hrest⟩ := heads_madeOf hops hh h1 hhops
      refine connected_madeOf (connected_chain h) h2 ⟨valid, hattrs⟩ ?_
      rw [List.flatten_cons]
      exact List.forall_mem_append.2 ⟨hfirst, hrest⟩
  | .defaults element attrs, h, hb, hp => by
      obtain ⟨valid, rfl⟩ := runs_stmt_defaults.1 h
      rw [Stmt.parts] at hp
      exact hb.defaulted ⟨valid, hp⟩
  | .subgraph name stmts, h, hb, hp => by
      obtain ⟨members, hs⟩ := runs_stmt_subgraph.1 h
      rw [Stmt.parts, List.forall_mem_append] at hp
      exact subgraph_madeOf hs hb (mem_graphParts hp.1) fun hrun hb =>
        body_madeOf stmts hrun hb hp.2

theorem operand_madeOf {b b' : Builder} {es : List Endpoint} :
    (o : Operand) → Runs (operand o) b es b' → b.MadeOf F → (∀ p ∈ o.parts, F p) →
      b'.MadeOf F ∧ ∀ e ∈ es, Endpoint.MadeOf F e
  | .node id, h, hb, hp => by
      obtain ⟨n, hn, rfl⟩ := runs_operand_node.1 h
      rw [Operand.parts, NodeId.parts, List.forall_mem_cons] at hp
      refine ⟨node_madeOf hn hb hp.1 .nil, fun e he p hport => ?_⟩
      rw [List.mem_singleton.1 he] at hport
      have hports := fun q hq => hp.2 q (List.mem_flatMap.2 ⟨p, Option.mem_toList.2 hport, hq⟩)
      exact ⟨hports _ List.mem_cons_self, hports _ (List.mem_cons_of_mem _ List.mem_cons_self)⟩
  | .subgraph name stmts, h, hb, hp => by
      obtain ⟨members, hs, _, rfl⟩ := runs_operand_subgraph.1 h
      rw [Operand.parts, List.forall_mem_append] at hp
      refine ⟨subgraph_madeOf hs hb (mem_graphParts hp.1) fun hrun hb =>
        body_madeOf stmts hrun hb hp.2, fun e he p hport => ?_⟩
      obtain ⟨n, _, rfl⟩ := List.mem_map.1 he
      cases hport

theorem heads_madeOf {b b' : Builder} {ops : List (List Endpoint)} :
    (hops : List (EdgeOp × Operand)) → Runs (heads hops) b ops b' → b.MadeOf F →
      (∀ p ∈ Stmt.partsHops hops, F p) → b'.MadeOf F ∧ ∀ e ∈ ops.flatten, Endpoint.MadeOf F e
  | [], h, hb, _ => by
      obtain ⟨rfl, rfl⟩ := runs_heads_nil.1 h
      exact ⟨hb, fun e he => absurd he List.not_mem_nil⟩
  | (op, head) :: hops, h, hb, hp => by
      obtain ⟨first, rest, b1, ho, hh, rfl⟩ := runs_heads_cons.1 h
      rw [Stmt.partsHops, List.forall_mem_append] at hp
      obtain ⟨h1, hfirst⟩ := operand_madeOf head ho hb hp.1
      obtain ⟨h2, hrest⟩ := heads_madeOf hops hh h1 hp.2
      refine ⟨h2, ?_⟩
      rw [List.flatten_cons]
      exact List.forall_mem_append.2 ⟨hfirst, hrest⟩

theorem body_madeOf {b b' : Builder} :
    (stmts : List Stmt) → Runs (body stmts) b () b' → b.MadeOf F →
      (∀ p ∈ Stmt.partsBody stmts, F p) → b'.MadeOf F
  | [], h, hb, _ => by
      rw [runs_body_nil.1 h]
      exact hb
  | first :: rest, h, hb, hp => by
      obtain ⟨b1, hs, h⟩ := runs_body_cons.1 h
      rw [Stmt.partsBody, List.forall_mem_append] at hp
      exact body_madeOf rest h (stmt_madeOf first hs hb hp.1) hp.2

end

end Builder

/-- The model of a tree is made of the parts of the tree. -/
theorem Tree.madeOf {t : Tree} {b : Builder}
    (h : Runs (Builder.tree t) (.new t.kind (t.name.map Id.value)) () b)
    (hp : ∀ p ∈ t.parts, F p) : b.model.MadeOf F := by
  obtain ⟨b1, hbody, rfl⟩ := Builder.runs_tree.1 h
  unfold Tree.parts at hp
  rw [List.forall_mem_append] at hp
  have hnew : (Builder.new t.kind (t.name.map Id.value)).MadeOf F :=
    Builder.madeOf_new (Builder.mem_graphParts hp.1)
  exact (Builder.body_madeOf t.body hbody ⟨hnew.model.setStrict t.strict, hnew.defaults⟩ hp.2).model

end DotLang
