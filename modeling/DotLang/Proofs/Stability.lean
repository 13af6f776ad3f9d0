import DotLang.Proofs.DeclaringFirst
/-!
# Exporting again

A model is stable if its text can be imported again, gives one model, and that
model has the same text.  The exporter writes the edges of a graph behind its
nodes, but in front of the graphs that follow, so an edge may stand in front of
the statement for a node that it joins.  Then the importer finds the node in the
wrong graph.  This can happen where a subgraph was opened again, and
`importText_stable_iff` says that nothing else can happen to a safe model: it is
stable just if its tree declares every node before the edges that join it.

A model of safe parts is safe.  So the model that is imported again is safe, and
equal texts mean equal trees.
-/

namespace DotLang

/-! ## Safe parts -/

/-- The name or the entry can be written and be read back. -/
def Part.Safe : Part → Prop
  | .graph name => (Id.ofText name).Safe
  | .node name => (Id.ofText name).Safe
  | .entry _ key value => SafeEntry (key, value)

/-- Without backslashes there is no odd run of them. -/
theorem runsEven_of_not_mem {cs : List Char} (h : '\\' ∉ cs) : RunsEven cs := by
  intro before n behind he _ _
  cases n with
  | zero => rfl
  | succ n =>
      refine absurd ?_ h
      rw [he, List.replicate_succ]
      simp

/-- A numbered name of the builder is a percent sign and digits, so it is quoted
and holds no backslash. -/
theorem holderNumbered_safe (k : Nat) : (Id.ofText (holderNumbered k)).Safe := by
  have hchars : (holderNumbered k).toList = '%' :: Nat.toDigits 10 k := by
    show ("%" ++ k.repr).toList = _
    rw [String.toList_append, Nat.toList_repr]
    rfl
  have hplain : isPlain (holderNumbered k).toList = false := by
    rw [hchars]
    rfl
  have hnumeral : isNumeral (holderNumbered k).toList = false := by
    rw [hchars]
    rfl
  unfold Id.ofText
  rw [hplain, hnumeral]
  show RunsEven (holderNumbered k).toList
  refine runsEven_of_not_mem ?_
  rw [hchars, List.mem_cons]
  rintro (h | h)
  · cases h
  · exact ne_of_isDigit (Nat.isDigit_of_mem_toDigits (by decide) (by decide) h) (by decide) rfl

namespace Model

variable {m : Model}

theorem MadeOf.safe (h : m.MadeOf Part.Safe) : m.Safe where
  graph_name := by
    intro s hs name hname
    obtain ⟨i, hi⟩ := Array.mem_iff_getElem?.1 hs
    exact h.graph_name (g := ⟨i⟩) hi name hname
  node_name := by
    intro v hv
    obtain ⟨i, hi⟩ := Array.mem_iff_getElem?.1 hv
    rcases h.node_name (n := ⟨i⟩) hi with hname | hname | ⟨k, hname⟩
    · exact hname
    · exact hname
    · rw [hname]
      exact holderNumbered_safe k
  graph_attrs := by
    intro s hs e he
    obtain ⟨i, hi⟩ := Array.mem_iff_getElem?.1 hs
    exact (h.graph_attrs (g := ⟨i⟩) hi).parts e he
  node_attrs := by
    intro v hv e he
    obtain ⟨i, hi⟩ := Array.mem_iff_getElem?.1 hv
    exact (h.node_attrs (n := ⟨i⟩) hi).parts e he
  edge_attrs := by
    intro v hv e he
    obtain ⟨i, hi⟩ := Array.mem_iff_getElem?.1 hv
    exact (h.edge_attrs (e := ⟨i⟩) hi).parts e he

/-! ## The parts of a described body -/

theorem safe_entries {element : Element} {attrs : AttrList} (h : SafeEntries attrs) :
    ∀ p ∈ AttrList.parts element attrs, p.Safe := by
  intro p hp
  obtain ⟨e, he, rfl⟩ := List.mem_map.1 hp
  exact h e he

theorem safe_attrs {attrs : AttrList} (h : SafeEntries attrs) :
    ∀ p ∈ Stmt.partsBody (attrs.map fun attr => .defaults .graph [attr]), p.Safe := by
  induction attrs with
  | nil => exact fun p hp => absurd hp List.not_mem_nil
  | cons e attrs ih =>
      rw [List.map_cons, Stmt.partsBody, List.forall_mem_append, Stmt.parts]
      refine ⟨safe_entries fun e' he' => ?_, ih fun e' he' => h e' (List.mem_cons_of_mem _ he')⟩
      rw [List.mem_singleton.1 he']
      exact h e List.mem_cons_self

theorem safe_nodeName (safe : m.Safe) {n : NodeRef} {v : Node} (hv : m.node? n = some v) :
    (Part.node (nodeIdOf v).name.value).Safe := by
  show (Id.ofText (Id.ofText v.name).value).Safe
  rw [Id.ofText_value]
  exact safe.node_name v (Array.mem_of_getElem? hv)

theorem Safe.graphParts (safe : m.Safe) (g : GraphRef) :
    ∀ p ∈ Id.graphParts ((m.nameOf g).map .ofText), p.Safe := by
  intro p hp
  obtain ⟨i, hi, rfl⟩ := List.mem_map.1 hp
  have hi : i ∈ (m.nameOf g).map Id.ofText := Option.mem_toList.1 hi
  obtain ⟨name, hname, rfl⟩ := Option.map_eq_some_iff.1 (Option.mem_def.1 hi)
  show (Id.ofText (Id.ofText name).value).Safe
  rw [Id.ofText_value]
  exact safe.nameOf hi

theorem DescribesEdges.safe_parts (safe : m.Safe) {es : List EdgeRef} {stmts : List Stmt}
    (h : m.DescribesEdges es stmts) : ∀ p ∈ Stmt.partsBody stmts, p.Safe := by
  induction h with
  | nil => exact fun p hp => absurd hp List.not_mem_nil
  | @cons e es v source target stmts edge has_source has_target _ ih =>
      rw [Stmt.partsBody, List.forall_mem_append, Stmt.parts, List.forall_mem_append]
      refine ⟨⟨fun p hp => ?_, safe_entries ?_⟩, ih⟩
      · have hp : p ∈ [Part.node (nodeIdOf source).name.value,
            Part.node (nodeIdOf target).name.value] := hp
        rw [List.mem_cons, List.mem_singleton] at hp
        rcases hp with rfl | rfl
        · exact safe_nodeName safe has_source
        · exact safe_nodeName safe has_target
      · exact safe.edge_attrs v (Array.mem_of_getElem? edge)

mutual

theorem Describes.safe_parts (safe : m.Safe) {g : GraphRef} {body : List Stmt} :
    m.Describes g body → ∀ p ∈ Stmt.partsBody body, p.Safe
  | .mk graph members joined => by
      rw [Stmt.partsBody_append, Stmt.partsBody_append, List.forall_mem_append,
        List.forall_mem_append]
      exact ⟨⟨members.safe_parts safe, joined.safe_parts safe⟩,
        safe_attrs (safe.graph_attrs _ (Array.mem_of_getElem? graph))⟩

theorem DescribesNodes.safe_parts (safe : m.Safe) {ns : List NodeRef} {stmts : List Stmt} :
    m.DescribesNodes ns stmts → ∀ p ∈ Stmt.partsBody stmts, p.Safe
  | .nil => fun p hp => absurd hp List.not_mem_nil
  | .node node _ rest => by
      rw [Stmt.partsBody, List.forall_mem_append, Stmt.parts, List.forall_mem_cons]
      exact ⟨⟨safe_nodeName safe node, safe_entries (safe.node_attrs _ (Array.mem_of_getElem? node))⟩,
        rest.safe_parts safe⟩
  | .subgraph _ _ described rest => by
      rw [Stmt.partsBody, List.forall_mem_append, Stmt.parts, List.forall_mem_append]
      exact ⟨⟨safe.graphParts _, described.safe_parts safe⟩, rest.safe_parts safe⟩

end

theorem WellFormed.safe_parts (wf : m.WellFormed) (safe : m.Safe) :
    ∀ p ∈ m.toTree.parts, p.Safe :=
  List.forall_mem_append.2 ⟨safe.graphParts _, wf.describes_toTree.safe_parts safe⟩

/-! ## Importing again -/

/-- The text of the model is imported as one model, which has the same text. -/
def Stable (m : Model) : Prop :=
  ∃ m', (importText m.toDot).result = .ok [m'] ∧ m'.toDot = m.toDot

/-- The text of the model of a text, if there is just one. -/
def textAgain? (text : String) : Option String :=
  match (importText text).result with
  | .ok [m] => some m.toDot
  | _ => none

theorem textAgain?_eq_some {text text' : String} :
    textAgain? text = some text' ↔ ∃ m, (importText text).result = .ok [m] ∧ m.toDot = text' := by
  unfold textAgain?
  split
  · rename_i m h
    rw [h]
    constructor
    · intro he
      exact ⟨m, rfl, Option.some.inj he⟩
    · rintro ⟨m', he, rfl⟩
      cases he
      rfl
  · rename_i h
    constructor
    · intro he
      cases he
    · rintro ⟨m, he, _⟩
      exact absurd he (h m)

instance (m : Model) : Decidable m.Stable :=
  decidable_of_iff (textAgain? m.toDot = some m.toDot) textAgain?_eq_some

/-- The text of a safe model is imported as what its tree builds. -/
theorem WellFormed.importText_toDot (wf : m.WellFormed) (safe : m.Safe) {m' : Model} :
    (importText m.toDot).result = .ok [m'] ↔ ∃ log, m.toTree.build = (.ok m', log) := by
  unfold importText
  rw [wf.parse_toDot safe]
  show (importTrees [m.toTree]).result = .ok [m'] ↔ _
  unfold importTrees
  cases hb : m.toTree.build with
  | mk r log =>
      cases r with
      | error e =>
          constructor
          · intro h
            cases h
          · rintro ⟨_, h⟩
            cases h
      | ok m₁ =>
          constructor
          · intro h
            cases h
            exact ⟨log, rfl⟩
          · rintro ⟨_, h⟩
            cases h
            rfl

/-- Safe models with the same text have the same tree. -/
theorem WellFormed.toTree_eq {m' : Model} (wf : m.WellFormed) (safe : m.Safe)
    (wf' : m'.WellFormed) (safe' : m'.Safe) (text : m'.toDot = m.toDot) :
    m'.toTree = m.toTree := by
  have h := wf'.parse_toDot safe'
  rw [text, wf.parse_toDot safe] at h
  exact (List.cons.inj (Except.ok.inj h)).1.symm

/-- A safe model is stable just if its tree is plain. -/
theorem Built.stable_iff (h : m.Built) (safe : m.Safe) : m.Stable ↔ m.toTree.Plain := by
  constructor
  · rintro ⟨m', imported, text⟩
    obtain ⟨log, built⟩ := (h.wellFormed.importText_toDot safe).1 imported
    obtain ⟨b, hrun, rfl, _⟩ := Tree.build_eq_ok.1 built
    have safe' : b.model.Safe := (Tree.madeOf hrun (h.wellFormed.safe_parts safe)).safe
    have same := h.wellFormed.toTree_eq safe (Tree.built hrun).wellFormed safe' text
    rw [← same]
    exact Tree.plain_toTree hrun h.distinct_toTree.2
  · intro plain
    obtain ⟨b, hrun, same⟩ := plain.runs
    refine ⟨b.model, (h.wellFormed.importText_toDot safe).2
      ⟨b.log, Tree.build_eq_ok.2 ⟨b, hrun, rfl, rfl⟩⟩, ?_⟩
    unfold toDot
    rw [same]

end Model

/-! ## Imported models -/

/-- Imported models are as the builder leaves them. -/
theorem importText_built {text : String} {ms : List Model}
    (imported : (importText text).result = .ok ms) : ∀ m ∈ ms, m.Built := by
  intro m hm
  obtain ⟨t, b, hrun, rfl⟩ := importText_runs imported hm
  exact Tree.built hrun

/-- A safe model that is imported is stable just if in its tree every edge stands
behind the statements for the nodes that it joins. -/
theorem importText_stable_iff {text : String} {ms : List Model} {m : Model}
    (imported : (importText text).result = .ok ms) (listed : m ∈ ms) (safe : m.Safe) :
    m.Stable ↔ m.toTree.DeclaresFirst := by
  have built := importText_built imported m listed
  rw [built.stable_iff safe, built.plain_iff]

theorem importText_stable_cluster :
    let text := "digraph G \x7b subgraph cluster_s \x7b node [shape=box] b -> c \x7d " ++
      "a -> b [label=<<i>>] \x7d"
    let m := ((Model.new .digraph (some "G")).addSubgraph Model.root "cluster_s"
      (some "cluster_s") .empty).2.2
    let m := (m.addNode ⟨1⟩ "b" (.ofList [("shape", .ofText "box")])).2
    let m := (m.addNode ⟨1⟩ "c" (.ofList [("shape", .ofText "box")])).2
    let m := ((m.addEdge ⟨1⟩ ⟨1⟩ ⟨2⟩ .empty).2.addNode Model.root "a" .empty).2
    let m := (m.addEdge Model.root ⟨3⟩ ⟨1⟩ (.ofList [("label", .html "<i>")])).2
    (importText text).result = .ok [m] ∧ m ∈ [m] ∧ m.Safe ∧
      (m.Stable ↔ m.toTree.DeclaresFirst) := by
  intro text m₁ m₂ m₃ m₄ m
  have imported : (importText text).result = .ok [m] := by decide +kernel
  have listed : m ∈ [m] := List.mem_singleton.2 rfl
  have safe : m.Safe := ⟨by decide +kernel, by decide +kernel, by decide +kernel,
    by decide +kernel, by decide +kernel⟩
  exact ⟨imported, listed, safe, importText_stable_iff imported listed safe⟩

/-- A subgraph that is opened again behind a node can join it, but the text of the
model joins the node before it stands there. -/
theorem importText_reopened_not_stable :
    let m := ((Model.new .digraph none).addSubgraph Model.root "s" (some "s") .empty).2.2
    let m := ((m.addNode ⟨1⟩ "x" .empty).2.addNode Model.root "a" .empty).2
    let m := (m.addEdge ⟨1⟩ ⟨2⟩ ⟨1⟩ .empty).2
    (importText "digraph \x7b subgraph s \x7b x \x7d a subgraph s \x7b a -> x \x7d \x7d").result =
      .ok [m] ∧ m.Safe ∧ ¬ m.Stable := by
  refine ⟨by decide +kernel, ⟨by decide +kernel, by decide +kernel, by decide +kernel,
    by decide +kernel, by decide +kernel⟩, by decide +kernel⟩

-- Nor is every model stable whose tree declares the nodes first: the closing quote
-- of this name is lost.
example : ¬ ((Model.new .graph none).addNode Model.root "\\" .empty).2.Stable := by
  decide +kernel

-- But safety is more than stability asks for.  Here the text between quotes that do
-- not close where they should spells the rest of the graph.
example :
    let m := (((Model.new .graph none).addNode Model.root "x" .empty).2.addSubgraph Model.root
      "s" (some "s") .empty).2.2
    let m := (m.addNode ⟨1⟩ "=1,<\\>=1]subgraph s\x7b\x7d--z//" .empty).2
    let m := (m.addNode Model.root "z" .empty).2
    let m := (m.addEdge Model.root ⟨0⟩ ⟨3⟩
      (.ofList [("\"=1]\n  ", .ofText "1"), ("\\", .ofText "1")])).2
    let m := (m.addEdge Model.root ⟨2⟩ ⟨3⟩ .empty).2
    ¬ m.Safe ∧ m.Stable :=
  ⟨fun h => absurd h.edge_attrs (by decide +kernel), by decide +kernel⟩

end DotLang
