import DotLang.Proofs.GraphScoping
import DotLang.Proofs.NodeScoping
import DotLang.Proofs.Rebuilding
/-!
# Looking up by name

The arenas mix kinds.  The nodes that hold graphs stand among the other nodes, and the
root stands among the subgraphs.  Looking up a node leaves out the wrong kind while it
searches, so it finds the first node of the right kind.  Looking up a subgraph takes the
first graph of the name and leaves out the root afterwards.  So it finds the first
subgraph just if the root has another name, and a root of that name hides all of them.

In the model of a text a name finds a node if the text mentions it, and a subgraph if the
text opens one and is not named so itself.
-/

namespace DotLang

/-! ## The first one -/

section First
variable {α : Type} {index : α → Nat} {p : α → Prop} {found : Option α}

/-- Nothing is found just if nothing has the property, and otherwise what is found comes
first among all that have it. -/
structure FindsFirst (index : α → Nat) (p : α → Prop) (found : Option α) : Prop where
  isSome_iff : found.isSome ↔ ∃ a, p a
  eq_some_iff : ∀ a, found = some a ↔ p a ∧ ∀ b, p b → index a ≤ index b

theorem FindsFirst.of_found (inj : ∀ {a b}, index a = index b → a = b)
    (first : ∀ a, found = some a → p a ∧ ∀ b, p b → index a ≤ index b)
    (none_left : found = none → ∀ a, ¬ p a) : FindsFirst index p found := by
  cases found with
  | none => exact ⟨by simpa using none_left rfl, fun a => by simp [none_left rfl a]⟩
  | some a =>
      obtain ⟨ha, hle⟩ := first a rfl
      refine ⟨by simpa using ⟨a, ha⟩, fun b => ⟨fun hb => first b hb, fun ⟨hb, hfirst⟩ => ?_⟩⟩
      rw [inj (Nat.le_antisymm (hle b hb) (hfirst a ha))]

theorem findIdx?_le {xs : Array α} {q : α → Bool} {i j : Nat} {a : α}
    (h : xs.findIdx? q = some i) (ha : xs[j]? = some a) (hq : q a = true) : i ≤ j := by
  obtain ⟨_, _, before⟩ := Array.findIdx?_eq_some_iff_getElem.1 h
  obtain ⟨hj, rfl⟩ := Array.getElem?_eq_some_iff.1 ha
  exact Nat.le_of_not_lt fun hlt => before j hlt hq

end First

namespace Model

variable {m : Model} {name : String}

/-! ## Nodes -/

theorem findsFirst_node (m : Model) (name : String) :
    FindsFirst NodeRef.index (m.Named · name) (m.findNode? name) := by
  refine .of_found (congrArg NodeRef.mk) (fun n hn => ⟨findNode?_named hn, fun k hk => ?_⟩)
    findNode?_eq_none.1
  obtain ⟨i, hi, rfl⟩ := Option.map_eq_some_iff.1 hn
  obtain ⟨v, hv, hordinary, hname⟩ := hk
  exact findIdx?_le hi hv (by simp [hordinary, hname])

/-! ## Subgraphs -/

/-- The graph is a subgraph of that name. -/
def SubgraphNamed (m : Model) (g : GraphRef) (name : String) : Prop :=
  g ≠ root ∧ m.nameOf g = some name

theorem nameOf_eq_some {g : GraphRef} : m.nameOf g = some name ↔
    ∃ s, m.graphs[g.index]? = some s ∧ (s.name == some name) = true := by
  unfold nameOf graph?
  simp [Option.bind_eq_some_iff]

/-- Among all graphs, the root included, the search finds the first one of the name. -/
theorem findsFirst_graph (m : Model) (name : String) :
    FindsFirst GraphRef.index (fun g => m.nameOf g = some name)
      ((m.graphs.findIdx? fun s => s.name == some name).map GraphRef.mk) := by
  refine .of_found (congrArg GraphRef.mk) (fun g hg => ?_) (fun hnone g hg => ?_)
  · obtain ⟨i, hi, rfl⟩ := Option.map_eq_some_iff.1 hg
    obtain ⟨hlt, hname, _⟩ := Array.findIdx?_eq_some_iff_getElem.1 hi
    refine ⟨nameOf_eq_some.2 ⟨_, Array.getElem?_eq_getElem hlt, hname⟩, fun k hk => ?_⟩
    obtain ⟨s, hs, hp⟩ := nameOf_eq_some.1 hk
    exact findIdx?_le hi hs hp
  · obtain ⟨s, hs, hp⟩ := nameOf_eq_some.1 hg
    have hnone := Array.findIdx?_eq_none_iff.1 (Option.map_eq_none_iff.1 hnone) s
      (Array.mem_of_getElem? hs)
    rw [hp] at hnone
    cases hnone

theorem findSubgraph?_eq (m : Model) (name : String) : m.findSubgraph? name =
    ((m.graphs.findIdx? fun s => s.name == some name).map GraphRef.mk).filter (· ≠ root) := by
  unfold findSubgraph?
  cases m.graphs.findIdx? fun s => s.name == some name with
  | none => rfl
  | some i => cases i <;> rfl

/-- A root of the name hides the subgraphs. -/
theorem findSubgraph?_of_root (hroot : m.nameOf root = some name) :
    m.findSubgraph? name = none := by
  have hfound := (m.findsFirst_graph name).eq_some_iff root
  rw [findSubgraph?_eq, hfound.2 ⟨hroot, fun k _ => Nat.zero_le k.index⟩]
  rfl

theorem findsFirst_subgraph (hroot : m.nameOf root ≠ some name) :
    FindsFirst GraphRef.index (m.SubgraphNamed · name) (m.findSubgraph? name) := by
  have hne : ∀ {g}, m.nameOf g = some name → g ≠ root := by
    rintro g hg rfl
    exact hroot hg
  have hkind : (m.SubgraphNamed · name) = fun g => m.nameOf g = some name :=
    funext fun g => propext ⟨fun hg => hg.2, fun hg => ⟨hne hg, hg⟩⟩
  have hsame : m.findSubgraph? name =
      (m.graphs.findIdx? fun s => s.name == some name).map GraphRef.mk := by
    rw [findSubgraph?_eq]
    cases hg : (m.graphs.findIdx? fun s => s.name == some name).map GraphRef.mk with
    | none => rfl
    | some g => simp [hne (((m.findsFirst_graph name).eq_some_iff g).1 hg).1]
  rw [hkind, hsame]
  exact m.findsFirst_graph name

end Model

/-! ## Models of texts -/

section Built
variable {t : Tree} {m : Model} {name : String}

/-- A name finds a node just if the text mentions it. -/
theorem Tree.Builds.isSome_findNode? (h : t.Builds m) :
    (m.findNode? name).isSome ↔ name ∈ t.mentions.map Mention.name := by
  obtain ⟨b, hrun, rfl⟩ := h
  obtain ⟨d, hmodel, hd⟩ := Tree.makes hrun
  rw [← hmodel, (d.model.findsFirst_node name).isSome_iff, ← Model.mem_names_ordinaryNodes,
    hd.replays.listed.names, List.mem_eraseDups]
  rfl

/-- A name is that of a subgraph just if the text opens it, and then it is one graph
only. -/
theorem Tree.Builds.subgraphNamed_iff (h : t.Builds m) {g : GraphRef} :
    m.SubgraphNamed g name ↔
      .named name ∈ t.subgraphs ∧ g = t.graphRef (some (.named name)) := by
  obtain ⟨b, hrun, rfl⟩ := h
  obtain ⟨d, hmodel, hd⟩ := Tree.makes hrun
  rw [← hmodel, ← hd.subgraphs, ← hd.ref_eq]
  constructor
  · rintro ⟨hroot, hname⟩
    have distinct : d.subgraphs.Nodup := by
      rw [hd.subgraphs]
      exact nodup_eraseDups _
    obtain ⟨s, hs, _⟩ := Option.bind_eq_some_iff.1 hname
    obtain ⟨sub, hsub, rfl⟩ := hd.aligned.exists_ref distinct (Model.graph?_lt hs)
    cases sub with
    | none => exact absurd rfl hroot
    | some key =>
        have hkey := hd.aligned.nameOf_ref (hsub key rfl)
        rw [hname] at hkey
        cases key with
        | named other =>
            cases hkey
            exact ⟨hsub _ rfl, rfl⟩
        | unnamed number => cases hkey
  · rintro ⟨hmem, rfl⟩
    exact ⟨d.ref_ne_root _, hd.aligned.nameOf_ref hmem⟩

theorem Tree.Builds.nameOf_root (h : t.Builds m) :
    m.nameOf Model.root = t.name.map Id.value := by
  obtain ⟨b, hrun, rfl⟩ := h
  obtain ⟨d, hmodel, hd⟩ := Tree.makes hrun
  rw [← hmodel, hd.nameOf_root]

/-- A name finds a subgraph just if the text opens it and is not named so itself. -/
theorem Tree.Builds.findSubgraph?_eq_some (h : t.Builds m) (g : GraphRef) :
    m.findSubgraph? name = some g ↔
      t.name.map Id.value ≠ some name ∧ .named name ∈ t.subgraphs ∧
        g = t.graphRef (some (.named name)) := by
  rw [← h.nameOf_root, ← h.subgraphNamed_iff]
  by_cases hroot : m.nameOf Model.root = some name
  · simp [Model.findSubgraph?_of_root hroot, hroot]
  · rw [(Model.findsFirst_subgraph hroot).eq_some_iff, ne_eq, eq_false hroot]
    refine ⟨fun hg => ⟨not_false, hg.1⟩, fun hg => ⟨hg.2, fun k hk => Nat.le_of_eq ?_⟩⟩
    rw [(h.subgraphNamed_iff.1 hg.2).2, (h.subgraphNamed_iff.1 hk).2]

end Built

/-- A name finds the first node of that name that holds no graph.  It finds the first
subgraph of that name if the root has another one, and no graph if the root has it.  So in
the models of a text it finds a node just if the text mentions it, and a subgraph just if
the text opens it and is not named so itself. -/
theorem Model.found_by_name (name : String) :
    (∀ m : Model,
      FindsFirst NodeRef.index (m.Named · name) (m.findNode? name) ∧
      (m.nameOf root ≠ some name →
        FindsFirst GraphRef.index (m.SubgraphNamed · name) (m.findSubgraph? name)) ∧
      (m.nameOf root = some name → m.findSubgraph? name = none)) ∧
    ∀ (text : String) (ms : List Model), (importText text).result = .ok ms →
      ∃ trees, Tree.parse text = .ok trees ∧
        List.Forall₂ (fun t m => m.nameOf root = t.name.map Id.value ∧
          ((m.findNode? name).isSome ↔ name ∈ t.mentions.map Mention.name) ∧
          ∀ g, m.findSubgraph? name = some g ↔
            t.name.map Id.value ≠ some name ∧ .named name ∈ t.subgraphs ∧
              g = t.graphRef (some (.named name))) trees ms := by
  refine ⟨fun m => ⟨m.findsFirst_node name, findsFirst_subgraph, findSubgraph?_of_root⟩,
    fun text ms imported => ?_⟩
  obtain ⟨trees, parsed, built⟩ := importText_builds imported
  exact ⟨trees, parsed, built.imp fun t m h =>
    ⟨h.nameOf_root, h.isSome_findNode?, h.findSubgraph?_eq_some⟩⟩

/-- A node, a subgraph and the node that holds it have the same name. -/
theorem Model.found_by_name_shared :
    let text := "digraph g \x7b subgraph s \x7b a \x7d s \x7d"
    let m := ((Model.new .digraph (some "g")).addSubgraph root "s" (some "s") .empty).2.2
    let m := ((m.addNode ⟨1⟩ "a" .empty).2.addNode root "s" .empty).2
    m.nameOf root ≠ some "s" ∧ (importText text).result = .ok [m] ∧
      m.findNode? "s" = some ⟨2⟩ ∧ m.findSubgraph? "s" = some ⟨1⟩ ∧
      FindsFirst NodeRef.index (m.Named · "s") (m.findNode? "s") ∧
      FindsFirst GraphRef.index (m.SubgraphNamed · "s") (m.findSubgraph? "s") ∧
      m.nameOf root = some "g" ∧ m.findSubgraph? "g" = none ∧
      ∃ trees, Tree.parse text = .ok trees ∧
        List.Forall₂ (fun t m => m.nameOf root = t.name.map Id.value ∧
          ((m.findNode? "s").isSome ↔ "s" ∈ t.mentions.map Mention.name) ∧
          ∀ g, m.findSubgraph? "s" = some g ↔
            t.name.map Id.value ≠ some "s" ∧ .named "s" ∈ t.subgraphs ∧
              g = t.graphRef (some (.named "s"))) trees [m] := by
  intro text m₁ m
  have other : m.nameOf root ≠ some "s" := by decide
  have own : m.nameOf root = some "g" := by decide
  have imported : (importText text).result = .ok [m] := by decide +kernel
  obtain ⟨hnode, hsubgraph, _⟩ := (found_by_name "s").1 m
  exact ⟨other, imported, by decide +kernel, by decide +kernel, hnode, hsubgraph other, own,
    ((found_by_name "g").1 m).2.2 own, (found_by_name "s").2 text [m] imported⟩

/-- The root stands in front of the subgraph of its name. -/
theorem Model.subgraph_hidden_by_root :
    let text := "digraph s \x7b subgraph s \x7b a \x7d \x7d"
    let m := ((Model.new .digraph (some "s")).addSubgraph root "s" (some "s") .empty).2.2
    let m := (m.addNode ⟨1⟩ "a" .empty).2
    m.Reached ∧ (importText text).result = .ok [m] ∧
      m.SubgraphNamed ⟨1⟩ "s" ∧ m.findSubgraph? "s" = none := by
  intro text m₁ m
  have reached : m₁.Reached := .addSubgraph "s" (some "s") .empty (by decide) (.new _ _)
  exact ⟨reached.addNode "a" .empty (by decide), by decide +kernel, ⟨by decide, by decide⟩,
    by decide +kernel⟩

end DotLang
