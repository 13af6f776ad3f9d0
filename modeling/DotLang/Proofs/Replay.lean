import DotLang.Proofs.Coherence
import DotLang.Proofs.Walk
import Mathlib.Data.List.Basic
import Mathlib.Data.List.Induction
/-!
# Replaying a walk

A walk can be carried out on a model directly: each of its events says by itself
what changes.  `Draft` is a model together with the subgraphs that were opened so
far, and `Draft.add` carries out one event.  There are no stacks and no tables.
Nodes are found by their name in the model, and subgraphs by their place in the
list.

`Draft.Replays` says that one draft becomes another along a walk, and that each
event fits where it comes: its scope is known, and so are the nodes that it joins.
A fact about walks and drafts that each fitting event keeps holds after all of
them, which is `Draft.Replays.keeps`.
-/

namespace DotLang

/-! ## Entries once each -/

/-- A further entry is kept if it is new. -/
theorem eraseDups_concat {α : Type} [DecidableEq α] (l : List α) (a : α) :
    (l ++ [a]).eraseDups = if a ∈ l then l.eraseDups else l.eraseDups ++ [a] := by
  rw [List.eraseDups_append]
  by_cases ha : a ∈ l <;> simp [List.removeAll, List.eraseDups_cons, ha]

theorem nodup_eraseDups {α : Type} [DecidableEq α] (l : List α) : l.eraseDups.Nodup := by
  induction l using List.reverseRecOn with
  | nil => exact List.nodup_nil
  | append_singleton l a ih =>
      rw [eraseDups_concat]
      split
      · exact ih
      · exact List.nodup_append.2 ⟨ih, List.pairwise_singleton _ a, by grind [List.mem_eraseDups]⟩

/-! ## Nodes by name -/

namespace Model

variable {m m' : Model} {n k : NodeRef} {name other : String}

/-- The reference means the node of that name, which holds no graph. -/
def Named (m : Model) (n : NodeRef) (name : String) : Prop :=
  ∃ v, m.node? n = some v ∧ v.nested = none ∧ v.name = name

/-- No two nodes that hold no graph have the same name. -/
def DistinctNames (m : Model) : Prop :=
  ∀ ⦃n k : NodeRef⦄ ⦃name : String⦄, m.Named n name → m.Named k name → n = k

theorem Named.ordinary (h : m.Named n name) : m.Ordinary n := by
  obtain ⟨v, hv, ho, _⟩ := h
  exact ⟨v, hv, ho⟩

theorem Named.name_eq (h : m.Named n name) (h' : m.Named n other) : name = other := by
  obtain ⟨v, hv, _, rfl⟩ := h
  obtain ⟨v', hv', _, rfl⟩ := h'
  obtain rfl := Option.some.inj (hv.symm.trans hv')
  rfl

theorem Named.of_bare_eq (he : m.bare = m'.bare) (h : m.Named n name) : m'.Named n name := by
  obtain ⟨v, hv, ho, hname⟩ := h
  obtain ⟨v', hv', hb⟩ := node?_of_bare_eq he.symm hv
  obtain ⟨hname', _, hnested⟩ := Node.bare_eq.1 hb
  exact ⟨v', hv', hnested.trans ho, hname'.trans hname⟩

theorem Named.pushNode (h : m.Named n name) (g : GraphRef) (nodeName : String)
    (attrs : Attributes) (nested : Option GraphRef) :
    (m.pushNode g nodeName attrs nested).Named n name := by
  obtain ⟨v, hv, ho, hname⟩ := h
  exact ⟨v, node?_pushNode_of hv, ho, hname⟩

theorem named_addNode (m : Model) (g : GraphRef) (name : String) (attrs : Attributes) :
    (m.addNode g name attrs).2.Named ⟨m.nodes.size⟩ name := by
  refine ⟨⟨name, g, attrs, none⟩, ?_, rfl, rfl⟩
  show (m.pushNode g name attrs none).node? _ = _
  rw [node?_pushNode, if_pos rfl]

/-- The node that is found by a name has it. -/
theorem findNode?_named (h : m.findNode? name = some n) : m.Named n name := by
  obtain ⟨i, hi, rfl⟩ := Option.map_eq_some_iff.1 h
  obtain ⟨hlt, hp, _⟩ := Array.findIdx?_eq_some_iff_getElem.1 hi
  rw [Bool.and_eq_true, Option.isNone_iff_eq_none, beq_iff_eq] at hp
  exact ⟨m.nodes[i], Array.getElem?_eq_getElem hlt, hp.1, hp.2⟩

theorem findNode?_eq_none : m.findNode? name = none ↔ ∀ n, ¬ m.Named n name := by
  constructor
  · rintro h n ⟨v, hv, ho, hname⟩
    have hnone := Array.findIdx?_eq_none_iff.1 (Option.map_eq_none_iff.1 h) v
      (Array.mem_of_getElem? hv)
    rw [ho, hname, Option.isNone_none, beq_self_eq_true] at hnone
    cases hnone
  · intro h
    cases hf : m.findNode? name with
    | none => rfl
    | some n => exact absurd (findNode?_named hf) (h n)

/-- Where names are distinct, a node is found by its name. -/
theorem DistinctNames.findNode?_eq_some (h : m.DistinctNames) :
    m.findNode? name = some n ↔ m.Named n name := by
  refine ⟨findNode?_named, fun hn => ?_⟩
  cases hf : m.findNode? name with
  | none => exact absurd hn (findNode?_eq_none.1 hf n)
  | some k => rw [h hn (findNode?_named hf)]

end Model

/-! ## Drafts -/

/-- A model, and the subgraphs that its graphs other than the root are. -/
structure Draft where
  model : Model
  subgraphs : List SubgraphKey

namespace Draft

/-- The draft of a text that says nothing. -/
def start (kind : GraphKind) (name : Option String) (strict : Bool) : Draft :=
  ⟨{ Model.new kind name with strict := strict }, []⟩

/-- The graph of a subgraph. -/
def ref (d : Draft) : Option SubgraphKey → GraphRef := graphRefIn d.subgraphs

/-- A node is mentioned.  It gets the attributes that stand there, and it is made if
it is new. -/
def mention (d : Draft) (o : Mention) : Draft :=
  { d with model :=
      match d.model.findNode? o.name with
      | some n => d.model.modifyNodeAttrs n (·.insertList o.attrs)
      | none => (d.model.addNode (d.ref o.scope.subgraph) o.name
          ((Attributes.ofList (o.scope.entries .node)).insertList o.attrs)).2 }

/-- Defaults are set.  Those for graphs are attributes of the graph around them. -/
def setting (d : Draft) (scope : Scope) (element : Element) (attrs : AttrList) : Draft :=
  { d with model :=
      if element = .graph then
        d.model.modifyGraphAttrs (d.ref scope.subgraph) (·.insertList attrs)
      else d.model }

/-- A body is opened.  Its subgraph is made if it is new. -/
def opening (d : Draft) (o : Opening) : Draft :=
  if o.key ∈ d.subgraphs then d
  else
    ⟨(d.model.addSubgraph (d.ref o.scope.subgraph) o.key.holder o.key.name
        (.ofList (o.scope.entries .graph))).2.2, d.subgraphs ++ [o.key]⟩

/-- The node of a name. -/
def node (d : Draft) (name : String) : NodeRef := (d.model.findNode? name).getD ⟨0⟩

/-- An edge is added. -/
def link (d : Draft) (l : Link) : Draft :=
  { d with model :=
      (d.model.addEdge (d.ref l.subgraph) (d.node l.tail) (d.node l.head) l.attrs).2 }

/-- The draft behind an event. -/
def add (d : Draft) : Occurrence → Draft
  | ⟨scope, .node name attrs⟩ => d.mention ⟨scope, name, attrs⟩
  | ⟨scope, .endpoint name⟩ => d.mention ⟨scope, name, []⟩
  | ⟨scope, .setting element attrs⟩ => d.setting scope element attrs
  | ⟨scope, .opening key⟩ => d.opening ⟨scope, key⟩
  | ⟨scope, .edges operands attrs⟩ => (Fan.mk scope operands attrs).links.foldl link d

variable {d d' d1 : Draft} {o : Occurrence} {w : List Occurrence} {key : SubgraphKey}
  {sub : Option SubgraphKey}

/-- A known node gets the attributes. -/
theorem model_mention_known {p : Mention} {n : NodeRef} (h : d.model.findNode? p.name = some n) :
    (d.mention p).model = d.model.modifyNodeAttrs n (·.insertList p.attrs) := by
  simp only [mention, h]

/-- A new node is made. -/
theorem model_mention_new {p : Mention} (h : d.model.findNode? p.name = none) :
    (d.mention p).model = d.model.pushNode (d.ref p.scope.subgraph) p.name
      ((Attributes.ofList (p.scope.entries .node)).insertList p.attrs) none := by
  simp only [mention, h]
  rfl

/-- The subgraph is known, if it is one. -/
def Knows (d : Draft) (sub : Option SubgraphKey) : Prop := ∀ key ∈ sub, key ∈ d.subgraphs

theorem knows_none (d : Draft) : d.Knows none := fun _ h => by cases h

theorem knows_some : d.Knows (some key) ↔ key ∈ d.subgraphs :=
  ⟨fun h => h key rfl, fun h _ hk => Option.some.inj hk ▸ h⟩

/-! ## Drafts only grow -/

/-- Subgraphs and the names of nodes stay. -/
structure Extends (d d' : Draft) : Prop where
  subgraphs : d.subgraphs <+: d'.subgraphs
  named : ∀ {n name}, d.model.Named n name → d'.model.Named n name

theorem Extends.refl (d : Draft) : Extends d d := ⟨List.prefix_refl _, id⟩

theorem Extends.trans (h : Extends d d1) (h' : Extends d1 d') : Extends d d' :=
  ⟨h.subgraphs.trans h'.subgraphs, fun hn => h'.named (h.named hn)⟩

theorem Extends.knows (h : Extends d d') (hs : d.Knows sub) : d'.Knows sub :=
  fun key hk => h.subgraphs.subset (hs key hk)

/-- A known subgraph keeps its graph. -/
theorem Extends.ref_eq (h : Extends d d') (hs : d.Knows sub) : d'.ref sub = d.ref sub := by
  cases sub with
  | none => rfl
  | some key =>
      obtain ⟨more, hmore⟩ := h.subgraphs
      show GraphRef.mk (d'.subgraphs.idxOf key + 1) = ⟨d.subgraphs.idxOf key + 1⟩
      rw [← hmore, List.idxOf_append_of_mem (hs key rfl)]

theorem extends_mention (d : Draft) (o : Mention) : Extends d (d.mention o) := by
  refine ⟨List.prefix_refl _, fun hn => ?_⟩
  unfold mention
  split
  · exact hn.of_bare_eq (Model.bare_modifyNodeAttrs _ _ _).symm
  · exact hn.pushNode _ _ _ _

theorem extends_setting (d : Draft) (scope : Scope) (element : Element) (attrs : AttrList) :
    Extends d (d.setting scope element attrs) := by
  refine ⟨List.prefix_refl _, fun hn => ?_⟩
  unfold setting
  split
  · exact hn.of_bare_eq (Model.bare_modifyGraphAttrs _ _ _).symm
  · exact hn

theorem extends_opening (d : Draft) (o : Opening) : Extends d (d.opening o) := by
  unfold opening
  split
  · exact .refl d
  · exact ⟨List.prefix_append _ _, fun hn => hn.pushNode _ _ _ _⟩

theorem extends_link (d : Draft) (l : Link) : Extends d (d.link l) := ⟨List.prefix_refl _, id⟩

theorem extends_links (d : Draft) (ls : List Link) : Extends d (ls.foldl link d) := by
  induction ls generalizing d with
  | nil => exact .refl d
  | cons l ls ih => exact (extends_link d l).trans (ih _)

theorem extends_add (d : Draft) (o : Occurrence) : Extends d (d.add o) := by
  obtain ⟨scope, event⟩ := o
  cases event with
  | node name attrs => exact extends_mention d _
  | endpoint name => exact extends_mention d _
  | setting element attrs => exact extends_setting d scope element attrs
  | opening key => exact extends_opening d _
  | edges operands attrs => exact extends_links d _

/-! ## Graphs and subgraphs -/

/-- Both drafts have the same subgraphs, and graphs of the same names. -/
structure SameGraphs (d d' : Draft) : Prop where
  subgraphs : d'.subgraphs = d.subgraphs
  size : d'.model.graphs.size = d.model.graphs.size
  nameOf : ∀ g, d'.model.nameOf g = d.model.nameOf g

theorem SameGraphs.of_bare_eq {m : Model} (he : m.bare = d.model.bare) :
    SameGraphs d ⟨m, d.subgraphs⟩ :=
  ⟨rfl, Model.graphs_size_of_bare_eq he, Model.nameOf_of_bare_eq he.symm⟩

theorem sameGraphs_mention (d : Draft) (o : Mention) : SameGraphs d (d.mention o) := by
  unfold mention
  split
  · exact .of_bare_eq (Model.bare_modifyNodeAttrs _ _ _)
  · exact ⟨rfl, Model.graphs_size_pushNode _ _ _ _ _, fun _ => Model.nameOf_pushNode _ _ _ _ _ _⟩

theorem sameGraphs_setting (d : Draft) (scope : Scope) (element : Element) (attrs : AttrList) :
    SameGraphs d (d.setting scope element attrs) := by
  unfold setting
  split
  · exact .of_bare_eq (Model.bare_modifyGraphAttrs _ _ _)
  · exact .of_bare_eq rfl

theorem sameGraphs_link (d : Draft) (l : Link) : SameGraphs d (d.link l) :=
  ⟨rfl, Model.graphs_size_addEdge _ _ _ _ _, fun _ => Model.nameOf_addEdge _ _ _ _ _ _⟩

theorem sameGraphs_links (d : Draft) (ls : List Link) : SameGraphs d (ls.foldl link d) := by
  induction ls generalizing d with
  | nil => exact .of_bare_eq rfl
  | cons l ls ih =>
      have h := ih (d.link l)
      have hl := sameGraphs_link d l
      exact ⟨h.subgraphs, h.size.trans hl.size, fun g => (h.nameOf g).trans (hl.nameOf g)⟩

theorem nodes_setting (d : Draft) (scope : Scope) (element : Element) (attrs : AttrList) :
    (d.setting scope element attrs).model.nodes = d.model.nodes := by
  unfold setting
  split <;> rfl

theorem nodes_links (d : Draft) (ls : List Link) :
    (ls.foldl link d).model.nodes = d.model.nodes := by
  induction ls generalizing d with
  | nil => rfl
  | cons l ls ih => exact ih (d.link l)

/-- Only openings change the graphs. -/
theorem sameGraphs_add (d : Draft) (h : o.opening? = none) : SameGraphs d (d.add o) := by
  obtain ⟨scope, event⟩ := o
  cases event with
  | node name attrs => exact sameGraphs_mention d _
  | endpoint name => exact sameGraphs_mention d _
  | setting element attrs => exact sameGraphs_setting d scope element attrs
  | opening key => cases h
  | edges operands attrs => exact sameGraphs_links d _

theorem subgraphs_opening (d : Draft) (o : Opening) :
    (d.opening o).subgraphs =
      if o.key ∈ d.subgraphs then d.subgraphs else d.subgraphs ++ [o.key] := by
  unfold opening
  split <;> rfl

/-- The graphs of the model are the root and the subgraphs, in order. -/
structure Aligned (d : Draft) : Prop where
  size : d.model.graphs.size = d.subgraphs.length + 1
  name : ∀ {i key}, d.subgraphs[i]? = some key → d.model.nameOf ⟨i + 1⟩ = key.name

theorem aligned_start (kind : GraphKind) (name : Option String) (strict : Bool) :
    (start kind name strict).Aligned :=
  ⟨rfl, fun h => by cases h⟩

theorem Aligned.of_same (h : d.Aligned) (same : SameGraphs d d') : d'.Aligned := by
  refine ⟨by rw [same.size, same.subgraphs, h.size], fun hi => ?_⟩
  rw [same.subgraphs] at hi
  rw [same.nameOf, h.name hi]

/-- A new graph comes last, and the others keep their names. -/
theorem nameOf_opening (h : d.Aligned) (o : Opening) (g : GraphRef) :
    (d.opening o).model.nameOf g =
      if o.key ∉ d.subgraphs ∧ g.index = d.subgraphs.length + 1 then o.key.name
      else d.model.nameOf g := by
  unfold opening
  split
  · next hk => rw [if_neg fun hn => hn.1 hk]
  · next hk =>
      rw [Model.nameOf_addSubgraph, h.size]
      simp only [hk, not_false_iff, true_and]

theorem Aligned.opening (h : d.Aligned) (o : Opening) : (d.opening o).Aligned := by
  by_cases hk : o.key ∈ d.subgraphs
  · rwa [Draft.opening, if_pos hk]
  · refine ⟨?_, fun {i key} hi => ?_⟩
    · rw [Draft.opening, if_neg hk, Model.graphs_size_addSubgraph, h.size, List.length_append]
      rfl
    · rw [subgraphs_opening, if_neg hk] at hi
      rw [nameOf_opening h]
      rcases Nat.lt_trichotomy i d.subgraphs.length with hlt | rfl | hgt
      · rw [if_neg fun hn => by have := hn.2; simp at this; omega]
        rw [List.getElem?_append_left hlt] at hi
        exact h.name hi
      · rw [if_pos ⟨hk, rfl⟩]
        rw [List.getElem?_concat_length] at hi
        rw [Option.some.inj hi]
      · rw [List.getElem?_eq_none (by simp; omega)] at hi
        cases hi

theorem Aligned.add (h : d.Aligned) (o : Occurrence) : (d.add o).Aligned := by
  obtain ⟨scope, event⟩ := o
  cases event with
  | opening key => exact h.opening _
  | _ => exact h.of_same (sameGraphs_add d rfl)

/-- The root keeps its name. -/
theorem nameOf_root_add (h : d.Aligned) (o : Occurrence) :
    (d.add o).model.nameOf Model.root = d.model.nameOf Model.root := by
  obtain ⟨scope, event⟩ := o
  cases event with
  | opening key => exact (nameOf_opening h _ _).trans (if_neg fun hn => by cases hn.2)
  | _ => exact (sameGraphs_add d rfl).nameOf _

/-- The graph of a known subgraph. -/
theorem Aligned.ref_lt (h : d.Aligned) (hs : d.Knows sub) :
    (d.ref sub).index < d.model.graphs.size := by
  rw [h.size]
  cases sub with
  | none => exact Nat.succ_pos _
  | some key => exact Nat.succ_lt_succ (List.idxOf_lt_length_iff.2 (hs key rfl))

theorem Aligned.nameOf_ref (h : d.Aligned) (hk : key ∈ d.subgraphs) :
    d.model.nameOf (d.ref (some key)) = key.name :=
  h.name (List.getElem?_idxOf hk)

/-- The names of the graphs, in order. -/
theorem Aligned.names (h : d.Aligned) :
    d.model.graphs.toList.map Subgraph.name =
      d.model.nameOf Model.root :: d.subgraphs.map SubgraphKey.name := by
  refine List.ext_getElem (by simp [h.size]) fun i hi hi' => ?_
  rw [List.length_map, Array.length_toList] at hi
  have hname : d.model.nameOf ⟨i⟩ = d.model.graphs[i].name :=
    Model.nameOf_eq (Array.getElem?_eq_getElem hi)
  rw [List.getElem_map, Array.getElem_toList, ← hname]
  cases i with
  | zero => rfl
  | succ i =>
      rw [h.size] at hi
      rw [List.getElem_cons_succ, List.getElem_map]
      exact h.name (List.getElem?_eq_getElem (Nat.lt_of_succ_lt_succ hi))

/-- A graph with a name, the root apart, is the graph of a subgraph of that name. -/
theorem Aligned.mem_of_nameOf (h : d.Aligned) {g : GraphRef} {name : String}
    (hroot : g ≠ Model.root) (hname : d.model.nameOf g = some name) :
    .named name ∈ d.subgraphs := by
  obtain ⟨s, hs, _⟩ := Option.bind_eq_some_iff.1 hname
  have hlt := Model.graph?_lt hs
  rw [h.size] at hlt
  obtain ⟨_ | i⟩ := g
  · exact absurd rfl hroot
  · obtain ⟨key, hkey⟩ : ∃ key, d.subgraphs[i]? = some key :=
      ⟨_, List.getElem?_eq_getElem (Nat.lt_of_succ_lt_succ hlt)⟩
    have hfound := (h.name hkey).symm.trans hname
    cases key with
    | named other =>
        obtain rfl : other = name := Option.some.inj hfound
        exact List.mem_of_getElem? hkey
    | unnamed number => cases hfound

/-- The graph of a subgraph is not the root. -/
theorem ref_ne_root (d : Draft) (key : SubgraphKey) : d.ref (some key) ≠ Model.root := by
  intro he
  cases congrArg GraphRef.index he

/-- Different subgraphs have different graphs. -/
theorem ref_inj {other : SubgraphKey} (hk : key ∈ d.subgraphs)
    (h : d.ref (some key) = d.ref (some other)) : key = other := by
  have h := congrArg GraphRef.index h
  exact (List.idxOf_inj hk).1 (Nat.succ.inj h)

/-- Known subgraphs and the text itself are told apart by their graphs. -/
theorem Knows.ref_inj {other : Option SubgraphKey} (h : d.Knows sub)
    (he : d.ref sub = d.ref other) : sub = other := by
  cases sub with
  | none =>
      cases other with
      | none => rfl
      | some key => exact absurd he.symm (d.ref_ne_root key)
  | some key =>
      cases other with
      | none => exact absurd he (d.ref_ne_root key)
      | some key' => rw [Draft.ref_inj (h key rfl) he]

/-- The graph of a new subgraph is the next one. -/
theorem Aligned.ref_opening (h : d.Aligned) {o : Opening} (hk : o.key ∉ d.subgraphs) :
    (d.opening o).ref (some o.key) = ⟨d.model.graphs.size⟩ := by
  show graphRefIn (d.opening o).subgraphs _ = _
  rw [subgraphs_opening, if_neg hk, h.size]
  simp [graphRefIn, List.idxOf_append, hk]

/-! ## Replays -/

/-- The event fits where it comes: its scope is known, and so are the nodes that it
joins. -/
structure Fits (d : Draft) (o : Occurrence) : Prop where
  distinct : d.model.DistinctNames
  known : d.Knows o.scope.subgraph
  joined : ∀ fan, o.fan? = some fan →
    ∀ tips ∈ fan.operands, ∀ tip ∈ tips, ∃ n, d.model.Named n tip.name

/-- A draft becomes another along a walk. -/
inductive Replays : Draft → List Occurrence → Draft → Prop
  | nil (d : Draft) : Replays d [] d
  | cons {d d' : Draft} {o : Occurrence} {w : List Occurrence} (fits : d.Fits o)
      (rest : Replays (d.add o) w d') : Replays d (o :: w) d'

theorem Replays.append {w' : List Occurrence} (h : Replays d w d1) (h' : Replays d1 w' d') :
    Replays d (w ++ w') d' := by
  induction h with
  | nil => exact h'
  | cons fits _ ih => exact .cons fits (ih h')

theorem Replays.single (fits : d.Fits o) : Replays d [o] (d.add o) := .cons fits (.nil _)

theorem Replays.grows (h : Replays d w d') : Extends d d' := by
  induction h with
  | nil d => exact .refl d
  | cons _ _ ih => exact (extends_add _ _).trans ih

/-- What every fitting event keeps holds at the end of a walk. -/
theorem Replays.keeps (P : List Occurrence → Draft → Prop) (before : List Occurrence)
    (step : ∀ {w d o}, d.Fits o → P w d → P (w ++ [o]) (d.add o)) (h : Replays d w d')
    (init : P before d) : P (before ++ w) d' := by
  induction h generalizing before with
  | nil => rwa [List.append_nil]
  | cons fits _ ih =>
      have hrest := ih _ (step fits init)
      rwa [List.append_assoc, List.singleton_append] at hrest

/-- The subgraphs are those that are opened, in the order in which they are opened
first. -/
theorem subgraphs_add (h : d.subgraphs = subgraphsOf w) (o : Occurrence) :
    (d.add o).subgraphs = subgraphsOf (w ++ [o]) := by
  unfold subgraphsOf at h ⊢
  obtain ⟨scope, event⟩ := o
  cases event with
  | opening key =>
      show (d.opening ⟨scope, key⟩).subgraphs = _
      rw [openingsOf_concat, List.map_append, subgraphs_opening, h]
      simp only [List.mem_eraseDups]
      exact (eraseDups_concat _ key).symm
  | _ => rw [openingsOf_concat_none w rfl, (sameGraphs_add d rfl).subgraphs, h]

section Start
variable {kind : GraphKind} {name : Option String} {strict : Bool}

theorem Replays.subgraphs_eq (h : (start kind name strict).Replays w d) :
    d.subgraphs = subgraphsOf w :=
  Replays.keeps (fun w d => d.subgraphs = subgraphsOf w) [] (fun _ hd => subgraphs_add hd _) h rfl

/-- The graphs are aligned, and the root has the name of the text. -/
theorem Replays.aligned (h : (start kind name strict).Replays w d) :
    d.Aligned ∧ d.model.nameOf Model.root = name := by
  refine Replays.keeps (fun _ d => d.Aligned ∧ d.model.nameOf Model.root = name) [] ?_ h
    ⟨aligned_start kind name strict, rfl⟩
  rintro w d o _ ⟨hd, hname⟩
  exact ⟨hd.add o, (nameOf_root_add hd o).trans hname⟩

end Start

end Draft

end DotLang
