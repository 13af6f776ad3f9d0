import DotLang.Proofs.Arrival
import Mathlib.Data.List.Nodup
/-!
# Edges are the fans of edge statements

The edges of a built model are those of its edge statements, in the order in which
the statements end: from every node of an operand to every node of the next one.
An edge stands in the graph of the body of its statement.  It has the defaults in
force there, over them the entries of the statement, and over these the ports of its
ends.

`Draft.Joined` says this of the edges so far, and every event of a walk keeps it.
That an operand stands for no node twice is seen on the course of a text
(`Stmt.distinct`).  `Tree.edges_fan_out` puts both together for built models.
-/

namespace DotLang

/-! ## Members are distinct -/

/-- No list of members has a name twice. -/
structure Course.Distinct (c : Course) : Prop where
  members : c.members.Nodup
  closed : ∀ name, (c.closed name).Nodup

namespace Course.Distinct

variable {c outer inner : Course} {members : List String}

theorem mention (h : c.Distinct) (name : String) : (c.mention name).Distinct := by
  refine ⟨?_, fun other => ?_⟩
  · rw [members_mention]
    split
    · exact h.members
    · next hnew => exact List.concat_eq_append ▸ h.members.concat hnew
  · rw [closed_mention]
    exact h.closed other

theorem mention_all (h : c.Distinct) (names : List String) :
    (names.foldl Course.mention c).Distinct := by
  induction names generalizing c with
  | nil => exact h
  | cons name names ih => exact ih (h.mention name)

theorem keep (h : c.Distinct) (hm : members.Nodup) (name : Option String) :
    (c.keep name members).Distinct := by
  cases name with
  | none => exact h
  | some name =>
      refine ⟨h.members, fun other => ?_⟩
      show (if other = name then members else c.closed other).Nodup
      split
      · exact hm
      · exact h.closed other

theorem opening (h : c.Distinct) (name : Option String) : (c.opening name).Distinct := by
  cases name with
  | none => exact ⟨.nil, h.closed⟩
  | some name => exact ⟨h.closed name, (h.keep .nil (some name)).closed⟩

theorem closing (ho : outer.Distinct) (hi : inner.Distinct) (name : Option String) :
    (outer.closing inner name).Distinct :=
  (mention_all (c := { inner with members := outer.members }) ⟨ho.members, hi.closed⟩
    inner.members).keep hi.members name

end Course.Distinct

/-- No operand of a fan stands for a node twice. -/
def Fan.Distinct (f : Fan) : Prop := ∀ tips ∈ f.operands, tips.Nodup

theorem nodup_tips {names : List String} (h : names.Nodup) :
    (names.map fun name => (⟨name, none⟩ : Tip)).Nodup :=
  h.map fun _ _ he => congrArg Tip.name he

mutual

theorem Stmt.distinct (scope : Scope) {c : Course} (h : c.Distinct) :
    (s : Stmt) → (s.course c).Distinct ∧ ∀ fan ∈ fansOf (s.walk scope c), fan.Distinct
  | .node id attrs => ⟨h.mention _, fun _ hfan => absurd hfan List.not_mem_nil⟩
  | .edge tail hops attrs => by
      obtain ⟨h1, hfans1, htips⟩ := tail.distinct scope h
      obtain ⟨h2, hfans2, htips'⟩ := Stmt.distinctHops scope h1 hops
      refine ⟨h2, fun fan hfan => ?_⟩
      rw [Stmt.walk, fansOf_append, fansOf_append, List.mem_append, List.mem_append] at hfan
      rcases hfan with (hfan | hfan) | hfan
      · exact hfans1 fan hfan
      · exact hfans2 fan hfan
      · obtain rfl := List.mem_singleton.1 hfan
        exact List.forall_mem_cons.2 ⟨htips, htips'⟩
  | .defaults element attrs => ⟨h, fun _ hfan => absurd hfan List.not_mem_nil⟩
  | .subgraph name body => by
      obtain ⟨hin, hfans⟩ := Stmt.distinctBody _ (h.opening (name.map Id.value)) body
      exact ⟨h.closing hin _, hfans⟩

theorem Operand.distinct (scope : Scope) {c : Course} (h : c.Distinct) :
    (o : Operand) → (o.course c).Distinct ∧ (∀ fan ∈ fansOf (o.walk scope c), fan.Distinct) ∧
      (o.tips c).Nodup
  | .node id => ⟨h.mention _, fun _ hfan => absurd hfan List.not_mem_nil, List.nodup_singleton _⟩
  | .subgraph name body => by
      obtain ⟨hin, hfans⟩ := Stmt.distinctBody _ (h.opening (name.map Id.value)) body
      exact ⟨h.closing hin _, hfans, nodup_tips hin.members⟩

theorem Stmt.distinctHops (scope : Scope) {c : Course} (h : c.Distinct) :
    (hops : List (EdgeOp × Operand)) → (Stmt.courseHops c hops).Distinct ∧
      (∀ fan ∈ fansOf (Stmt.walkHops scope c hops), fan.Distinct) ∧
        ∀ tips ∈ Stmt.tipsHops c hops, tips.Nodup
  | [] => ⟨h, fun _ hfan => absurd hfan List.not_mem_nil,
      fun _ htips => absurd htips List.not_mem_nil⟩
  | (op, head) :: hops => by
      obtain ⟨h1, hfans1, htips⟩ := head.distinct scope h
      obtain ⟨h2, hfans2, htips'⟩ := Stmt.distinctHops scope h1 hops
      refine ⟨h2, fun fan hfan => ?_, List.forall_mem_cons.2 ⟨htips, htips'⟩⟩
      rw [Stmt.walkHops, fansOf_append, List.mem_append] at hfan
      exact hfan.elim (hfans1 fan) (hfans2 fan)

theorem Stmt.distinctBody (scope : Scope) {c : Course} (h : c.Distinct) :
    (body : List Stmt) → (Stmt.courseBody c body).Distinct ∧
      ∀ fan ∈ fansOf (Stmt.walkBody scope c body), fan.Distinct
  | [] => ⟨h, fun _ hfan => absurd hfan List.not_mem_nil⟩
  | first :: rest => by
      obtain ⟨h1, hfans1⟩ := first.distinct scope h
      obtain ⟨h2, hfans2⟩ := Stmt.distinctBody (scope.behind first) h1 rest
      refine ⟨h2, fun fan hfan => ?_⟩
      rw [Stmt.walkBody, fansOf_append, List.mem_append] at hfan
      exact hfan.elim (hfans1 fan) (hfans2 fan)

end

theorem Tree.distinct_fans (t : Tree) : ∀ fan ∈ t.fans, fan.Distinct :=
  (Stmt.distinctBody .top (c := .start) ⟨.nil, fun _ => .nil⟩ t.body).2

/-! ## Links -/

/-- The edge is the link, where `ref` gives the graphs of subgraphs.  Its ends are
nodes that hold no graph. -/
structure Model.IsLink (m : Model) (ref : Option SubgraphKey → GraphRef) (e : Edge) (l : Link) :
    Prop where
  graph : e.graph = ref l.subgraph
  source : m.Named e.source l.tail
  target : m.Named e.target l.head
  attrs : e.attrs = l.attrs

theorem Fan.mem_linksAlong {f : Fan} {l : Link} {operands : List (List Tip)}
    (h : l ∈ f.linksAlong operands) :
    ∃ tails ∈ operands, ∃ heads ∈ operands, ∃ tail ∈ tails, ∃ head ∈ heads,
      l = f.link tail head := by
  fun_induction Fan.linksAlong f operands with
  | case1 tails heads rest ih =>
      rcases List.mem_append.1 h with h | h
      · obtain ⟨tail, htail, h⟩ := List.mem_flatMap.1 h
        obtain ⟨head, hhead, rfl⟩ := List.mem_map.1 h
        exact ⟨tails, List.mem_cons_self, heads, List.mem_cons_of_mem _ List.mem_cons_self, tail,
          htail, head, hhead, rfl⟩
      · obtain ⟨tails', htails, heads', hheads, h⟩ := ih h
        exact ⟨tails', List.mem_cons_of_mem _ htails, heads', List.mem_cons_of_mem _ hheads, h⟩
  | case2 => cases h

namespace Draft

variable {d d' : Draft} {ls more : List Link} {l : Link} {e : Edge}

/-- The edges are the links, and stand in known subgraphs. -/
def Joined (d : Draft) (ls : List Link) : Prop :=
  List.Forall₂ (fun e l => d.model.IsLink d.ref e l ∧ d.Knows l.subgraph) d.model.edges.toList ls

theorem Joined.relates (h : d.Joined ls) (ext : d.Extends d') :
    List.Forall₂ (fun e l => d'.model.IsLink d'.ref e l ∧ d'.Knows l.subgraph)
      d.model.edges.toList ls :=
  h.imp fun _ _ ⟨hl, hknown⟩ => ⟨⟨hl.graph.trans (ext.ref_eq hknown).symm, ext.named hl.source,
    ext.named hl.target, hl.attrs⟩, ext.knows hknown⟩

theorem Joined.of_edges (h : d.Joined ls) (edges : d'.model.edges = d.model.edges)
    (ext : d.Extends d') : d'.Joined ls := by
  unfold Joined
  rw [edges]
  exact h.relates ext

theorem edges_mention (d : Draft) (o : Mention) : (d.mention o).model.edges = d.model.edges := by
  unfold mention
  split <;> rfl

theorem edges_setting (d : Draft) (scope : Scope) (element : Element) (attrs : AttrList) :
    (d.setting scope element attrs).model.edges = d.model.edges := by
  unfold setting
  split <;> rfl

theorem edges_opening (d : Draft) (o : Opening) : (d.opening o).model.edges = d.model.edges := by
  unfold opening
  split <;> rfl

/-- The link joins known nodes in a known subgraph. -/
structure Joins (d : Draft) (l : Link) : Prop where
  known : d.Knows l.subgraph
  tail : ∃ n, d.model.Named n l.tail
  head : ∃ n, d.model.Named n l.head

theorem Joined.link (h : d.Joined ls) (distinct : d.model.DistinctNames) (hl : d.Joins l) :
    (d.link l).Joined (ls ++ [l]) := by
  have hnode : ∀ {name}, (∃ n, d.model.Named n name) → d.model.Named (d.node name) name := by
    rintro name ⟨n, hn⟩
    unfold Draft.node
    rw [distinct.findNode?_eq_some.2 hn]
    exact hn
  have hedges : (d.link l).model.edges.toList = d.model.edges.toList ++
      [⟨d.node l.tail, d.node l.head, d.ref l.subgraph, l.attrs⟩] := Array.toList_push
  unfold Joined
  rw [hedges]
  refine List.rel_append (h.relates (d.extends_link l)) (.cons ⟨?_, hl.known⟩ .nil)
  exact ⟨rfl, hnode hl.tail, hnode hl.head, rfl⟩

theorem Joined.links (h : d.Joined ls) (distinct : d.model.DistinctNames)
    (hmore : ∀ l ∈ more, d.Joins l) : (more.foldl Draft.link d).Joined (ls ++ more) := by
  induction more generalizing d ls with
  | nil => rwa [List.append_nil]
  | cons l more ih =>
      obtain ⟨hl, hmore⟩ := List.forall_mem_cons.1 hmore
      rw [List.append_cons]
      exact ih (h.link distinct hl) distinct fun l' hl' =>
        ⟨(hmore l' hl').known, (hmore l' hl').tail, (hmore l' hl').head⟩

/-- The links of a fan that fits join known nodes. -/
theorem Fits.joins {scope : Scope} {operands : List (List Tip)} {attrs : AttrList}
    (fits : d.Fits ⟨scope, .edges operands attrs⟩) :
    ∀ l ∈ (Fan.mk scope operands attrs).links, d.Joins l := by
  intro l hl
  obtain ⟨tails, htails, heads, hheads, tail, htail, head, hhead, rfl⟩ := Fan.mem_linksAlong hl
  exact ⟨fits.known, fits.joined _ rfl tails htails tail htail,
    fits.joined _ rfl heads hheads head hhead⟩

/-- Every event of a walk keeps the edges those of its fans. -/
theorem Joined.add {w : List Occurrence} {o : Occurrence} (h : d.Joined (linksOf w))
    (fits : d.Fits o) : (d.add o).Joined (linksOf (w ++ [o])) := by
  have ext := d.extends_add o
  unfold linksOf at h ⊢
  rw [fansOf_append, List.flatMap_append]
  obtain ⟨scope, event⟩ := o
  cases event with
  | node name attrs => exact (List.append_nil _).symm ▸ h.of_edges (d.edges_mention _) ext
  | endpoint name => exact (List.append_nil _).symm ▸ h.of_edges (d.edges_mention _) ext
  | setting element attrs =>
      exact (List.append_nil _).symm ▸ h.of_edges (d.edges_setting scope element attrs) ext
  | opening key => exact (List.append_nil _).symm ▸ h.of_edges (d.edges_opening _) ext
  | edges operands attrs =>
      have hlinks : (fansOf [⟨scope, .edges operands attrs⟩]).flatMap Fan.links =
          (Fan.mk scope operands attrs).links := List.flatMap_singleton _ _
      rw [hlinks]
      exact h.links fits.distinct fits.joins

/-- The edges at the end of a walk are those of its fans. -/
theorem Replays.joined {kind : GraphKind} {name : Option String} {strict : Bool}
    {w : List Occurrence} (h : (start kind name strict).Replays w d) : d.Joined (linksOf w) :=
  Replays.keeps (fun w d => d.Joined (linksOf w)) [] (fun fits hd => hd.add fits) h .nil

end Draft

/-- The name and the port tell an endpoint, and are told by it. -/
theorem Model.DistinctNames.isTip_biUnique {m : Model} (h : m.DistinctNames) :
    Relator.BiUnique m.IsTip := by
  refine ⟨fun e e' tip he he' => ?_, fun e tip tip' ht ht' => ?_⟩
  · obtain ⟨n, port⟩ := e
    obtain ⟨n', port'⟩ := e'
    obtain rfl := h he.node he'.node
    obtain rfl : port = port' := he.port.trans he'.port.symm
    rfl
  · obtain ⟨name, port⟩ := tip
    obtain ⟨name', port'⟩ := tip'
    obtain rfl := ht.node.name_eq ht'.node
    obtain rfl : port = port' := ht.port.symm.trans ht'.port
    rfl

/-! ## Built models -/

section Built
variable {t : Tree} {kind : GraphKind} {name : Option String} {b : Builder}

/-- The edges are the links of the text, in order, and are listed by the graphs in which
they stand.  The operands of an edge statement are the endpoints that visiting them
returns, none of them twice. -/
theorem Tree.edges_fan_out (h : Runs (Builder.tree t) (.new kind name) () b) :
    List.Forall₂ (b.model.IsLink t.graphRef) b.model.edges.toList t.links ∧
      (∀ e v, b.model.edge? e = some v →
        ∃ g, b.model.graph? v.graph = some g ∧ e ∈ g.edges.toList) ∧
      ∀ fan ∈ t.fans, ∃ ops,
        Builder.Expands (.body t.body) ((Builder.new kind name).started t.strict) fan.attrs ops ∧
          List.Forall₂ (List.Forall₂ b.model.IsTip) ops fan.operands ∧
            ∀ es ∈ ops, es.Nodup := by
  obtain ⟨d, hmodel, hd⟩ := Tree.makes h
  refine ⟨?_, fun e v hv => ?_, fun fan hfan => ?_⟩
  · rw [← hmodel]
    refine hd.replays.joined.imp fun e l ⟨hl, _⟩ => ⟨?_, hl.source, hl.target, hl.attrs⟩
    rw [hl.graph, hd.ref_eq]
  · rw [← hmodel] at hv ⊢
    obtain ⟨g, hg⟩ := Model.graph?_of_lt (hd.wellFormed.edge_graph hv)
    exact ⟨g, hg, (hd.wellFormed.mem_edges hg).2 ⟨v, hv, rfl⟩⟩
  · obtain ⟨ops, hexpands, hops⟩ := Tree.fan_shows h hfan
    refine ⟨ops, hexpands, hops, fun es hes => ?_⟩
    obtain ⟨tips, htips, hrel⟩ := forall₂_exists_right hops hes
    have hunique := (hmodel ▸ hd.distinct).isTip_biUnique
    exact (List.rel_nodup hunique hrel).2 (t.distinct_fans fan hfan tips htips)

theorem Tree.edges_fan_out_nested :
    let t : Tree := ⟨false, .digraph, none, [
      .defaults .edge [("color", .ofText "red")],
      .edge (.node ⟨.ofText "a", some "n"⟩)
        [(.arrow, .subgraph (some (.ofText "s")) [
            .edge (.node ⟨.ofText "b", none⟩) [(.arrow, .node ⟨.ofText "c", none⟩)]
              [("weight", .ofText "2")],
            .node ⟨.ofText "b", none⟩ []]),
          (.arrow, .node ⟨.ofText "d", some "s"⟩)]
        [("color", .ofText "blue")]]⟩
    ∃ b, Runs (Builder.tree t) (.new t.kind (t.name.map Id.value)) () b ∧
      List.Forall₂ (b.model.IsLink t.graphRef) b.model.edges.toList t.links ∧
        (∀ e v, b.model.edge? e = some v →
          ∃ g, b.model.graph? v.graph = some g ∧ e ∈ g.edges.toList) ∧
        ∀ fan ∈ t.fans, ∃ ops,
          Builder.Expands (.body t.body)
              ((Builder.new t.kind (t.name.map Id.value)).started t.strict) fan.attrs ops ∧
            List.Forall₂ (List.Forall₂ b.model.IsTip) ops fan.operands ∧
              ∀ es ∈ ops, es.Nodup := by
  intro t
  obtain ⟨b, hrun, _⟩ := Tree.exists_runs (t := t) (p := fun _ => true) (by decide +kernel)
  exact ⟨b, hrun, Tree.edges_fan_out hrun⟩

end Built

end DotLang
