import DotLang.Proofs.Arrival
import DotLang.Proofs.Guarded
import DotLang.Proofs.Widening
/-!
# Subgraphs are brackets

A subgraph opens a frame of defaults, two scopes of names and a body, and makes its graph the
present one.  What is visited inside opens more, and closes it again.  Behind the subgraph
all this is as it was.  Nothing is left of its defaults, but its names are found from now on,
and its members go behind those of the body around it (`Builder.subgraph_brackets`).

Members are passed on one by one, and those that are there already are left out.  That this is
one filter of the list needs that no list has a node twice (`Builder.Tidy`).  Each step
preserves that, whether it succeeds or fails, since a visit may stand behind others that
failed.
-/

namespace DotLang

/-! ## Lists of members -/

namespace Members

theorem nodup_add {ms : Members} (h : ms.Nodup) (n : NodeRef) : (ms.add n).Nodup := by
  unfold add
  split
  · exact h
  · next hn =>
      have hne : ∀ k ∈ ms, k ≠ n := fun k hk he => hn (he ▸ hk)
      exact List.nodup_append.2 ⟨h, by simp, by simpa using hne⟩

/-- Of distinct nodes, those that are not there yet are added, in order. -/
theorem foldl_add {ns : Members} (h : ns.Nodup) (ms : Members) :
    ns.foldl add ms = ms ++ ns.filter (· ∉ ms) := by
  induction ns generalizing ms with
  | nil => simp
  | cons n ns ih =>
      obtain ⟨hn, h⟩ := List.nodup_cons.1 h
      rw [List.foldl_cons, ih h]
      by_cases hm : n ∈ ms
      · simp [add, hm]
      · have hrest : ns.filter (· ∉ ms ++ [n]) = ns.filter (· ∉ ms) := by
          refine List.filter_congr fun k hk => ?_
          have hne : k ≠ n := fun he => hn (he ▸ hk)
          simp [hne]
        rw [add, if_neg hm, hrest]
        simp [hm]

end Members

namespace Builder

variable {b b' : Builder} {g : GraphRef} {members : Members}

/-! ## No list has a node twice -/

/-- No body, open or closed, has a member twice. -/
structure Tidy (b : Builder) : Prop where
  opened : ∀ ms ∈ b.opened, ms.Nodup
  closed : ∀ c ∈ b.closed, c.2.Nodup

theorem Tidy.innermost (h : b.Tidy) : (b.opened.headD []).Nodup := by
  cases ho : b.opened with
  | nil => exact List.nodup_nil
  | cons ms rest => exact h.opened ms (ho ▸ List.mem_cons_self)

theorem Tidy.mentioned (h : b.Tidy) (n : NodeRef) : (b.mentioned n).Tidy := by
  rw [mentioned_eq]
  refine ⟨fun ms hms => ?_, h.closed⟩
  cases ho : b.opened with
  | nil =>
      rw [ho] at hms
      cases hms
  | cons l rest =>
      rw [ho] at hms
      rcases List.mem_cons.1 hms with rfl | hms
      · exact Members.nodup_add (h.opened l (ho ▸ List.mem_cons_self)) n
      · exact h.opened ms (ho ▸ List.mem_cons_of_mem _ hms)

/-- A body that is opened again has the members of its earlier bodies. -/
theorem Tidy.entered (h : b.Tidy) (g : GraphRef) : (b.entered g).Tidy where
  opened ms hms := by
    rcases List.mem_cons.1 hms with rfl | hms
    · cases hl : b.closed.lookup g with
      | none => exact List.nodup_nil
      | some ms => exact h.closed _ (mem_of_lookup_eq_some hl)
    · exact h.opened ms hms
  closed c hc := h.closed c (List.mem_filter.1 hc).1

theorem Tidy.kept (h : b.Tidy) {ms : Members} (hms : ms.Nodup) (g : GraphRef) :
    Tidy { b with closed := (g, ms) :: b.closed.filter fun c => c.1 ≠ g } where
  opened := h.opened
  closed c hc := by
    rcases List.mem_cons.1 hc with rfl | hc
    · exact hms
    · exact h.closed c (List.mem_filter.1 hc).1

theorem check_tidy (r : Except AttributeError Unit) : Preserves Tidy (check r) := by
  cases r with
  | ok u => exact preserves_pure
  | error e => exact preserves_throw

theorem mention_tidy (n : NodeRef) : Preserves Tidy (mention n) :=
  preserves_modify fun h => h.mentioned n

theorem node_tidy (name : String) (attrs : AttrList) : Preserves Tidy (node name attrs) := by
  refine preserves_get.bind fun s => ?_
  split
  · refine (preserves_modify fun h => ⟨h.opened, h.closed⟩).bind fun _ => ?_
    exact (mention_tidy _).bind fun _ => preserves_pure
  · refine (preserves_modifyGet fun h => ⟨h.opened, h.closed⟩).bind fun n => ?_
    exact (mention_tidy n).bind fun _ => preserves_pure

theorem setDefaults_tidy (element : Element) (attrs : AttrList) :
    Preserves Tidy (setDefaults element attrs) := by
  refine (preserves_modify fun h => ⟨h.opened, h.closed⟩).bind fun _ => ?_
  split
  · exact preserves_modify fun h => ⟨h.opened, h.closed⟩
  · exact preserves_pure

theorem withPort_tidy (key : String) (port : Option String) (attrs : Attributes) :
    Preserves Tidy (withPort key port attrs) := by
  cases port with
  | none => exact preserves_pure
  | some p => exact (check_tidy _).bind fun _ => preserves_pure

theorem connect_tidy (attrs : AttrList) (tail head : Endpoint) :
    Preserves Tidy (connect attrs tail head) := by
  refine preserves_get.bind fun s => (withPort_tidy _ _ _).bind fun a => ?_
  exact (withPort_tidy _ _ a).bind fun _ => preserves_modify fun h => ⟨h.opened, h.closed⟩

theorem connectChain_tidy (attrs : AttrList) (ops : List (List Endpoint)) :
    Preserves Tidy (connectChain attrs ops) := by
  fun_induction connectChain attrs ops with
  | case1 tails heads rest ih =>
      refine (preserves_forM fun tail => ?_).bind fun _ => ih
      exact preserves_forM fun head => connect_tidy attrs tail head
  | case2 => exact preserves_pure

theorem report_tidy (e : LogEvent) : Preserves Tidy (report e) :=
  preserves_modify fun h => ⟨h.opened, h.closed⟩

theorem openGraph_tidy (name : Option String) : Preserves Tidy (openGraph name) := by
  refine preserves_get.bind fun s => ?_
  split
  · exact (report_tidy _).bind fun _ => preserves_pure
  · split
    · refine (preserves_modify fun h => ⟨h.opened, h.closed⟩).bind fun _ => ?_
      refine preserves_get.bind fun b => (preserves_modify fun h => ⟨h.opened, h.closed⟩).bind ?_
      exact fun _ => (report_tidy _).bind fun _ => preserves_pure
    · refine preserves_get.bind fun b => (preserves_modify fun h => ⟨h.opened, h.closed⟩).bind ?_
      exact fun _ => (report_tidy _).bind fun _ => preserves_pure

theorem enter_tidy (g : GraphRef) : Preserves Tidy (enter g) := preserves_modify fun h => h.entered g

theorem leave_outermost (h : b.defaults.leave? = none) (outer : GraphRef) :
    leave outer b = .error .outermostScope b := by
  unfold leave
  rw [get_bind_apply, h]
  rfl

theorem leave_tidy (outer : GraphRef) : Preserves Tidy (leave outer) where
  runs hr h := by
    obtain ⟨_, _, _, rfl⟩ := runs_leave.1 hr
    exact ⟨fun ms hms => h.opened ms (List.mem_of_mem_tail hms), h.closed⟩
  error {s e t} he h := by
    cases hd : s.defaults.leave? with
    | none =>
        cases (leave_outermost hd outer).symm.trans he
        exact h
    | some d => exact absurd ⟨t, he⟩ (runs_leave.2 ⟨d, hd, rfl, rfl⟩).not_fails

theorem subgraph_tidy (name : Option String) {body : Build Unit} (hbody : Preserves Tidy body) :
    Preserves Tidy (subgraph name body) := by
  refine (openGraph_tidy name).bind fun g => preserves_get.bind fun s => ?_
  refine (enter_tidy g).bind fun _ => hbody.bind fun _ => ?_
  -- What is kept for the name are the members of the body that is left.
  refine (leave_tidy _).bind_of_runs fun {s ms t} hr h => ?_
  obtain ⟨_, _, rfl, _⟩ := runs_leave.1 hr
  refine (preserves_forM mention_tidy).bind fun _ => ?_
  cases name with
  | none => exact preserves_pure
  | some n => exact (preserves_modify fun h' => h'.kept h.innermost g).bind fun _ => preserves_pure

theorem endpoints_tidy (name : Option String) (members : Members) :
    Preserves Tidy (endpoints name members) := by
  cases members with
  | nil => exact preserves_throw
  | cons n ms => exact preserves_pure

mutual

theorem stmt_tidy : (s : Stmt) → Preserves Tidy (stmt s)
  | .node id attrs => by
      unfold stmt
      exact (check_tidy _).bind fun _ => (node_tidy _ attrs).bind fun _ => preserves_pure
  | .edge tail hops attrs => by
      unfold stmt
      refine (check_tidy _).bind fun _ => (operand_tidy tail).bind fun first => ?_
      exact (heads_tidy hops).bind fun rest => connectChain_tidy attrs (first :: rest)
  | .defaults element attrs => by
      unfold stmt
      exact (check_tidy _).bind fun _ => setDefaults_tidy element attrs
  | .subgraph name stmts => by
      unfold stmt
      exact (subgraph_tidy _ (body_tidy stmts)).bind fun _ => preserves_pure

theorem operand_tidy : (o : Operand) → Preserves Tidy (operand o)
  | .node id => by
      unfold operand
      exact (node_tidy _ []).bind fun _ => preserves_pure
  | .subgraph name stmts => by
      unfold operand
      exact (subgraph_tidy _ (body_tidy stmts)).bind fun members => endpoints_tidy _ members

theorem heads_tidy : (hops : List (EdgeOp × Operand)) → Preserves Tidy (heads hops)
  | [] => by
      unfold heads
      exact preserves_pure
  | (_, head) :: hops => by
      rw [heads]
      exact (operand_tidy head).bind fun _ => (heads_tidy hops).bind fun _ => preserves_pure

theorem body_tidy : (stmts : List Stmt) → Preserves Tidy (body stmts)
  | [] => by
      unfold body
      exact preserves_pure
  | first :: rest => by
      rw [body]
      exact (stmt_tidy first).bind fun _ => body_tidy rest

end

theorem tree_tidy (t : Tree) : Preserves Tidy (tree t) := by
  refine (preserves_modify fun h => ⟨h.opened, h.closed⟩).bind fun _ => ?_
  refine (body_tidy t.body).bind fun _ => ?_
  refine (preserves_modify fun h => ⟨h.opened, h.closed⟩).bind fun _ => ?_
  exact preserves_get.bind fun s => report_tidy _

theorem Tidy.after (h : b.Tidy) (t : Tree) : (b.after t).Tidy := by
  unfold Builder.after
  cases hr : tree t b with
  | ok u b' => exact (tree_tidy t).runs hr h
  | error e b' => exact (tree_tidy t).error hr h

theorem tidy_visited (kind : GraphKind) (name : Option String) (ts : List Tree) :
    (ts.foldl Builder.after (.new kind name)).Tidy := by
  have hnew : (Builder.new kind name).Tidy :=
    ⟨fun _ hms => absurd hms List.not_mem_nil, fun _ hc => absurd hc List.not_mem_nil⟩
  generalize Builder.new kind name = b at hnew
  induction ts generalizing b with
  | nil => exact hnew
  | cons t ts ih => exact ih _ (hnew.after t)

/-! ## In the course of a visit -/

/-- The state in which a visit comes to some part of its text.  There may be any visits before
it, those that failed included. -/
def InCourse (b : Builder) : Prop :=
  ∃ (kind : GraphKind) (name : Option String) (ts : List Tree) (t : Tree) (q : Fragment),
    Reaches (.body t.body) ((ts.foldl Builder.after (.new kind name)).started t.strict) q b

/-- Scopes are open, and no list of members has a node twice. -/
structure Ready (b : Builder) : Prop extends b.Scoped, b.Tidy

theorem Ready.entered (h : b.Ready) (g : GraphRef) : (b.entered g).Ready :=
  ⟨.entered b g, h.toTidy.entered g⟩

theorem Ready.openGraph {name : Option String} (h : b.Ready) (hr : Runs (openGraph name) b g b') :
    b'.Ready :=
  ⟨h.toScoped.widens (openGraph_widens hr h.toScoped).1, (openGraph_tidy name).runs hr h.toTidy⟩

theorem Ready.stmt {s : Stmt} (h : b.Ready) (hr : Runs (stmt s) b () b') : b'.Ready :=
  ⟨h.toScoped.widens (stmt_widens s hr h.toScoped).1, (stmt_tidy s).runs hr h.toTidy⟩

theorem Ready.operand {o : Operand} {es : List Endpoint} (h : b.Ready)
    (hr : Runs (operand o) b es b') : b'.Ready :=
  ⟨h.toScoped.widens (operand_widens o hr h.toScoped).1, (operand_tidy o).runs hr h.toTidy⟩

theorem Reaches.ready {p q : Fragment} (h : Reaches p b q b') (hb : b.Ready) : b'.Ready := by
  induction h with
  | refl => exact hb
  | first _ ih => exact ih hb
  | rest before _ ih => exact ih (hb.stmt before)
  | inside opened _ ih => exact ih ((hb.openGraph opened).entered _)
  | insideOperand opened _ ih => exact ih ((hb.openGraph opened).entered _)
  | tail _ _ ih => exact ih hb
  | hops _ before _ ih => exact ih (hb.operand before)
  | head _ ih => exact ih hb
  | later before _ ih => exact ih (hb.operand before)

theorem InCourse.ready (h : b.InCourse) : b.Ready := by
  obtain ⟨kind, name, ts, t, q, hreach⟩ := h
  have htidy := tidy_visited kind name ts
  exact hreach.ready ⟨⟨Nat.le_add_left 1 _, Nat.le_add_left 1 _⟩, ⟨htidy.opened, htidy.closed⟩⟩

/-! ## Brackets -/

/-- What is the same behind a subgraph with these parts and members, and what is new. -/
structure Brackets (ps : List Part) (members : Members) (b b' : Builder) : Prop where
  current : b'.current = b.current
  /-- Every frame, with the defaults for graphs, nodes and edges. -/
  defaults : b'.defaults = b.defaults
  node_depth : b'.nodes.depth = b.nodes.depth
  subgraph_depth : b'.subgraphs.depth = b.subgraphs.depth
  node_kept : ∀ {k n}, b.nodes.find? k = some n → b'.nodes.find? k = some n
  subgraph_kept : ∀ {k g}, b.subgraphs.find? k = some g → b'.subgraphs.find? k = some g
  mentioned : ∀ {k}, .node k ∈ ps → ∃ n ∈ members, b'.nodes.find? k = some n
  declared : ∀ {k}, .graph k ∈ ps → ∃ g, b'.subgraphs.find? k = some g
  opened_length : b'.opened.length = b.opened.length
  /-- The bodies further out are as they were.  The one around the subgraph gets the members
  that it does not have, in order. -/
  opened : b'.opened = b.opened.modifyHead fun ms => ms ++ members.filter (· ∉ ms)

/-- Wherever a visit is, any subgraph that is visited there closes what it opens.  Its names
are found from then on, and its nodes are members of the body around it. -/
theorem subgraph_brackets {name : Option Id} {stmts : List Stmt} (hb : b.InCourse)
    (h : Runs (subgraph (name.map Id.value) (body stmts)) b members b') :
    Brackets (Operand.subgraph name stmts).parts members b b' := by
  have hready := hb.ready
  have hv := subgraph_visited h hready.toScoped (body_widens stmts)
  have hmembers : members.Nodup := by
    obtain ⟨g, b1, b2, _, ho, hrun, _, rfl, _⟩ := runs_subgraph.1 h
    have hentered := (hready.openGraph ho).entered g
    exact ((body_tidy stmts).runs hrun hentered.toTidy).innermost
  refine ⟨hv.current, hv.defaults, hv.node_depth, hv.subgraph_depth, hv.nodes.kept,
    hv.subgraphs.kept, hv.mentioned, hv.declared, hv.opened_length, hv.opened.trans ?_⟩
  exact congrArg (fun f => b.opened.modifyHead f) (funext fun ms => Members.foldl_add hmembers ms)

/-- Inside `u` the subgraph `s` is opened again as an operand, and in it stands an edge to a
subgraph. -/
theorem subgraph_brackets_reopened :
    let node (name : String) : Stmt := .node ⟨.ofText name, none⟩ []
    let s : Option Id := some (.ofText "s")
    let again : List Stmt := [.edge (.node ⟨.ofText "a", none⟩)
      [(.arrow, .subgraph (some (.ofText "r")) [node "b"])] []]
    let t : Tree := ⟨false, .digraph, none, [.subgraph s [node "a"],
      .subgraph (some (.ofText "u")) [node "c",
        .edge (.subgraph s again) [(.arrow, .node ⟨.ofText "d", none⟩)] []]]⟩
    ∃ b members b', Reaches (.body t.body) ((new .digraph none).started t.strict)
        (.operand (.subgraph s again)) b ∧ b.opened ≠ [] ∧ members ≠ [] ∧
      Runs (subgraph (s.map Id.value) (body again)) b members b' ∧
        Brackets (Operand.subgraph s again).parts members b b' := by
  intro node s again t
  obtain ⟨_, hrun, _⟩ := Tree.exists_runs (t := t) (p := fun _ => true) (by decide +kernel)
  obtain ⟨_, hbody, _⟩ := runs_tree.1 hrun
  obtain ⟨_, hs, hbody⟩ := runs_body_cons.1 hbody
  obtain ⟨_, hu, _⟩ := runs_body_cons.1 hbody
  obtain ⟨_, hu⟩ := runs_stmt_subgraph.1 hu
  obtain ⟨g, b1, _, _, ho, hbody, _⟩ := runs_subgraph.1 hu
  obtain ⟨b, hc, hbody⟩ := runs_body_cons.1 hbody
  obtain ⟨_, hedge, _⟩ := runs_body_cons.1 hbody
  obtain ⟨hv, _, _, b', _, htail, _⟩ := runs_stmt_edge.1 hedge
  obtain ⟨members, hvisited, hne, _⟩ := runs_operand_subgraph.1 htail
  have reached : Reaches (.body t.body) ((new .digraph none).started t.strict)
      (.operand (.subgraph s again)) b :=
    .rest hs (.first (.inside ho (.rest hc (.first (.tail hv (.refl _ _))))))
  have hopen : b.opened ≠ [] := by
    rw [← List.length_pos_iff, (stmt_widens _ hc (.entered b1 g)).1.opened_length]
    exact Nat.succ_pos _
  exact ⟨b, members, b', reached, hopen, hne, hvisited,
    subgraph_brackets ⟨.digraph, none, [], t, _, reached⟩ hvisited⟩

end Builder

end DotLang
