import DotLang.Proofs.Containment
import DotLang.Proofs.Faults
import DotLang.Proofs.Gathering
import DotLang.Proofs.NodeScoping
import DotLang.Proofs.Parents
/-!
# Operands that are subgraphs

A subgraph that is an operand of an edge statement stands for its members.  If its text
keeps it together (`Tree.Gathers`), these are all nodes that its graph has, itself or in
the graphs below it.  So the edges of the statement lead to all of them, and none of these
graphs has a node where the operand fails for having none (`Tree.operands_gather`).

A node of such a graph is there because of its first mention, which is inside the
subgraph (`Draft.Replays.mention_of_holds`).  What was mentioned inside is kept when the
operand is reached, and its own body adds the rest.
-/

namespace DotLang

/-! ## What a graph holds -/

namespace Model

/-- The node holds no graph, and stands in the graph or in one below it. -/
def Holds (m : Model) (g : GraphRef) (n : NodeRef) : Prop :=
  ∃ v, m.node? n = some v ∧ v.nested = none ∧ m.Below g v.graph

end Model

namespace Draft

variable {t : Tree} {kind : GraphKind} {name : Option String} {w : List Occurrence} {d : Draft}
  {key : SubgraphKey} {g : GraphRef} {n : NodeRef}

/-- A graph below that of a subgraph is the graph of one that is nested in it. -/
theorem Replays.inside_of_below (h : (start kind name t.strict).Replays w d)
    (wf : d.model.WellFormed) (ahead : w <+: t.walk) (hkey : key ∈ d.subgraphs)
    (below : d.model.Below (d.ref (some key)) g) :
    ∃ sub, d.Knows sub ∧ g = d.ref sub ∧ t.Inside key sub := by
  induction below with
  | refl => exact ⟨some key, knows_some.2 hkey, rfl, .self⟩
  | nested parent _ ih =>
      obtain ⟨sub, hsub, rfl, inside⟩ := ih
      obtain ⟨n, v, hv, hnested, hgraph⟩ := wf.holder_of_parent parent
      obtain ⟨first, hfirst, hmem, rfl, hknown, hplace, _⟩ := h.holding hv hnested
      have houter : first.scope.subgraph = sub := hknown.ref_inj (hplace.symm.trans hgraph)
      refine ⟨some first.key, knows_some.2 hmem, rfl, .nested ?_ (houter ▸ inside)⟩
      obtain ⟨more, hmore⟩ := ahead
      unfold Tree.openings
      rw [← hmore, openingsOf_append, List.find?_append, hfirst]
      rfl

/-- A node in the graph of a subgraph, or below it, is mentioned inside the subgraph. -/
theorem Replays.mention_of_holds (h : (start kind name t.strict).Replays w d)
    (wf : d.model.WellFormed) (ahead : w <+: t.walk) (hkey : key ∈ d.subgraphs)
    (holds : d.model.Holds (d.ref (some key)) n) :
    ∃ o ∈ mentionsOf w, t.Inside key o.scope.subgraph ∧ d.model.Named n o.name := by
  obtain ⟨v, hv, ordinary, below⟩ := holds
  obtain ⟨sub, hsub, hgraph, inside⟩ := h.inside_of_below wf ahead hkey below
  obtain ⟨first, later, hms, hknown, hplace, _⟩ := h.listed.node hv ordinary
  have hfirst : first ∈ (mentionsOf w).filter fun o => o.name = v.name := by
    rw [hms]
    exact List.mem_cons_self
  obtain ⟨hmem, hname⟩ := List.mem_filter.1 hfirst
  have hhere : first.scope.subgraph = sub := hknown.ref_inj (hplace.symm.trans hgraph)
  exact ⟨first, hmem, hhere ▸ inside, v, hv, ordinary, (of_decide_eq_true hname).symm⟩

end Draft

/-! ## Places -/

/-- A point of a visit of a text. -/
structure Place where
  /-- The subgraphs whose bodies are open, the innermost first. -/
  around : List SubgraphKey
  /-- The events so far. -/
  before : List Occurrence
  scope : Scope
  course : Course
  draft : Draft

theorem Fragment.retains {t : Tree} {key : SubgraphKey} (gathers : t.Gathers key)
    {around : List SubgraphKey} {w : List Occurrence} {scope : Scope} {c : Course}
    (here : scope.subgraph = around.head?) (p : Fragment)
    (opened : ∀ o ∈ openingsOf (p.walk scope c), o ∈ t.openings)
    (h : t.Retains key around w c) : t.Retains key around (w ++ p.walk scope c) (p.course c) := by
  cases p with
  | stmt s => exact s.retains gathers here opened h
  | operand o => exact o.retains gathers here opened h
  | heads hops => exact Stmt.retainsHops gathers here hops opened h
  | body stmts => exact Stmt.retainsBody gathers here stmts opened h

/-- The demand is on a value. -/
def Demand.OnValue : Demand → Prop
  | .valid _ _ _ => True
  | .inhabited _ _ => False

namespace Builder

/-- A visit of the text is at the place, in front of a part. -/
structure Stands (t : Tree) (kind : GraphKind) (name : Option String) (key : SubgraphKey)
    (l : Place) (p : Fragment) (b : Builder) : Prop where
  replays : (Draft.start kind name t.strict).Replays l.before l.draft
  follows : Follows l.draft l.scope l.course b
  ahead : l.before ++ p.walk l.scope l.course <+: t.walk
  here : l.scope.subgraph = l.around.head?
  retains : t.Retains key l.around l.before l.course

namespace Stands

variable {t : Tree} {kind : GraphKind} {name : Option String} {key : SubgraphKey} {l : Place}
  {p q : Fragment} {b b1 : Builder} {d : Draft} {more : List Occurrence}

/-- At the start of a text. -/
theorem start (t : Tree) (kind : GraphKind) (name : Option String) (key : SubgraphKey) :
    Stands t kind name key ⟨[], [], .top, .start, .start kind name t.strict⟩ (.body t.body)
      ((new kind name).started t.strict) where
  replays := .nil _
  follows := follows_started kind name t.strict
  ahead := List.prefix_refl _
  here := rfl
  retains := ⟨.nil, fun _ _ ho => absurd ho List.not_mem_nil⟩

/-- In front of the first part of a part. -/
theorem first (h : Stands t kind name key l p b)
    (split : p.walk l.scope l.course = q.walk l.scope l.course ++ more) :
    Stands t kind name key l q b := by
  refine ⟨h.replays, h.follows, ?_, h.here, h.retains⟩
  have hahead := h.ahead
  rw [split, ← List.append_assoc] at hahead
  exact (List.prefix_append _ _).trans hahead

/-- The openings of the part are openings of the text. -/
theorem openings (h : Stands t kind name key l p b) :
    ∀ o ∈ openingsOf (p.walk l.scope l.course), o ∈ t.openings := by
  intro o ho
  obtain ⟨rest, hrest⟩ := h.ahead
  unfold Tree.openings
  rw [← hrest, openingsOf_append, openingsOf_append]
  exact List.mem_append_left _ (List.mem_append_right _ ho)

/-- Behind the first part of a part. -/
theorem next {r : Fragment} (gathers : t.Gathers key) (h : Stands t kind name key l p b)
    (split : p.walk l.scope l.course = q.walk l.scope l.course ++
      (r.walk (q.behind l.scope) (q.course l.course) ++ more))
    (replays : l.draft.Replays (q.walk l.scope l.course) d)
    (follows : Follows d (q.behind l.scope) (q.course l.course) b1) :
    Stands t kind name key ⟨l.around, l.before ++ q.walk l.scope l.course, q.behind l.scope,
      q.course l.course, d⟩ r b1 := by
  have hbehind : (q.behind l.scope).subgraph = l.around.head? := by
    rw [← h.here]
    cases q with
    | stmt s => exact l.scope.subgraph_behind s
    | _ => rfl
  have hahead := h.ahead
  rw [split, ← List.append_assoc, ← List.append_assoc] at hahead
  exact ⟨h.replays.append replays, follows, (List.prefix_append _ _).trans hahead, hbehind,
    q.retains gathers h.here (h.first split).openings h.retains⟩

/-- In the body of a subgraph. -/
theorem entered {sub : Option String} {stmts : List Stmt} {g : GraphRef}
    (h : Stands t kind name key l p b)
    (split : p.walk l.scope l.course = ⟨l.scope, .opening (l.course.key sub)⟩ ::
      Stmt.walkBody (l.scope.inside (l.course.key sub)) (l.course.opening sub) stmts)
    (opened : Runs (openGraph sub) b g b1) :
    Stands t kind name key ⟨l.course.key sub :: l.around,
      l.before ++ [⟨l.scope, .opening (l.course.key sub)⟩], l.scope.inside (l.course.key sub),
      l.course.opening sub, l.draft.opening ⟨l.scope, l.course.key sub⟩⟩ (.body stmts)
      (b1.entered g) := by
  obtain ⟨hkey, rfl, f1⟩ := openGraph_follows opened h.follows
  have hopenings := h.openings
  have hahead := h.ahead
  rw [split, openingsOf_cons, List.forall_mem_cons] at hopenings
  rw [split, ← List.singleton_append, ← List.append_assoc] at hahead
  exact ⟨h.replays.append (.single (h.follows.fits fun _ _ he => nomatch he)),
    f1.entered hkey (l.course.name_key sub), hahead, rfl, h.retains.opening h.here hopenings.1⟩

end Stands

variable {t : Tree} {kind : GraphKind} {name : Option String} {key : SubgraphKey} {l : Place}
  {p q : Fragment} {b b' : Builder}

/-- A part that a visit reaches has a place. -/
theorem Reaches.stands (gathers : t.Gathers key) (h : Reaches p b q b')
    (hl : Stands t kind name key l p b) : ∃ l', Stands t kind name key l' q b' := by
  induction h generalizing l with
  | refl p b => exact ⟨l, hl⟩
  | first _ ih => exact ih (hl.first rfl)
  | @rest s rest q b b1 b' before _ ih =>
      obtain ⟨d1, hr, f1⟩ := stmt_follows s before hl.follows
      have split : Stmt.walkBody l.scope l.course (s :: rest) = s.walk l.scope l.course ++
          (Stmt.walkBody (l.scope.behind s) (s.course l.course) rest ++ []) := by
        rw [List.append_nil, Stmt.walkBody]
      exact ih (hl.next (q := .stmt s) gathers split hr f1)
  | inside opened _ ih => exact ih (hl.entered rfl opened)
  | insideOperand opened _ ih => exact ih (hl.entered rfl opened)
  | @tail tail hops attrs q b b' _ _ ih =>
      exact ih (hl.first (q := .operand tail) (List.append_assoc _ _ _))
  | @hops tail hops attrs q b b1 b' es _ before _ ih =>
      obtain ⟨d1, hr, f1, _⟩ := operand_follows tail before hl.follows
      exact ih (hl.next (q := .operand tail) gathers (List.append_assoc _ _ _) hr f1)
  | head _ ih => exact ih (hl.first rfl)
  | @later op head hops q b b1 b' es before _ ih =>
      obtain ⟨d1, hr, f1, _⟩ := operand_follows head before hl.follows
      have split : Stmt.walkHops l.scope l.course ((op, head) :: hops) =
          head.walk l.scope l.course ++
            (Stmt.walkHops l.scope (head.course l.course) hops ++ []) := by
        rw [List.append_nil, Stmt.walkHops]
      exact ih (hl.next (q := .operand head) gathers split hr f1)

/-! ## Members -/

/-- The subgraph that the next body of that name belongs to. -/
def keyOf (b : Builder) : Option String → SubgraphKey
  | none => .unnamed (b.anonymous + 1)
  | some name => .named name

theorem Follows.key_eq {d : Draft} {scope : Scope} {c : Course} (f : Follows d scope c b)
    (sub : Option String) : c.key sub = b.keyOf sub := by
  cases sub with
  | none => exact congrArg (fun k => SubgraphKey.unnamed (k + 1)) f.unnamed.symm
  | some name => rfl

/-- At a place that is reached, an operand that is kept together stands for all nodes that
its graph has or the graphs below it. -/
theorem Stands.mem_of_holds {sub : Option String} {nm : Option Id} {stmts : List Stmt}
    {g : GraphRef} {b1 : Builder} {members : Members} {n : NodeRef} (named : nm.map Id.value = sub)
    (gathers : t.Gathers (b.keyOf sub))
    (h : Stands t kind name (b.keyOf sub) l (.operand (.subgraph nm stmts)) b)
    (opened : Runs (openGraph sub) b g b1)
    (visited : Runs (subgraph sub (body stmts)) b members b') (holds : b'.model.Holds g n) :
    n ∈ members := by
  subst named
  have hkey := h.follows.key_eq (nm.map Id.value)
  have hopenings := h.openings
  rw [Fragment.walk, Operand.walk, openingsOf_cons, List.forall_mem_cons] at hopenings
  obtain ⟨hmem, rfl, _⟩ := openGraph_follows opened h.follows
  obtain ⟨d', hr, f', hms⟩ :=
    subgraph_follows visited h.follows (body_keeps stmts) fun hb fin => body_follows stmts hb fin
  have hreplays := h.replays.append hr
  have ext : (l.draft.opening ⟨l.scope, l.course.key (nm.map Id.value)⟩).Extends d' := by
    cases hr with
    | cons _ rest => exact rest.grows
  rw [f'.model, ← ext.ref_eq (Draft.knows_some.2 hmem)] at holds
  obtain ⟨o, ho, inside, hnamed⟩ := hreplays.mention_of_holds (f'.model ▸ f'.coherent.model)
    h.ahead (ext.subgraphs.subset hmem) holds
  rw [hkey] at inside
  have hout : b.keyOf (nm.map Id.value) ∉ l.around :=
    gathers.apart _ (hkey ▸ .cons hopenings.1 h.here h.retains.chain)
  have fresh : nm.map Id.value = none →
      ∀ p ∈ openingsOf l.before, p.key ≠ b.keyOf (nm.map Id.value) := by
    intro hnone p hp he
    have hknown : p.key ∈ l.draft.subgraphs := by
      rw [h.replays.subgraphs_eq]
      exact mem_subgraphsOf.2 ⟨p, hp, rfl⟩
    rw [he, ← hkey, hnone] at hknown
    exact absurd (h.follows.numbers hknown) (Nat.not_succ_le_self _)
  rw [mentionsOf_append] at ho
  refine (hms.mem_iff f'.distinct hnamed).2 ?_
  exact h.retains.members hout hkey fresh (Stmt.gainsBody _ _ stmts) o ho inside

/-! ## Operands without nodes -/

/-- A visit of the part reaches an operand that is a subgraph of that name, opens its graph
`g`, and ends its body with the members that the operand stands for. -/
inductive Yields (p : Fragment) (start : Builder) (sub : Option String) (g : GraphRef)
    (members : Members) (b b' : Builder) : Prop
  | intro {nm : Option Id} {stmts : List Stmt} {b1 : Builder} (named : nm.map Id.value = sub)
      (reached : Reaches p start (.operand (.subgraph nm stmts)) b)
      (opened : Runs (openGraph sub) b g b1)
      (visited : Runs (subgraph sub (body stmts)) b members b') :
      Yields p start sub g members b b'

/-- A visit of the part reaches an operand of that name that has no members. -/
def Lacks (p : Fragment) (b : Builder) (sub : Option String) : Prop :=
  ∃ g b1 b', Yields p b sub g [] b1 b'

section Lacks
variable {start : Builder} {sub : Option String} {d : Draft} {scope : Scope} {c : Course}

theorem Lacks.lift (h : Lacks q b sub)
    (inner : ∀ {r b'}, Reaches q b r b' → Reaches p start r b') : Lacks p start sub := by
  obtain ⟨g, b1, b', ⟨named, reached, opened, visited⟩⟩ := h
  exact ⟨g, b1, b', ⟨named, inner reached, opened, visited⟩⟩

/-- No value is at fault for an operand without nodes. -/
theorem firstFault_ne_emptyOperand {ds : List Demand} (h : ∀ demand ∈ ds, demand.OnValue) :
    firstFault ds ≠ some (.emptyOperand sub) := by
  intro he
  obtain ⟨demand, hmem, hfault⟩ := List.exists_of_findSome?_eq_some he
  cases demand with
  | inhabited name members => exact h _ hmem
  | valid element key value =>
      change faultOf? (Schema.validate element key value) = _ at hfault
      cases hv : Schema.validate element key value <;> rw [hv] at hfault <;> cases hfault

theorem onValue_demands {element : Element} {attrs : AttrList} :
    ∀ demand ∈ AttrList.demands element attrs, demand.OnValue :=
  List.forall_mem_map.2 fun _ _ => trivial

theorem onValue_portDemandsAlong {operands : List (List (Option String))} :
    ∀ demand ∈ portDemandsAlong operands, demand.OnValue := by
  have hport : ∀ {key port}, ∀ demand ∈ portDemands key port, demand.OnValue :=
    List.forall_mem_map.2 fun _ _ => trivial
  fun_induction portDemandsAlong operands with
  | case1 tails heads rest ih =>
      rw [List.forall_mem_append]
      refine ⟨fun demand hmem => ?_, ih⟩
      obtain ⟨tail, _, hmem⟩ := List.mem_flatMap.1 hmem
      obtain ⟨head, _, hmem⟩ := List.mem_flatMap.1 hmem
      exact (List.mem_append.1 hmem).elim (hport demand) (hport demand)
  | case2 => exact fun _ hmem => absurd hmem List.not_mem_nil

theorem check_not_empty {element : Element} {attrs : AttrList} :
    ¬ Fails (check (Schema.validateList element attrs)) b (.emptyOperand sub) := fun h =>
  firstFault_ne_emptyOperand onValue_demands
    ((check_meets (firstFault_list element attrs) b).firstFault_eq h)

/-- A subgraph fails in its body. -/
theorem body_of_subgraph_fails {body : Build Unit} {e : BuildError} (f : Follows d scope c b)
    (hkeeps : ∀ {b b'}, Runs body b () b' → b.Coherent → Keeps b b')
    (h : Fails (subgraph sub body) b e) :
    ∃ g b1 d1, Runs (openGraph sub) b g b1 ∧
      Follows d1 (scope.inside (c.key sub)) (c.opening sub) (b1.entered g) ∧
        Fails body (b1.entered g) e := by
  obtain ⟨g, b1, d1, ho, fin⟩ := f.opens sub
  refine ⟨g, b1, d1, ho, fin, ?_⟩
  cases hb : body (b1.entered g) with
  | ok u b2 =>
      obtain ⟨_, _, hs⟩ := exists_runs_subgraph ho hb (hkeeps hb fin.coherent)
      exact absurd h hs.not_fails
  | error e' b2 =>
      have hbody : Fails body (b1.entered g) e' := ⟨b2, hb⟩
      rw [h.unique (subgraph_fails ho hbody)]
      exact hbody

end Lacks

mutual

theorem stmt_lacks {d : Draft} {scope : Scope} {c : Course} {b : Builder} {sub : Option String} :
    (s : Stmt) → Follows d scope c b → Fails (stmt s) b (.emptyOperand sub) → Lacks (.stmt s) b sub
  | .node id attrs, f, h =>
      absurd ((stmt_meets (.node id attrs) f).firstFault_eq h)
        (firstFault_ne_emptyOperand onValue_demands)
  | .edge tail hops attrs, f, h => by
      rw [stmt] at h
      rcases fails_bind.1 h with hcheck | ⟨_, _, hc, hoperands⟩
      · exact absurd hcheck check_not_empty
      obtain ⟨hv, rfl⟩ := runs_check.1 hc
      rcases fails_bind.1 hoperands with htail | ⟨es, b1, ho, hrest⟩
      · exact (operand_lacks tail f htail).lift (.tail hv)
      obtain ⟨d1, _, f1, _⟩ := operand_follows tail ho f
      rcases fails_bind.1 hrest with hheads | ⟨ops, b2, _, hchain⟩
      · exact (heads_lacks hops f1 hheads).lift (.hops hv ho)
      · exact absurd ((connectChain_meets _ _ _).firstFault_eq hchain)
          (firstFault_ne_emptyOperand onValue_portDemandsAlong)
  | .defaults element attrs, f, h =>
      absurd ((stmt_meets (.defaults element attrs) f).firstFault_eq h)
        (firstFault_ne_emptyOperand onValue_demands)
  | .subgraph name stmts, f, h => by
      rw [stmt] at h
      rcases fails_bind.1 h with h | ⟨_, _, _, h⟩
      · obtain ⟨g, b1, d1, ho, f1, h⟩ := body_of_subgraph_fails f (body_keeps stmts) h
        exact (body_lacks stmts f1 h).lift (.inside ho)
      · exact absurd h (runs_pure.2 ⟨rfl, rfl⟩ : Runs _ _ () _).not_fails

theorem operand_lacks {d : Draft} {scope : Scope} {c : Course} {b : Builder}
    {sub : Option String} :
    (o : Operand) → Follows d scope c b → Fails (operand o) b (.emptyOperand sub) →
      Lacks (.operand o) b sub
  | .node id, f, h => absurd ((operand_meets (.node id) f).firstFault_eq h) nofun
  | .subgraph name stmts, f, h => by
      rw [operand] at h
      rcases fails_bind.1 h with h | ⟨members, b', hs, h⟩
      · obtain ⟨g, b1, d1, ho, f1, h⟩ := body_of_subgraph_fails f (body_keeps stmts) h
        exact (body_lacks stmts f1 h).lift (.insideOperand ho)
      · cases members with
        | nil =>
            obtain rfl := BuildError.emptyOperand.inj (h.unique fails_throw)
            obtain ⟨g, b1, _, _, ho, _⟩ := runs_subgraph.1 hs
            exact ⟨g, b, b', ⟨rfl, .refl _ _, ho, hs⟩⟩
        | cons n members =>
            exact absurd h (runs_endpoints.2 ⟨List.cons_ne_nil _ _, rfl, rfl⟩).not_fails

theorem heads_lacks {d : Draft} {scope : Scope} {c : Course} {b : Builder} {sub : Option String} :
    (hops : List (EdgeOp × Operand)) → Follows d scope c b →
      Fails (heads hops) b (.emptyOperand sub) → Lacks (.heads hops) b sub
  | [], f, h => absurd h (runs_heads_nil.2 ⟨rfl, rfl⟩).not_fails
  | (op, head) :: hops, f, h => by
      rw [heads] at h
      rcases fails_bind.1 h with h | ⟨es, b1, ho, h⟩
      · exact (operand_lacks head f h).lift .head
      obtain ⟨d1, _, f1, _⟩ := operand_follows head ho f
      rcases fails_bind.1 h with h | ⟨ops, b2, _, h⟩
      · exact (heads_lacks hops f1 h).lift (.later ho)
      · exact absurd h (runs_pure.2 ⟨rfl, rfl⟩ : Runs _ _ (es :: ops) _).not_fails

theorem body_lacks {d : Draft} {scope : Scope} {c : Course} {b : Builder} {sub : Option String} :
    (stmts : List Stmt) → Follows d scope c b → Fails (body stmts) b (.emptyOperand sub) →
      Lacks (.body stmts) b sub
  | [], f, h => absurd h (runs_body_nil (u := ()).2 rfl).not_fails
  | first :: rest, f, h => by
      rw [body] at h
      rcases fails_bind.1 h with h | ⟨_, b1, hs, h⟩
      · exact (stmt_lacks first f h).lift .first
      obtain ⟨d1, _, f1⟩ := stmt_follows first hs f
      exact (body_lacks rest f1 h).lift (.rest hs)

end

/-- A text fails for an operand without nodes in its body. -/
theorem tree_lacks {sub : Option String} (h : Fails (tree t) (.new kind name) (.emptyOperand sub)) :
    Lacks (.body t.body) ((new kind name).started t.strict) sub := by
  have f := follows_started kind name t.strict
  have hfault := (tree_meets t kind name).firstFault_eq h
  have hbody := body_meets t.body f
  unfold Meets at hbody
  rw [show firstFault (Stmt.demandsBody .start t.body) = _ from hfault] at hbody
  exact body_lacks t.body f hbody

end Builder

/-! ## Visited texts -/

/-- Every operand that a visit reaches and that its text keeps together stands for all nodes
that its graph has or the graphs below it.  If a visit fails for an operand without nodes,
it has reached one that has no members, and these graphs have no nodes if it is kept
together. -/
theorem Tree.operands_gather (t : Tree) (kind : GraphKind) (name : Option String) :
    (∀ {sub g members b b'},
        Builder.Yields (.body t.body) ((Builder.new kind name).started t.strict) sub g members b b' →
          t.Gathers (b.keyOf sub) → ∀ n, b'.model.Holds g n → n ∈ members) ∧
      ∀ {sub}, Fails (Builder.tree t) (.new kind name) (.emptyOperand sub) →
        ∃ g b b', Builder.Yields (.body t.body) ((Builder.new kind name).started t.strict)
          sub g [] b b' ∧ (t.Gathers (b.keyOf sub) → ∀ n, ¬ b'.model.Holds g n) := by
  have members : ∀ {sub g members b b'},
      Builder.Yields (.body t.body) ((Builder.new kind name).started t.strict) sub g members b b' →
        t.Gathers (b.keyOf sub) → ∀ n, b'.model.Holds g n → n ∈ members := by
    rintro sub g members b b' ⟨named, reached, opened, visited⟩ gathers n holds
    obtain ⟨l, hl⟩ := reached.stands gathers (.start t kind name _)
    exact hl.mem_of_holds named gathers opened visited holds
  refine ⟨members, fun h => ?_⟩
  obtain ⟨g, b, b', hyields⟩ := Builder.tree_lacks h
  exact ⟨g, b, b', hyields, fun gathers n holds =>
    List.not_mem_nil (members hyields gathers n holds)⟩

/-- The subgraph `s` is opened again in another one, and so is `r`, which is nested in it. -/
theorem Tree.operands_gather_reopened :
    let node (name : String) : Stmt := .node ⟨.ofText name, none⟩ []
    let sub (name : String) (stmts : List Stmt) : Stmt := .subgraph (some (.ofText name)) stmts
    let t : Tree := ⟨false, .digraph, none, [
      sub "s" [node "a", sub "r" [node "b"]],
      sub "u" [.edge (.subgraph (some (.ofText "s")) [sub "r" [node "c"]])
        [(.arrow, .node ⟨.ofText "d", none⟩)] []]]⟩
    ∃ g members b b', Builder.Yields (.body t.body) ((Builder.new .digraph none).started t.strict)
        (some "s") g members b b' ∧ t.Gathers (b.keyOf (some "s")) ∧ members ≠ [] ∧
          ∀ n, b'.model.Holds g n → n ∈ members := by
  intro node sub t
  have gathers : t.Gathers (.named "s") := by
    refine ⟨fun o ho hne inside => ?_, fun around chain => ?_⟩
    · have hopened : ∀ o ∈ t.openings, o.key ≠ .named "s" →
          o.scope.subgraph = some (.named "s") ∨ o.key = .named "u" := by decide +kernel
      have hfirst : t.openings.find? (fun p => p.key = .named "u") = some ⟨.top, .named "u"⟩ := by
        decide +kernel
      rcases hopened o ho hne with hs | hu
      · exact hs ▸ .self
      · rw [hu] at inside
        rcases inside.opened with he | ⟨o', ho', outer⟩
        · exact absurd he (by decide)
        · obtain rfl := Option.some.inj (hfirst.symm.trans ho')
          cases outer
    · have hs : ∀ o ∈ t.openings, o.key = .named "s" →
          o.scope.subgraph = none ∨ o.scope.subgraph = some (.named "u") := by decide +kernel
      have hu : ∀ o ∈ t.openings, o.key = .named "u" → o.scope.subgraph = none := by decide +kernel
      obtain ⟨o, ho, hkey, here, outer⟩ := chain.uncons
      cases around with
      | nil => exact List.not_mem_nil
      | cons k around =>
          obtain rfl : k = .named "u" := by
            rcases hs o ho hkey with hnone | hsome
            · cases hnone.symm.trans here
            · exact Option.some.inj (here.symm.trans hsome)
          obtain ⟨o', ho', hkey', here', _⟩ := outer.uncons
          have hlast : around = [] := List.head?_eq_none_iff.1 (here'.symm.trans (hu o' ho' hkey'))
          rw [hlast]
          decide
  obtain ⟨_, hrun, _⟩ := Tree.exists_runs (t := t) (p := fun _ => true) (by decide +kernel)
  obtain ⟨_, hbody, _⟩ := Builder.runs_tree.1 hrun
  obtain ⟨_, hs, hbody⟩ := Builder.runs_body_cons.1 hbody
  obtain ⟨_, hu, _⟩ := Builder.runs_body_cons.1 hbody
  obtain ⟨_, hu⟩ := Builder.runs_stmt_subgraph.1 hu
  obtain ⟨_, _, _, _, ho, hbody, _⟩ := Builder.runs_subgraph.1 hu
  obtain ⟨_, hedge, _⟩ := Builder.runs_body_cons.1 hbody
  obtain ⟨hv, _, _, b', _, htail, _⟩ := Builder.runs_stmt_edge.1 hedge
  obtain ⟨members, hvisited, hne, _⟩ := Builder.runs_operand_subgraph.1 htail
  obtain ⟨g, _, _, _, hopened, _⟩ := Builder.runs_subgraph.1 hvisited
  have yields : Builder.Yields (.body t.body) ((Builder.new .digraph none).started t.strict)
      (some "s") g members _ b' :=
    ⟨rfl, .rest hs (.first (.inside ho (.first (.tail hv (.refl _ _))))), hopened, hvisited⟩
  exact ⟨g, members, _, b', yields, gathers, hne,
    (Tree.operands_gather t .digraph none).1 yields gathers⟩

/-- Where a body of the subgraph is open around the operand, its nodes are not kept yet. -/
theorem Tree.operand_in_its_body_loses :
    let t : Tree := ⟨false, .digraph, none, [.subgraph (some (.ofText "s")) [
      .node ⟨.ofText "a", none⟩ [],
      .edge (.subgraph (some (.ofText "s")) []) [(.arrow, .node ⟨.ofText "b", none⟩)] []]]⟩
    (∃ b b', Builder.Yields (.body t.body) ((Builder.new .digraph none).started t.strict)
        (some "s") ⟨1⟩ [] b b' ∧ b'.model.Holds ⟨1⟩ ⟨1⟩) ∧
      t.outcome .digraph none = .error (.emptyOperand (some "s")) := by
  intro t
  refine ⟨?_, by decide +kernel⟩
  let b := (Builder.new .digraph none).started t.strict
  let b1 := (b.nested (some "s")).reported (.created "s")
  let b2 := ((b1.entered ⟨1⟩).created "a" []).mentioned ⟨1⟩
  let b3 := b2.reported (.reopened "s")
  let b4 := b3.entered ⟨1⟩
  have opened : Runs (Builder.openGraph (some "s")) b ⟨1⟩ b1 :=
    Builder.runs_openGraph.2 (Or.inr ⟨by decide +kernel, rfl, rfl⟩)
  have node : Runs (Builder.stmt (.node ⟨.ofText "a", none⟩ [])) (b1.entered ⟨1⟩) () b2 :=
    Builder.runs_stmt_node.2 ⟨rfl, ⟨1⟩, Builder.runs_node.2 (Or.inr ⟨by decide +kernel, rfl, rfl⟩)⟩
  have reopened : Runs (Builder.openGraph (some "s")) b2 ⟨1⟩ b3 :=
    Builder.runs_openGraph.2 (Or.inl ⟨by decide +kernel, rfl⟩)
  have visited : Runs (Builder.subgraph (some "s") (Builder.body [])) b2 []
      ((b4.left ⟨1⟩ b3.defaults).kept (some "s") ⟨1⟩ []) :=
    Builder.runs_subgraph.2
      ⟨⟨1⟩, b3, b4, _, reopened, Builder.runs_body_nil.2 rfl, rfl, rfl, rfl⟩
  have reached :
      Builder.Reaches (.body t.body) b (.operand (.subgraph (some (.ofText "s")) [])) b2 :=
    .first (.inside opened (.rest node (.first (.tail rfl (.refl _ _)))))
  exact ⟨b2, _, ⟨rfl, reached, reopened, visited⟩, ⟨"a", ⟨1⟩, .empty, none⟩, rfl, rfl, .refl⟩

-- Nor are those kept that a subgraph nested in it has from a body somewhere else: only `a`
-- is joined.
example :
    let node (name : String) : Stmt := .node ⟨.ofText name, none⟩ []
    let sub (name : String) (stmts : List Stmt) : Stmt := .subgraph (some (.ofText name)) stmts
    let t : Tree := ⟨false, .digraph, none, [sub "s" [sub "r" [node "a"]], sub "r" [node "b"],
      .edge (.subgraph (some (.ofText "s")) []) [(.arrow, .node ⟨.ofText "c", none⟩)] []]⟩
    (t.outcome .digraph none).toOption.map (fun m => m.edges.map fun e => e.source) =
      some #[⟨2⟩] := by
  decide +kernel

end DotLang
