import DotLang.Proofs.Following
/-!
# Where a visit comes to

A visit of a text is made of visits of its parts.  `Builder.Reaches p b q b'` says
that a visit of the part `p` from the state `b` comes to the part `q` in the state
`b'`.  Whatever stands in front of `q` was visited by then, and the bodies around it
are open.

For an edge statement that is reached, `Builder.Expands` gives the lists of endpoints
that visiting its operands returns.  Every edge statement of a walk is reached, and
the walk names these endpoints (`Tree.fan_expands`).
-/

namespace DotLang

/-- A part of a text that is visited. -/
inductive Fragment
  | stmt (s : Stmt)
  | operand (o : Operand)
  /-- The operands behind the first one of an edge statement. -/
  | heads (hops : List (EdgeOp × Operand))
  /-- The statements of a body, or the last ones of them. -/
  | body (stmts : List Stmt)

theorem fansOf_append (w w' : List Occurrence) : fansOf (w ++ w') = fansOf w ++ fansOf w' :=
  List.filterMap_append

namespace Builder

/-- A visit of the first part, from the first state, comes to the second part in the
second state. -/
inductive Reaches : Fragment → Builder → Fragment → Builder → Prop
  | refl (p : Fragment) (b : Builder) : Reaches p b p b
  | first {s : Stmt} {rest : List Stmt} {q : Fragment} {b b' : Builder}
      (inner : Reaches (.stmt s) b q b') : Reaches (.body (s :: rest)) b q b'
  | rest {s : Stmt} {rest : List Stmt} {q : Fragment} {b b1 b' : Builder}
      (before : Runs (stmt s) b () b1) (inner : Reaches (.body rest) b1 q b') :
      Reaches (.body (s :: rest)) b q b'
  | inside {name : Option Id} {stmts : List Stmt} {q : Fragment} {b b1 b' : Builder} {g : GraphRef}
      (opened : Runs (openGraph (name.map Id.value)) b g b1)
      (inner : Reaches (.body stmts) (b1.entered g) q b') :
      Reaches (.stmt (.subgraph name stmts)) b q b'
  | insideOperand {name : Option Id} {stmts : List Stmt} {q : Fragment} {b b1 b' : Builder}
      {g : GraphRef} (opened : Runs (openGraph (name.map Id.value)) b g b1)
      (inner : Reaches (.body stmts) (b1.entered g) q b') :
      Reaches (.operand (.subgraph name stmts)) b q b'
  | tail {tail : Operand} {hops : List (EdgeOp × Operand)} {attrs : AttrList} {q : Fragment}
      {b b' : Builder} (valid : Schema.validateList .edge attrs = .ok ())
      (inner : Reaches (.operand tail) b q b') : Reaches (.stmt (.edge tail hops attrs)) b q b'
  | hops {tail : Operand} {hops : List (EdgeOp × Operand)} {attrs : AttrList} {q : Fragment}
      {b b1 b' : Builder} {es : List Endpoint}
      (valid : Schema.validateList .edge attrs = .ok ()) (before : Runs (operand tail) b es b1)
      (inner : Reaches (.heads hops) b1 q b') : Reaches (.stmt (.edge tail hops attrs)) b q b'
  | head {op : EdgeOp} {head : Operand} {hops : List (EdgeOp × Operand)} {q : Fragment}
      {b b' : Builder} (inner : Reaches (.operand head) b q b') :
      Reaches (.heads ((op, head) :: hops)) b q b'
  | later {op : EdgeOp} {head : Operand} {hops : List (EdgeOp × Operand)} {q : Fragment}
      {b b1 b' : Builder} {es : List Endpoint} (before : Runs (operand head) b es b1)
      (inner : Reaches (.heads hops) b1 q b') : Reaches (.heads ((op, head) :: hops)) b q b'

/-- A visit reaches an edge statement with these attributes, and visiting its operands
gives these endpoints. -/
inductive Expands (p : Fragment) (b : Builder) (attrs : AttrList) : List (List Endpoint) → Prop
  | intro {tail : Operand} {hops : List (EdgeOp × Operand)} {before b1 b2 : Builder}
      {first : List Endpoint} {rest : List (List Endpoint)}
      (reached : Reaches p b (.stmt (.edge tail hops attrs)) before)
      (tails : Runs (operand tail) before first b1) (heads : Runs (heads hops) b1 rest b2) :
      Expands p b attrs (first :: rest)

/-- A visit of the part reaches the edge statement of a fan, whose operands are the
nodes of the model that the fan names. -/
def Shows (p : Fragment) (b : Builder) (m : Model) (fan : Fan) : Prop :=
  ∃ ops, Expands p b fan.attrs ops ∧ List.Forall₂ (List.Forall₂ m.IsTip) ops fan.operands

variable {p q : Fragment} {b b' b1 : Builder} {m m' : Model} {fan : Fan}

/-- What a visit of an inner part shows, the whole visit shows. -/
theorem Shows.lift (h : Shows q b1 m fan)
    (inner : ∀ {r b'}, Reaches q b1 r b' → Reaches p b r b')
    (named : ∀ {n name}, m.Named n name → m'.Named n name) : Shows p b m' fan := by
  obtain ⟨_, ⟨reached, tails, heads⟩, hops⟩ := h
  exact ⟨_, ⟨inner reached, tails, heads⟩,
    hops.imp fun _ _ hes => hes.imp fun _ _ he => he.mono named⟩

/-- The body of a visited subgraph. -/
theorem subgraph_inside {d : Draft} {scope : Scope} {c : Course} {sub : Option String}
    {body : Build Unit} {members : Members} (h : Runs (subgraph sub body) b members b')
    (f : Follows d scope c b) :
    ∃ g b1 b2 d1, Runs (openGraph sub) b g b1 ∧ Runs body (b1.entered g) () b2 ∧
      Follows d1 (scope.inside (c.key sub)) (c.opening sub) (b1.entered g) ∧
        b'.model = b2.model := by
  obtain ⟨g, b1, b2, defaults, ho, hb, _, _, rfl⟩ := runs_subgraph.1 h
  obtain ⟨hkey, rfl, f1⟩ := openGraph_follows ho f
  refine ⟨_, b1, b2, _, ho, hb, f1.entered hkey (c.name_key sub), ?_⟩
  obtain ⟨_, _, he⟩ := kept_mentioned_eq sub _ members (b2.left b1.current defaults)
  rw [he]
  rfl

mutual

theorem stmt_shows {d : Draft} {scope : Scope} {c : Course} {b b' : Builder} {fan : Fan} :
    (s : Stmt) → Runs (stmt s) b () b' → Follows d scope c b → fan ∈ fansOf (s.walk scope c) →
      Shows (.stmt s) b b'.model fan
  | .node id attrs, h, f, hfan => by cases hfan
  | .edge tail hops attrs, h, f, hfan => by
      obtain ⟨hv, first, rest, b1, b2, ho, hh, hc⟩ := runs_stmt_edge.1 h
      obtain ⟨d1, hr1, f1, hfirst⟩ := operand_follows tail ho f
      obtain ⟨d2, hr2, f2, hrest⟩ := heads_follows hops hh f1
      have hfirst := hfirst.imp fun _ _ htip => htip.mono hr2.grows.named
      obtain ⟨d3, hr3, f3⟩ := edges_follow hc f2 (.cons hfirst hrest)
      have hnamed2 : ∀ {n name}, b2.model.Named n name → b'.model.Named n name := by
        rw [f2.model, f3.model]
        exact hr3.grows.named
      have hnamed1 : ∀ {n name}, b1.model.Named n name → b'.model.Named n name := by
        rw [f1.model]
        exact fun hn => hnamed2 (f2.model ▸ hr2.grows.named hn)
      rw [Stmt.walk, fansOf_append, fansOf_append, List.mem_append, List.mem_append] at hfan
      rcases hfan with (hfan | hfan) | hfan
      · exact (operand_shows tail ho f hfan).lift (.tail hv) hnamed1
      · exact (heads_shows hops hh f1 hfan).lift (.hops hv ho) hnamed2
      · obtain rfl := List.mem_singleton.1 hfan
        refine ⟨_, ⟨.refl _ _, ho, hh⟩, (List.Forall₂.cons hfirst hrest).imp fun _ _ hes => ?_⟩
        exact hes.imp fun _ _ he => he.mono fun hn => hnamed2 (f2.model ▸ hn)
  | .defaults element attrs, h, f, hfan => by cases hfan
  | .subgraph name stmts, h, f, hfan => by
      obtain ⟨members, hs⟩ := runs_stmt_subgraph.1 h
      obtain ⟨g, b1, b2, d1, ho, hb, f1, hmodel⟩ := subgraph_inside hs f
      rw [hmodel]
      exact (body_shows stmts hb f1 hfan).lift (.inside ho) id

theorem operand_shows {d : Draft} {scope : Scope} {c : Course} {b b' : Builder} {fan : Fan}
    {es : List Endpoint} :
    (o : Operand) → Runs (operand o) b es b' → Follows d scope c b →
      fan ∈ fansOf (o.walk scope c) → Shows (.operand o) b b'.model fan
  | .node id, h, f, hfan => by cases hfan
  | .subgraph name stmts, h, f, hfan => by
      obtain ⟨members, hs, _, rfl⟩ := runs_operand_subgraph.1 h
      obtain ⟨g, b1, b2, d1, ho, hb, f1, hmodel⟩ := subgraph_inside hs f
      rw [hmodel]
      exact (body_shows stmts hb f1 hfan).lift (.insideOperand ho) id

theorem heads_shows {d : Draft} {scope : Scope} {c : Course} {b b' : Builder} {fan : Fan}
    {ops : List (List Endpoint)} :
    (hops : List (EdgeOp × Operand)) → Runs (heads hops) b ops b' → Follows d scope c b →
      fan ∈ fansOf (Stmt.walkHops scope c hops) → Shows (.heads hops) b b'.model fan
  | [], h, f, hfan => by cases hfan
  | (op, head) :: hops, h, f, hfan => by
      obtain ⟨first, rest, b1, ho, hh, rfl⟩ := runs_heads_cons.1 h
      obtain ⟨d1, hr1, f1, _⟩ := operand_follows head ho f
      obtain ⟨d2, hr2, f2, _⟩ := heads_follows hops hh f1
      rw [Stmt.walkHops, fansOf_append, List.mem_append] at hfan
      rcases hfan with hfan | hfan
      · refine (operand_shows head ho f hfan).lift .head ?_
        rw [f1.model, f2.model]
        exact hr2.grows.named
      · exact (heads_shows hops hh f1 hfan).lift (.later ho) id

theorem body_shows {d : Draft} {scope : Scope} {c : Course} {b b' : Builder} {fan : Fan} :
    (stmts : List Stmt) → Runs (body stmts) b () b' → Follows d scope c b →
      fan ∈ fansOf (Stmt.walkBody scope c stmts) → Shows (.body stmts) b b'.model fan
  | [], h, f, hfan => by cases hfan
  | first :: rest, h, f, hfan => by
      obtain ⟨b1, hs, hb⟩ := runs_body_cons.1 h
      obtain ⟨d1, hr1, f1⟩ := stmt_follows first hs f
      obtain ⟨d2, _, hr2, f2⟩ := body_follows rest hb f1
      rw [Stmt.walkBody, fansOf_append, List.mem_append] at hfan
      rcases hfan with hfan | hfan
      · refine (stmt_shows first hs f hfan).lift .first ?_
        rw [f1.model, f2.model]
        exact hr2.grows.named
      · exact (body_shows rest hb f1 hfan).lift (.rest hs) id

end

end Builder

/-- Every edge statement of a text is reached by a visit of it, and its operands are the
nodes that the walk names. -/
theorem Tree.fan_shows {t : Tree} {kind : GraphKind} {name : Option String} {b : Builder}
    (h : Runs (Builder.tree t) (.new kind name) () b) {fan : Fan} (hfan : fan ∈ t.fans) :
    Builder.Shows (.body t.body) ((Builder.new kind name).started t.strict) b.model fan := by
  obtain ⟨b1, hb, rfl⟩ := Builder.runs_tree.1 h
  show Builder.Shows _ _ b1.model fan
  exact Builder.body_shows t.body hb (Builder.follows_started _ _ _) hfan

end DotLang
