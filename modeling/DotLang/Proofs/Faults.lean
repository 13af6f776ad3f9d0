import DotLang.Proofs.Following
/-!
# What a text has to meet

A visit of a text can fail in two ways only: an entry does not follow its grammar, or
a subgraph that is an operand stands for no node.  `Tree.demands` lists what is checked,
in the order of the visit.  Like the walk it is read off the text, along its course.
Entries are checked in the list where they stand, even if a later entry hides them, and
ports behind the operands of their statement.

`Builder.Meets x b ds` says that the step `x` succeeds just if nothing is wrong with the
demands `ds`, and fails with the first thing that is.  It composes over steps, and
`body_meets` says it of every body.  So the outcome of a visit is known from the text:
the first fault, or the model that its walk makes (`Tree.outcome_eq`).
-/

namespace DotLang

/-! ## Demands -/

/-- What a text has to meet at some place. -/
inductive Demand
  /-- The value follows the grammar of the attribute on the element. -/
  | valid (element : Element) (key : String) (value : Id)
  /-- The operand, a subgraph of that name, has members. -/
  | inhabited (name : Option String) (members : List String)
deriving DecidableEq, Repr

/-- What a check finds wrong. -/
def faultOf? : Except AttributeError Unit → Option BuildError
  | .ok _ => none
  | .error e => some (.attribute e)

/-- What is wrong, if the demand is not met. -/
def Demand.fault? : Demand → Option BuildError
  | .valid element key value => faultOf? (Schema.validate element key value)
  | .inhabited name members => if members.isEmpty then some (.emptyOperand name) else none

/-- The first thing that is wrong. -/
def firstFault (ds : List Demand) : Option BuildError := ds.findSome? Demand.fault?

theorem firstFault_append (ds more : List Demand) :
    firstFault (ds ++ more) = (firstFault ds).or (firstFault more) := List.findSome?_append

theorem firstFault_singleton (d : Demand) : firstFault [d] = d.fault? := List.findSome?_singleton

theorem firstFault_cons (d : Demand) (ds : List Demand) :
    firstFault (d :: ds) = d.fault?.or (firstFault ds) := by
  rw [← List.singleton_append, firstFault_append, firstFault_singleton]

/-- The entries of a list are valid. -/
def AttrList.demands (element : Element) (attrs : AttrList) : List Demand :=
  attrs.map fun e => .valid element e.1 e.2

/-- The port is valid under its key, if there is one. -/
def portDemands (key : String) (port : Option String) : List Demand :=
  port.toList.map fun p => .valid .edge key (Id.ofText p)

/-- The ports of operands, one list an operand, are valid at the ends that they stand
at. -/
def portDemandsAlong : List (List (Option String)) → List Demand
  | tails :: heads :: rest =>
      (tails.flatMap fun tail => heads.flatMap fun head =>
        portDemands "tailport" tail ++ portDemands "headport" head) ++
          portDemandsAlong (heads :: rest)
  | _ => []

mutual

/-- What a statement has to meet. -/
def Stmt.demands (c : Course) : Stmt → List Demand
  | .node _ attrs => AttrList.demands .node attrs
  | .edge tail hops attrs =>
      AttrList.demands .edge attrs ++ (tail.demands c ++ (Stmt.demandsHops (tail.course c) hops ++
        portDemandsAlong
          ((tail.tips c :: Stmt.tipsHops (tail.course c) hops).map (·.map Tip.port))))
  | .defaults element attrs => AttrList.demands element attrs
  | .subgraph name body => Stmt.demandsBody (c.opening (name.map Id.value)) body

/-- What an operand has to meet. -/
def Operand.demands (c : Course) : Operand → List Demand
  | .node _ => []
  | .subgraph name body =>
      Stmt.demandsBody (c.opening (name.map Id.value)) body ++
        [.inhabited (name.map Id.value)
          (Stmt.courseBody (c.opening (name.map Id.value)) body).members]

/-- What operands have to meet. -/
def Stmt.demandsHops (c : Course) : List (EdgeOp × Operand) → List Demand
  | [] => []
  | (_, head) :: hops => head.demands c ++ Stmt.demandsHops (head.course c) hops

/-- What a body has to meet. -/
def Stmt.demandsBody (c : Course) : List Stmt → List Demand
  | [] => []
  | first :: rest => first.demands c ++ Stmt.demandsBody (first.course c) rest

end

/-- What a text has to meet, in the order in which it is checked. -/
def Tree.demands (t : Tree) : List Demand := Stmt.demandsBody .start t.body

/-- The first thing that is wrong in a text. -/
def Tree.fault? (t : Tree) : Option BuildError := firstFault t.demands

/-! ## Meeting demands -/

/-- Lists are checked entry by entry. -/
theorem firstFault_list (element : Element) (attrs : AttrList) :
    firstFault (AttrList.demands element attrs) = faultOf? (Schema.validateList element attrs) := by
  induction attrs with
  | nil => rfl
  | cons e attrs ih =>
      have hdemands : AttrList.demands element (e :: attrs) =
          .valid element e.1 e.2 :: AttrList.demands element attrs := rfl
      have hlist : Schema.validateList element (e :: attrs) =
          (Schema.validate element e.1 e.2 >>= fun _ => Schema.validateList element attrs) := rfl
      have hfirst : (Demand.valid element e.1 e.2).fault? =
          faultOf? (Schema.validate element e.1 e.2) := rfl
      rw [hdemands, firstFault_cons, ih, hlist, hfirst]
      cases Schema.validate element e.1 e.2 <;> rfl

namespace Builder

/-- The step succeeds if nothing is wrong, and fails with the first thing that is. -/
def Meets {α : Type} (x : Build α) (b : Builder) (ds : List Demand) : Prop :=
  match firstFault ds with
  | none => ∃ a b', Runs x b a b'
  | some e => Fails x b e

variable {α β : Type} {x : Build α} {f : α → Build β} {b b' : Builder} {a : α}
  {ds more : List Demand}

/-- A step that fails does so with the first fault. -/
theorem Meets.firstFault_eq {e : BuildError} (h : Meets x b ds) (fails : Fails x b e) :
    firstFault ds = some e := by
  unfold Meets at h
  cases hd : firstFault ds with
  | none =>
      rw [hd] at h
      obtain ⟨_, _, h⟩ := h
      exact absurd fails h.not_fails
  | some e' =>
      rw [hd] at h
      rw [h.unique fails]

/-- A step that succeeds. -/
theorem Meets.of_runs (h : Runs x b a b') : Meets x b [] := ⟨a, b', h⟩

/-- First one step and then another, which may depend on what the first gives. -/
theorem Meets.bind (h : Meets x b ds) (hf : ∀ {a b'}, Runs x b a b' → Meets (f a) b' more) :
    Meets (x >>= f) b (ds ++ more) := by
  unfold Meets at h hf ⊢
  rw [firstFault_append]
  cases hd : firstFault ds with
  | some e =>
      rw [hd] at h
      exact h.bind
  | none =>
      rw [hd] at h
      obtain ⟨a, b1, h⟩ := h
      have hrest := hf h
      rw [Option.none_or]
      cases hm : firstFault more with
      | some e =>
          rw [hm] at hrest
          exact h.bind_fails hrest
      | none =>
          rw [hm] at hrest
          obtain ⟨a', b2, hrest⟩ := hrest
          exact ⟨a', b2, runs_bind.2 ⟨a, b1, h, hrest⟩⟩

/-- The demands are those of the rest, if the first step succeeds anyway. -/
theorem Meets.behind (h : Runs x b a b') (hf : Meets (f a) b' ds) : Meets (x >>= f) b ds :=
  Meets.bind (.of_runs h) fun h' => by
    obtain ⟨rfl, rfl⟩ := h.unique h'
    exact hf

/-- The demands are those of the first step, if the rest succeeds. -/
theorem Meets.before (h : Meets x b ds)
    (hf : ∀ {a b'}, Runs x b a b' → ∃ a' b'', Runs (f a) b' a' b'') : Meets (x >>= f) b ds := by
  rw [← List.append_nil ds]
  exact h.bind hf

theorem Meets.forM {l : List α} {x : α → Build Unit} {ds : α → List Demand}
    (h : ∀ a b, Meets (x a) b (ds a)) (b : Builder) : Meets (l.forM x) b (l.flatMap ds) := by
  induction l generalizing b with
  | nil => exact .of_runs (runs_pure.2 ⟨rfl, rfl⟩)
  | cons a l ih =>
      rw [List.forM, List.flatMap_cons]
      exact (h a b).bind fun _ => ih _

/-! ## Steps -/

variable {d : Draft} {scope : Scope} {c : Course} {sub : Option String} {attrs : AttrList}

theorem check_meets {r : Except AttributeError Unit} (h : firstFault ds = faultOf? r)
    (b : Builder) : Meets (check r) b ds := by
  unfold Meets
  rw [h]
  cases r with
  | ok u => exact ⟨(), b, runs_check.2 ⟨rfl, rfl⟩⟩
  | error e => exact fails_throw

theorem exists_runs_node (name : String) (attrs : AttrList) (b : Builder) :
    ∃ n b', Runs (node name attrs) b n b' := by
  cases hn : b.nodes.find? name with
  | some n => exact ⟨n, _, runs_node.2 (Or.inl ⟨hn, rfl⟩)⟩
  | none => exact ⟨_, _, runs_node.2 (Or.inr ⟨hn, rfl, rfl⟩)⟩

theorem exists_runs_openGraph (sub : Option String) (b : Builder) :
    ∃ g b', Runs (openGraph sub) b g b' := by
  cases hg : sub.bind b.subgraphs.find? with
  | some g => exact ⟨g, _, runs_openGraph.2 (Or.inl ⟨hg, rfl⟩)⟩
  | none => exact ⟨_, _, runs_openGraph.2 (Or.inr ⟨hg, rfl, rfl⟩)⟩

/-- Whatever its name, a subgraph is opened. -/
theorem Follows.opens (f : Follows d scope c b) (sub : Option String) :
    ∃ g b1 d1, Runs (openGraph sub) b g b1 ∧
      Follows d1 (scope.inside (c.key sub)) (c.opening sub) (b1.entered g) := by
  obtain ⟨g, b1, ho⟩ := exists_runs_openGraph sub b
  obtain ⟨hkey, rfl, f1⟩ := openGraph_follows ho f
  exact ⟨_, b1, _, ho, f1.entered hkey (c.name_key sub)⟩

section Subgraph
variable {body : Build Unit} {g : GraphRef} {b1 b2 : Builder}

/-- A subgraph succeeds if its body does. -/
theorem exists_runs_subgraph (opened : Runs (openGraph sub) b g b1)
    (hb : Runs body (b1.entered g) () b2) (keeps : Keeps (b1.entered g) b2) :
    ∃ members b', Runs (subgraph sub body) b members b' :=
  ⟨_, _, runs_subgraph.2 ⟨g, b1, b2, _, opened, hb, keeps.balanced.leave?, rfl, rfl⟩⟩

/-- A subgraph fails if its body does. -/
theorem subgraph_fails {e : BuildError} (opened : Runs (openGraph sub) b g b1)
    (hb : Fails body (b1.entered g) e) : Fails (subgraph sub body) b e := by
  have henter : Runs (enter g) b1 () (b1.entered g) := runs_enter.2 rfl
  exact opened.bind_fails ((runs_get.2 ⟨rfl, rfl⟩).bind_fails (henter.bind_fails hb.bind))

end Subgraph

theorem withPort_meets (key : String) (port : Option String) (a : Attributes) (b : Builder) :
    Meets (withPort key port a) b (portDemands key port) := by
  cases port with
  | none => exact .of_runs (runs_withPort.2 ⟨.none, rfl⟩)
  | some p =>
      exact (check_meets (firstFault_singleton _) b).before fun _ => ⟨_, _, runs_pure.2 ⟨rfl, rfl⟩⟩

theorem connect_meets (attrs : AttrList) (tail head : Endpoint) (b : Builder) :
    Meets (connect attrs tail head) b
      (portDemands "tailport" tail.port ++ portDemands "headport" head.port) := by
  refine .behind (runs_get.2 ⟨rfl, rfl⟩) ?_
  refine (withPort_meets _ _ _ _).bind fun _ => ?_
  exact (withPort_meets _ _ _ _).before fun _ => ⟨(), _, runs_modify.2 rfl⟩

theorem connectChain_meets (attrs : AttrList) (ops : List (List Endpoint)) (b : Builder) :
    Meets (connectChain attrs ops) b (portDemandsAlong (ops.map (·.map Endpoint.port))) := by
  fun_induction connectChain attrs ops generalizing b with
  | case1 tails heads rest ih =>
      rw [List.map_cons, List.map_cons, portDemandsAlong, List.flatMap_map]
      simp only [List.flatMap_map]
      refine Meets.bind ?_ fun _ => ih _
      exact Meets.forM (fun tail b => Meets.forM (fun head b => connect_meets _ _ _ b) b) b
  | case2 ops h =>
      have hnil : portDemandsAlong (ops.map (·.map Endpoint.port)) = [] := by
        rcases ops with _ | ⟨tails, _ | ⟨heads, rest⟩⟩
        · rfl
        · rfl
        · exact absurd rfl (h tails heads rest)
      rw [hnil]
      exact .of_runs (runs_pure.2 ⟨rfl, rfl⟩)

/-- Apart from its body, a subgraph has nothing to meet. -/
theorem subgraph_meets {body : Build Unit} (f : Follows d scope c b)
    (hkeeps : ∀ {b b'}, Runs body b () b' → b.Coherent → Keeps b b')
    (hbody : ∀ {d b}, Follows d (scope.inside (c.key sub)) (c.opening sub) b → Meets body b ds) :
    Meets (subgraph sub body) b ds := by
  obtain ⟨g, b1, d1, ho, fin⟩ := f.opens sub
  have hmeets := hbody fin
  unfold Meets at hmeets ⊢
  cases hf : firstFault ds with
  | none =>
      rw [hf] at hmeets
      obtain ⟨_, b2, hb⟩ := hmeets
      exact exists_runs_subgraph ho hb (hkeeps hb fin.coherent)
  | some e =>
      rw [hf] at hmeets
      exact subgraph_fails ho hmeets

theorem endpoints_meets {m : Model} {members : Members} {names : List String}
    (h : m.NamedAll members names) (sub : Option String) (b : Builder) :
    Meets (endpoints sub members) b [.inhabited sub names] := by
  unfold Meets
  rw [firstFault_singleton]
  cases h with
  | nil => exact fails_throw
  | cons => exact ⟨_, b, runs_endpoints.2 ⟨List.cons_ne_nil _ _, rfl, rfl⟩⟩

/-! ## Statements -/

theorem ports_eq {m : Model} {ops : List (List Endpoint)} {operands : List (List Tip)}
    (h : List.Forall₂ (List.Forall₂ m.IsTip) ops operands) :
    ops.map (·.map Endpoint.port) = operands.map (·.map Tip.port) := by
  induction h with
  | nil => rfl
  | cons hes _ ih =>
      rw [List.map_cons, List.map_cons, ih]
      congr 1
      induction hes with
      | nil => rfl
      | cons he _ ih => rw [List.map_cons, List.map_cons, he.port, ih]

mutual

theorem stmt_meets {d : Draft} {scope : Scope} {c : Course} {b : Builder} :
    (s : Stmt) → Follows d scope c b → Meets (stmt s) b (s.demands c)
  | .node id attrs, f => by
      unfold stmt Stmt.demands
      refine (check_meets (firstFault_list .node attrs) b).before fun _ => ?_
      obtain ⟨n, b1, hn⟩ := exists_runs_node id.name.value attrs _
      exact ⟨(), b1, runs_bind.2 ⟨n, b1, hn, runs_pure.2 ⟨rfl, rfl⟩⟩⟩
  | .edge tail hops attrs, f => by
      unfold stmt Stmt.demands
      refine (check_meets (firstFault_list .edge attrs) b).bind fun hc => ?_
      obtain ⟨_, rfl⟩ := runs_check.1 hc
      refine (operand_meets tail f).bind fun ho => ?_
      obtain ⟨d1, _, f1, hfirst⟩ := operand_follows tail ho f
      refine (heads_meets hops f1).bind fun hh => ?_
      obtain ⟨d2, hr2, _, hrest⟩ := heads_follows hops hh f1
      rw [← ports_eq (.cons (hfirst.imp fun _ _ htip => htip.mono hr2.grows.named) hrest)]
      exact connectChain_meets _ _ _
  | .defaults element attrs, f => by
      unfold stmt Stmt.demands
      refine (check_meets (firstFault_list element attrs) b).before fun _ => ?_
      exact ⟨(), _, runs_setDefaults.2 rfl⟩
  | .subgraph name stmts, f => by
      unfold stmt Stmt.demands
      refine Meets.before ?_ fun _ => ⟨_, _, runs_pure.2 ⟨rfl, rfl⟩⟩
      exact subgraph_meets f (body_keeps stmts) fun fin => body_meets stmts fin

theorem operand_meets {d : Draft} {scope : Scope} {c : Course} {b : Builder} :
    (o : Operand) → Follows d scope c b → Meets (operand o) b (o.demands c)
  | .node id, f => by
      unfold operand Operand.demands
      obtain ⟨n, b1, hn⟩ := exists_runs_node id.name.value [] b
      exact .of_runs (runs_bind.2 ⟨n, b1, hn, runs_pure.2 ⟨rfl, rfl⟩⟩)
  | .subgraph name stmts, f => by
      unfold operand Operand.demands
      refine Meets.bind ?_ fun hs => ?_
      · exact subgraph_meets f (body_keeps stmts) fun fin => body_meets stmts fin
      · obtain ⟨_, _, _, hms⟩ :=
          subgraph_follows hs f (body_keeps stmts) fun hb fin => body_follows stmts hb fin
        exact endpoints_meets hms _ _

theorem heads_meets {d : Draft} {scope : Scope} {c : Course} {b : Builder} :
    (hops : List (EdgeOp × Operand)) → Follows d scope c b →
      Meets (heads hops) b (Stmt.demandsHops c hops)
  | [], f => .of_runs (runs_heads_nil.2 ⟨rfl, rfl⟩)
  | (op, head) :: hops, f => by
      rw [heads, Stmt.demandsHops]
      refine (operand_meets head f).bind fun ho => ?_
      obtain ⟨d1, _, f1, _⟩ := operand_follows head ho f
      exact (heads_meets hops f1).before fun _ => ⟨_, _, runs_pure.2 ⟨rfl, rfl⟩⟩

theorem body_meets {d : Draft} {scope : Scope} {c : Course} {b : Builder} :
    (stmts : List Stmt) → Follows d scope c b → Meets (body stmts) b (Stmt.demandsBody c stmts)
  | [], f => .of_runs (a := ()) (runs_body_nil.2 rfl)
  | first :: rest, f => by
      rw [body, Stmt.demandsBody]
      refine (stmt_meets first f).bind fun hs => ?_
      obtain ⟨d1, _, f1⟩ := stmt_follows first hs f
      exact body_meets rest f1

end

theorem tree_meets (t : Tree) (kind : GraphKind) (name : Option String) :
    Meets (tree t) (.new kind name) t.demands := by
  refine .behind (a := ()) (runs_modify.2 rfl) ?_
  refine (body_meets t.body (follows_started kind name t.strict)).before fun _ => ?_
  exact ⟨(), _, runs_bind.2 ⟨(), _, runs_modify.2 rfl, runs_get_bind.2 (runs_modify.2 rfl)⟩⟩

end Builder

/-! ## Outcomes -/

/-- A draft has one continuation along a walk. -/
theorem Draft.Replays.eq_foldl {d d' : Draft} {w : List Occurrence} (h : d.Replays w d') :
    d' = w.foldl Draft.add d := by
  induction h with
  | nil => rfl
  | cons _ _ ih => exact ih

namespace Tree

/-- What a new builder makes of a text: the model or the error. -/
def outcome (t : Tree) (kind : GraphKind) (name : Option String) : Except BuildError Model :=
  match (Builder.tree t).run (.new kind name) with
  | .ok _ b => .ok b.model
  | .error e _ => .error e

/-- What the walk of a text makes. -/
def draft (t : Tree) (kind : GraphKind) (name : Option String) : Draft :=
  t.walk.foldl Draft.add (.start kind name t.strict)

/-- The outcome is the first fault of the text if there is one, and else the model that
its walk makes. -/
theorem outcome_eq (t : Tree) (kind : GraphKind) (name : Option String) :
    t.outcome kind name =
      match t.fault? with
      | some e => .error e
      | none => .ok (t.draft kind name).model := by
  have h := Builder.tree_meets t kind name
  unfold Builder.Meets at h
  unfold outcome EStateM.run
  change match t.fault? with | none => _ | some e => _ at h
  cases hf : t.fault? with
  | some e =>
      rw [hf] at h
      obtain ⟨b, h⟩ := h
      rw [h]
  | none =>
      rw [hf] at h
      obtain ⟨_, b, h⟩ := h
      obtain ⟨d, hmodel, hd⟩ := Tree.makes h
      rw [show Builder.tree t (.new kind name) = .ok () b from h]
      show Except.ok b.model = .ok (t.draft kind name).model
      rw [← hmodel, hd.replays.eq_foldl]
      rfl

end Tree

end DotLang
