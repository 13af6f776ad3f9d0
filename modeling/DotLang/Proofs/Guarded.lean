import DotLang.Proofs.Intact
import DotLang.Proofs.Traversal
/-!
# The builder with guards

The builder follows the references that it keeps without a look, and leaves a body
without asking whether it ever entered one.  `Guarded` is the same builder with a
guard before every such step.  The guard stops a visit if the state is not intact, or if
what the step is about to use is not there.

A visit may fail between the start and the end of a subgraph, and the next visit
goes on from what it left: bodies that are still open, and a present graph that is not
the root.  So nothing is said of how much is open at the start of a visit.  A state is sound,
which every step keeps, and a step that succeeds closes what it opened
(`Builder.Stays`).  That is enough for no guard ever to stop a visit
(`Builder.visits_unguarded`).
-/

namespace DotLang

variable {α β : Type} {b b' b1 b2 : Builder}

/-! ## Guards -/

instance (m : Model) (n : NodeRef) : Decidable (m.Ordinary n) :=
  decidable_of_iff ((m.node? n).any fun v => v.nested.isNone) (by
    unfold Model.Ordinary
    cases m.node? n <;> simp)

instance (b : Builder) : Decidable b.Intact :=
  decidable_of_iff
    (b.current.index < b.model.graphs.size ∧ (∀ p ∈ b.nodes.flat, b.model.Ordinary p.2) ∧
      (∀ p ∈ b.subgraphs.flat, p.2.index < b.model.graphs.size) ∧
      (∀ ms ∈ b.opened, ∀ n ∈ ms, b.model.Ordinary n) ∧
      ∀ c ∈ b.closed, ∀ n ∈ c.2, b.model.Ordinary n)
    ⟨fun h => ⟨h.1, h.2.1, h.2.2.1, h.2.2.2.1, h.2.2.2.2⟩,
      fun h => ⟨h.current, h.nodes, h.subgraphs, h.opened, h.closed⟩⟩

/-- What a step is about to use. -/
inductive Use
  /-- The graph. -/
  | graph (g : GraphRef)
  /-- The node, which holds no graph. -/
  | node (n : NodeRef)
  /-- The defaults of the innermost body, which are dropped. -/
  | frame
deriving DecidableEq, Repr

/-- What the step is about to use is there. -/
def Use.Safe (b : Builder) : Use → Prop
  | .graph g => g.index < b.model.graphs.size
  | .node n => b.model.Ordinary n
  | .frame => 2 ≤ b.defaults.depth

instance (b : Builder) (u : Use) : Decidable (u.Safe b) := by
  cases u <;> unfold Use.Safe <;> infer_instance

/-- Why a visit with guards ends early. -/
inductive Stop
  /-- The builder fails. -/
  | error (e : BuildError)
  /-- A guard stops it. -/
  | misuse
deriving DecidableEq, Repr

/-- A step of the builder with guards. -/
abbrev Guarded := EStateM Stop Builder

namespace Guarded

/-- The step without a guard. -/
def lift (x : Build α) : Guarded α := fun b =>
  match x b with
  | .ok a b' => .ok a b'
  | .error e b' => .error (.error e) b'

/-- The step with a guard. -/
def guard (uses : List Use) (x : Build α) : Guarded α := fun b =>
  if b.Intact ∧ ∀ u ∈ uses, u.Safe b then lift x b else .error .misuse b

/-! ## Steps with guards -/

/-- Goes on after a check. -/
def check (r : Except AttributeError Unit) : Guarded Unit := guard [] (Builder.check r)

/-- Notes a node as a member. -/
def mention (n : NodeRef) : Guarded Unit := guard [.node n] (Builder.mention n)

/-- The node of that name. -/
def node (name : String) (attrs : AttrList) : Guarded NodeRef := do
  match (← get).nodes.find? name with
  | some n =>
      guard [.node n]
        (modify fun b => { b with model := b.model.modifyNodeAttrs n (·.insertList attrs) })
      mention n
      return n
  | none =>
      let n ← guard [] (Builder.createNode name attrs)
      mention n
      return n

/-- Sets defaults. -/
def setDefaults (element : Element) (attrs : AttrList) : Guarded Unit :=
  guard [] (Builder.setDefaults element attrs)

/-- Adds the edge between two endpoints. -/
def connect (attrs : AttrList) (tail head : Endpoint) : Guarded Unit :=
  guard [.node tail.node, .node head.node] (Builder.connect attrs tail head)

/-- Adds the edges along a chain of operands. -/
def connectChain (attrs : AttrList) : List (List Endpoint) → Guarded Unit
  | tails :: heads :: rest => do
      tails.forM fun tail => heads.forM fun head => connect attrs tail head
      connectChain attrs (heads :: rest)
  | _ => return

/-- The graph that a subgraph opens. -/
def openGraph (name : Option String) : Guarded GraphRef := do
  match name.bind (← get).subgraphs.find? with
  | some g => guard [.graph g] (Builder.openGraph name)
  | none => guard [] (Builder.openGraph name)

/-- Enters the body of a subgraph. -/
def enter (g : GraphRef) : Guarded Unit := guard [.graph g] (Builder.enter g)

/-- Leaves the body of a subgraph. -/
def leave (outer : GraphRef) : Guarded Members := guard [.graph outer, .frame] (Builder.leave outer)

/-- Keeps the members of a subgraph. -/
def keep (g : GraphRef) (members : Members) : Guarded Unit :=
  guard (.graph g :: members.map .node)
    (modify fun b => { b with closed := (g, members) :: b.closed.filter fun c => c.1 ≠ g })

/-- Visits a subgraph. -/
def subgraph (name : Option String) (body : Guarded Unit) : Guarded Members := do
  let g ← openGraph name
  let outer := (← get).current
  enter g
  body
  let members ← leave outer
  members.forM mention
  if name.isSome then
    keep g members
  return members

/-- The endpoints that a subgraph stands for. -/
def endpoints (name : Option String) (members : Members) : Guarded (List Endpoint) :=
  guard (members.map .node) (Builder.endpoints name members)

mutual

/-- Visits a statement. -/
def stmt : Stmt → Guarded Unit
  | .node id attrs => do
      check (Schema.validateList .node attrs)
      let _ ← node id.name.value attrs
  | .edge tail hops attrs => do
      check (Schema.validateList .edge attrs)
      let first ← operand tail
      let rest ← heads hops
      connectChain attrs (first :: rest)
  | .defaults element attrs => do
      check (Schema.validateList element attrs)
      setDefaults element attrs
  | .subgraph name stmts => do
      let _ ← subgraph (name.map Id.value) (body stmts)

/-- Visits an operand. -/
def operand : Operand → Guarded (List Endpoint)
  | .node id => do
      let n ← node id.name.value []
      return [⟨n, id.port⟩]
  | .subgraph name stmts => do
      let members ← subgraph (name.map Id.value) (body stmts)
      endpoints (name.map Id.value) members

/-- Visits the operands behind the first one. -/
def heads : List (EdgeOp × Operand) → Guarded (List (List Endpoint))
  | [] => return []
  | (_, head) :: hops => do
      let first ← operand head
      return first :: (← heads hops)

/-- Visits a body. -/
def body : List Stmt → Guarded Unit
  | [] => return
  | first :: rest => do
      stmt first
      body rest

end

/-- Visits a top-level graph. -/
def tree (t : Tree) : Guarded Unit := do
  guard [] (modify fun b => { b with
    model := { b.model with strict := t.strict }
    nodes := b.nodes.enter
    subgraphs := b.subgraphs.enter })
  body t.body
  guard [] (modify fun b => { b with nodes := b.nodes.drop, subgraphs := b.subgraphs.drop })
  let m := (← get).model
  guard []
    (Builder.report (.built (m.nameOf Model.root) m.nodes.size m.edges.size (m.graphs.size - 1)))

end Guarded

/-! ## What a step leaves -/

namespace Builder

/-- The state is sound, and what was open is open again. -/
structure Stays (b b' : Builder) : Prop where
  sound : b'.Sound
  current : b'.current = b.current
  outer : b'.defaults.outer = b.defaults.outer
  graphs : b.model.graphs.size ≤ b'.model.graphs.size
  ordinary : ∀ {n}, b.model.Ordinary n → b'.model.Ordinary n

variable {n : NodeRef} {g : GraphRef} {name : Option String}

theorem Sound.stays (h : b.Sound) : Stays b b := ⟨h, rfl, rfl, Nat.le_refl _, id⟩

theorem Stays.trans (h : Stays b b1) (h' : Stays b1 b2) : Stays b b2 :=
  ⟨h'.sound, h'.current.trans h.current, h'.outer.trans h.outer,
    Nat.le_trans h.graphs h'.graphs, fun hn => h'.ordinary (h.ordinary hn)⟩

theorem Sound.stays_mentioned (h : b.Sound) (hn : b.model.Ordinary n) :
    Stays b (b.mentioned n) := by
  have hs := h.mentioned hn
  unfold Builder.mentioned at hs ⊢
  cases ho : b.opened with
  | nil => exact h.stays
  | cons ms rest =>
      simp only [ho] at hs
      exact ⟨hs, rfl, rfl, Nat.le_refl _, id⟩

theorem Sound.stays_merged (h : b.Sound) (n : NodeRef) (attrs : AttrList) :
    Stays b (b.merged n attrs) :=
  ⟨h.merged n attrs, rfl, rfl,
    Nat.le_of_eq (Model.graphs_size_of_bare_eq (bare_merged n attrs b)),
    fun hn => hn.of_bare_eq (bare_merged n attrs b)⟩

theorem Sound.stays_defaulted (h : b.Sound) (element : Element) (attrs : AttrList) :
    Stays b (b.defaulted element attrs) :=
  ⟨h.defaulted element attrs, rfl, rfl,
    Nat.le_of_eq (Model.graphs_size_of_bare_eq (bare_defaulted element attrs b)),
    fun hn => hn.of_bare_eq (bare_defaulted element attrs b)⟩

theorem Sound.stays_created (h : b.Sound) (name : String) (attrs : AttrList) :
    Stays b (b.created name attrs) :=
  ⟨h.created name attrs, rfl, rfl, Nat.le_of_eq (Model.graphs_size_pushNode _ _ _ _ _).symm,
    fun hn => hn.pushNode _ _ _ _⟩

theorem Sound.stays_joined (h : b.Sound) {tail head : NodeRef} (ht : b.model.Ordinary tail)
    (hh : b.model.Ordinary head) (attrs : Attributes) : Stays b (b.joined attrs tail head) :=
  ⟨h.joined ht hh attrs, rfl, rfl, Nat.le_of_eq (Model.graphs_size_addEdge _ _ _ _ _).symm, id⟩

theorem Sound.stays_nested (h : b.Sound) (name : Option String) : Stays b (b.nested name) :=
  ⟨h.nested name, rfl, rfl, Nat.le_of_lt (by simp [graphs_size_nested]),
    fun hn => hn.pushNode _ _ _ _⟩

theorem Sound.stays_reported (h : b.Sound) (e : LogEvent) : Stays b (b.reported e) :=
  ⟨h.reported e, rfl, rfl, Nat.le_refl _, id⟩

theorem Sound.stays_kept (h : b.Sound) {ms : Members} (hms : ∀ n ∈ ms, b.model.Ordinary n)
    (name : Option String) (g : GraphRef) : Stays b (b.kept name g ms) := by
  have hs := h.kept hms name g
  unfold Builder.kept at hs ⊢
  cases name with
  | none => exact h.stays
  | some _ => exact ⟨hs, rfl, rfl, Nat.le_refl _, id⟩

/-- The body of a subgraph keeps the frame around it. -/
theorem Stays.leave? (h : Stays (b.entered g) b') : b'.defaults.leave? = some b.defaults := by
  unfold Defaults.leave?
  rw [h.outer]
  rfl

theorem Stays.frame_safe (h : Stays (b.entered g) b') : Use.frame.Safe b' := by
  have houter : b'.defaults.outer = b.defaults.current :: b.defaults.outer := h.outer
  simp [Use.Safe, Defaults.depth, houter]

/-- The state behind a subgraph is sound, with what was open before it. -/
theorem Stays.left (h : Stays (b.entered g) b') (hb : b.Sound) :
    Stays b (b'.left b.current b.defaults) :=
  ⟨h.sound.left (Nat.lt_of_lt_of_le hb.current h.graphs) b.defaults, rfl, rfl, h.graphs,
    h.ordinary⟩

end Builder

/-! ## Steps that agree -/

open Builder

/-- From the state, the step with guards does what the step without guards does.  If they
succeed then the condition holds, and if they fail the state is sound. -/
structure Agrees (x' : Guarded α) (x : Build α) (b : Builder) (post : α → Builder → Prop) :
    Prop where
  ok : ∀ {a b'}, x b = .ok a b' → x' b = .ok a b' ∧ post a b'
  error : ∀ {e b'}, x b = .error e b' →
    x' b = .error (.error e) b' ∧ b'.Sound ∧ e ≠ .outermostScope

section Agrees
variable {x : Build α} {x' : Guarded α} {f : α → Build β} {f' : α → Guarded β} {a : α}
  {post post' : α → Builder → Prop} {post2 : β → Builder → Prop} {uses : List Use}

theorem Agrees.imp (h : Agrees x' x b post) (hp : ∀ {a b'}, post a b' → post' a b') :
    Agrees x' x b post' :=
  ⟨fun hx => (h.ok hx).imp id hp, h.error⟩

theorem Agrees.bind (h : Agrees x' x b post)
    (hf : ∀ {a b'}, post a b' → Agrees (f' a) (f a) b' post2) :
    Agrees (x' >>= f') (x >>= f) b post2 := by
  have hbind : ∀ {r}, (x >>= f) b = r → EStateM.bind x f b = r := id
  have hbind' : (x' >>= f') b = EStateM.bind x' f' b := rfl
  rw [EStateM.bind] at hbind hbind'
  cases hx : x b with
  | ok a b1 =>
      obtain ⟨hx', hp⟩ := h.ok hx
      rw [hx'] at hbind'
      rw [hx] at hbind
      refine ⟨fun hr => ?_, fun hr => ?_⟩
      · rw [hbind']
        exact (hf hp).ok (hbind hr)
      · rw [hbind']
        exact (hf hp).error (hbind hr)
  | error e b1 =>
      obtain ⟨hx', hs⟩ := h.error hx
      rw [hx'] at hbind'
      rw [hx] at hbind
      refine ⟨fun hr => ?_, fun hr => ?_⟩
      · cases hbind hr
      · rw [hbind']
        cases hbind hr
        exact ⟨rfl, hs⟩

theorem agrees_pure (hp : post a b) : Agrees (pure a) (pure a) b post := by
  refine ⟨fun h => ?_, fun h => ?_⟩
  · cases h
    exact ⟨rfl, hp⟩
  · cases h

theorem agrees_get_bind {f' : Builder → Guarded β} {f : Builder → Build β}
    (h : Agrees (f' b) (f b) b post2) : Agrees (get >>= f') (get >>= f) b post2 :=
  ⟨fun hx => h.ok hx, fun hx => h.error hx⟩

/-- A guard does not stop a step in a sound state, if what it uses is there. -/
theorem agrees_guard (hb : b.Sound) (hu : ∀ u ∈ uses, u.Safe b)
    (hok : ∀ {a b'}, x b = .ok a b' → post a b')
    (herror : ∀ {e b'}, x b = .error e b' → b' = b ∧ e ≠ .outermostScope) :
    Agrees (Guarded.guard uses x) x b post := by
  have hguard : Guarded.guard uses x b = Guarded.lift x b := if_pos ⟨hb.toIntact, hu⟩
  unfold Guarded.lift at hguard
  refine ⟨fun hx => ?_, fun hx => ?_⟩
  · rw [hx] at hguard
    exact ⟨hguard, hok hx⟩
  · rw [hx] at hguard
    obtain ⟨rfl, hne⟩ := herror hx
    exact ⟨hguard, hb, hne⟩

theorem agrees_guard_of_runs (hb : b.Sound) (hu : ∀ u ∈ uses, u.Safe b) (h : Runs x b a b')
    (hp : post a b') : Agrees (Guarded.guard uses x) x b post := by
  refine agrees_guard hb hu (fun hx => ?_) fun hx => absurd ⟨_, hx⟩ h.not_fails
  obtain ⟨rfl, rfl⟩ := h.unique hx
  exact hp

/-- A step that changes the state and gives nothing. -/
theorem agrees_change {x : Build Unit} (hb : b.Sound) (hu : ∀ u ∈ uses, u.Safe b)
    (h : Runs x b () b') (hs : Stays b b') :
    Agrees (Guarded.guard uses x) x b fun _ b' => Stays b b' :=
  agrees_guard_of_runs hb hu h hs

/-- A step that changes a sound state into another. -/
theorem agrees_modify {f : Builder → Builder} (hb : b.Sound) (hs : (f b).Sound) :
    Agrees (Guarded.guard [] (modify f)) (modify f) b fun _ b' => b'.Sound := by
  refine agrees_guard hb (by simp) (fun hx => ?_) fun hx => ?_
  · rw [runs_modify.1 hx]
    exact hs
  · cases hx

/-- A loop whose steps all keep the state sound. -/
theorem agrees_forM {γ : Type} {l : List γ} {f' : γ → Guarded Unit} {f : γ → Build Unit}
    (hb : b.Sound)
    (h : ∀ c ∈ l, ∀ {b1}, Stays b b1 → Agrees (f' c) (f c) b1 fun _ b2 => Stays b1 b2) :
    Agrees (l.forM f') (l.forM f) b fun _ b' => Stays b b' := by
  induction l generalizing b with
  | nil => exact agrees_pure hb.stays
  | cons c l ih =>
      rw [List.forM, List.forM]
      refine (h c List.mem_cons_self hb.stays).bind fun hs => ?_
      refine (ih hs.sound fun d hd _ hs' => h d (List.mem_cons_of_mem _ hd) (hs.trans hs')).imp ?_
      exact hs.trans

end Agrees

/-! ## The steps of the builder agree -/

section Steps
variable {n : NodeRef} {g : GraphRef} {name : Option String} {attrs : AttrList}

theorem check_agrees (hb : b.Sound) (r : Except AttributeError Unit) :
    Agrees (Guarded.check r) (check r) b fun _ b' => b' = b := by
  refine agrees_guard hb (fun _ hu => absurd hu List.not_mem_nil) (fun hx => ?_) fun hx => ?_
  · exact (runs_check.1 hx).2
  · cases r with
    | ok u => cases hx
    | error e =>
        cases hx
        exact ⟨rfl, BuildError.noConfusion⟩

theorem mention_agrees (hb : b.Sound) (hn : b.model.Ordinary n) :
    Agrees (Guarded.mention n) (mention n) b fun _ b' => Stays b b' :=
  agrees_change hb (by simpa [Use.Safe] using hn) (runs_mention.2 rfl) (hb.stays_mentioned hn)

theorem node_agrees (hb : b.Sound) (name : String) (attrs : AttrList) :
    Agrees (Guarded.node name attrs) (node name attrs) b
      fun n b' => Stays b b' ∧ b'.model.Ordinary n := by
  unfold Guarded.node node
  refine agrees_get_bind ?_
  cases hn : b.nodes.find? name with
  | some n =>
      have ho := hb.ordinary hn
      have hs := hb.stays_merged n attrs
      refine (agrees_change hb (by simpa [Use.Safe] using ho) (runs_modify.2 rfl) hs).bind
        fun hs => ?_
      refine (mention_agrees hs.sound (hs.ordinary ho)).bind fun hs' => ?_
      exact agrees_pure ⟨hs.trans hs', hs'.ordinary (hs.ordinary ho)⟩
  | none =>
      have ho := b.model.ordinary_addNode b.current name (b.defaults.resolve .node attrs)
      have hcreate : Agrees (Guarded.guard [] (createNode name attrs)) (createNode name attrs) b
          fun n b' => Stays b b' ∧ b'.model.Ordinary n :=
        agrees_guard_of_runs hb (by simp) rfl ⟨hb.stays_created name attrs, ho⟩
      refine hcreate.bind fun h => ?_
      refine (mention_agrees h.1.sound h.2).bind fun hs' => ?_
      exact agrees_pure ⟨h.1.trans hs', hs'.ordinary h.2⟩

theorem setDefaults_agrees (hb : b.Sound) (element : Element) (attrs : AttrList) :
    Agrees (Guarded.setDefaults element attrs) (setDefaults element attrs) b
      fun _ b' => Stays b b' :=
  agrees_change hb (by simp) (runs_setDefaults.2 rfl) (hb.stays_defaulted element attrs)

/-- A port is checked in the state that its edge is added to. -/
theorem withPort_error {key : String} {port : Option String} {a : Attributes} {e : BuildError}
    (h : withPort key port a b = .error e b') : b' = b ∧ e ≠ .outermostScope := by
  cases port with
  | none => cases h
  | some p =>
      unfold withPort at h
      change EStateM.bind (check (Schema.validate .edge key (Id.ofText p))) _ b = _ at h
      unfold EStateM.bind at h
      cases hv : Schema.validate .edge key (Id.ofText p) with
      | ok u =>
          rw [hv] at h
          cases h
      | error e' =>
          rw [hv] at h
          cases h
          exact ⟨rfl, BuildError.noConfusion⟩

theorem connect_error {tail head : Endpoint} {e : BuildError}
    (h : connect attrs tail head b = .error e b') : b' = b ∧ e ≠ .outermostScope := by
  unfold connect at h
  change EStateM.bind (withPort "tailport" tail.port (b.defaults.resolve .edge attrs)) _ b = _ at h
  unfold EStateM.bind at h
  cases ht : withPort "tailport" tail.port (b.defaults.resolve .edge attrs) b with
  | error e1 b1 =>
      rw [ht] at h
      cases h
      exact withPort_error ht
  | ok a b1 =>
      obtain ⟨_, rfl⟩ := runs_withPort.1 ht
      rw [ht] at h
      change EStateM.bind (withPort "headport" head.port a) _ b1 = _ at h
      unfold EStateM.bind at h
      cases hh : withPort "headport" head.port a b1 with
      | error e2 b2 =>
          rw [hh] at h
          cases h
          exact withPort_error hh
      | ok a' b2 =>
          rw [hh] at h
          cases h

theorem connect_agrees (hb : b.Sound) (attrs : AttrList) {tail head : Endpoint}
    (ht : b.model.Ordinary tail.node) (hh : b.model.Ordinary head.node) :
    Agrees (Guarded.connect attrs tail head) (connect attrs tail head) b
      fun _ b' => Stays b b' := by
  refine agrees_guard hb (by simpa [Use.Safe] using ⟨ht, hh⟩) (fun hx => ?_) connect_error
  obtain ⟨_, resolved, _, _, rfl⟩ := runs_connect.1 hx
  exact hb.stays_joined ht hh resolved

theorem connectChain_agrees (hb : b.Sound) (attrs : AttrList) {ops : List (List Endpoint)}
    (hops : ∀ es ∈ ops, ∀ e ∈ es, b.model.Ordinary e.node) :
    Agrees (Guarded.connectChain attrs ops) (connectChain attrs ops) b
      fun _ b' => Stays b b' := by
  fun_induction connectChain attrs ops generalizing b with
  | case1 tails heads rest ih =>
      unfold Guarded.connectChain
      rw [List.forall_mem_cons] at hops
      obtain ⟨htails, hops⟩ := hops
      have hheads := (List.forall_mem_cons.1 hops).1
      have hjoin : Agrees (tails.forM fun tail => heads.forM fun head =>
          Guarded.connect attrs tail head) (tails.forM fun tail => heads.forM fun head =>
            connect attrs tail head) b fun _ b' => Stays b b' := by
        refine agrees_forM hb fun tail ht {b1} hs1 => agrees_forM hs1.sound fun head hh b2 hs2 => ?_
        have hs := hs1.trans hs2
        exact connect_agrees hs.sound attrs (hs.ordinary (htails tail ht))
          (hs.ordinary (hheads head hh))
      refine hjoin.bind fun hs => ?_
      exact (ih hs.sound fun es hes e he => hs.ordinary (hops es hes e he)).imp hs.trans
  | case2 ops hne =>
      unfold Guarded.connectChain
      split
      · exact absurd rfl (hne _ _ _)
      · exact agrees_pure hb.stays

theorem openGraph_agrees (hb : b.Sound) (name : Option String) :
    Agrees (Guarded.openGraph name) (openGraph name) b
      fun g b' => Stays b b' ∧ g.index < b'.model.graphs.size := by
  have hsame : openGraph name = get >>= fun _ => openGraph name := rfl
  rw [hsame]
  unfold Guarded.openGraph
  refine agrees_get_bind ?_
  cases hg : name.bind b.subgraphs.find? with
  | some g =>
      obtain ⟨n, rfl, hn⟩ := Option.bind_eq_some_iff.1 hg
      have hlt := hb.graph_lt hn
      exact agrees_guard_of_runs hb (by simpa [Use.Safe] using hlt)
        (runs_openGraph.2 (Or.inl ⟨hg, rfl⟩)) ⟨hb.stays_reported _, hlt⟩
  | none =>
      have hs := hb.stays_nested name
      refine agrees_guard_of_runs hb (by simp) (runs_openGraph.2 (Or.inr ⟨hg, rfl, rfl⟩))
        ⟨hs.trans (hs.sound.stays_reported _), ?_⟩
      show _ < (b.nested name).model.graphs.size
      simp [graphs_size_nested]

theorem enter_agrees (hb : b.Sound) (hg : g.index < b.model.graphs.size) :
    Agrees (Guarded.enter g) (enter g) b fun _ b' => b' = b.entered g := by
  refine agrees_guard hb (by simpa [Use.Safe] using hg) (fun hx => runs_enter.1 hx) fun hx => ?_
  cases hx

theorem leave_agrees (hb : b.Sound) (h : Stays (b.entered g) b1) :
    Agrees (Guarded.leave b.current) (leave b.current) b1
      fun ms b' => Stays b b' ∧ ∀ n ∈ ms, b'.model.Ordinary n := by
  have hcurrent : b.current.index < b1.model.graphs.size := Nat.lt_of_lt_of_le hb.current h.graphs
  refine agrees_guard_of_runs h.sound ?_ (runs_leave.2 ⟨b.defaults, h.leave?, rfl, rfl⟩)
    ⟨h.left hb, h.sound.innermost⟩
  intro u hu
  simp only [List.mem_cons, List.not_mem_nil, or_false] at hu
  rcases hu with rfl | rfl
  · exact hcurrent
  · exact h.frame_safe

theorem keep_agrees (hb : b.Sound) (hg : g.index < b.model.graphs.size) {ms : Members}
    (hms : ∀ n ∈ ms, b.model.Ordinary n) (n : String) :
    Agrees (Guarded.keep g ms)
      (modify fun b => { b with closed := (g, ms) :: b.closed.filter fun c => c.1 ≠ g }) b
      fun _ b' => Stays b b' := by
  refine agrees_change hb ?_ (runs_modify.2 rfl) (hb.stays_kept hms (some n) g)
  simpa [Use.Safe] using ⟨hg, hms⟩

theorem subgraph_agrees (hb : b.Sound) (name : Option String) {body' : Guarded Unit}
    {body : Build Unit}
    (hbody : ∀ {b}, b.Sound → Agrees body' body b fun _ b' => Stays b b') :
    Agrees (Guarded.subgraph name body') (subgraph name body) b
      fun ms b' => Stays b b' ∧ ∀ n ∈ ms, b'.model.Ordinary n := by
  unfold Guarded.subgraph subgraph
  refine (openGraph_agrees hb name).bind fun {g b1} h => ?_
  obtain ⟨hs1, hg⟩ := h
  refine agrees_get_bind ?_
  refine (enter_agrees hs1.sound hg).bind fun h => ?_
  subst h
  refine (hbody (hs1.sound.entered hg)).bind fun hs2 => ?_
  refine (leave_agrees hs1.sound hs2).bind fun {ms b3} h => ?_
  obtain ⟨hs3, hms⟩ := h
  have hmention : Agrees (ms.forM Guarded.mention) (ms.forM mention) b3 fun _ b4 => Stays b3 b4 :=
    agrees_forM hs3.sound fun n hn _ hs => mention_agrees hs.sound (hs.ordinary (hms n hn))
  refine hmention.bind fun {_ b4} hs4 => ?_
  have hs := hs1.trans (hs3.trans hs4)
  have hms4 : ∀ n ∈ ms, b4.model.Ordinary n := fun n hn => hs4.ordinary (hms n hn)
  cases name with
  | none => exact agrees_pure ⟨hs, hms4⟩
  | some n =>
      have hg4 := Nat.lt_of_lt_of_le hg (hs3.trans hs4).graphs
      refine (keep_agrees hs.sound hg4 hms4 n).bind fun hs5 => ?_
      exact agrees_pure ⟨hs.trans hs5, fun k hk => hs5.ordinary (hms4 k hk)⟩

theorem endpoints_agrees (hb : b.Sound) (name : Option String) {ms : Members}
    (hms : ∀ n ∈ ms, b.model.Ordinary n) :
    Agrees (Guarded.endpoints name ms) (endpoints name ms) b
      fun es b' => Stays b b' ∧ ∀ e ∈ es, b'.model.Ordinary e.node := by
  refine agrees_guard hb (by simpa [Use.Safe] using hms) (fun hx => ?_) fun hx => ?_
  · obtain ⟨_, rfl, rfl⟩ := runs_endpoints.1 hx
    exact ⟨hb.stays, by simpa using hms⟩
  · cases ms with
    | nil =>
        cases hx
        exact ⟨rfl, BuildError.noConfusion⟩
    | cons n ms => cases hx

end Steps

mutual

theorem stmt_agrees {b : Builder} : (s : Stmt) → b.Sound →
    Agrees (Guarded.stmt s) (stmt s) b fun _ b' => Stays b b'
  | .node id attrs, hb => by
      unfold Guarded.stmt stmt
      refine (check_agrees hb _).bind fun h => ?_
      subst h
      exact (node_agrees hb id.name.value attrs).bind fun h => agrees_pure h.1
  | .edge tail hops attrs, hb => by
      unfold Guarded.stmt stmt
      refine (check_agrees hb _).bind fun h => ?_
      subst h
      refine (operand_agrees tail hb).bind fun {first b1} h1 => ?_
      refine (heads_agrees hops h1.1.sound).bind fun {rest b2} h2 => ?_
      have hs := h1.1.trans h2.1
      refine (connectChain_agrees hs.sound attrs fun es hes e he => ?_).imp hs.trans
      rcases List.mem_cons.1 hes with rfl | hes
      · exact h2.1.ordinary (h1.2 e he)
      · exact h2.2 es hes e he
  | .defaults element attrs, hb => by
      unfold Guarded.stmt stmt
      refine (check_agrees hb _).bind fun h => ?_
      subst h
      exact setDefaults_agrees hb element attrs
  | .subgraph name stmts, hb => by
      unfold Guarded.stmt stmt
      exact (subgraph_agrees hb _ (body_agrees stmts)).bind fun h => agrees_pure h.1

theorem operand_agrees {b : Builder} : (o : Operand) → b.Sound →
    Agrees (Guarded.operand o) (operand o) b
      fun es b' => Stays b b' ∧ ∀ e ∈ es, b'.model.Ordinary e.node
  | .node id, hb => by
      unfold Guarded.operand operand
      refine (node_agrees hb id.name.value []).bind fun h => agrees_pure ⟨h.1, ?_⟩
      simpa using h.2
  | .subgraph name stmts, hb => by
      unfold Guarded.operand operand
      refine (subgraph_agrees hb _ (body_agrees stmts)).bind fun h => ?_
      exact (endpoints_agrees h.1.sound _ h.2).imp fun h' => ⟨h.1.trans h'.1, h'.2⟩

theorem heads_agrees {b : Builder} : (hops : List (EdgeOp × Operand)) → b.Sound →
    Agrees (Guarded.heads hops) (heads hops) b
      fun ops b' => Stays b b' ∧ ∀ es ∈ ops, ∀ e ∈ es, b'.model.Ordinary e.node
  | [], hb => by
      unfold Guarded.heads heads
      exact agrees_pure ⟨hb.stays, fun es hes => absurd hes List.not_mem_nil⟩
  | (_, head) :: hops, hb => by
      rw [Guarded.heads, heads]
      refine (operand_agrees head hb).bind fun {first b1} h1 => ?_
      refine (heads_agrees hops h1.1.sound).bind fun {rest b2} h2 => ?_
      refine agrees_pure ⟨h1.1.trans h2.1, List.forall_mem_cons.2 ⟨fun e he => ?_, h2.2⟩⟩
      exact h2.1.ordinary (h1.2 e he)

theorem body_agrees {b : Builder} : (stmts : List Stmt) → b.Sound →
    Agrees (Guarded.body stmts) (body stmts) b fun _ b' => Stays b b'
  | [], hb => by
      unfold Guarded.body body
      exact agrees_pure hb.stays
  | first :: rest, hb => by
      rw [Guarded.body, body]
      refine (stmt_agrees first hb).bind fun hs => ?_
      exact (body_agrees rest hs.sound).imp hs.trans

end

theorem tree_agrees (hb : b.Sound) (t : Tree) :
    Agrees (Guarded.tree t) (tree t) b fun _ b' => b'.Sound := by
  unfold Guarded.tree tree
  refine (agrees_modify hb (hb.started t.strict)).bind fun hs => ?_
  refine (body_agrees t.body hs).bind fun hs => ?_
  refine (agrees_modify hs.sound hs.sound.dropped).bind fun hs => ?_
  exact agrees_get_bind (agrees_modify hs (hs.reported _))

/-! ## Every visit -/

/-- The state in which a visit leaves the builder, whether it succeeds or fails. -/
def Builder.after (b : Builder) (t : Tree) : Builder :=
  match tree t b with
  | .ok _ b' => b'
  | .error _ b' => b'

/-- Edges join nodes that hold no graph, and every node and every edge is listed once, by
the graph that it names. -/
structure Model.Filed (m : Model) : Prop where
  ends : ∀ {e v}, m.edge? e = some v → m.Ordinary v.source ∧ m.Ordinary v.target
  node_graph : ∀ {n v}, m.node? n = some v → v.graph.index < m.graphs.size
  node_count : ∀ {n v g s}, m.node? n = some v → m.graph? g = some s →
    s.nodes.toList.count n = if v.graph = g then 1 else 0
  edge_graph : ∀ {e v}, m.edge? e = some v → v.graph.index < m.graphs.size
  edge_count : ∀ {e v g s}, m.edge? e = some v → m.graph? g = some s →
    s.edges.toList.count e = if v.graph = g then 1 else 0

theorem Builder.Sound.filed (hb : b.Sound) : b.model.Filed where
  ends := hb.ends
  node_graph := hb.model.node_graph
  node_count := fun {n v g s} hv hs => by
    have hmem : n ∈ s.nodes.toList ↔ v.graph = g := by simp [hb.model.mem_nodes hs, hv]
    simp [(hb.model.nodup_nodes hs).count, hmem]
  edge_graph := hb.model.edge_graph
  edge_count := fun {e v g s} hv hs => by
    have hmem : e ∈ s.edges.toList ↔ v.graph = g := by simp [hb.model.mem_edges hs, hv]
    simp [(hb.model.nodup_edges hs).count, hmem]

theorem Builder.Sound.after (hb : b.Sound) (t : Tree) : (b.after t).Sound := by
  have h := tree_agrees hb t
  unfold Builder.after
  cases hx : tree t b with
  | ok a b' => exact (h.ok hx).2
  | error e b' => exact (h.error hx).2.1

theorem Builder.Sound.afterAll (hb : b.Sound) (ts : List Tree) :
    (ts.foldl Builder.after b).Sound := by
  induction ts generalizing b with
  | nil => exact hb
  | cons t ts ih => exact ih (hb.after t)

/-- However many visits there were, and whether they succeeded or failed, no guard stops the
next one.  It leaves the outermost body open, what the builder refers to is there, and
every edge and every node has its place in the model. -/
theorem Builder.visits_unguarded (kind : GraphKind) (name : Option String) (ts : List Tree)
    (t : Tree) :
    let b := ts.foldl Builder.after (.new kind name)
    Guarded.tree t b = Guarded.lift (tree t) b ∧ (∀ b', tree t b ≠ .error .outermostScope b') ∧
      (b.after t).Intact ∧ (b.after t).model.Filed := by
  intro b
  have hb : b.Sound := (sound_new kind name).afterAll ts
  have hagrees := tree_agrees hb t
  refine ⟨?_, fun b' hx => ?_, (hb.after t).toIntact, (hb.after t).filed⟩
  · unfold Guarded.lift
    cases hx : tree t b with
    | ok u b' => exact (hagrees.ok hx).1
    | error e b' => exact (hagrees.error hx).1
  · exact (hagrees.error hx).2.2 rfl

/-- The first visit fails in a subgraph, which stays open. -/
example :
    let t : Tree := ⟨false, .digraph, none, [.subgraph (some (.ofText "s"))
      [.node ⟨.ofText "a", none⟩ [], .node ⟨.ofText "b", none⟩ [("width", .ofText "x")]]]⟩
    let b := [t].foldl Builder.after (.new .digraph none)
    b.current = ⟨1⟩ ∧ b.defaults.depth = 2 ∧ b.opened = [[⟨1⟩]] := by
  decide +kernel

example : ∃ b, Guarded.mention ⟨0⟩ (.new .digraph none) = .error .misuse b := ⟨_, rfl⟩

end DotLang
