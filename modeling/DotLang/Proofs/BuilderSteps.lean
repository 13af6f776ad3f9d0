import DotLang.Builder
import DotLang.Proofs.Runs
/-!
# Single steps of the builder

Most steps of the builder cannot fail, and change the state by a function that
is given here a name.  The others fail only at a check, or when the outermost
body is left.  The lemmas say of each step from which states it runs, what it
gives and in which state it ends.
-/

namespace DotLang

/-- A list of attributes is checked entry by entry. -/
theorem Schema.validateList_eq_ok {element : Element} {l : AttrList} :
    Schema.validateList element l = .ok () ↔
      ∀ e ∈ l, Schema.validate element e.1 e.2 = .ok () := by
  induction l with
  | nil => exact ⟨fun _ e he => absurd he List.not_mem_nil, fun _ => rfl⟩
  | cons e l ih =>
      have hstep : Schema.validateList element (e :: l) =
          (Schema.validate element e.1 e.2 >>= fun _ => Schema.validateList element l) := rfl
      rw [hstep]
      cases hv : Schema.validate element e.1 e.2 with
      | error err =>
          constructor
          · intro h
            cases h
          · intro h
            rw [h e List.mem_cons_self] at hv
            cases hv
      | ok u =>
          constructor
          · intro h e' he'
            rcases List.mem_cons.1 he' with he' | he'
            · rw [he', hv]
            · exact ih.1 h e' he'
          · intro h
            exact ih.2 fun e' he' => h e' (List.mem_cons_of_mem _ he')

namespace Builder

/-! ## Changes of the state -/

/-- The state with the node noted in the innermost open subgraph. -/
def mentioned (n : NodeRef) (b : Builder) : Builder :=
  match b.opened with
  | [] => b
  | ms :: rest => { b with opened := ms.add n :: rest }

/-- The state with further attributes of a node. -/
def merged (n : NodeRef) (attrs : AttrList) (b : Builder) : Builder :=
  { b with model := b.model.modifyNodeAttrs n (·.insertList attrs) }

/-- The state with a new node in the present body. -/
def created (name : String) (attrs : AttrList) (b : Builder) : Builder :=
  { b with
    model := (b.model.addNode b.current name (b.defaults.resolve .node attrs)).2
    nodes := b.nodes.insert name ⟨b.model.nodes.size⟩ }

/-- The state with further defaults. -/
def defaulted (element : Element) (attrs : AttrList) (b : Builder) : Builder :=
  { b with
    defaults := b.defaults.set element attrs
    model := if element = .graph then b.model.modifyGraphAttrs b.current (·.insertList attrs)
      else b.model }

@[simp] theorem model_defaulted_graph (attrs : AttrList) (b : Builder) :
    (b.defaulted .graph attrs).model =
      b.model.modifyGraphAttrs b.current (·.insertList attrs) := rfl

/-- The state with a new edge in the present body. -/
def joined (attrs : Attributes) (tail head : NodeRef) (b : Builder) : Builder :=
  { b with model := (b.model.addEdge b.current tail head attrs).2 }

/-- The name of the node that holds a new subgraph. -/
def holderName (name : Option String) (b : Builder) : String :=
  name.getD ("%" ++ toString (b.anonymous + 1))

/-- The state with a new subgraph in the present body. -/
def nested (name : Option String) (b : Builder) : Builder :=
  { b with
    anonymous := if name.isNone then b.anonymous + 1 else b.anonymous
    model := (b.model.addSubgraph b.current (holderName name b) name b.defaults.current.graph).2.2
    subgraphs := match name with
      | none => b.subgraphs
      | some n => b.subgraphs.insert n ⟨b.model.graphs.size⟩ }

/-- The state with one more record. -/
def reported (e : LogEvent) (b : Builder) : Builder := { b with log := b.log ++ [e] }

/-- The state in the body of a subgraph. -/
def entered (g : GraphRef) (b : Builder) : Builder :=
  { b with
    current := g
    defaults := b.defaults.enter
    nodes := b.nodes.enter
    subgraphs := b.subgraphs.enter
    opened := (b.closed.lookup g).getD [] :: b.opened
    closed := b.closed.filter fun c => c.1 ≠ g }

/-- The state behind the body of a subgraph, with the defaults around it. -/
def left (outer : GraphRef) (defaults : Defaults) (b : Builder) : Builder :=
  { b with
    current := outer
    defaults := defaults
    nodes := b.nodes.hoist
    subgraphs := b.subgraphs.hoist
    opened := b.opened.tail }

/-- The state with the members of a subgraph kept for when it is opened again. -/
def kept (name : Option String) (g : GraphRef) (members : Members) (b : Builder) : Builder :=
  if name.isSome then { b with closed := (g, members) :: b.closed.filter fun c => c.1 ≠ g }
  else b

variable {b b' : Builder} {u : Unit}

/-! ## Nodes -/

theorem runs_check {r : Except AttributeError Unit} :
    Runs (check r) b u b' ↔ r = .ok () ∧ b' = b := by
  cases r with
  | ok v =>
      constructor
      · intro h
        exact ⟨rfl, (runs_pure.1 h).2⟩
      · rintro ⟨_, rfl⟩
        exact runs_pure.2 ⟨rfl, rfl⟩
  | error e =>
      constructor
      · intro h
        exact absurd h not_runs_throw
      · rintro ⟨h, _⟩
        cases h

theorem runs_mention {n : NodeRef} : Runs (mention n) b u b' ↔ b' = b.mentioned n :=
  runs_modify

theorem runs_mention_all {ms : Members} :
    Runs (ms.forM mention) b u b' ↔ b' = ms.foldl (fun b n => b.mentioned n) b := by
  induction ms generalizing b with
  | nil =>
      rw [List.forM, runs_pure]
      exact ⟨fun h => h.2, fun h => ⟨rfl, h⟩⟩
  | cons n ms ih =>
      rw [List.forM, runs_bind]
      constructor
      · rintro ⟨_, b1, hm, h⟩
        rw [runs_mention] at hm
        subst hm
        exact ih.1 h
      · intro h
        exact ⟨(), _, runs_mention.2 rfl, ih.2 h⟩

theorem runs_node {name : String} {attrs : AttrList} {n : NodeRef} :
    Runs (node name attrs) b n b' ↔
      (b.nodes.find? name = some n ∧ b' = (b.merged n attrs).mentioned n) ∨
        (b.nodes.find? name = none ∧ n = ⟨b.model.nodes.size⟩ ∧
          b' = (b.created name attrs).mentioned n) := by
  unfold node
  rw [runs_get_bind]
  cases hk : b.nodes.find? name with
  | some k =>
      constructor
      · intro h
        obtain ⟨_, b1, hm, h⟩ := runs_bind.1 h
        rw [runs_modify] at hm
        obtain ⟨_, b2, hn, h⟩ := runs_bind.1 h
        rw [runs_mention] at hn
        obtain ⟨rfl, rfl⟩ := runs_pure.1 h
        subst hm
        exact Or.inl ⟨rfl, hn⟩
      · rintro (⟨hn, rfl⟩ | ⟨hn, _⟩)
        · obtain rfl := Option.some.inj hn
          refine runs_bind.2 ⟨(), _, runs_modify.2 rfl, ?_⟩
          exact runs_bind.2 ⟨(), _, runs_mention.2 rfl, runs_pure.2 ⟨rfl, rfl⟩⟩
        · cases hn
  | none =>
      constructor
      · intro h
        obtain ⟨k, b1, hc, h⟩ := runs_bind.1 h
        obtain ⟨rfl, rfl⟩ := runs_modifyGet.1 hc
        obtain ⟨_, b2, hn, h⟩ := runs_bind.1 h
        rw [runs_mention] at hn
        obtain ⟨rfl, rfl⟩ := runs_pure.1 h
        exact Or.inr ⟨rfl, rfl, hn⟩
      · rintro (⟨hn, _⟩ | ⟨_, rfl, rfl⟩)
        · cases hn
        · refine runs_bind.2 ⟨_, _, runs_modifyGet.2 ⟨rfl, rfl⟩, ?_⟩
          exact runs_bind.2 ⟨(), _, runs_mention.2 rfl, runs_pure.2 ⟨rfl, rfl⟩⟩

theorem runs_setDefaults {element : Element} {attrs : AttrList} :
    Runs (setDefaults element attrs) b u b' ↔ b' = b.defaulted element attrs := by
  unfold setDefaults
  rw [runs_bind]
  by_cases he : element = .graph
  · subst he
    constructor
    · rintro ⟨_, b1, hm, h⟩
      rw [runs_modify] at hm
      subst hm
      exact runs_modify.1 h
    · intro h
      exact ⟨(), _, runs_modify.2 rfl, runs_modify.2 h⟩
  · rw [if_neg he]
    unfold defaulted
    rw [if_neg he]
    constructor
    · rintro ⟨_, b1, hm, h⟩
      rw [runs_modify] at hm
      subst hm
      exact (runs_pure.1 h).2
    · rintro rfl
      exact ⟨(), _, runs_modify.2 rfl, runs_pure.2 ⟨rfl, rfl⟩⟩

/-! ## Edges -/

/-- The attributes with a port under its key, if there is one and it is valid. -/
inductive Ported (key : String) : Option String → Attributes → Attributes → Prop
  | none {attrs : Attributes} : Ported key none attrs attrs
  | some {attrs : Attributes} {p : String}
      (valid : Schema.validate .edge key (Id.ofText p) = .ok ()) :
      Ported key (some p) attrs (attrs.insert key (Id.ofText p))

theorem runs_withPort {key : String} {port : Option String} {attrs resolved : Attributes} :
    Runs (withPort key port attrs) b resolved b' ↔ Ported key port attrs resolved ∧ b' = b := by
  unfold withPort
  cases port with
  | none =>
      rw [runs_pure]
      constructor
      · rintro ⟨rfl, rfl⟩
        exact ⟨.none, rfl⟩
      · rintro ⟨h, rfl⟩
        cases h
        exact ⟨rfl, rfl⟩
  | some p =>
      rw [runs_bind]
      constructor
      · rintro ⟨_, b1, hc, h⟩
        obtain ⟨hv, rfl⟩ := runs_check.1 hc
        obtain ⟨rfl, rfl⟩ := runs_pure.1 h
        exact ⟨.some hv, rfl⟩
      · rintro ⟨h, rfl⟩
        cases h with
        | some hv => exact ⟨(), _, runs_check.2 ⟨hv, rfl⟩, runs_pure.2 ⟨rfl, rfl⟩⟩

theorem runs_connect {attrs : AttrList} {tail head : Endpoint} :
    Runs (connect attrs tail head) b u b' ↔
      ∃ r resolved, Ported "tailport" tail.port (b.defaults.resolve .edge attrs) r ∧
        Ported "headport" head.port r resolved ∧ b' = b.joined resolved tail.node head.node := by
  unfold connect
  rw [runs_get_bind, runs_bind]
  constructor
  · rintro ⟨r, b1, ht, h⟩
    obtain ⟨htail, rfl⟩ := runs_withPort.1 ht
    obtain ⟨resolved, b2, hh, hm⟩ := runs_bind.1 h
    obtain ⟨hhead, rfl⟩ := runs_withPort.1 hh
    exact ⟨r, resolved, htail, hhead, runs_modify.1 hm⟩
  · rintro ⟨r, resolved, ht, hh, rfl⟩
    refine ⟨r, b, runs_withPort.2 ⟨ht, rfl⟩, ?_⟩
    exact runs_bind.2 ⟨resolved, b, runs_withPort.2 ⟨hh, rfl⟩, runs_modify.2 rfl⟩

/-- The state is reached by edges between some of the endpoints. -/
inductive Connected (attrs : AttrList) (es : List Endpoint) : Builder → Builder → Prop
  | refl (b : Builder) : Connected attrs es b b
  | step {b b1 b' : Builder} {tail head : Endpoint} (tail_mem : tail ∈ es) (head_mem : head ∈ es)
      (connect : Runs (connect attrs tail head) b () b1) (rest : Connected attrs es b1 b') :
      Connected attrs es b b'

theorem Connected.trans {attrs : AttrList} {es : List Endpoint} {b1 : Builder}
    (h : Connected attrs es b b1) (h' : Connected attrs es b1 b') : Connected attrs es b b' := by
  induction h with
  | refl => exact h'
  | step tail_mem head_mem connect _ ih => exact .step tail_mem head_mem connect (ih h')

theorem Connected.mono {attrs : AttrList} {es fs : List Endpoint} (hsub : es ⊆ fs)
    (h : Connected attrs es b b') : Connected attrs fs b b' := by
  induction h with
  | refl b => exact .refl b
  | step tail_mem head_mem connect _ ih => exact .step (hsub tail_mem) (hsub head_mem) connect ih

theorem connected_heads {attrs : AttrList} {tail : Endpoint} {heads es : List Endpoint}
    (ht : tail ∈ es) (hh : heads ⊆ es)
    (h : Runs (heads.forM fun head => connect attrs tail head) b u b') :
    Connected attrs es b b' := by
  induction heads generalizing b with
  | nil =>
      rw [List.forM, runs_pure] at h
      rw [h.2]
      exact .refl b
  | cons head heads ih =>
      rw [List.forM, runs_bind] at h
      obtain ⟨_, b1, hc, h⟩ := h
      rw [List.cons_subset] at hh
      exact .step ht hh.1 hc (ih hh.2 h)

theorem connected_tails {attrs : AttrList} {tails heads es : List Endpoint} (ht : tails ⊆ es)
    (hh : heads ⊆ es)
    (h : Runs (tails.forM fun tail => heads.forM fun head => connect attrs tail head) b u b') :
    Connected attrs es b b' := by
  induction tails generalizing b with
  | nil =>
      rw [List.forM, runs_pure] at h
      rw [h.2]
      exact .refl b
  | cons tail tails ih =>
      rw [List.forM, runs_bind] at h
      obtain ⟨_, b1, hc, h⟩ := h
      rw [List.cons_subset] at ht
      exact (connected_heads ht.1 hh hc).trans (ih ht.2 h)

theorem connected_chain {attrs : AttrList} {ops : List (List Endpoint)}
    (h : Runs (connectChain attrs ops) b u b') : Connected attrs ops.flatten b b' := by
  fun_induction connectChain attrs ops generalizing b with
  | case1 tails heads rest ih =>
      obtain ⟨_, b1, hc, h⟩ := runs_bind.1 h
      refine (connected_tails ?_ ?_ hc).trans ((ih h).mono ?_)
      · exact List.subset_append_left _ _
      · intro e he
        exact List.mem_append_right _ (List.mem_append_left _ he)
      · exact List.subset_append_right _ _
  | case2 =>
      rw [(runs_pure.1 h).2]
      exact .refl b

/-- A chain of two single endpoints is one edge. -/
theorem runs_connectChain_pair {attrs : AttrList} {tail head : Endpoint}
    (h : Runs (connect attrs tail head) b () b') :
    Runs (connectChain attrs [[tail], [head]]) b () b' := by
  refine runs_bind.2 ⟨(), b', ?_, runs_pure.2 ⟨rfl, rfl⟩⟩
  refine runs_bind.2 ⟨(), b', ?_, runs_pure.2 ⟨rfl, rfl⟩⟩
  exact runs_bind.2 ⟨(), b', h, runs_pure.2 ⟨rfl, rfl⟩⟩

/-! ## Subgraphs -/

/-- A known subgraph is opened again, and another is made. -/
theorem runs_openGraph {name : Option String} {g : GraphRef} :
    Runs (openGraph name) b g b' ↔
      (name.bind b.subgraphs.find? = some g ∧ b' = b.reported (.reopened (name.getD ""))) ∨
        (name.bind b.subgraphs.find? = none ∧ g = ⟨b.model.graphs.size⟩ ∧
          b' = (b.nested name).reported (.created (b.holderName name))) := by
  unfold openGraph
  rw [runs_get_bind]
  cases hk : name.bind b.subgraphs.find? with
  | some k =>
      constructor
      · intro h
        obtain ⟨_, b1, hr, h⟩ := runs_bind.1 h
        obtain rfl := runs_modify.1 hr
        obtain ⟨rfl, rfl⟩ := runs_pure.1 h
        exact Or.inl ⟨rfl, rfl⟩
      · rintro (⟨hg, rfl⟩ | ⟨hg, _⟩)
        · obtain rfl := Option.some.inj hg
          exact runs_bind.2 ⟨(), _, runs_modify.2 rfl, runs_pure.2 ⟨rfl, rfl⟩⟩
        · cases hg
  | none =>
      cases name with
      | none =>
          constructor
          · intro h
            obtain ⟨_, b1, hm, h⟩ := runs_bind.1 h
            obtain rfl := runs_modify.1 hm
            rw [runs_get_bind] at h
            obtain ⟨_, b2, hm, h⟩ := runs_bind.1 h
            obtain rfl := runs_modify.1 hm
            obtain ⟨_, b3, hr, h⟩ := runs_bind.1 h
            obtain rfl := runs_modify.1 hr
            obtain ⟨rfl, rfl⟩ := runs_pure.1 h
            exact Or.inr ⟨rfl, rfl, rfl⟩
          · rintro (⟨hg, _⟩ | ⟨_, rfl, rfl⟩)
            · cases hg
            · refine runs_bind.2 ⟨(), _, runs_modify.2 rfl, runs_get_bind.2 ?_⟩
              refine runs_bind.2 ⟨(), _, runs_modify.2 rfl, ?_⟩
              exact runs_bind.2 ⟨(), _, runs_modify.2 rfl, runs_pure.2 ⟨rfl, rfl⟩⟩
      | some n =>
          constructor
          · intro h
            rw [if_neg (by simp), runs_get_bind] at h
            obtain ⟨_, b2, hm, h⟩ := runs_bind.1 h
            obtain rfl := runs_modify.1 hm
            obtain ⟨_, b3, hr, h⟩ := runs_bind.1 h
            obtain rfl := runs_modify.1 hr
            obtain ⟨rfl, rfl⟩ := runs_pure.1 h
            exact Or.inr ⟨rfl, rfl, rfl⟩
          · rintro (⟨hg, _⟩ | ⟨_, rfl, rfl⟩)
            · cases hg
            · rw [if_neg (by simp)]
              refine runs_get_bind.2 (runs_bind.2 ⟨(), _, runs_modify.2 rfl, ?_⟩)
              exact runs_bind.2 ⟨(), _, runs_modify.2 rfl, runs_pure.2 ⟨rfl, rfl⟩⟩

theorem runs_enter {g : GraphRef} : Runs (enter g) b u b' ↔ b' = b.entered g := runs_modify

theorem runs_leave {outer : GraphRef} {members : Members} :
    Runs (leave outer) b members b' ↔
      ∃ defaults, b.defaults.leave? = some defaults ∧ members = b.opened.headD [] ∧
        b' = b.left outer defaults := by
  unfold leave
  rw [runs_get_bind]
  cases hd : b.defaults.leave? with
  | none =>
      constructor
      · intro h
        exact absurd h not_runs_throw
      · rintro ⟨_, hd', _⟩
        cases hd'
  | some defaults =>
      constructor
      · intro h
        obtain ⟨_, b1, hs, h⟩ := runs_bind.1 h
        obtain rfl := runs_set.1 hs
        obtain ⟨rfl, rfl⟩ := runs_pure.1 h
        exact ⟨defaults, rfl, rfl, rfl⟩
      · rintro ⟨_, hd', rfl, rfl⟩
        obtain rfl := Option.some.inj hd'
        exact runs_bind.2 ⟨(), _, runs_set.2 rfl, runs_pure.2 ⟨rfl, rfl⟩⟩

/-- A subgraph is opened and entered, its body is visited, and its members are
passed on to the body around it. -/
theorem runs_subgraph {name : Option String} {body : Build Unit} {members : Members} :
    Runs (subgraph name body) b members b' ↔
      ∃ g b1 b2 defaults, Runs (openGraph name) b g b1 ∧ Runs body (b1.entered g) () b2 ∧
        b2.defaults.leave? = some defaults ∧ members = b2.opened.headD [] ∧
        b' = (members.foldl (fun b n => b.mentioned n) (b2.left b1.current defaults)).kept
          name g members := by
  unfold subgraph
  constructor
  · intro h
    obtain ⟨g, b1, ho, h⟩ := runs_bind.1 h
    rw [runs_get_bind] at h
    obtain ⟨_, b1', he, h⟩ := runs_bind.1 h
    obtain rfl := runs_enter.1 he
    obtain ⟨_, b2, hb, h⟩ := runs_bind.1 h
    obtain ⟨ms, b3, hl, h⟩ := runs_bind.1 h
    obtain ⟨defaults, hd, rfl, rfl⟩ := runs_leave.1 hl
    obtain ⟨_, b4, hm, h⟩ := runs_bind.1 h
    obtain rfl := runs_mention_all.1 hm
    refine ⟨g, b1, b2, defaults, ho, hb, hd, ?_⟩
    cases name with
    | none =>
        obtain ⟨rfl, rfl⟩ := runs_pure.1 h
        exact ⟨rfl, rfl⟩
    | some n =>
        obtain ⟨_, b5, hk, h⟩ := runs_bind.1 h
        obtain rfl := runs_modify.1 hk
        obtain ⟨rfl, rfl⟩ := runs_pure.1 h
        exact ⟨rfl, rfl⟩
  · rintro ⟨g, b1, b2, defaults, ho, hb, hd, rfl, rfl⟩
    refine runs_bind.2 ⟨g, b1, ho, runs_get_bind.2 ?_⟩
    refine runs_bind.2 ⟨(), _, runs_enter.2 rfl, runs_bind.2 ⟨(), b2, hb, ?_⟩⟩
    refine runs_bind.2 ⟨_, _, runs_leave.2 ⟨defaults, hd, rfl, rfl⟩, ?_⟩
    refine runs_bind.2 ⟨(), _, runs_mention_all.2 rfl, ?_⟩
    cases name with
    | none => exact runs_pure.2 ⟨rfl, rfl⟩
    | some n => exact runs_bind.2 ⟨(), _, runs_modify.2 rfl, runs_pure.2 ⟨rfl, rfl⟩⟩

theorem runs_endpoints {name : Option String} {members : Members} {es : List Endpoint} :
    Runs (endpoints name members) b es b' ↔
      members ≠ [] ∧ es = members.map (⟨·, none⟩) ∧ b' = b := by
  unfold endpoints
  cases members with
  | nil =>
      constructor
      · intro h
        exact absurd h not_runs_throw
      · rintro ⟨h, _⟩
        exact absurd rfl h
  | cons n members =>
      rw [List.isEmpty_cons, if_neg (by simp), runs_pure]
      exact ⟨fun h => ⟨by simp, h⟩, fun h => h.2⟩

/-! ## Statements -/

theorem runs_stmt_node {id : NodeId} {attrs : AttrList} :
    Runs (stmt (.node id attrs)) b u b' ↔
      Schema.validateList .node attrs = .ok () ∧ ∃ n, Runs (node id.name.value attrs) b n b' := by
  unfold stmt
  rw [runs_bind]
  constructor
  · rintro ⟨_, b1, hc, h⟩
    obtain ⟨hv, rfl⟩ := runs_check.1 hc
    obtain ⟨n, b2, hn, h⟩ := runs_bind.1 h
    obtain ⟨_, rfl⟩ := runs_pure.1 h
    exact ⟨hv, n, hn⟩
  · rintro ⟨hv, n, hn⟩
    exact ⟨(), b, runs_check.2 ⟨hv, rfl⟩, runs_bind.2 ⟨n, b', hn, runs_pure.2 ⟨rfl, rfl⟩⟩⟩

theorem runs_stmt_edge {tail : Operand} {hops : List (EdgeOp × Operand)} {attrs : AttrList} :
    Runs (stmt (.edge tail hops attrs)) b u b' ↔
      Schema.validateList .edge attrs = .ok () ∧ ∃ first rest b1 b2,
        Runs (operand tail) b first b1 ∧ Runs (heads hops) b1 rest b2 ∧
          Runs (connectChain attrs (first :: rest)) b2 () b' := by
  unfold stmt
  rw [runs_bind]
  constructor
  · rintro ⟨_, b0, hc, h⟩
    obtain ⟨hv, rfl⟩ := runs_check.1 hc
    obtain ⟨first, b1, ho, h⟩ := runs_bind.1 h
    obtain ⟨rest, b2, hh, h⟩ := runs_bind.1 h
    exact ⟨hv, first, rest, b1, b2, ho, hh, h⟩
  · rintro ⟨hv, first, rest, b1, b2, ho, hh, h⟩
    exact ⟨(), b, runs_check.2 ⟨hv, rfl⟩,
      runs_bind.2 ⟨first, b1, ho, runs_bind.2 ⟨rest, b2, hh, h⟩⟩⟩

theorem runs_stmt_defaults {element : Element} {attrs : AttrList} :
    Runs (stmt (.defaults element attrs)) b u b' ↔
      Schema.validateList element attrs = .ok () ∧ b' = b.defaulted element attrs := by
  unfold stmt
  rw [runs_bind]
  constructor
  · rintro ⟨_, b1, hc, h⟩
    obtain ⟨hv, rfl⟩ := runs_check.1 hc
    exact ⟨hv, runs_setDefaults.1 h⟩
  · rintro ⟨hv, h⟩
    exact ⟨(), b, runs_check.2 ⟨hv, rfl⟩, runs_setDefaults.2 h⟩

theorem runs_stmt_subgraph {name : Option Id} {stmts : List Stmt} :
    Runs (stmt (.subgraph name stmts)) b u b' ↔
      ∃ members, Runs (subgraph (name.map Id.value) (body stmts)) b members b' := by
  unfold stmt
  rw [runs_bind]
  constructor
  · rintro ⟨members, b1, hs, h⟩
    obtain ⟨_, rfl⟩ := runs_pure.1 h
    exact ⟨members, hs⟩
  · rintro ⟨members, hs⟩
    exact ⟨members, b', hs, runs_pure.2 ⟨rfl, rfl⟩⟩

theorem runs_operand_node {id : NodeId} {es : List Endpoint} :
    Runs (operand (.node id)) b es b' ↔
      ∃ n, Runs (node id.name.value []) b n b' ∧ es = [⟨n, id.port⟩] := by
  unfold operand
  rw [runs_bind]
  constructor
  · rintro ⟨n, b1, hn, h⟩
    obtain ⟨rfl, rfl⟩ := runs_pure.1 h
    exact ⟨n, hn, rfl⟩
  · rintro ⟨n, hn, rfl⟩
    exact ⟨n, b', hn, runs_pure.2 ⟨rfl, rfl⟩⟩

theorem runs_operand_subgraph {name : Option Id} {stmts : List Stmt} {es : List Endpoint} :
    Runs (operand (.subgraph name stmts)) b es b' ↔
      ∃ members, Runs (subgraph (name.map Id.value) (body stmts)) b members b' ∧
        members ≠ [] ∧ es = members.map (⟨·, none⟩) := by
  unfold operand
  rw [runs_bind]
  constructor
  · rintro ⟨members, b1, hs, h⟩
    obtain ⟨hne, rfl, rfl⟩ := runs_endpoints.1 h
    exact ⟨members, hs, hne, rfl⟩
  · rintro ⟨members, hs, hne, rfl⟩
    exact ⟨members, b', hs, runs_endpoints.2 ⟨hne, rfl, rfl⟩⟩

theorem runs_heads_nil {rest : List (List Endpoint)} :
    Runs (heads []) b rest b' ↔ rest = [] ∧ b' = b := by
  unfold heads
  exact runs_pure

theorem runs_heads_cons {op : EdgeOp} {head : Operand} {hops : List (EdgeOp × Operand)}
    {ops : List (List Endpoint)} :
    Runs (heads ((op, head) :: hops)) b ops b' ↔
      ∃ first rest b1, Runs (operand head) b first b1 ∧ Runs (heads hops) b1 rest b' ∧
        ops = first :: rest := by
  rw [heads, runs_bind]
  constructor
  · rintro ⟨first, b1, ho, h⟩
    obtain ⟨rest, b2, hh, h⟩ := runs_bind.1 h
    obtain ⟨rfl, rfl⟩ := runs_pure.1 h
    exact ⟨first, rest, b1, ho, hh, rfl⟩
  · rintro ⟨first, rest, b1, ho, hh, rfl⟩
    exact ⟨first, b1, ho, runs_bind.2 ⟨rest, b', hh, runs_pure.2 ⟨rfl, rfl⟩⟩⟩

theorem runs_body_nil : Runs (body []) b u b' ↔ b' = b := by
  unfold body
  rw [runs_pure]
  exact ⟨fun h => h.2, fun h => ⟨rfl, h⟩⟩

theorem runs_body_cons {first : Stmt} {rest : List Stmt} :
    Runs (body (first :: rest)) b u b' ↔
      ∃ b1, Runs (stmt first) b () b1 ∧ Runs (body rest) b1 () b' := by
  rw [body, runs_bind]
  constructor
  · rintro ⟨_, b1, hs, h⟩
    exact ⟨b1, hs, h⟩
  · rintro ⟨b1, hs, h⟩
    exact ⟨(), b1, hs, h⟩

theorem runs_body_append {stmts more : List Stmt} :
    Runs (body (stmts ++ more)) b u b' ↔
      ∃ b1, Runs (body stmts) b () b1 ∧ Runs (body more) b1 () b' := by
  induction stmts generalizing b with
  | nil =>
      constructor
      · intro h
        exact ⟨b, runs_body_nil.2 rfl, h⟩
      · rintro ⟨b1, h, h'⟩
        obtain rfl := runs_body_nil.1 h
        exact h'
  | cons s stmts ih =>
      rw [List.cons_append, runs_body_cons]
      constructor
      · rintro ⟨b1, hs, h⟩
        obtain ⟨b2, h, h'⟩ := ih.1 h
        exact ⟨b2, runs_body_cons.2 ⟨b1, hs, h⟩, h'⟩
      · rintro ⟨b2, h, h'⟩
        obtain ⟨b1, hs, h⟩ := runs_body_cons.1 h
        exact ⟨b1, hs, ih.2 ⟨b2, h, h'⟩⟩

/-! ## Graphs -/

/-- The state before the body of a top-level graph. -/
def started (strict : Bool) (b : Builder) : Builder :=
  { b with
    model := { b.model with strict := strict }
    nodes := b.nodes.enter
    subgraphs := b.subgraphs.enter }

/-- The state behind the body of a top-level graph. -/
def finished (b : Builder) : Builder :=
  { b with
    nodes := b.nodes.drop
    subgraphs := b.subgraphs.drop
    log := b.log ++ [.built (b.model.nameOf Model.root) b.model.nodes.size b.model.edges.size
      (b.model.graphs.size - 1)] }

theorem runs_tree {t : Tree} :
    Runs (tree t) b u b' ↔
      ∃ b1, Runs (body t.body) (b.started t.strict) () b1 ∧ b' = b1.finished := by
  unfold tree
  rw [runs_bind]
  constructor
  · rintro ⟨_, b0, hs, h⟩
    obtain rfl := runs_modify.1 hs
    obtain ⟨_, b1, hb, h⟩ := runs_bind.1 h
    obtain ⟨_, b2, hd, h⟩ := runs_bind.1 h
    obtain rfl := runs_modify.1 hd
    rw [runs_get_bind] at h
    exact ⟨b1, hb, runs_modify.1 h⟩
  · rintro ⟨b1, hb, rfl⟩
    refine ⟨(), b.started t.strict, runs_modify.2 rfl, runs_bind.2 ⟨(), b1, hb, ?_⟩⟩
    exact runs_bind.2 ⟨(), _, runs_modify.2 rfl, runs_get_bind.2 (runs_modify.2 rfl)⟩

end Builder

end DotLang
