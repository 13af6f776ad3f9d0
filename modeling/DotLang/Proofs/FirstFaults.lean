import DotLang.Import
import DotLang.Proofs.Faults
/-!
# The first fault of a text

An import fails just if something in the text is wrong, and it reports the first
thing that is.  What has to be right is said statement by statement
(`Stmt.Correct`): the entries of every list are valid on the element of their
statement, the ports of an edge statement are valid at the ends of its hops, and
every operand stands for a node.

`Stmt.requirements` puts these conditions in the order of the text.  The ports
come once a hop there, whereas the builder checks them for every pair of nodes
that it joins (`portDemandsAlong`).  Both lists have the same first fault: an
operand without nodes is at fault before the ports are reached, and the nodes of
an operand all have the port that is written with it (`firstFault_hops`).
-/

namespace DotLang

/-! ## Requirements in the order of the text -/

/-- The port that is written with an operand. -/
def Operand.port? : Operand → Option String
  | .node id => id.port
  | .subgraph .. => none

/-- The ports of every hop are valid, at its tail and then at its head. -/
def hopDemands (tail : Operand) : List (EdgeOp × Operand) → List Demand
  | [] => []
  | (_, head) :: hops =>
      portDemands "tailport" tail.port? ++ portDemands "headport" head.port? ++ hopDemands head hops

mutual

/-- What has to be right in a statement, in the order of the text. -/
def Stmt.requirements (c : Course) : Stmt → List Demand
  | .node _ attrs => AttrList.demands .node attrs
  | .edge tail hops attrs =>
      AttrList.demands .edge attrs ++ (tail.requirements c ++
        (Stmt.requirementsHops (tail.course c) hops ++ hopDemands tail hops))
  | .defaults element attrs => AttrList.demands element attrs
  | .subgraph name body => Stmt.requirementsBody (c.opening (name.map Id.value)) body

/-- What has to be right in an operand: first its statements, and then that it
stands for a node. -/
def Operand.requirements (c : Course) : Operand → List Demand
  | .node _ => []
  | .subgraph name body =>
      Stmt.requirementsBody (c.opening (name.map Id.value)) body ++
        [.inhabited (name.map Id.value)
          (Stmt.courseBody (c.opening (name.map Id.value)) body).members]

/-- What has to be right in operands. -/
def Stmt.requirementsHops (c : Course) : List (EdgeOp × Operand) → List Demand
  | [] => []
  | (_, head) :: hops => head.requirements c ++ Stmt.requirementsHops (head.course c) hops

/-- What has to be right in a body. -/
def Stmt.requirementsBody (c : Course) : List Stmt → List Demand
  | [] => []
  | first :: rest => first.requirements c ++ Stmt.requirementsBody (first.course c) rest

end

/-- What has to be right in a graph, in the order of the text. -/
def Tree.requirements (t : Tree) : List Demand := Stmt.requirementsBody .start t.body

/-! ## Ports once a hop -/

theorem firstFault_eq_none {ds : List Demand} :
    firstFault ds = none ↔ ∀ d ∈ ds, d.fault? = none := by
  simp [firstFault]

/-- Lists that all have one first fault have it together, if there is a list. -/
theorem firstFault_flatMap {α : Type} {l : List α} {f : α → List Demand}
    {e : Option BuildError} (hl : l ≠ []) (hf : ∀ a ∈ l, firstFault (f a) = e) :
    firstFault (l.flatMap f) = e := by
  induction l with
  | nil => exact absurd rfl hl
  | cons a l ih =>
      rw [List.flatMap_cons, firstFault_append, hf a List.mem_cons_self]
      cases l with
      | nil => simp [firstFault]
      | cons b l =>
          rw [ih (List.cons_ne_nil b l) fun x hx => hf x (List.mem_cons_of_mem a hx)]
          cases e with
          | none => rfl
          | some e => rfl

/-- The nodes of an operand have the port that is written with it. -/
theorem Operand.port_of_mem_tips {o : Operand} {c : Course} {tip : Tip} (h : tip ∈ o.tips c) :
    tip.port = o.port? := by
  cases o with
  | node id =>
      rw [List.mem_singleton.1 h]
      rfl
  | subgraph name body =>
      obtain ⟨_, _, rfl⟩ := List.mem_map.1 h
      rfl

/-- Operands that stand for nodes have the same first fault at their ports once a
hop and once an edge. -/
theorem firstFault_hops {tail : Operand} {c : Course} {hops : List (EdgeOp × Operand)}
    (inhabited : ∀ tips ∈ tail.tips c :: Stmt.tipsHops (tail.course c) hops, tips ≠ []) :
    firstFault (portDemandsAlong
        ((tail.tips c :: Stmt.tipsHops (tail.course c) hops).map (·.map Tip.port))) =
      firstFault (hopDemands tail hops) := by
  induction hops generalizing tail c with
  | nil => rfl
  | cons hop hops ih =>
      obtain ⟨op, head⟩ := hop
      rw [Stmt.tipsHops] at inhabited ⊢
      have hrest := ih fun tips h => inhabited tips (List.mem_cons_of_mem _ h)
      have htail : tail.tips c ≠ [] := inhabited _ List.mem_cons_self
      have hhead : head.tips (tail.course c) ≠ [] :=
        inhabited _ (List.mem_cons_of_mem _ List.mem_cons_self)
      rw [List.map_cons, List.map_cons, portDemandsAlong, hopDemands, firstFault_append,
        firstFault_append, ← List.map_cons, hrest]
      congr 1
      refine firstFault_flatMap (by simpa using htail) fun p hp => ?_
      refine firstFault_flatMap (by simpa using hhead) fun q hq => ?_
      obtain ⟨tip, htip, rfl⟩ := List.mem_map.1 hp
      obtain ⟨tip', htip', rfl⟩ := List.mem_map.1 hq
      rw [Operand.port_of_mem_tips htip, Operand.port_of_mem_tips htip']

/-! ## One first fault -/

section Inhabited
variable {c : Course}

/-- An operand without nodes is at fault. -/
theorem Operand.tips_ne_nil {o : Operand} (h : firstFault (o.requirements c) = none) :
    o.tips c ≠ [] := by
  cases o with
  | node id => exact List.cons_ne_nil _ _
  | subgraph name body =>
      rw [Operand.requirements, firstFault_append, Option.or_eq_none_iff,
        firstFault_singleton] at h
      intro he
      rw [Operand.tips, List.map_eq_nil_iff] at he
      rw [he] at h
      cases h.2

theorem Stmt.tipsHops_ne_nil {hops : List (EdgeOp × Operand)}
    (h : firstFault (Stmt.requirementsHops c hops) = none) :
    ∀ tips ∈ Stmt.tipsHops c hops, tips ≠ [] := by
  induction hops generalizing c with
  | nil => simp [Stmt.tipsHops]
  | cons hop hops ih =>
      obtain ⟨op, head⟩ := hop
      rw [Stmt.requirementsHops, firstFault_append, Option.or_eq_none_iff] at h
      rw [Stmt.tipsHops, List.forall_mem_cons]
      exact ⟨Operand.tips_ne_nil h.1, ih h.2⟩

end Inhabited

mutual

theorem Stmt.firstFault_eq (c : Course) :
    (s : Stmt) → firstFault (s.demands c) = firstFault (s.requirements c)
  | .node _ attrs => rfl
  | .edge tail hops attrs => by
      rw [Stmt.demands, Stmt.requirements]
      simp only [firstFault_append]
      rw [tail.firstFault_eq c, Stmt.firstFaultHops_eq (tail.course c) hops]
      congr 1
      cases htail : firstFault (tail.requirements c) with
      | some e => rfl
      | none =>
          cases hhops : firstFault (Stmt.requirementsHops (tail.course c) hops) with
          | some e => rfl
          | none =>
              congr 1
              exact firstFault_hops (List.forall_mem_cons.2
                ⟨Operand.tips_ne_nil htail, Stmt.tipsHops_ne_nil hhops⟩)
  | .defaults element attrs => rfl
  | .subgraph name body => Stmt.firstFaultBody_eq _ body

theorem Operand.firstFault_eq (c : Course) :
    (o : Operand) → firstFault (o.demands c) = firstFault (o.requirements c)
  | .node _ => rfl
  | .subgraph name body => by
      rw [Operand.demands, Operand.requirements, firstFault_append, firstFault_append,
        Stmt.firstFaultBody_eq _ body]

theorem Stmt.firstFaultHops_eq (c : Course) : (hops : List (EdgeOp × Operand)) →
    firstFault (Stmt.demandsHops c hops) = firstFault (Stmt.requirementsHops c hops)
  | [] => rfl
  | (_, head) :: hops => by
      rw [Stmt.demandsHops, Stmt.requirementsHops, firstFault_append, firstFault_append,
        head.firstFault_eq c, Stmt.firstFaultHops_eq _ hops]

theorem Stmt.firstFaultBody_eq (c : Course) : (stmts : List Stmt) →
    firstFault (Stmt.demandsBody c stmts) = firstFault (Stmt.requirementsBody c stmts)
  | [] => rfl
  | first :: rest => by
      rw [Stmt.demandsBody, Stmt.requirementsBody, firstFault_append, firstFault_append,
        first.firstFault_eq c, Stmt.firstFaultBody_eq _ rest]

end

theorem Tree.fault?_eq (t : Tree) : t.fault? = firstFault t.requirements :=
  Stmt.firstFaultBody_eq .start t.body

/-! ## Correct statements -/

mutual

/-- The statement and those in it, each with the course in front of it. -/
def Stmt.inner (c : Course) : Stmt → List (Course × Stmt)
  | .edge tail hops attrs =>
      (c, .edge tail hops attrs) :: (tail.inner c ++ Stmt.innerHops (tail.course c) hops)
  | .subgraph name body =>
      (c, .subgraph name body) :: Stmt.innerBody (c.opening (name.map Id.value)) body
  | s => [(c, s)]

/-- The statements in an operand. -/
def Operand.inner (c : Course) : Operand → List (Course × Stmt)
  | .node _ => []
  | .subgraph name body => Stmt.innerBody (c.opening (name.map Id.value)) body

/-- The statements in operands. -/
def Stmt.innerHops (c : Course) : List (EdgeOp × Operand) → List (Course × Stmt)
  | [] => []
  | (_, head) :: hops => head.inner c ++ Stmt.innerHops (head.course c) hops

/-- The statements in a body. -/
def Stmt.innerBody (c : Course) : List Stmt → List (Course × Stmt)
  | [] => []
  | first :: rest => first.inner c ++ Stmt.innerBody (first.course c) rest

end

/-- The statements of a graph at any depth, each with the course in front of it. -/
def Tree.statements (t : Tree) : List (Course × Stmt) := Stmt.innerBody .start t.body

/-- The entries of a list are valid. -/
def AttrList.Correct (element : Element) (attrs : AttrList) : Prop :=
  ∀ e ∈ attrs, Schema.validate element e.1 e.2 = .ok ()

/-- A port is valid under its key, if there is one. -/
def PortCorrect (key : String) (port : Option String) : Prop :=
  ∀ p, port = some p → Schema.validate .edge key (Id.ofText p) = .ok ()

/-- The ports of every hop are valid, at its tail and at its head. -/
def PortsCorrect (tail : Operand) : List (EdgeOp × Operand) → Prop
  | [] => True
  | (_, head) :: hops =>
      PortCorrect "tailport" tail.port? ∧ PortCorrect "headport" head.port? ∧ PortsCorrect head hops

/-- What has to be right in a statement apart from the statements in it. -/
def Stmt.Correct (c : Course) : Stmt → Prop
  | .node _ attrs => AttrList.Correct .node attrs
  | .edge tail hops attrs =>
      AttrList.Correct .edge attrs ∧ PortsCorrect tail hops ∧
        ∀ tips ∈ tail.tips c :: Stmt.tipsHops (tail.course c) hops, tips ≠ []
  | .defaults element attrs => AttrList.Correct element attrs
  | .subgraph .. => True

/-- Everything in a graph is right. -/
def Tree.Correct (t : Tree) : Prop := ∀ p ∈ t.statements, p.2.Correct p.1

theorem Demand.valid_met {element : Element} {key : String} {value : Id} :
    (Demand.valid element key value).fault? = none ↔ Schema.validate element key value = .ok () := by
  rw [Demand.fault?]
  cases Schema.validate element key value with
  | ok u => simp [faultOf?]
  | error e => simp [faultOf?]

theorem AttrList.correct_iff {element : Element} {attrs : AttrList} :
    firstFault (AttrList.demands element attrs) = none ↔ AttrList.Correct element attrs := by
  rw [firstFault_eq_none, AttrList.demands, List.forall_mem_map]
  simp only [Demand.valid_met, AttrList.Correct]

theorem portCorrect_iff {key : String} {port : Option String} :
    firstFault (portDemands key port) = none ↔ PortCorrect key port := by
  cases port with
  | none => simp [portDemands, PortCorrect, firstFault]
  | some p =>
      have hp : portDemands key (some p) = [.valid .edge key (Id.ofText p)] := rfl
      rw [hp, firstFault_singleton, Demand.valid_met]
      simp [PortCorrect]

theorem portsCorrect_iff {tail : Operand} {hops : List (EdgeOp × Operand)} :
    firstFault (hopDemands tail hops) = none ↔ PortsCorrect tail hops := by
  induction hops generalizing tail with
  | nil => simp [hopDemands, PortsCorrect, firstFault]
  | cons hop hops ih =>
      obtain ⟨op, head⟩ := hop
      rw [hopDemands, firstFault_append, firstFault_append, Option.or_eq_none_iff,
        Option.or_eq_none_iff, portCorrect_iff, portCorrect_iff, ih, PortsCorrect, and_assoc]

mutual

theorem Stmt.correct_iff (c : Course) : (s : Stmt) →
    (firstFault (s.requirements c) = none ↔ ∀ p ∈ s.inner c, p.2.Correct p.1)
  | .node id attrs => by
      rw [Stmt.requirements, Stmt.inner.eq_3 _ _ (by simp) (by simp), List.forall_mem_singleton]
      exact AttrList.correct_iff
  | .edge tail hops attrs => by
      rw [Stmt.requirements, Stmt.inner, List.forall_mem_cons, List.forall_mem_append]
      simp only [firstFault_append, Option.or_eq_none_iff]
      rw [tail.correct_iff c, Stmt.correctHops_iff _ hops, AttrList.correct_iff, portsCorrect_iff,
        Stmt.Correct, List.forall_mem_cons]
      constructor
      · rintro ⟨hattrs, ⟨htail, hfirst⟩, ⟨hhops, hrest⟩, hports⟩
        exact ⟨⟨hattrs, hports, hfirst, hrest⟩, htail, hhops⟩
      · rintro ⟨⟨hattrs, hports, hfirst, hrest⟩, htail, hhops⟩
        exact ⟨hattrs, ⟨htail, hfirst⟩, ⟨hhops, hrest⟩, hports⟩
  | .defaults element attrs => by
      rw [Stmt.requirements, Stmt.inner.eq_3 _ _ (by simp) (by simp), List.forall_mem_singleton]
      exact AttrList.correct_iff
  | .subgraph name body => by
      rw [Stmt.requirements, Stmt.inner, List.forall_mem_cons, Stmt.correctBody_iff _ body]
      exact (and_iff_right trivial).symm

theorem Operand.correct_iff (c : Course) : (o : Operand) →
    (firstFault (o.requirements c) = none ↔
      (∀ p ∈ o.inner c, p.2.Correct p.1) ∧ o.tips c ≠ [])
  | .node id => by
      simp [Operand.requirements, Operand.inner, Operand.tips, firstFault]
  | .subgraph name body => by
      rw [Operand.requirements, Operand.inner, Operand.tips, firstFault_append,
        Option.or_eq_none_iff, Stmt.correctBody_iff _ body, firstFault_singleton]
      simp [Demand.fault?]

theorem Stmt.correctHops_iff (c : Course) : (hops : List (EdgeOp × Operand)) →
    (firstFault (Stmt.requirementsHops c hops) = none ↔
      (∀ p ∈ Stmt.innerHops c hops, p.2.Correct p.1) ∧ ∀ tips ∈ Stmt.tipsHops c hops, tips ≠ [])
  | [] => by simp [Stmt.requirementsHops, Stmt.innerHops, Stmt.tipsHops, firstFault]
  | (_, head) :: hops => by
      rw [Stmt.requirementsHops, Stmt.innerHops, Stmt.tipsHops, firstFault_append,
        Option.or_eq_none_iff, head.correct_iff c, Stmt.correctHops_iff _ hops,
        List.forall_mem_append, List.forall_mem_cons]
      exact and_and_and_comm

theorem Stmt.correctBody_iff (c : Course) : (stmts : List Stmt) →
    (firstFault (Stmt.requirementsBody c stmts) = none ↔
      ∀ p ∈ Stmt.innerBody c stmts, p.2.Correct p.1)
  | [] => by simp [Stmt.requirementsBody, Stmt.innerBody, firstFault]
  | first :: rest => by
      rw [Stmt.requirementsBody, Stmt.innerBody, firstFault_append, Option.or_eq_none_iff,
        first.correct_iff c, Stmt.correctBody_iff _ rest, List.forall_mem_append]

end

/-! ## Outcomes of imports -/

/-- The graph has this fault, and in front of it everything is right. -/
def Tree.FirstFault (t : Tree) (e : BuildError) : Prop :=
  ∃ met d more, t.requirements = met ++ d :: more ∧ (∀ u ∈ met, u.fault? = none) ∧
    d.fault? = some e

theorem Tree.fault?_eq_none (t : Tree) : t.fault? = none ↔ t.Correct := by
  rw [Tree.fault?_eq]
  exact Stmt.correctBody_iff .start t.body

theorem Tree.fault?_eq_some (t : Tree) {e : BuildError} :
    t.fault? = some e ↔ t.FirstFault e := by
  rw [Tree.fault?_eq, firstFault, List.findSome?_eq_some_iff]
  constructor
  · rintro ⟨met, d, more, ht, hd, hmet⟩
    exact ⟨met, d, more, ht, hmet, hd⟩
  · rintro ⟨met, d, more, ht, hmet, hd⟩
    exact ⟨met, d, more, ht, hd, hmet⟩

theorem Tree.build_eq (t : Tree) :
    t.build.1 = t.outcome t.kind (t.name.map Id.value) := by
  unfold Tree.build Tree.outcome
  cases (Builder.tree t).run (.new t.kind (t.name.map Id.value)) with
  | ok _ b => rfl
  | error e b => rfl

/-- Trees are imported if nothing is wrong with them, and else the import fails
with the fault of the first one that has a fault. -/
theorem importTrees_outcome (ts : List Tree) :
    (ts.findSome? Tree.fault? = none ∧ ∃ models, (importTrees ts).result = .ok models) ∨
      ∃ e, ts.findSome? Tree.fault? = some e ∧ (importTrees ts).result = .error (.build e) := by
  induction ts with
  | nil => exact Or.inl ⟨rfl, [], rfl⟩
  | cons t ts ih =>
      have hbuild := t.build_eq.trans (t.outcome_eq t.kind (t.name.map Id.value))
      rcases hb : t.build with ⟨r, log⟩
      rw [hb] at hbuild
      change r = _ at hbuild
      rw [importTrees, hb, List.findSome?_cons]
      cases hf : t.fault? with
      | some e =>
          rw [hf] at hbuild
          subst hbuild
          exact Or.inr ⟨e, rfl, rfl⟩
      | none =>
          rw [hf] at hbuild
          subst hbuild
          rcases ih with ⟨hnone, models, hmodels⟩ | ⟨e, hsome, herror⟩
          · refine Or.inl ⟨hnone, (t.draft t.kind (t.name.map Id.value)).model :: models, ?_⟩
            show (importTrees ts).result.map _ = _
            rw [hmodels]
            rfl
          · refine Or.inr ⟨e, hsome, ?_⟩
            show (importTrees ts).result.map _ = _
            rw [herror]
            rfl

/-- A graph among these has this fault, and in front of it everything is right. -/
def FirstFaultOf (trees : List Tree) (e : BuildError) : Prop :=
  ∃ before t behind, trees = before ++ t :: behind ∧ (∀ u ∈ before, u.Correct) ∧ t.FirstFault e

theorem findSome?_fault_eq_none {trees : List Tree} :
    trees.findSome? Tree.fault? = none ↔ ∀ t ∈ trees, t.Correct := by
  simp only [List.findSome?_eq_none_iff, Tree.fault?_eq_none]

theorem findSome?_fault_eq_some {trees : List Tree} {e : BuildError} :
    trees.findSome? Tree.fault? = some e ↔ FirstFaultOf trees e := by
  rw [List.findSome?_eq_some_iff]
  simp only [Tree.fault?_eq_none, Tree.fault?_eq_some]
  constructor
  · rintro ⟨before, t, behind, ht, hfault, hbefore⟩
    exact ⟨before, t, behind, ht, hbefore, hfault⟩
  · rintro ⟨before, t, behind, ht, hbefore, hfault⟩
    exact ⟨before, t, behind, ht, hfault, hbefore⟩

/-- A text is imported exactly if it can be parsed and every statement of its graphs
is correct.  Otherwise the import fails with the syntax error, or with the first
fault of the text. -/
theorem importText_fails_first (text : String) :
    ((∃ models, (importText text).result = .ok models) ↔
      ∃ trees, Tree.parse text = .ok trees ∧ ∀ t ∈ trees, t.Correct) ∧
    ∀ e, (importText text).result = .error e ↔
      (∃ f, Tree.parse text = .error f ∧ e = .parse f) ∨
        ∃ trees f, Tree.parse text = .ok trees ∧ FirstFaultOf trees f ∧ e = .build f := by
  unfold importText
  cases hp : Tree.parse text with
  | error f => simp [eq_comm]
  | ok trees =>
      simp only [Except.ok.injEq, reduceCtorEq, false_and, exists_false, false_or,
        exists_eq_left', ← findSome?_fault_eq_some, ← findSome?_fault_eq_none]
      rcases importTrees_outcome trees with ⟨hnone, models, hmodels⟩ | ⟨f, hsome, herror⟩
      · simp [hnone, hmodels]
      · simp [hsome, herror, eq_comm]

-- An entry inside the second operand is at fault before the port of the first one.
example : (importText "graph \x7b a:x:zz -- \x7b b [width=w] \x7d \x7d").result =
    .error (.build (.attribute ⟨"width", "w", .number⟩)) := by decide +kernel

end DotLang
