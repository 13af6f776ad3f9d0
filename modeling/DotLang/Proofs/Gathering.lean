import DotLang.Proofs.Courses
/-!
# Subgraphs that are kept together

As an operand, a subgraph stands for what its bodies mention, at any depth.  That need
not be all that its graph has, or the graphs below it.  What a body mentions is not kept
for the subgraph while the body is open, and what is nested in the subgraph may be opened
again somewhere else.  `Tree.Gathers` excludes both: the bodies of what is nested in the
subgraph stand in it, and its own bodies do not.

`Tree.Retains` says what holds then at every point of a visit.  If no body of the
subgraph is open, all that was mentioned inside it is kept.  Whether a body is open is
seen from the bodies around the point, which are nested in each other directly.
-/

namespace DotLang

/-! ## Nested subgraphs -/

/-- The subgraph is this one, or is opened first in it, at any depth. -/
inductive Tree.Inside (t : Tree) (key : SubgraphKey) : Option SubgraphKey → Prop
  | self : t.Inside key (some key)
  | nested {o : Opening} (first : t.openings.find? (fun p => p.key = o.key) = some o)
      (outer : t.Inside key o.scope.subgraph) : t.Inside key (some o.key)

/-- Subgraphs, each of which has a body that stands directly in one of the next. -/
inductive Tree.Chain (t : Tree) : List SubgraphKey → Prop
  | nil : t.Chain []
  | cons {o : Opening} {around : List SubgraphKey} (opened : o ∈ t.openings)
      (here : o.scope.subgraph = around.head?) (outer : t.Chain around) :
      t.Chain (o.key :: around)

/-- The bodies of what is nested in the subgraph stand in it or in what is nested in it, and
none of its own bodies stands in another one. -/
structure Tree.Gathers (t : Tree) (key : SubgraphKey) : Prop where
  nested : ∀ o ∈ t.openings, o.key ≠ key → t.Inside key (some o.key) →
    t.Inside key o.scope.subgraph
  apart : ∀ around, t.Chain (key :: around) → key ∉ around

variable {t : Tree} {key : SubgraphKey} {around : List SubgraphKey}

/-- The innermost of the bodies, and those around it. -/
theorem Tree.Chain.uncons (h : t.Chain (key :: around)) :
    ∃ o ∈ t.openings, o.key = key ∧ o.scope.subgraph = around.head? ∧ t.Chain around := by
  cases h with
  | cons opened here outer => exact ⟨_, opened, rfl, here, outer⟩

/-- A subgraph that is nested in another one is opened first in it. -/
theorem Tree.Inside.opened {k : SubgraphKey} (h : t.Inside key (some k)) :
    k = key ∨ ∃ o, t.openings.find? (fun p => p.key = k) = some o ∧
      t.Inside key o.scope.subgraph := by
  cases h with
  | self => exact Or.inl rfl
  | nested first outer => exact Or.inr ⟨_, first, outer⟩

/-- A body inside the subgraph has one of its bodies around it. -/
theorem Tree.Gathers.mem_of_inside (h : t.Gathers key) (chain : t.Chain around)
    (inside : t.Inside key around.head?) : key ∈ around := by
  induction chain with
  | nil => cases inside
  | @cons o around opened here _ ih =>
      by_cases hk : o.key = key
      · exact hk ▸ List.mem_cons_self
      · have houter := h.nested o opened hk inside
        rw [here] at houter
        exact List.mem_cons_of_mem _ (ih houter)

/-! ## What is kept -/

/-- If no body of the subgraph is open, it was opened before anything was mentioned inside
it, and what was is kept by its name. -/
structure Tree.Retains (t : Tree) (key : SubgraphKey) (around : List SubgraphKey)
    (w : List Occurrence) (c : Course) : Prop where
  chain : t.Chain around
  kept : key ∉ around → ∀ o ∈ mentionsOf w, t.Inside key o.scope.subgraph →
    (∃ p ∈ openingsOf w, p.key = key) ∧ ∀ name, key = .named name → o.name ∈ c.closed name

namespace Tree.Retains

variable {w more : List Occurrence} {c c' inner : Course} {scope : Scope} {sub : Option String}
  {o : Occurrence}

/-- An event that mentions nothing, and neither opens nor closes a body. -/
theorem quiet (h : t.Retains key around w c) (mention : o.mention? = none) :
    t.Retains key around (w ++ [o]) c := by
  refine ⟨h.chain, fun hkey p hp inside => ?_⟩
  rw [mentionsOf_concat_none w mention] at hp
  obtain ⟨⟨q, hq, hqkey⟩, hclosed⟩ := h.kept hkey p hp inside
  rw [openingsOf_append]
  exact ⟨⟨q, List.mem_append_left _ hq, hqkey⟩, hclosed⟩

/-- A node is mentioned. -/
theorem mention (h : t.Retains key around w c) (gathers : t.Gathers key)
    (here : scope.subgraph = around.head?) {m : Mention} (hm : o.mention? = some m)
    (hscope : m.scope = scope) (name : String) :
    t.Retains key around (w ++ [o]) (c.mention name) := by
  refine ⟨h.chain, fun hkey p hp inside => ?_⟩
  rw [mentionsOf_concat w hm, List.mem_append, List.mem_singleton] at hp
  rw [openingsOf_append, Course.closed_mention]
  rcases hp with hp | rfl
  · obtain ⟨⟨q, hq, hqkey⟩, hclosed⟩ := h.kept hkey p hp inside
    exact ⟨⟨q, List.mem_append_left _ hq, hqkey⟩, hclosed⟩
  · rw [hscope, here] at inside
    exact absurd (gathers.mem_of_inside h.chain inside) hkey

/-- The body of a subgraph is opened. -/
theorem opening (h : t.Retains key around w c) (here : scope.subgraph = around.head?)
    (opened : ⟨scope, c.key sub⟩ ∈ t.openings) :
    t.Retains key (c.key sub :: around) (w ++ [⟨scope, .opening (c.key sub)⟩]) (c.opening sub) := by
  refine ⟨.cons opened here h.chain, fun hkey p hp inside => ?_⟩
  rw [List.mem_cons, not_or] at hkey
  rw [mentionsOf_concat_none w rfl] at hp
  obtain ⟨⟨q, hq, hqkey⟩, hclosed⟩ := h.kept hkey.2 p hp inside
  rw [openingsOf_append]
  refine ⟨⟨q, List.mem_append_left _ hq, hqkey⟩, fun name hname => ?_⟩
  rw [Course.closed_opening_of_ne]
  · exact hclosed name hname
  · rintro rfl
    exact hkey.1 hname

/-- Behind a body of the subgraph, its members are all that was mentioned inside. -/
theorem members (h : t.Retains key around w c) (hkey : key ∉ around) (hsub : c.key sub = key)
    (fresh : sub = none → ∀ p ∈ openingsOf w, p.key ≠ key)
    (gains : (c.opening sub).Gains (mentionsOf more) inner) :
    ∀ o ∈ mentionsOf w ++ mentionsOf more, t.Inside key o.scope.subgraph →
      o.name ∈ inner.members := by
  intro o ho inside
  rcases List.mem_append.1 ho with ho | ho
  · obtain ⟨⟨p, hp, hpkey⟩, hclosed⟩ := h.kept hkey o ho inside
    cases sub with
    | none => exact absurd hpkey (fresh rfl p hp)
    | some name => exact gains.members.subset (hclosed name hsub.symm)
  · exact gains.mentioned o ho

/-- The body of a subgraph is closed. -/
theorem closing (h : t.Retains key around w c)
    (hin : t.Retains key (c.key sub :: around) (w ++ ⟨scope, .opening (c.key sub)⟩ :: more) inner)
    (gains : (c.opening sub).Gains (mentionsOf more) inner) :
    t.Retains key around (w ++ ⟨scope, .opening (c.key sub)⟩ :: more) (c.closing inner sub) := by
  refine ⟨h.chain, fun hkey o ho inside => ?_⟩
  by_cases hk : key = c.key sub
  · refine ⟨⟨⟨scope, c.key sub⟩, ?_, hk.symm⟩, fun name hname => ?_⟩
    · rw [openingsOf_append]
      exact List.mem_append_right _ List.mem_cons_self
    · obtain rfl : sub = some name := by
        rw [← c.name_key sub, ← hk, hname]
        rfl
      rw [mentionsOf_append] at ho
      rw [Course.closed_closing]
      exact h.members hkey hk.symm (fun hn => nomatch hn) gains o ho inside
  · obtain ⟨opened, hclosed⟩ := hin.kept (List.not_mem_cons_of_ne_of_not_mem hk hkey) o ho inside
    refine ⟨opened, fun name hname => ?_⟩
    rw [Course.closed_closing_of_ne]
    · exact hclosed name hname
    · rintro rfl
      exact hk hname

/-- A subgraph, where `more` are the events of its body. -/
theorem subgraph (h : t.Retains key around w c) (here : scope.subgraph = around.head?)
    (opened : ⟨scope, c.key sub⟩ ∈ t.openings)
    (gains : (c.opening sub).Gains (mentionsOf more) inner)
    (body : t.Retains key (c.key sub :: around) (w ++ [⟨scope, .opening (c.key sub)⟩])
        (c.opening sub) →
      t.Retains key (c.key sub :: around) (w ++ [⟨scope, .opening (c.key sub)⟩] ++ more) inner) :
    t.Retains key around (w ++ ⟨scope, .opening (c.key sub)⟩ :: more) (c.closing inner sub) := by
  have hin := body (h.opening here opened)
  rw [List.append_assoc, List.singleton_append] at hin
  exact h.closing hin gains

end Tree.Retains

theorem Scope.subgraph_behind (scope : Scope) (s : Stmt) :
    (scope.behind s).subgraph = scope.subgraph := by
  cases s <;> rfl

/-! ## Statements -/

mutual

theorem Stmt.retains (gathers : t.Gathers key) {around : List SubgraphKey}
    {w : List Occurrence} {scope : Scope} {c : Course} (here : scope.subgraph = around.head?) :
    (s : Stmt) → (∀ o ∈ openingsOf (s.walk scope c), o ∈ t.openings) →
      t.Retains key around w c → t.Retains key around (w ++ s.walk scope c) (s.course c)
  | .node id attrs, _, h => h.mention gathers here rfl rfl _
  | .edge tail hops attrs, opened, h => by
      rw [Stmt.walk, openingsOf_append, openingsOf_append, List.forall_mem_append,
        List.forall_mem_append] at opened
      have h1 := tail.retains gathers here opened.1.1 h
      have h2 := Stmt.retainsHops gathers here hops opened.1.2 h1
      rw [Stmt.walk, ← List.append_assoc, ← List.append_assoc]
      exact h2.quiet rfl
  | .defaults element attrs, _, h => h.quiet rfl
  | .subgraph name body, opened, h => by
      rw [Stmt.walk, openingsOf_cons, List.forall_mem_cons] at opened
      exact h.subgraph here opened.1 (Stmt.gainsBody _ _ body)
        (Stmt.retainsBody gathers rfl body opened.2)

theorem Operand.retains (gathers : t.Gathers key) {around : List SubgraphKey}
    {w : List Occurrence} {scope : Scope} {c : Course} (here : scope.subgraph = around.head?) :
    (o : Operand) → (∀ p ∈ openingsOf (o.walk scope c), p ∈ t.openings) →
      t.Retains key around w c → t.Retains key around (w ++ o.walk scope c) (o.course c)
  | .node id, _, h => h.mention gathers here rfl rfl _
  | .subgraph name body, opened, h => by
      rw [Operand.walk, openingsOf_cons, List.forall_mem_cons] at opened
      exact h.subgraph here opened.1 (Stmt.gainsBody _ _ body)
        (Stmt.retainsBody gathers rfl body opened.2)

theorem Stmt.retainsHops (gathers : t.Gathers key) {around : List SubgraphKey}
    {w : List Occurrence} {scope : Scope} {c : Course} (here : scope.subgraph = around.head?) :
    (hops : List (EdgeOp × Operand)) →
      (∀ o ∈ openingsOf (Stmt.walkHops scope c hops), o ∈ t.openings) →
        t.Retains key around w c →
          t.Retains key around (w ++ Stmt.walkHops scope c hops) (Stmt.courseHops c hops)
  | [], _, h => by rwa [Stmt.walkHops, List.append_nil]
  | (op, head) :: hops, opened, h => by
      rw [Stmt.walkHops, openingsOf_append, List.forall_mem_append] at opened
      rw [Stmt.walkHops, ← List.append_assoc]
      exact Stmt.retainsHops gathers here hops opened.2 (head.retains gathers here opened.1 h)

theorem Stmt.retainsBody (gathers : t.Gathers key) {around : List SubgraphKey}
    {w : List Occurrence} {scope : Scope} {c : Course} (here : scope.subgraph = around.head?) :
    (body : List Stmt) → (∀ o ∈ openingsOf (Stmt.walkBody scope c body), o ∈ t.openings) →
      t.Retains key around w c →
        t.Retains key around (w ++ Stmt.walkBody scope c body) (Stmt.courseBody c body)
  | [], _, h => by rwa [Stmt.walkBody, List.append_nil]
  | first :: rest, opened, h => by
      rw [Stmt.walkBody, openingsOf_append, List.forall_mem_append] at opened
      rw [Stmt.walkBody, ← List.append_assoc]
      have hbehind : (scope.behind first).subgraph = around.head? := by
        rw [Scope.subgraph_behind, here]
      exact Stmt.retainsBody gathers hbehind rest opened.2
        (first.retains gathers here opened.1 h)

end

end DotLang
