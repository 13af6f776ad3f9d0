import DotLang.Proofs.Arrival
import DotLang.Proofs.Layout
/-!
# What a course remembers

The members of an open body only grow.  Every name that is mentioned in a part of a
text, at any depth, is a member of the body around the part, since a subgraph passes
its members on when it is closed.  What is kept for a name changes only where a body of
that name is opened or closed.

So a subgraph that is closed and opened again at once is where it was
(`Course.opening_closing`), and closing it twice does to the body around it what closing
it once does (`Course.closing_closing`).
-/

namespace DotLang

/-! ## Noted names -/

/-- The names with further ones behind them, each once. -/
def noted (ms names : List String) : List String :=
  names.foldl (fun ms name => if name ∈ ms then ms else ms ++ [name]) ms

section Noted
variable (ms names more : List String)

theorem noted_cons (name : String) :
    noted ms (name :: names) = noted (if name ∈ ms then ms else ms ++ [name]) names := rfl

theorem noted_append : noted ms (names ++ more) = noted (noted ms names) more := List.foldl_append

theorem prefix_noted : ms <+: noted ms names := by
  induction names generalizing ms with
  | nil => exact List.prefix_refl ms
  | cons name names ih =>
      rw [noted_cons]
      refine List.IsPrefix.trans ?_ (ih _)
      split
      · exact List.prefix_refl ms
      · exact List.prefix_append ms [name]

variable {ms names} in
theorem subset_noted : names ⊆ noted ms names := by
  induction names generalizing ms with
  | nil => exact List.nil_subset _
  | cons name names ih =>
      rw [noted_cons, List.cons_subset]
      refine ⟨(prefix_noted _ names).subset ?_, ih⟩
      split
      · assumption
      · exact List.mem_concat_self

variable {ms names} in
/-- Names that are there already add nothing. -/
theorem noted_of_subset (h : names ⊆ ms) : noted ms names = ms := by
  induction names with
  | nil => rfl
  | cons name names ih =>
      rw [List.cons_subset] at h
      rw [noted_cons, if_pos h.1, ih h.2]

variable {names more} in
/-- Noting the first of some names in advance changes nothing. -/
theorem noted_noted (h : names <+: more) : noted (noted ms names) more = noted ms more := by
  obtain ⟨rest, rfl⟩ := h
  rw [noted_append, noted_of_subset subset_noted, noted_append]

end Noted

namespace Course

variable {c outer inner final : Course} {sub : Option String} {name : String}

theorem mention_eq (c : Course) (name : String) :
    c.mention name = { c with members := noted c.members [name] } := by
  unfold mention noted
  rw [List.foldl_cons, List.foldl_nil]
  split <;> rfl

theorem mention_all_eq (c : Course) (names : List String) :
    names.foldl mention c = { c with members := noted c.members names } := by
  induction names generalizing c with
  | nil => rfl
  | cons name names ih =>
      rw [List.foldl_cons, ih, mention_eq, ← noted_append, List.singleton_append]

theorem closing_eq (outer inner : Course) (sub : Option String) :
    outer.closing inner sub =
      { inner with members := noted outer.members inner.members }.keep sub inner.members := by
  unfold closing
  rw [mention_all_eq]

theorem members_closing (outer inner : Course) (sub : Option String) :
    (outer.closing inner sub).members = noted outer.members inner.members := by
  rw [closing_eq]
  cases sub <;> rfl

/-- Only the name of the closed body is affected. -/
theorem closed_closing_of_ne (h : sub ≠ some name) :
    (outer.closing inner sub).closed name = inner.closed name := by
  rw [closing_eq]
  cases sub with
  | none => rfl
  | some other => exact if_neg fun he => h (congrArg some he.symm)

/-- The members of a closed body are kept. -/
theorem closed_closing (outer inner : Course) (name : String) :
    (outer.closing inner (some name)).closed name = inner.members := by
  rw [closing_eq]
  exact if_pos rfl

/-- Only the name of the opened body is affected. -/
theorem closed_opening_of_ne (h : sub ≠ some name) :
    (c.opening sub).closed name = c.closed name := by
  cases sub with
  | none => rfl
  | some other => exact if_neg fun he => h (congrArg some he.symm)

/-- While a body is open, nothing is kept for its name. -/
theorem closed_opening (c : Course) (name : String) : (c.opening (some name)).closed name = [] :=
  if_pos rfl

/-- A body that is opened again goes on where it was closed. -/
theorem opening_closing (h : inner.closed name = []) :
    (outer.closing inner (some name)).opening (some name) = inner := by
  rw [closing_eq]
  obtain ⟨unnamed, closed, members⟩ := inner
  simp only [opening, keep, Course.mk.injEq, if_pos, true_and, and_true]
  funext other
  by_cases he : other = name
  · rw [if_pos he, he]
    exact h.symm
  · rw [if_neg he, if_neg he]

/-- A body that is closed once more passes its first members on again. -/
theorem closing_closing (h : inner.members <+: final.members) :
    (outer.closing inner sub).closing final sub = outer.closing final sub := by
  rw [closing_eq, closing_eq outer final, members_closing, noted_noted _ h]

end Course

/-! ## Mentioned names -/

/-- The course `c'` has the members of `c` and the mentioned names. -/
structure Course.Gains (c : Course) (mentions : List Mention) (c' : Course) : Prop where
  members : c.members <+: c'.members
  mentioned : ∀ o ∈ mentions, o.name ∈ c'.members

namespace Course.Gains

variable {c c1 c' inner : Course} {l l' : List Mention} {sub : Option String}

theorem nil (c : Course) : c.Gains [] c :=
  ⟨List.prefix_refl _, fun _ ho => absurd ho List.not_mem_nil⟩

theorem append (h : c.Gains l c1) (h' : c1.Gains l' c') : c.Gains (l ++ l') c' :=
  ⟨h.members.trans h'.members, List.forall_mem_append.2
    ⟨fun o ho => h'.members.subset (h.mentioned o ho), h'.mentioned⟩⟩

theorem mention (c : Course) (o : Mention) : c.Gains [o] (c.mention o.name) := by
  rw [mention_eq]
  exact ⟨prefix_noted _ _, List.forall_mem_singleton.2 (subset_noted List.mem_cons_self)⟩

/-- A subgraph passes its members on. -/
theorem closing (h : (c.opening sub).Gains l inner) : c.Gains l (c.closing inner sub) := by
  refine ⟨?_, fun o ho => ?_⟩
  · rw [members_closing]
    exact prefix_noted _ _
  · rw [members_closing]
    exact subset_noted (h.mentioned o ho)

end Course.Gains

mutual

theorem Stmt.gains (scope : Scope) (c : Course) :
    (s : Stmt) → c.Gains (mentionsOf (s.walk scope c)) (s.course c)
  | .node id attrs => .mention c ⟨scope, id.name.value, attrs⟩
  | .edge tail hops attrs => by
      have h := (tail.gains scope c).append (Stmt.gainsHops scope (tail.course c) hops)
      rw [← mentionsOf_append, ← List.append_nil (mentionsOf _)] at h
      rw [Stmt.walk, mentionsOf_append]
      exact h
  | .defaults element attrs => .nil c
  | .subgraph name body => .closing (Stmt.gainsBody _ _ body)

theorem Operand.gains (scope : Scope) (c : Course) :
    (o : Operand) → c.Gains (mentionsOf (o.walk scope c)) (o.course c)
  | .node id => .mention c ⟨scope, id.name.value, []⟩
  | .subgraph _ body => .closing (Stmt.gainsBody _ _ body)

theorem Stmt.gainsHops (scope : Scope) (c : Course) :
    (hops : List (EdgeOp × Operand)) →
      c.Gains (mentionsOf (Stmt.walkHops scope c hops)) (Stmt.courseHops c hops)
  | [] => .nil c
  | (op, head) :: hops => by
      rw [Stmt.walkHops, mentionsOf_append]
      exact (head.gains scope c).append (Stmt.gainsHops scope (head.course c) hops)

theorem Stmt.gainsBody (scope : Scope) (c : Course) :
    (body : List Stmt) →
      c.Gains (mentionsOf (Stmt.walkBody scope c body)) (Stmt.courseBody c body)
  | [] => .nil c
  | first :: rest => by
      rw [Stmt.walkBody, mentionsOf_append]
      exact (first.gains scope c).append (Stmt.gainsBody _ (first.course c) rest)

end

/-! ## Kept members -/

/-- The subgraph has another name. -/
theorem ne_of_not_mem_graphParts {sub : Option Id} {name : String}
    (h : name ∉ graphNames (Id.graphParts sub)) : sub.map Id.value ≠ some name := by
  rw [graphNames_graphParts, Option.mem_toList] at h
  exact h

mutual

/-- Where a name is not declared, what is kept for it stays. -/
theorem Stmt.closed_eq {name : String} (c : Course) :
    (s : Stmt) → name ∉ graphNames s.parts → (s.course c).closed name = c.closed name
  | .node id attrs, _ => congrFun (c.closed_mention _) name
  | .edge tail hops attrs, h => by
      rw [Stmt.parts, graphNames_append, graphNames_append, List.mem_append, List.mem_append,
        not_or, not_or] at h
      rw [Stmt.course, Stmt.closedHops_eq _ hops h.1.2, tail.closed_eq c h.1.1]
  | .defaults element attrs, _ => rfl
  | .subgraph sub body, h => by
      rw [Stmt.parts, graphNames_append, List.mem_append, not_or] at h
      have hne := ne_of_not_mem_graphParts h.1
      rw [Stmt.course, Course.closed_closing_of_ne hne, Stmt.closedBody_eq _ body h.2,
        Course.closed_opening_of_ne hne]

theorem Operand.closed_eq {name : String} (c : Course) :
    (o : Operand) → name ∉ graphNames o.parts → (o.course c).closed name = c.closed name
  | .node id, _ => congrFun (c.closed_mention _) name
  | .subgraph sub body, h => by
      rw [Operand.parts, graphNames_append, List.mem_append, not_or] at h
      have hne := ne_of_not_mem_graphParts h.1
      rw [Operand.course, Course.closed_closing_of_ne hne, Stmt.closedBody_eq _ body h.2,
        Course.closed_opening_of_ne hne]

theorem Stmt.closedHops_eq {name : String} (c : Course) :
    (hops : List (EdgeOp × Operand)) → name ∉ graphNames (Stmt.partsHops hops) →
      (Stmt.courseHops c hops).closed name = c.closed name
  | [], _ => rfl
  | (op, head) :: hops, h => by
      rw [Stmt.partsHops, graphNames_append, List.mem_append, not_or] at h
      rw [Stmt.courseHops, Stmt.closedHops_eq _ hops h.2, head.closed_eq c h.1]

theorem Stmt.closedBody_eq {name : String} (c : Course) :
    (body : List Stmt) → name ∉ graphNames (Stmt.partsBody body) →
      (Stmt.courseBody c body).closed name = c.closed name
  | [], _ => rfl
  | first :: rest, h => by
      rw [Stmt.partsBody, graphNames_append, List.mem_append, not_or] at h
      rw [Stmt.courseBody, Stmt.closedBody_eq _ rest h.2, first.closed_eq c h.1]

end

/-! ## Parts of a text -/

namespace Fragment

/-- The course behind a part. -/
def course (c : Course) : Fragment → Course
  | .stmt s => s.course c
  | .operand o => o.course c
  | .heads hops => Stmt.courseHops c hops
  | .body stmts => Stmt.courseBody c stmts

/-- The events of a part. -/
def walk (scope : Scope) (c : Course) : Fragment → List Occurrence
  | .stmt s => s.walk scope c
  | .operand o => o.walk scope c
  | .heads hops => Stmt.walkHops scope c hops
  | .body stmts => Stmt.walkBody scope c stmts

/-- The scope behind a part. -/
def behind (scope : Scope) : Fragment → Scope
  | .stmt s => scope.behind s
  | _ => scope

end Fragment

end DotLang
