import DotLang.Builder
/-!
# Walks through a text

A visit of a text mentions nodes, opens subgraphs, sets defaults and joins
operands, in the order of the text.  `Tree.walk` lists these events.  It is read
off the tree alone, with names in place of references, and without the tables and
stacks of the builder.

Every event has a `Scope`: the subgraph that it stands in, and the settings in
force.  A scope is passed inwards only.  A body hands it from statement to
statement, a statement that sets defaults adds itself for those behind it, and a
subgraph starts with the scope that it stands in.  So the settings of a scope are
those that stand in front of a place, directly in a body around it.

Two things do not follow from the place alone, and `Course` carries them along:
the number of a subgraph without a name, and the nodes that a subgraph stands for
as an operand of an edge.  The latter are those mentioned in its body so far and,
where its name was used before, those of its body that was closed last.

The parts of a walk that the properties of models speak of are its mentions of
nodes, its openings of subgraphs, and its fans of edges.
-/

namespace DotLang

/-! ## Scopes -/

/-- A subgraph of a text.  Bodies with the same name belong to one subgraph, and a
subgraph without a name is known by its number. -/
inductive SubgraphKey
  | named (name : String)
  | unnamed (number : Nat)
deriving DecidableEq, Repr

namespace SubgraphKey

/-- The name of the subgraph. -/
def name : SubgraphKey → Option String
  | .named name => some name
  | .unnamed _ => none

/-- The name of the node that holds the subgraph. -/
def holder : SubgraphKey → String
  | .named name => name
  | .unnamed number => "%" ++ toString number

/-- The number of a subgraph without a name. -/
def number? : SubgraphKey → Option Nat
  | .named _ => none
  | .unnamed number => some number

end SubgraphKey

/-- What holds at a place of a text because of the bodies around it. -/
structure Scope where
  /-- The subgraph of the innermost body, none in the body of the text itself. -/
  subgraph : Option SubgraphKey
  /-- The settings in front of the place that stand directly in a body around it, in
  order. -/
  settings : List (Element × AttrList)
deriving DecidableEq, Repr

namespace Scope

/-- The scope at the start of a text. -/
def top : Scope := ⟨none, []⟩

/-- The entries of the settings for a kind of element, in order. -/
def entries (scope : Scope) (element : Element) : AttrList :=
  (scope.settings.filter fun setting => setting.1 = element).flatMap Prod.snd

/-- The scope behind a statement, in the same body. -/
def behind (scope : Scope) : Stmt → Scope
  | .defaults element attrs => { scope with settings := scope.settings ++ [(element, attrs)] }
  | _ => scope

/-- The scope at the start of the body of a subgraph. -/
def inside (scope : Scope) (key : SubgraphKey) : Scope := { scope with subgraph := some key }

end Scope

/-! ## Courses -/

/-- What was opened and mentioned up to a point of a text. -/
structure Course where
  /-- The number of subgraphs without a name. -/
  unnamed : Nat
  /-- The members of the body of that name that was closed last.  There are none while a
  later body of the name is open. -/
  closed : String → List String
  /-- The members of the innermost open body. -/
  members : List String

namespace Course

/-- Nothing was opened or mentioned. -/
def start : Course := ⟨0, fun _ => [], []⟩

/-- The subgraph that a body belongs to. -/
def key (c : Course) : Option String → SubgraphKey
  | none => .unnamed (c.unnamed + 1)
  | some name => .named name

/-- A node is mentioned. -/
def mention (c : Course) (name : String) : Course :=
  if name ∈ c.members then c else { c with members := c.members ++ [name] }

/-- The members of the bodies of a name, if there is one, are now these. -/
def keep (c : Course) (name : Option String) (members : List String) : Course :=
  match name with
  | none => c
  | some name =>
      { c with closed := fun other => if other = name then members else c.closed other }

/-- The body of a subgraph is opened, and goes on from the last one of its name. -/
def opening (c : Course) : Option String → Course
  | none => { c with unnamed := c.unnamed + 1, members := [] }
  | some name => { c.keep name [] with members := c.closed name }

/-- A body is closed, where `inner` is the course at its end.  Its members are members
of the body around it as well. -/
def closing (outer inner : Course) (name : Option String) : Course :=
  (inner.members.foldl mention { inner with members := outer.members }).keep name inner.members

end Course

mutual

/-- The course behind a statement. -/
def Stmt.course (c : Course) : Stmt → Course
  | .node id _ => c.mention id.name.value
  | .edge tail hops _ => Stmt.courseHops (tail.course c) hops
  | .defaults .. => c
  | .subgraph name body =>
      c.closing (Stmt.courseBody (c.opening (name.map Id.value)) body) (name.map Id.value)

/-- The course behind an operand. -/
def Operand.course (c : Course) : Operand → Course
  | .node id => c.mention id.name.value
  | .subgraph name body =>
      c.closing (Stmt.courseBody (c.opening (name.map Id.value)) body) (name.map Id.value)

/-- The course behind operands. -/
def Stmt.courseHops (c : Course) : List (EdgeOp × Operand) → Course
  | [] => c
  | (_, head) :: hops => Stmt.courseHops (head.course c) hops

/-- The course behind the statements of a body. -/
def Stmt.courseBody (c : Course) : List Stmt → Course
  | [] => c
  | first :: rest => Stmt.courseBody (first.course c) rest

end

/-! ## Walks -/

/-- One of the nodes that an operand stands for, and the port there. -/
structure Tip where
  /-- The name of the node. -/
  name : String
  /-- The port. -/
  port : Option String
deriving DecidableEq, Repr

/-- The nodes that an operand stands for. -/
def Operand.tips (c : Course) : Operand → List Tip
  | .node id => [⟨id.name.value, id.port⟩]
  | .subgraph name body =>
      (Stmt.courseBody (c.opening (name.map Id.value)) body).members.map (⟨·, none⟩)

/-- The nodes that each of some operands stands for. -/
def Stmt.tipsHops (c : Course) : List (EdgeOp × Operand) → List (List Tip)
  | [] => []
  | (_, head) :: hops => head.tips c :: Stmt.tipsHops (head.course c) hops

/-- What happens at a point of a text. -/
inductive Event
  /-- A statement declares a node. -/
  | node (name : String) (attrs : AttrList)
  /-- A node is an operand of an edge statement. -/
  | endpoint (name : String)
  /-- A statement sets defaults. -/
  | setting (element : Element) (attrs : AttrList)
  /-- The body of a subgraph is opened. -/
  | opening (key : SubgraphKey)
  /-- An edge statement ends, and its operands stand for these nodes. -/
  | edges (operands : List (List Tip)) (attrs : AttrList)
deriving DecidableEq, Repr

/-- An event and the scope of its statement. -/
structure Occurrence where
  scope : Scope
  event : Event
deriving DecidableEq, Repr

mutual

/-- The events of a statement. -/
def Stmt.walk (scope : Scope) (c : Course) : Stmt → List Occurrence
  | .node id attrs => [⟨scope, .node id.name.value attrs⟩]
  | .edge tail hops attrs =>
      tail.walk scope c ++ Stmt.walkHops scope (tail.course c) hops ++
        [⟨scope, .edges (tail.tips c :: Stmt.tipsHops (tail.course c) hops) attrs⟩]
  | .defaults element attrs => [⟨scope, .setting element attrs⟩]
  | .subgraph name body =>
      ⟨scope, .opening (c.key (name.map Id.value))⟩ ::
        Stmt.walkBody (scope.inside (c.key (name.map Id.value)))
          (c.opening (name.map Id.value)) body

/-- The events of an operand. -/
def Operand.walk (scope : Scope) (c : Course) : Operand → List Occurrence
  | .node id => [⟨scope, .endpoint id.name.value⟩]
  | .subgraph name body =>
      ⟨scope, .opening (c.key (name.map Id.value))⟩ ::
        Stmt.walkBody (scope.inside (c.key (name.map Id.value)))
          (c.opening (name.map Id.value)) body

/-- The events of operands. -/
def Stmt.walkHops (scope : Scope) (c : Course) : List (EdgeOp × Operand) → List Occurrence
  | [] => []
  | (_, head) :: hops => head.walk scope c ++ Stmt.walkHops scope (head.course c) hops

/-- The events of a body. -/
def Stmt.walkBody (scope : Scope) (c : Course) : List Stmt → List Occurrence
  | [] => []
  | first :: rest => first.walk scope c ++ Stmt.walkBody (scope.behind first) (first.course c) rest

end

/-- The events of a text. -/
def Tree.walk (t : Tree) : List Occurrence := Stmt.walkBody .top .start t.body

/-! ## Mentions -/

/-- A node is mentioned, in a statement for it or at an end of an edge. -/
structure Mention where
  scope : Scope
  name : String
  /-- The attributes that stand there, none at an end of an edge. -/
  attrs : AttrList
deriving DecidableEq, Repr

/-- The mention that an event is. -/
def Occurrence.mention? : Occurrence → Option Mention
  | ⟨scope, .node name attrs⟩ => some ⟨scope, name, attrs⟩
  | ⟨scope, .endpoint name⟩ => some ⟨scope, name, []⟩
  | _ => none

/-- The mentions of a walk. -/
def mentionsOf (w : List Occurrence) : List Mention := w.filterMap Occurrence.mention?

/-- The mentions of nodes in a text. -/
def Tree.mentions (t : Tree) : List Mention := mentionsOf t.walk

section Mentions
variable {o : Occurrence} {m : Mention} (w w' : List Occurrence)

theorem mentionsOf_append : mentionsOf (w ++ w') = mentionsOf w ++ mentionsOf w' :=
  List.filterMap_append

theorem mentionsOf_concat (h : o.mention? = some m) :
    mentionsOf (w ++ [o]) = mentionsOf w ++ [m] := by
  rw [mentionsOf_append]
  exact congrArg _ (List.filterMap_cons_some h)

/-- An event that mentions nothing. -/
theorem mentionsOf_concat_none (h : o.mention? = none) : mentionsOf (w ++ [o]) = mentionsOf w := by
  have hnone : mentionsOf [o] = [] := List.filterMap_cons_none h
  rw [mentionsOf_append, hnone, List.append_nil]

end Mentions

/-! ## Openings -/

/-- The body of a subgraph is opened. -/
structure Opening where
  /-- The scope that the subgraph stands in. -/
  scope : Scope
  key : SubgraphKey
deriving DecidableEq, Repr

/-- The opening that an event is. -/
def Occurrence.opening? : Occurrence → Option Opening
  | ⟨scope, .opening key⟩ => some ⟨scope, key⟩
  | _ => none

/-- The openings of a walk. -/
def openingsOf (w : List Occurrence) : List Opening := w.filterMap Occurrence.opening?

/-- The bodies of subgraphs that a text opens. -/
def Tree.openings (t : Tree) : List Opening := openingsOf t.walk

/-- The subgraphs of a walk, in the order in which they are opened first. -/
def subgraphsOf (w : List Occurrence) : List SubgraphKey :=
  ((openingsOf w).map Opening.key).eraseDups

/-- The subgraphs of a text, in the order in which they are opened first. -/
def Tree.subgraphs (t : Tree) : List SubgraphKey := subgraphsOf t.walk

section Openings
variable {o : Occurrence} {key : SubgraphKey} (w w' : List Occurrence) (scope : Scope)

theorem openingsOf_append : openingsOf (w ++ w') = openingsOf w ++ openingsOf w' :=
  List.filterMap_append

theorem openingsOf_cons (key : SubgraphKey) :
    openingsOf (⟨scope, .opening key⟩ :: w) = ⟨scope, key⟩ :: openingsOf w := rfl

theorem openingsOf_concat (key : SubgraphKey) :
    openingsOf (w ++ [⟨scope, .opening key⟩]) = openingsOf w ++ [⟨scope, key⟩] :=
  openingsOf_append w _

/-- An event that opens nothing. -/
theorem openingsOf_concat_none (h : o.opening? = none) : openingsOf (w ++ [o]) = openingsOf w := by
  have hnone : openingsOf [o] = [] := List.filterMap_cons_none h
  rw [openingsOf_append, hnone, List.append_nil]

variable {w} in
theorem mem_subgraphsOf : key ∈ subgraphsOf w ↔ ∃ o ∈ openingsOf w, o.key = key := by
  unfold subgraphsOf
  rw [List.mem_eraseDups, List.mem_map]

end Openings

/-- The reference that a subgraph has in the model of a text: the graphs are the
top-level graph and then the subgraphs. -/
def graphRefIn (keys : List SubgraphKey) : Option SubgraphKey → GraphRef
  | none => Model.root
  | some key => ⟨keys.idxOf key + 1⟩

/-- The graph of a model of the text that a body belongs to. -/
def Tree.graphRef (t : Tree) : Option SubgraphKey → GraphRef := graphRefIn t.subgraphs

/-! ## Fans -/

/-- An edge statement: its operands stand for these nodes. -/
structure Fan where
  scope : Scope
  operands : List (List Tip)
  attrs : AttrList
deriving DecidableEq, Repr

/-- The edge statement that an event ends. -/
def Occurrence.fan? : Occurrence → Option Fan
  | ⟨scope, .edges operands attrs⟩ => some ⟨scope, operands, attrs⟩
  | _ => none

/-- The edge statements of a walk. -/
def fansOf (w : List Occurrence) : List Fan := w.filterMap Occurrence.fan?

/-- The edge statements of a text, in the order in which they end. -/
def Tree.fans (t : Tree) : List Fan := fansOf t.walk

/-- An edge by names. -/
structure Link where
  /-- The subgraph that it stands in. -/
  subgraph : Option SubgraphKey
  tail : String
  head : String
  attrs : Attributes
deriving DecidableEq, Repr

/-- The attributes with the port of an endpoint under its key, if there is one. -/
def Attributes.insertPort (a : Attributes) (key : String) : Option String → Attributes
  | none => a
  | some port => a.insert key (Id.ofText port)

namespace Fan

/-- The edge between two of the nodes. -/
def link (f : Fan) (tail head : Tip) : Link where
  subgraph := f.scope.subgraph
  tail := tail.name
  head := head.name
  attrs := (((Attributes.ofList (f.scope.entries .edge)).insertList f.attrs).insertPort
    "tailport" tail.port).insertPort "headport" head.port

/-- The edges from every node of an operand to every node of the next. -/
def linksAlong (f : Fan) : List (List Tip) → List Link
  | tails :: heads :: rest =>
      (tails.flatMap fun tail => heads.map fun head => f.link tail head) ++
        f.linksAlong (heads :: rest)
  | _ => []

/-- The edges of the statement. -/
def links (f : Fan) : List Link := f.linksAlong f.operands

end Fan

/-- The edges of a walk. -/
def linksOf (w : List Occurrence) : List Link := (fansOf w).flatMap Fan.links

/-- The edges of a text: those of its edge statements, in the order in which these
end. -/
def Tree.links (t : Tree) : List Link := linksOf t.walk

example :
    let inner : Stmt := .edge (.node ⟨.ofText "b", none⟩) [(.arrow, .node ⟨.ofText "c", none⟩)] []
    let t : Tree := ⟨false, .digraph, none, [
      .edge (.node ⟨.ofText "a", none⟩) [
        (.arrow, .subgraph (some (.ofText "s")) [inner, .node ⟨.ofText "b", none⟩ []]),
        (.arrow, .node ⟨.ofText "d", none⟩)] []]⟩
    t.links.map (fun l => (l.subgraph, l.tail, l.head)) =
      [(some (.named "s"), "b", "c"), (none, "a", "b"), (none, "a", "c"), (none, "b", "d"),
        (none, "c", "d")] := rfl

end DotLang
