import DotLang.Log
import DotLang.Model
import DotLang.Schema
import DotLang.Scope.Defaults
import DotLang.Scope.Names
/-!
# Building models

The builder goes through the statements of a graph in order and adds their
nodes, edges and subgraphs to a model.

* Names of nodes and subgraphs are global to the graph.  When a subgraph is
  closed its names are hoisted, so that the bodies after it find them.
* A node stands in the body that mentions it first.  It takes the defaults of
  that point, and later statements only add their own attributes.
* A subgraph with a known name is opened again, and its body goes on.
* An operand that is a subgraph stands for every node mentioned in it, now or in
  its earlier bodies, and an edge statement joins every node of an operand with
  every node of the next.

Values are checked against the schema before they are used.  A fault ends the
visit of a graph, and the state keeps what was done before it.
-/

namespace DotLang

/-- The reasons why a graph cannot be built. -/
inductive BuildError
  /-- A value does not follow its grammar. -/
  | attribute (e : AttributeError)
  /-- An operand is a subgraph of that name without nodes. -/
  | emptyOperand (name : Option String)
  /-- The outermost body is left. -/
  | outermostScope
deriving DecidableEq, Repr

/-- The error in one line. -/
def BuildError.message : BuildError → String
  | .attribute e => e.message
  | .emptyOperand name =>
      "unresolved edge endpoint: " ++
        (match name with
          | none => "anonymous subgraph"
          | some n => "subgraph " ++ n) ++ " has no nodes"
  | .outermostScope => "Popping the outermost scope"

/-- The nodes mentioned in a body, in the order of their first mention. -/
abbrev Members := List NodeRef

/-- The members with one more node, if it is new. -/
def Members.add (ms : Members) (n : NodeRef) : Members := if n ∈ ms then ms else ms ++ [n]

/-- The state of building a graph. -/
structure Builder where
  /-- The model so far. -/
  model : Model
  /-- The graph that receives the nodes and edges of the present body. -/
  current : GraphRef
  /-- The attribute defaults. -/
  defaults : Defaults
  /-- The nodes by name. -/
  nodes : Names NodeRef
  /-- The subgraphs by name. -/
  subgraphs : Names GraphRef
  /-- The members of the open subgraphs, the innermost first. -/
  opened : List Members
  /-- The members of the closed subgraphs with a name. -/
  closed : List (GraphRef × Members)
  /-- The number of subgraphs without a name. -/
  anonymous : Nat
  /-- What was reported, the oldest first. -/
  log : List LogEvent

/-- A step of the builder. -/
abbrev Build := EStateM BuildError Builder

/-- A node at one end of an edge, and the port there. -/
structure Endpoint where
  /-- The node. -/
  node : NodeRef
  /-- The port. -/
  port : Option String
deriving DecidableEq, Repr

namespace Builder

/-- The builder of an empty graph. -/
def new (kind : GraphKind) (name : Option String) : Builder :=
  ⟨.new kind name, Model.root, .empty, .empty, .empty, [], [], 0, []⟩

/-- Reports an event. -/
def report (e : LogEvent) : Build Unit := modify fun b => { b with log := b.log ++ [e] }

/-- Goes on after a check, or fails with its error. -/
def check : Except AttributeError Unit → Build Unit
  | .ok _ => pure ()
  | .error e => throw (.attribute e)

/-! ## Nodes -/

/-- Notes a node as a member of the innermost open subgraph. -/
def mention (n : NodeRef) : Build Unit :=
  modify fun b =>
    match b.opened with
    | [] => b
    | ms :: rest => { b with opened := ms.add n :: rest }

/-- Adds a node to the present body, with the defaults and its own
attributes. -/
def createNode (name : String) (attrs : AttrList) : Build NodeRef :=
  modifyGet fun b =>
    let (n, model) := b.model.addNode b.current name (b.defaults.resolve .node attrs)
    (n, { b with model := model, nodes := b.nodes.insert name n })

/-- The node of that name, which is created if it is new. -/
def node (name : String) (attrs : AttrList) : Build NodeRef := do
  match (← get).nodes.find? name with
  | some n =>
      modify fun b => { b with model := b.model.modifyNodeAttrs n (·.insertList attrs) }
      mention n
      return n
  | none =>
      let n ← createNode name attrs
      mention n
      return n

/-- Sets defaults.  Those for graphs are attributes of the present graph as
well. -/
def setDefaults (element : Element) (attrs : AttrList) : Build Unit := do
  modify fun b => { b with defaults := b.defaults.set element attrs }
  if element = .graph then
    modify fun b => { b with model := b.model.modifyGraphAttrs b.current (·.insertList attrs) }

/-! ## Edges -/

/-- The attributes with the port of an endpoint under its key. -/
def withPort (key : String) (port : Option String) (attrs : Attributes) : Build Attributes := do
  match port with
  | none => return attrs
  | some p =>
      check (Schema.validate .edge key (Id.ofText p))
      return attrs.insert key (Id.ofText p)

/-- Adds the edge between two endpoints. -/
def connect (attrs : AttrList) (tail head : Endpoint) : Build Unit := do
  let resolved ← withPort "tailport" tail.port ((← get).defaults.resolve .edge attrs)
  let resolved ← withPort "headport" head.port resolved
  modify fun b =>
    { b with model := (b.model.addEdge b.current tail.node head.node resolved).2 }

/-- Adds the edges from every endpoint of one operand to every endpoint of the
next, along a chain of operands. -/
def connectChain (attrs : AttrList) : List (List Endpoint) → Build Unit
  | tails :: heads :: rest => do
      tails.forM fun tail => heads.forM fun head => connect attrs tail head
      connectChain attrs (heads :: rest)
  | _ => return

/-! ## Subgraphs -/

/-- The graph that a subgraph opens: the one of its name, or a new one that
inherits the graph defaults. -/
def openGraph (name : Option String) : Build GraphRef := do
  match name.bind (← get).subgraphs.find? with
  | some g =>
      report (.reopened (name.getD ""))
      return g
  | none =>
      if name.isNone then
        modify fun b => { b with anonymous := b.anonymous + 1 }
      let b ← get
      let holder := name.getD ("%" ++ toString b.anonymous)
      let (_, g, model) := b.model.addSubgraph b.current holder name b.defaults.current.graph
      modify fun b => { b with
        model := model
        subgraphs := match name with
          | none => b.subgraphs
          | some n => b.subgraphs.insert n g }
      report (.created holder)
      return g

/-- Enters the body of a subgraph.  A graph that is opened again still has the
members of its earlier bodies. -/
def enter (g : GraphRef) : Build Unit :=
  modify fun b => { b with
    current := g
    defaults := b.defaults.enter
    nodes := b.nodes.enter
    subgraphs := b.subgraphs.enter
    opened := (b.closed.lookup g).getD [] :: b.opened
    closed := b.closed.filter fun c => c.1 ≠ g }

/-- Leaves the body of a subgraph for the graph around it, and gives the members
of the subgraph. -/
def leave (outer : GraphRef) : Build Members := do
  let b ← get
  match b.defaults.leave? with
  | none => throw .outermostScope
  | some defaults =>
      set { b with
        current := outer
        defaults := defaults
        nodes := b.nodes.hoist
        subgraphs := b.subgraphs.hoist
        opened := b.opened.tail }
      return b.opened.headD []

/-- Visits a subgraph whose body is visited by `body`, and gives its
members. -/
def subgraph (name : Option String) (body : Build Unit) : Build Members := do
  let g ← openGraph name
  let outer := (← get).current
  enter g
  body
  let members ← leave outer
  members.forM mention
  if name.isSome then
    modify fun b => { b with closed := (g, members) :: b.closed.filter fun c => c.1 ≠ g }
  return members

/-- The endpoints that a subgraph stands for, at least one. -/
def endpoints (name : Option String) (members : Members) : Build (List Endpoint) :=
  if members.isEmpty then throw (.emptyOperand name) else return members.map (⟨·, none⟩)

/-! ## Statements -/

mutual

/-- Visits a statement. -/
def stmt : Stmt → Build Unit
  | .node id attrs => do
      check (Schema.validateList .node attrs)
      let _ ← node id.name.value attrs
  | .edge tail hops attrs => do
      check (Schema.validateList .edge attrs)
      let first ← operand tail
      let rest ← heads hops
      connectChain attrs (first :: rest)
  | .defaults element attrs => do
      check (Schema.validateList element attrs)
      setDefaults element attrs
  | .subgraph name stmts => do
      let _ ← subgraph (name.map Id.value) (body stmts)

/-- Visits an operand, and gives its endpoints. -/
def operand : Operand → Build (List Endpoint)
  | .node id => do
      let n ← node id.name.value []
      return [⟨n, id.port⟩]
  | .subgraph name stmts => do
      let members ← subgraph (name.map Id.value) (body stmts)
      endpoints (name.map Id.value) members

/-- Visits the operands behind the first one, and gives their endpoints. -/
def heads : List (EdgeOp × Operand) → Build (List (List Endpoint))
  | [] => return []
  | (_, head) :: hops => do
      let first ← operand head
      return first :: (← heads hops)

/-- Visits a body. -/
def body : List Stmt → Build Unit
  | [] => return
  | first :: rest => do
      stmt first
      body rest

end

/-- Visits a top-level graph. -/
def tree (t : Tree) : Build Unit := do
  modify fun b => { b with
    model := { b.model with strict := t.strict }
    nodes := b.nodes.enter
    subgraphs := b.subgraphs.enter }
  body t.body
  modify fun b => { b with nodes := b.nodes.drop, subgraphs := b.subgraphs.drop }
  let m := (← get).model
  report (.built (m.nameOf Model.root) m.nodes.size m.edges.size (m.graphs.size - 1))

end Builder

end DotLang
