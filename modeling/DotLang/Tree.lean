import DotLang.Id
/-!
# Syntax trees

The tree of a DOT text: one graph after the other, each with a body of
statements.  A statement declares a node, joins operands with edges, sets
attributes, or opens a subgraph.  An operand of an edge is a node or a whole
subgraph.
-/

namespace DotLang

/-- The two kinds of graph. -/
inductive GraphKind
  | graph
  | digraph
deriving DecidableEq, Repr

/-- The two edge operators. -/
inductive EdgeOp
  | arrow
  | line
deriving DecidableEq, Repr

/-- The operator as it is written. -/
def EdgeOp.text : EdgeOp → String
  | .arrow => "->"
  | .line => "--"

namespace GraphKind

/-- Whether the edges of the graph have a direction. -/
def isDirected (k : GraphKind) : Bool := k == .digraph

/-- The keyword that opens a graph of this kind. -/
def keyword : GraphKind → Keyword
  | .graph => .graph
  | .digraph => .digraph

/-- The one edge operator that a graph of this kind allows. -/
def edgeOp : GraphKind → EdgeOp
  | .graph => .line
  | .digraph => .arrow

end GraphKind

/-- The kinds of element that attributes belong to. -/
inductive Element
  /-- A graph, subgraph or cluster. -/
  | graph
  | node
  | edge
deriving DecidableEq, Repr

/-- The keyword of a statement that sets defaults for such elements. -/
def Element.keyword : Element → Keyword
  | .graph => .graph
  | .node => .node
  | .edge => .edge

/-- Names with values, in the order in which they are written.  A name may
occur more than once. -/
abbrev AttrList := List (String × Id)

/-- A node and the port that an edge is attached to. -/
structure NodeId where
  /-- The name of the node. -/
  name : Id
  /-- The text behind the first colon, such as `p`, `p:ne` or `ne`. -/
  port : Option String
deriving DecidableEq, Repr

mutual

/-- A statement of a body. -/
inductive Stmt
  /-- A node and attributes for it. -/
  | node (id : NodeId) (attrs : AttrList)
  /-- A chain of operands, each hop with its operator, and attributes for every
  edge of the chain. -/
  | edge (tail : Operand) (hops : List (EdgeOp × Operand)) (attrs : AttrList)
  /-- Defaults for the elements that follow.  For graphs they are the attributes
  of the enclosing graph as well. -/
  | defaults (element : Element) (attrs : AttrList)
  /-- A subgraph and its body. -/
  | subgraph (name : Option Id) (body : List Stmt)

/-- One end of an edge. -/
inductive Operand
  | node (id : NodeId)
  /-- Every node of a subgraph. -/
  | subgraph (name : Option Id) (body : List Stmt)

end

/-- The tree of a top-level graph. -/
structure Tree where
  /-- Whether the graph is declared strict. -/
  strict : Bool
  /-- The kind of the graph. -/
  kind : GraphKind
  /-- The name of the graph. -/
  name : Option Id
  /-- The statements of the graph. -/
  body : List Stmt

end DotLang
