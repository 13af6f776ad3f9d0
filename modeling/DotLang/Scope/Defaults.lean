import DotLang.Attributes
import DotLang.Tree
/-!
# Attribute defaults

At every point of a body there are defaults for graphs, nodes and edges.  A
subgraph starts with the defaults around it, and what it changes is gone when it
is closed.
-/

namespace DotLang

/-- The defaults at a point of a body. -/
structure Frame where
  graph : Attributes
  node : Attributes
  edge : Attributes
deriving DecidableEq, Repr

namespace Frame

/-- The frame without defaults. -/
def empty : Frame := ⟨.empty, .empty, .empty⟩

/-- The defaults for a kind of element. -/
def get (f : Frame) : Element → Attributes
  | .graph => f.graph
  | .node => f.node
  | .edge => f.edge

/-- Adds to the defaults for a kind of element. -/
def insertList (f : Frame) (element : Element) (l : AttrList) : Frame :=
  match element with
  | .graph => { f with graph := f.graph.insertList l }
  | .node => { f with node := f.node.insertList l }
  | .edge => { f with edge := f.edge.insertList l }

end Frame

/-- The defaults of a body and of the bodies around it.  There is always a
frame. -/
structure Defaults where
  /-- The frame of the innermost body. -/
  current : Frame
  /-- The frames around it, the innermost first. -/
  outer : List Frame
deriving DecidableEq, Repr

namespace Defaults

/-- The defaults at the start of a graph. -/
def empty : Defaults := ⟨.empty, []⟩

/-- The number of frames. -/
def depth (d : Defaults) : Nat := d.outer.length + 1

/-- Enters a body, which starts with the defaults around it. -/
def enter (d : Defaults) : Defaults := ⟨d.current, d.current :: d.outer⟩

/-- Leaves a body.  The outermost one cannot be left. -/
def leave? (d : Defaults) : Option Defaults :=
  match d.outer with
  | [] => none
  | f :: rest => some ⟨f, rest⟩

/-- Adds to the defaults of the innermost body. -/
def set (d : Defaults) (element : Element) (l : AttrList) : Defaults :=
  { d with current := d.current.insertList element l }

/-- The attributes of a new element: the defaults, and over them its own
list. -/
def resolve (d : Defaults) (element : Element) (l : AttrList) : Attributes :=
  (d.current.get element).insertList l

end Defaults

end DotLang
