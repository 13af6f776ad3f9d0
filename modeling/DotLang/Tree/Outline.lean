import DotLang.Tree
/-!
# Outlines

An outline shows a tree line by line, a deeper level by one more blank at the
start of its lines.
-/

namespace DotLang

/-- A line of an outline, inside `depth` levels. -/
def outlineLine (depth : Nat) (content : String) : String :=
  String.ofList (List.replicate depth ' ') ++ content ++ "\n"

/-- The name as it is written, nothing for no name. -/
def Id.nameText : Option Id → String
  | none => ""
  | some i => i.text

/-- The attributes, each on a line with its number. -/
def AttrList.outline (depth : Nat) (attrs : AttrList) : String :=
  String.join (attrs.zipIdx.map fun ((name, value), i) =>
    outlineLine depth (toString i ++ ") " ++ name ++ " = " ++ value.text))

/-- The node with its port. -/
def NodeId.outline (depth : Nat) (n : NodeId) : String :=
  outlineLine depth (n.name.text ++ match n.port with
    | none => ""
    | some port => ":" ++ port)

/-- The name of an element in an outline. -/
def Element.label : Element → String
  | .graph => "Graph"
  | .node => "Node"
  | .edge => "Edge"

mutual

/-- The outline of a statement. -/
def Stmt.outline (depth : Nat) : Stmt → String
  | .node id attrs =>
      outlineLine depth "Node:" ++ id.outline (depth + 1) ++ attrs.outline (depth + 1)
  | .edge tail hops attrs =>
      outlineLine depth "Edge:" ++ tail.outline (depth + 1) ++ Stmt.outlineHops (depth + 1) hops ++
        attrs.outline (depth + 1)
  | .defaults element attrs =>
      outlineLine depth ("Attribute " ++ element.label ++ ":") ++ attrs.outline (depth + 1)
  | .subgraph name body =>
      outlineLine depth ("Subgraph: " ++ Id.nameText name) ++ Stmt.outlineBody (depth + 1) body

/-- The outline of an operand. -/
def Operand.outline (depth : Nat) : Operand → String
  | .node id => id.outline depth
  | .subgraph name body =>
      outlineLine depth ("Subgraph: " ++ Id.nameText name) ++ Stmt.outlineBody (depth + 1) body

/-- The outline of the hops of an edge, each operator on a line. -/
def Stmt.outlineHops (depth : Nat) : List (EdgeOp × Operand) → String
  | [] => ""
  | (op, head) :: hops =>
      outlineLine depth op.text ++ head.outline depth ++ Stmt.outlineHops depth hops

/-- The outline of a body. -/
def Stmt.outlineBody (depth : Nat) : List Stmt → String
  | [] => ""
  | stmt :: body => stmt.outline depth ++ Stmt.outlineBody depth body

end

/-- The outline of a top-level graph. -/
def Tree.outline (t : Tree) : String :=
  (if t.strict then "Strict " else "") ++
    (match t.kind with
      | .graph => "Graph"
      | .digraph => "Digraph") ++
    ": " ++ Id.nameText t.name ++ "\n" ++ Stmt.outlineBody 1 t.body

end DotLang
