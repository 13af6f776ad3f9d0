import DotLang.Tree
/-!
# Writing trees

`Tree.render` writes a tree as DOT text: one statement on a line, and the body
of a subgraph two blanks further in.  Names of attributes and ports are written
in the simplest form that can hold them, and all other IDs in their own form.
-/

namespace DotLang

/-- The blanks in front of a line, inside `depth` bodies. -/
def indentation (depth : Nat) : List Char := List.replicate (2 * depth) ' '

/-- An attribute with its value. -/
def renderAttr (attr : String × Id) : List Char :=
  (Id.ofText attr.1).render ++ '=' :: attr.2.render

/-- Attributes with commas between them. -/
def renderEntries : AttrList → List Char
  | [] => []
  | [attr] => renderAttr attr
  | attr :: attrs => renderAttr attr ++ ',' :: ' ' :: renderEntries attrs

/-- Attributes between brackets. -/
def renderBracketed (attrs : AttrList) : List Char := ' ' :: '[' :: renderEntries attrs ++ [']']

/-- Attributes between brackets, nothing for none. -/
def renderAttrs (attrs : AttrList) : List Char :=
  if attrs.isEmpty then [] else renderBracketed attrs

/-- A node with its port. -/
def NodeId.render (n : NodeId) : List Char :=
  n.name.render ++ match n.port with
    | none => []
    | some port => ':' :: (Id.ofText port).render

/-- The start of a subgraph up to its body. -/
def renderOpening : Option Id → List Char
  | none => "\x7b\n".toList
  | some name => "subgraph ".toList ++ name.render ++ " \x7b\n".toList

mutual

/-- A statement inside `depth` bodies. -/
def Stmt.render (depth : Nat) : Stmt → List Char
  | .node id attrs => indentation depth ++ id.render ++ renderAttrs attrs ++ ['\n']
  | .edge tail hops attrs =>
      indentation depth ++ tail.render depth ++ Stmt.renderHops depth hops ++ renderAttrs attrs ++
        ['\n']
  | .defaults element attrs =>
      indentation depth ++
        (match element, attrs with
          | .graph, [attr] => renderAttr attr
          | _, _ => element.keyword.word.toList ++ renderBracketed attrs) ++ ['\n']
  | .subgraph name body =>
      indentation depth ++ renderOpening name ++ Stmt.renderBody (depth + 1) body ++
        indentation depth ++ "\x7d\n".toList

/-- An operand of an edge inside `depth` bodies. -/
def Operand.render (depth : Nat) : Operand → List Char
  | .node id => id.render
  | .subgraph name body =>
      renderOpening name ++ Stmt.renderBody (depth + 1) body ++ indentation depth ++ ['\x7d']

/-- The hops of an edge inside `depth` bodies. -/
def Stmt.renderHops (depth : Nat) : List (EdgeOp × Operand) → List Char
  | [] => []
  | (op, head) :: hops =>
      ' ' :: op.text.toList ++ ' ' :: head.render depth ++ Stmt.renderHops depth hops

/-- The statements of a body inside `depth` bodies. -/
def Stmt.renderBody (depth : Nat) : List Stmt → List Char
  | [] => []
  | stmt :: body => stmt.render depth ++ Stmt.renderBody depth body

end

/-- A top-level graph. -/
def Tree.render (t : Tree) : List Char :=
  (if t.strict then "strict ".toList else []) ++ t.kind.keyword.word.toList ++
    (match t.name with
      | none => []
      | some name => ' ' :: name.render) ++
    " \x7b\n".toList ++ Stmt.renderBody 1 t.body ++ "\x7d\n".toList

end DotLang
