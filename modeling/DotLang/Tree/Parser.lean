import DotLang.Tree
import DotLang.Tree.Error
import DotLang.Token.Lexer
/-!
# Parsing

The parser goes through the tokens of a text with one token in hand.  It never
looks further, so an error stands at the first token that cannot go on.

The grammar, with `ID` for any of the four forms of an ID:

* file: one graph or more.
* graph: `strict`?, `graph` or `digraph`, ID?, then a body.
* body: statements and semicolons between braces.
* statement: an assignment `ID = ID`; a node with attribute lists; operands
  joined by edge operators, with attribute lists; a keyword `graph`, `node` or
  `edge` with attribute lists; a subgraph.
* operand: a node with a port, or a subgraph.
* node with a port: ID, then up to two IDs behind colons.
* subgraph: a body, behind `subgraph` and an ID or without them.
* attribute lists: one or more `[` ... `]` with entries `ID = ID`, each with a
  comma or semicolon behind it or nothing.

The state survives an error, so that a session can go on behind it.  Recursion
is bounded by a number that `Parser.room` computes from the tokens left.
-/

namespace DotLang

/-- The token in hand, the tokens ahead, and the direction of the graph that
was opened last. -/
structure Parser where
  /-- The token in hand. -/
  current : Lexeme
  /-- The tokens ahead, the end of the text last. -/
  rest : List Lexeme
  /-- Whether the edges of the graph have a direction. -/
  directed : Bool
deriving DecidableEq, Repr

/-- A step of the parser, which fails with a fault or gives a value. -/
abbrev Parse := EStateM SyntaxFault Parser

namespace Parser

/-- The parser before the first token of a text.  The token in hand is then a
colon, which starts nothing. -/
def ofText (text : List Char) : Parser := ⟨⟨.mark .colon, 0, 0⟩, lexemesOf text, false⟩

/-- A bound for the recursion over the tokens left. -/
def room (p : Parser) : Nat := 4 * p.rest.length + 8

/-! ## Single tokens -/

/-- The token in hand. -/
def token : Parse Token := do return (← get).current.token

/-- Fails at the token in hand. -/
def fail {α : Type} (reason : SyntaxReason) : Parse α := do
  throw ⟨reason, (← get).current.start⟩

/-- Fails for want of `what`. -/
def unexpected {α : Type} (what : Expected) : Parse α := do
  fail (.unexpected what (← token))

/-- Takes the next token in hand.  A fault is taken in hand as well, and is an
error. -/
def advance : Parse Unit := do
  if (← token) = .finish then
    fail .pastEnd
  match (← get).rest with
  | [] => fail .pastEnd
  | lexeme :: rest =>
      modify fun p => { p with current := lexeme, rest := rest }
      if let .fault f := lexeme.token then
        fail (.fault f)

/-- Passes an ID. -/
def id (what : Expected) : Parse Id := do
  match ← token with
  | .id i => advance; return i
  | _ => unexpected what

/-- Passes an ID, if one is in hand. -/
def id? : Parse (Option Id) := do
  match ← token with
  | .id i => advance; return some i
  | _ => return none

/-- Passes a mark. -/
def mark (m : Mark) : Parse Unit := do
  if (← token) = .mark m then advance else unexpected (.mark m)

/-! ## Nodes and attributes -/

/-- Passes the port of a node, if a colon is in hand. -/
def port (name : Id) : Parse NodeId := do
  if (← token) = .mark .colon then
    advance
    let port ← id .portName
    if (← token) = .mark .colon then
      advance
      let compass ← id .compassPoint
      return ⟨name, some (port.value ++ ":" ++ compass.value)⟩
    return ⟨name, some port.value⟩
  return ⟨name, none⟩

/-- Passes a node with its port. -/
def nodeId : Parse NodeId := do
  let name ← id .nodeName
  port name

/-- Passes an equal sign and a value. -/
def assigned : Parse Id := do
  mark .equal
  id .value

/-- Passes the assignment to `name`, which is an attribute of the graph. -/
def assignment (name : Id) : Parse Stmt := do
  let value ← assigned
  return .defaults .graph [(name.value, value)]

/-- Passes a comma or semicolon, if one is in hand. -/
def separator : Parse Unit := do
  let t ← token
  if t = .mark .semicolon ∨ t = .mark .comma then
    advance

/-- Passes entries up to a closing bracket, and the bracket. -/
def entries : Nat → Parse AttrList
  | 0 => unexpected .propertyName
  | room + 1 => do
      if (← token) = .mark .closeBracket then
        advance
        return []
      let name ← id .propertyName
      let value ← assigned
      separator
      return (name.value, value) :: (← entries room)

/-- Passes the attribute lists in hand, of which there may be none. -/
def attrLists : Nat → Parse AttrList
  | 0 => unexpected (.mark .openBracket)
  | room + 1 => do
      if (← token) = .mark .openBracket then
        advance
        let attrs ← entries room
        return attrs ++ (← attrLists room)
      return []

/-- Passes one attribute list or more. -/
def attrList (room : Nat) : Parse AttrList := do
  if (← token) = .mark .openBracket then attrLists room else unexpected (.mark .openBracket)

/-! ## Statements -/

/-- The edge operator that a token is. -/
def edgeOp? : Token → Option EdgeOp
  | .mark .arrow => some .arrow
  | .mark .line => some .line
  | _ => none

/-- Whether a token starts a subgraph. -/
def startsSubgraph (t : Token) : Bool := t == .keyword .subgraph || t == .mark .openBrace

/-- The element whose defaults a keyword sets. -/
def element? : Token → Option Element
  | .keyword .graph => some .graph
  | .keyword .node => some .node
  | .keyword .edge => some .edge
  | _ => none

/-- Fails for an operator that the graph does not allow. -/
def checkOp (op : EdgeOp) : Parse Unit := do
  match op, (← get).directed with
  | .arrow, false => fail .arrowInGraph
  | .line, true => fail .lineInDigraph
  | _, _ => return

mutual

/-- Passes the rest of a body behind its opening brace. -/
def body : Nat → Parse (List Stmt)
  | 0 => unexpected .statement
  | room + 1 => do
      match ← token with
      | .mark .semicolon => advance; body room
      | .mark .closeBrace => advance; return []
      | .finish => unexpected (.mark .closeBrace)
      | _ =>
          let first ← stmt room
          return first :: (← body room)

/-- Passes a statement. -/
def stmt : Nat → Parse Stmt
  | 0 => unexpected .statement
  | room + 1 => do
      let t ← token
      if let .id name := t then
        advance
        if (← token) = .mark .equal then
          return ← assignment name
        let node ← port name
        if (edgeOp? (← token)).isSome then
          return ← edges room (.node node)
        return .node node (← attrLists room)
      if startsSubgraph t then
        let (name, body) ← subgraph room
        if (edgeOp? (← token)).isSome then
          return ← edges room (.subgraph name body)
        return .subgraph name body
      if let some element := element? t then
        advance
        return .defaults element (← attrList room)
      unexpected .statement

/-- Passes a subgraph: its name, if it has one, and its body. -/
def subgraph : Nat → Parse (Option Id × List Stmt)
  | 0 => unexpected .statement
  | room + 1 => do
      let mut name := none
      if (← token) = .keyword .subgraph then
        advance
        name ← id?
      mark .openBrace
      return (name, ← body room)

/-- Passes the hops of an edge. -/
def hops : Nat → Parse (List (EdgeOp × Operand))
  | 0 => unexpected .nodeName
  | room + 1 => do
      match edgeOp? (← token) with
      | none => return []
      | some op =>
          checkOp op
          advance
          let head ←
            if startsSubgraph (← token) then
              let (name, body) ← subgraph room
              pure (Operand.subgraph name body)
            else
              Operand.node <$> nodeId
          return (op, head) :: (← hops room)

/-- Passes the hops behind a first operand, and attribute lists. -/
def edges : Nat → Operand → Parse Stmt
  | 0, _ => unexpected .nodeName
  | room + 1, tail => do
      let hops ← hops room
      return .edge tail hops (← attrLists room)

end

/-! ## Graphs -/

/-- Passes a top-level graph. -/
def graph (room : Nat) : Parse Tree := do
  let strict := (← token) = .keyword .strict
  if strict then
    advance
  let kind ← match ← token with
    | .keyword .graph => pure GraphKind.graph
    | .keyword .digraph => pure GraphKind.digraph
    | _ => unexpected .graphKeyword
  modify fun p => { p with directed := kind.isDirected }
  advance
  let name ← id?
  mark .openBrace
  return ⟨strict, kind, name, ← body room⟩

/-- Passes graphs up to the end of the text. -/
def graphs : Nat → Parse (List Tree)
  | 0 => unexpected .graphKeyword
  | room + 1 => do
      if (← token) = .finish then
        return []
      let first ← graph room
      return first :: (← graphs room)

/-- Passes a whole file, from before its first token.  There is at least one
graph in it. -/
def file (room : Nat) : Parse (List Tree) := do
  advance
  let first ← graph room
  return first :: (← graphs room)

/-- A step with room for the tokens that are left. -/
def withRoom {α : Type} (step : Nat → Parse α) : Parse α := do
  step (← get).room

end Parser

/-- The graphs of a text, or the first syntax error. -/
def Tree.parse (text : String) : Except SyntaxError (List Tree) :=
  match (Parser.withRoom Parser.file).run (Parser.ofText text.toList) with
  | .ok trees _ => .ok trees
  | .error fault _ => .error (fault.inText text.toList)

end DotLang
