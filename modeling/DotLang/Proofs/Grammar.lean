import DotLang.Tree
import DotLang.Token.Lexer
/-!
# The grammar

The grammar of the DOT language as relations between sequences of tokens and
the trees that they spell.  It says nothing of how a text is parsed: an
alternative is a constructor, and a sequence is an append.

* file: one graph or more, then the end of the text.
* graph: `strict` or nothing, `graph` or `digraph`, a name or nothing, a body
  between braces.
* body: statements and semicolons in any order.
* statement: an assignment, a node, an edge, defaults, or a subgraph.
* operand of an edge: a node with its port, or a subgraph.

The edge operator is a parameter of every relation below a graph.  So one
operator goes with all the edges of a graph, however deep they stand.
-/

namespace DotLang

/-- The tokens of a text, without their places. -/
def tokensOf (text : String) : List Token := (lexemesOf text.toList).map Lexeme.token

/-- The mark that writes an edge operator. -/
def EdgeOp.mark : EdgeOp → Mark
  | .arrow => .arrow
  | .line => .line

/-! ## Nodes and attributes -/

/-- A node: its name, and up to two IDs behind colons. -/
inductive SpellsNodeId : List Token → NodeId → Prop
  | bare (name : Id) : SpellsNodeId [.id name] ⟨name, none⟩
  | port (name port : Id) :
      SpellsNodeId [.id name, .mark .colon, .id port] ⟨name, some port.value⟩
  | compass (name port compass : Id) :
      SpellsNodeId [.id name, .mark .colon, .id port, .mark .colon, .id compass]
        ⟨name, some (port.value ++ ":" ++ compass.value)⟩

/-- What may stand behind an entry of an attribute list. -/
inductive SpellsSeparator : List Token → Prop
  | nothing : SpellsSeparator []
  | comma : SpellsSeparator [.mark .comma]
  | semicolon : SpellsSeparator [.mark .semicolon]

/-- The entries between two brackets. -/
inductive SpellsEntries : List Token → AttrList → Prop
  | nil : SpellsEntries [] []
  | cons {name value : Id} {sep ts : List Token} {attrs : AttrList}
      (separator : SpellsSeparator sep) (entries : SpellsEntries ts attrs) :
      SpellsEntries (.id name :: .mark .equal :: .id value :: (sep ++ ts))
        ((name.value, value) :: attrs)

/-- Any number of bracketed lists, whose entries are joined. -/
inductive SpellsAttrs : List Token → AttrList → Prop
  | nil : SpellsAttrs [] []
  | cons {ts us : List Token} {attrs more : AttrList}
      (entries : SpellsEntries ts attrs) (lists : SpellsAttrs us more) :
      SpellsAttrs (.mark .openBracket :: (ts ++ .mark .closeBracket :: us)) (attrs ++ more)

/-! ## Statements -/

mutual

/-- The statements of a body. -/
inductive SpellsBody (op : EdgeOp) : List Token → List Stmt → Prop
  | nil : SpellsBody op [] []
  | semicolon {ts : List Token} {stmts : List Stmt} (rest : SpellsBody op ts stmts) :
      SpellsBody op (.mark .semicolon :: ts) stmts
  | cons {ts us : List Token} {first : Stmt} {stmts : List Stmt}
      (stmt : SpellsStmt op ts first) (rest : SpellsBody op us stmts) :
      SpellsBody op (ts ++ us) (first :: stmts)

/-- A statement. -/
inductive SpellsStmt (op : EdgeOp) : List Token → Stmt → Prop
  | assignment (name value : Id) :
      SpellsStmt op [.id name, .mark .equal, .id value]
        (.defaults .graph [(name.value, value)])
  | node {ts us : List Token} {id : NodeId} {attrs : AttrList}
      (node : SpellsNodeId ts id) (lists : SpellsAttrs us attrs) :
      SpellsStmt op (ts ++ us) (.node id attrs)
  | edge {ts us vs : List Token} {tail : Operand} {hops : List (EdgeOp × Operand)}
      {attrs : AttrList} (operand : SpellsOperand op ts tail) (heads : SpellsHops op us hops)
      (some_hop : hops ≠ []) (lists : SpellsAttrs vs attrs) :
      SpellsStmt op (ts ++ us ++ vs) (.edge tail hops attrs)
  | defaults {ts : List Token} {attrs : AttrList} (element : Element)
      (lists : SpellsAttrs ts attrs) (some_list : ts ≠ []) :
      SpellsStmt op (.keyword element.keyword :: ts) (.defaults element attrs)
  | subgraph {ts : List Token} {name : Option Id} {stmts : List Stmt}
      (subgraph : SpellsSubgraph op ts name stmts) :
      SpellsStmt op ts (.subgraph name stmts)

/-- One end of an edge. -/
inductive SpellsOperand (op : EdgeOp) : List Token → Operand → Prop
  | node {ts : List Token} {id : NodeId} (node : SpellsNodeId ts id) :
      SpellsOperand op ts (.node id)
  | subgraph {ts : List Token} {name : Option Id} {stmts : List Stmt}
      (subgraph : SpellsSubgraph op ts name stmts) :
      SpellsOperand op ts (.subgraph name stmts)

/-- Any number of further ends, each behind the operator. -/
inductive SpellsHops (op : EdgeOp) : List Token → List (EdgeOp × Operand) → Prop
  | nil : SpellsHops op [] []
  | cons {ts us : List Token} {head : Operand} {hops : List (EdgeOp × Operand)}
      (operand : SpellsOperand op ts head) (rest : SpellsHops op us hops) :
      SpellsHops op (.mark op.mark :: (ts ++ us)) ((op, head) :: hops)

/-- A subgraph: its body between braces, behind the keyword and a name, behind
the keyword alone, or on its own. -/
inductive SpellsSubgraph (op : EdgeOp) : List Token → Option Id → List Stmt → Prop
  | bare {ts : List Token} {stmts : List Stmt} (body : SpellsBody op ts stmts) :
      SpellsSubgraph op (.mark .openBrace :: (ts ++ [.mark .closeBrace])) none stmts
  | keyword {ts : List Token} {stmts : List Stmt} (name : Option Id)
      (body : SpellsBody op ts stmts) :
      SpellsSubgraph op
        (.keyword .subgraph :: (name.toList.map .id ++
          .mark .openBrace :: (ts ++ [.mark .closeBrace]))) name stmts

end

/-! ## Files -/

/-- A top-level graph. -/
inductive SpellsTree : List Token → Tree → Prop
  | mk {ts : List Token} {stmts : List Stmt} (strict : Bool) (kind : GraphKind)
      (name : Option Id) (body : SpellsBody kind.edgeOp ts stmts) :
      SpellsTree ((if strict then [.keyword .strict] else []) ++
        .keyword kind.keyword :: (name.toList.map .id ++
          .mark .openBrace :: (ts ++ [.mark .closeBrace]))) ⟨strict, kind, name, stmts⟩

/-- A whole file. -/
inductive SpellsFile : List Token → List Tree → Prop
  | one {ts : List Token} {tree : Tree} (tree_spelled : SpellsTree ts tree) :
      SpellsFile (ts ++ [.finish]) [tree]
  | cons {ts us : List Token} {tree : Tree} {trees : List Tree}
      (tree_spelled : SpellsTree ts tree) (rest : SpellsFile us trees) :
      SpellsFile (ts ++ us) (tree :: trees)

end DotLang
