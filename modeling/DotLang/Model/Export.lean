import DotLang.Model
import DotLang.Tree.Render
/-!
# Exporting models

A model is written by way of its tree.  In every body there are first the nodes
and subgraphs, then the edges, each with all its attributes, then the attributes
of the graph.  These stand last, so that a subgraph does not inherit them when
the text is read again, and there are no statements for defaults.
-/

namespace DotLang.Model

/-- The name as an operand of an edge. -/
def operandOf (m : Model) (n : NodeRef) : Operand :=
  .node ⟨Id.ofText (((m.node? n).map Node.name).getD ""), none⟩

/-- The statement for an edge. -/
def edgeStmt (m : Model) (e : Edge) : Stmt :=
  .edge (m.operandOf e.source) [(m.kind.edgeOp, m.operandOf e.target)] e.attrs.entries

/-- The statements for a graph, with `depth` levels of graphs below it. -/
def bodyOf (m : Model) : (depth : Nat) → GraphRef → List Stmt
  | 0, _ => []
  | depth + 1, g =>
      match m.graph? g with
      | none => []
      | some s =>
          (s.nodes.toList.filterMap m.node?).map (fun n =>
            match n.nested with
            | none => .node ⟨Id.ofText n.name, none⟩ n.attrs.entries
            | some nested => .subgraph ((m.nameOf nested).map Id.ofText) (m.bodyOf depth nested)) ++
          (s.edges.toList.filterMap m.edge?).map m.edgeStmt ++
          s.attrs.entries.map fun attr => .defaults .graph [attr]

/-- The tree of a model.  Subgraphs cannot nest deeper than there are
graphs. -/
def toTree (m : Model) : Tree :=
  ⟨m.strict, m.kind, (m.nameOf root).map Id.ofText, m.bodyOf m.graphs.size root⟩

/-- The DOT text of a model. -/
def toDot (m : Model) : String := String.ofList m.toTree.render

end DotLang.Model
