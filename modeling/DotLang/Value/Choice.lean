import DotLang.Value
/-!
# Closed sets of words

Some attributes take one word of a fixed set.  `Choice` gives the set and the
words, and every choice is read and written in one way.
-/

namespace DotLang

/-- A closed set whose members are words. -/
class Choice (α : Type) where
  /-- The members, in the order in which messages list them. -/
  all : List α
  /-- The word of a member. -/
  word : α → String

/-- The member whose word is the text. -/
def Choice.read {α : Type} [Choice α] (cs : List Char) : Except ValueReason α :=
  match (Choice.all (α := α)).find? fun a => (Choice.word a).toList == cs with
  | some a => .ok a
  | none => .error (.oneOf ((Choice.all (α := α)).map Choice.word))

instance {α : Type} [Choice α] : AttrValue α where
  read := Choice.read
  text a := (Choice.word a).toList

/-- The engine that places the elements of a graph. -/
inductive Layout
  | dot | neato | fdp | sfdp | twopi | circo | osage | patchwork
deriving DecidableEq, Repr

instance : Choice Layout where
  all := [.dot, .neato, .fdp, .sfdp, .twopi, .circo, .osage, .patchwork]
  word
    | .dot => "dot"
    | .neato => "neato"
    | .fdp => "fdp"
    | .sfdp => "sfdp"
    | .twopi => "twopi"
    | .circo => "circo"
    | .osage => "osage"
    | .patchwork => "patchwork"

/-- The direction in which ranks are placed. -/
inductive RankDir
  | topToBottom | leftToRight | bottomToTop | rightToLeft
deriving DecidableEq, Repr

instance : Choice RankDir where
  all := [.topToBottom, .leftToRight, .bottomToTop, .rightToLeft]
  word
    | .topToBottom => "TB"
    | .leftToRight => "LR"
    | .bottomToTop => "BT"
    | .rightToLeft => "RL"

/-- The ends of an edge that have an arrowhead. -/
inductive DirType
  | forward | back | both | none
deriving DecidableEq, Repr

instance : Choice DirType where
  all := [.forward, .back, .both, .none]
  word
    | .forward => "forward"
    | .back => "back"
    | .both => "both"
    | .none => "none"

/-- The order in which nodes and edges are drawn. -/
inductive OutputOrder
  | breadthFirst | nodesFirst | edgesFirst
deriving DecidableEq, Repr

instance : Choice OutputOrder where
  all := [.breadthFirst, .nodesFirst, .edgesFirst]
  word
    | .breadthFirst => "breadthfirst"
    | .nodesFirst => "nodesfirst"
    | .edgesFirst => "edgesfirst"

/-- How clusters are ranked. -/
inductive ClusterRank
  | local | global | none
deriving DecidableEq, Repr

instance : Choice ClusterRank where
  all := [.local, .global, .none]
  word
    | .local => "local"
    | .global => "global"
    | .none => "none"

/-- What the nodes of a subgraph have in common in their ranks. -/
inductive RankType
  | same | min | source | max | sink
deriving DecidableEq, Repr

instance : Choice RankType where
  all := [.same, .min, .source, .max, .sink]
  word
    | .same => "same"
    | .min => "min"
    | .source => "source"
    | .max => "max"
    | .sink => "sink"

example : AttrValue.parse RankDir "LR" = .ok .leftToRight := by decide
example : AttrValue.parse RankDir "lr" = .error (.oneOf ["TB", "LR", "BT", "RL"]) := by decide

end DotLang
