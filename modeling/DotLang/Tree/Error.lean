import DotLang.Token
import DotLang.Text.Place
/-!
# Syntax errors

A syntax error names a reason and the token it stands at.  The place and the
line shown with it follow from the text.
-/

namespace DotLang

/-- What can be missing at a token. -/
inductive Expected
  | graphKeyword
  | mark (m : Mark)
  | statement
  | propertyName
  | value
  | nodeName
  | portName
  | compassPoint
deriving DecidableEq, Repr

/-- The mark as it is written. -/
def Mark.text : Mark → String
  | .equal => "="
  | .colon => ":"
  | .comma => ","
  | .semicolon => ";"
  | .arrow => "->"
  | .line => "--"
  | .openBracket => "["
  | .closeBracket => "]"
  | .openBrace => "\x7b"
  | .closeBrace => "\x7d"

/-- The words for what is missing. -/
def Expected.phrase : Expected → String
  | .graphKeyword => "'graph' or 'digraph'"
  | .mark m => "'" ++ m.text ++ "'"
  | .statement => "a statement"
  | .propertyName => "a property name"
  | .value => "a value after '='"
  | .nodeName => "a node name"
  | .portName => "a port name"
  | .compassPoint => "a compass point"

/-- The reasons for a syntax error. -/
inductive SyntaxReason
  /-- A token that cannot stand where something else is expected. -/
  | unexpected (what : Expected) (found : Token)
  /-- The operator of directed edges in an undirected graph. -/
  | arrowInGraph
  /-- The operator of undirected edges in a directed graph. -/
  | lineInDigraph
  /-- A piece of text that is no token. -/
  | fault (f : LexFault)
  /-- A step past the end of the text. -/
  | pastEnd
deriving DecidableEq, Repr

/-- The explanation of a reason. -/
def SyntaxReason.message : SyntaxReason → String
  | .unexpected what found => "Expected " ++ what.phrase ++ ", found " ++ found.describe
  | .arrowInGraph => "'->' is not allowed in an undirected graph"
  | .lineInDigraph => "'--' is not allowed in a directed graph"
  | .fault f => f.message
  | .pastEnd => "Can't parse after the end of the file"

/-- A reason and the index of the token it stands at. -/
structure SyntaxFault where
  /-- The reason. -/
  reason : SyntaxReason
  /-- The index of the first character of the token. -/
  start : Nat
deriving DecidableEq, Repr

/-- A syntax error as it is reported. -/
structure SyntaxError where
  /-- The place of the token. -/
  place : Text.Place
  /-- The reason. -/
  reason : SyntaxReason
  /-- The line of the token, with a mark under its first character. -/
  excerpt : String
deriving DecidableEq, Repr

/-- The report of a fault in a text. -/
def SyntaxFault.inText (text : List Char) (f : SyntaxFault) : SyntaxError where
  place := Text.placeAt text f.start
  reason := f.reason
  excerpt := String.ofList (Text.excerptAt text f.start)

/-- The error in one line. -/
def SyntaxError.message (e : SyntaxError) : String :=
  toString e.place.line ++ ":" ++ toString e.place.column ++ ": " ++ e.reason.message

end DotLang
