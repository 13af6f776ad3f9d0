/-!
# Identifiers

An ID of the DOT language is a text and the form in which it is written: a
plain word, a numeral, a quoted string or an HTML string.  `Id.ofText` picks the
simplest form that can hold a text, and `Id.render` writes an ID.
-/

namespace DotLang

/-! ## Characters of identifiers -/

/-- A plain word starts with an ASCII letter, an underscore or any character
beyond ASCII. -/
def isIdStart (c : Char) : Bool := c.isAlpha || c == '_' || 0x80 ≤ c.toNat

/-- A plain word goes on with the same characters and ASCII digits. -/
def isIdChar (c : Char) : Bool := isIdStart c || c.isDigit

/-! ## Keywords -/

/-- The words with a meaning of their own, in any case of their letters. -/
inductive Keyword
  | graph
  | digraph
  | subgraph
  | node
  | edge
  | strict
deriving DecidableEq, Repr

/-- The keyword in small letters. -/
def Keyword.word : Keyword → String
  | .graph => "graph"
  | .digraph => "digraph"
  | .subgraph => "subgraph"
  | .node => "node"
  | .edge => "edge"
  | .strict => "strict"

/-- Every keyword. -/
def Keyword.all : List Keyword := [.graph, .digraph, .subgraph, .node, .edge, .strict]

/-- The keyword that a word spells, whatever the case of its letters. -/
def Keyword.ofChars? (cs : List Char) : Option Keyword :=
  Keyword.all.find? fun k => k.word.toList == cs.map Char.toLower

/-! ## IDs -/

/-- The forms in which an ID is written. -/
inductive IdKind
  /-- A word, such as `node_1`. -/
  | plain
  /-- A number, such as `-1.5`. -/
  | numeral
  /-- A string between double quotes. -/
  | quoted
  /-- A string between angle brackets. -/
  | html
deriving DecidableEq, Repr

/-- A text and the form in which it is written. -/
structure Id where
  /-- The text. -/
  value : String
  /-- The form. -/
  kind : IdKind
deriving DecidableEq, Repr

/-- The text can stand as a word of its own and is no keyword. -/
def isPlain (cs : List Char) : Bool :=
  match cs with
  | [] => false
  | c :: rest => isIdStart c && rest.all isIdChar && (Keyword.ofChars? cs).isNone

/-- The text is a numeral: an optional minus sign, then digits with at most one
point among them and at least one digit. -/
def isNumeral (cs : List Char) : Bool :=
  let body := if cs.head? = some '-' then cs.tail else cs
  let int := body.takeWhile Char.isDigit
  match body.dropWhile Char.isDigit with
  | [] => ! int.isEmpty
  | c :: frac => c == '.' && frac.all Char.isDigit && !(int.isEmpty && frac.isEmpty)

namespace Id

/-- The ID that is written as a plain word. -/
def plain (value : String) : Id := ⟨value, .plain⟩

/-- The ID that is written between double quotes. -/
def quoted (value : String) : Id := ⟨value, .quoted⟩

/-- The ID that is written between angle brackets. -/
def html (value : String) : Id := ⟨value, .html⟩

/-- The simplest form that can hold a text. -/
def ofText (value : String) : Id :=
  if isPlain value.toList then ⟨value, .plain⟩
  else if isNumeral value.toList then ⟨value, .numeral⟩
  else ⟨value, .quoted⟩

/-- Whether the ID is an HTML string. -/
def isHtml (i : Id) : Bool := i.kind == .html

/-- The text with a backslash before every double quote. -/
def escapeQuotes : List Char → List Char
  | [] => []
  | c :: cs => if c = '"' then '\\' :: '"' :: escapeQuotes cs else c :: escapeQuotes cs

/-- The text between double quotes. -/
def renderQuoted (cs : List Char) : List Char := '"' :: escapeQuotes cs ++ ['"']

/-- The ID as it is written.  A word or numeral that cannot stand bare is
quoted. -/
def render (i : Id) : List Char :=
  let cs := i.value.toList
  match i.kind with
  | .html => '<' :: cs ++ ['>']
  | .quoted => renderQuoted cs
  | .plain | .numeral => if isPlain cs || isNumeral cs then cs else renderQuoted cs

/-- The ID as it is written. -/
def text (i : Id) : String := String.ofList i.render

example : (ofText "a b").text = "\"a b\"" := by decide
example : (ofText "2.5") = ⟨"2.5", .numeral⟩ := by decide
example : (quoted "say \"hi\"").text = "\"say \\\"hi\\\"\"" := by decide
example : (ofText "Graph").kind = .quoted := by decide
example : (html "<b>x</b>").text = "<<b>x</b>>" := by decide

end Id

end DotLang
