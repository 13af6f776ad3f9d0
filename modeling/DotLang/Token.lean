import DotLang.Id
/-!
# Tokens

The text of a DOT file is a sequence of tokens: IDs, keywords and marks, with
blanks and comments between them.  A piece of text that is none of these is a
fault, which is a token as well, so that reading can go on behind it.
-/

namespace DotLang

/-- The marks of the language. -/
inductive Mark
  | equal
  | colon
  | comma
  | semicolon
  | arrow
  | line
  | openBracket
  | closeBracket
  | openBrace
  | closeBrace
deriving DecidableEq, Repr

/-- The ways in which a piece of text fails to be a token. -/
inductive LexFault
  /-- The closing double quote is missing. -/
  | openString
  /-- The last closing angle bracket is missing. -/
  | openHtml
  /-- A plus sign joins two strings, and here none follows it. -/
  | stringExpected
  /-- A minus sign that starts neither an edge operator nor a numeral. -/
  | strayDash
  /-- A character that starts no token. -/
  | strayChar (c : Char)
  /-- A numeral that runs into a word. -/
  | afterNumeral (c : Char)
deriving DecidableEq, Repr

/-- The explanation of a fault. -/
def LexFault.message : LexFault → String
  | .openString => "Unterminated string"
  | .openHtml => "Unterminated HTML string"
  | .stringExpected => "Expected a quoted string after '+'"
  | .strayDash => "Unexpected '-'"
  | .strayChar c => "Unexpected character '" ++ c.toString ++ "'"
  | .afterNumeral c => "Unexpected character '" ++ c.toString ++ "' after numeral"

/-- A token. -/
inductive Token
  | id (i : Id)
  | keyword (k : Keyword)
  | mark (m : Mark)
  | fault (f : LexFault)
  /-- The end of the text. -/
  | finish
deriving DecidableEq, Repr

/-- The name of a keyword in messages. -/
def Keyword.label : Keyword → String
  | .graph => "GraphKW"
  | .digraph => "DigraphKW"
  | .subgraph => "SubgraphKW"
  | .node => "NodeKW"
  | .edge => "EdgeKW"
  | .strict => "StrictKW"

/-- The name of a mark in messages. -/
def Mark.label : Mark → String
  | .equal => "Equal"
  | .colon => "Colon"
  | .comma => "Comma"
  | .semicolon => "Semicolon"
  | .arrow => "ArrowRight"
  | .line => "ArrowLine"
  | .openBracket => "OpenBracket"
  | .closeBracket => "CloseBracket"
  | .openBrace => "OpenBrace"
  | .closeBrace => "CloseBrace"

/-- The token as messages name it. -/
def Token.describe : Token → String
  | .finish => "end of file"
  | .id ⟨s, .plain⟩ | .id ⟨s, .numeral⟩ => "'" ++ s ++ "'"
  | .id ⟨s, .quoted⟩ => "\"" ++ s ++ "\""
  | .id ⟨_, .html⟩ => "an HTML string"
  | .fault f => f.message
  | .keyword k => k.label
  | .mark m => m.label

/-- A token and where it stands. -/
structure Lexeme where
  /-- The token. -/
  token : Token
  /-- The index of its first character. -/
  start : Nat
  /-- The index of the character behind it. -/
  stop : Nat
deriving DecidableEq, Repr

end DotLang
