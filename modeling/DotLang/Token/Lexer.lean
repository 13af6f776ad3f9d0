import DotLang.Text.Place
import DotLang.Token.Reader
/-!
# The lexer

A lexer is a position in a text: the characters behind it and the characters
ahead.  Every operation moves some characters from ahead to behind and loses
none, so the text and the index of the position are functions of the lexer.

`Lexer.next` reads the token that follows the gap ahead.  `Lexer.lexemes` reads
to the end of the text, and goes on behind faults.
-/

namespace DotLang

open Text

/-- A position in a text, and the start of the last token that was read. -/
structure Lexer where
  /-- The characters behind the position, the nearest first. -/
  behind : List Char
  /-- The characters ahead. -/
  ahead : List Char
  /-- The index at which the last token starts. -/
  start : Nat
deriving DecidableEq, Repr

namespace Lexer

/-- The lexer at the start of a text. -/
def ofText (text : List Char) : Lexer := ⟨[], text, 0⟩

/-- The whole text. -/
def text (l : Lexer) : List Char := l.behind.reverse ++ l.ahead

/-- The index of the position. -/
def pos (l : Lexer) : Nat := l.behind.length

/-- The character at the position, NUL at the end of the text. -/
def char (l : Lexer) : Char := l.ahead.headD '\x00'

/-- Whether a character is ahead. -/
def hasNext (l : Lexer) : Bool := ! l.ahead.isEmpty

/-- Whether the line so far is blank. -/
def lineBlank (l : Lexer) : Bool := (l.behind.takeWhile (· ≠ '\n')).all isBlank

/-- The lexer with `n` more characters behind it. -/
def advance (l : Lexer) (n : Nat) : Lexer :=
  ⟨(l.ahead.take n).reverse ++ l.behind, l.ahead.drop n, l.start⟩

/-- The lexer with only `rest` ahead. -/
def moveTo (l : Lexer) (rest : List Char) : Lexer :=
  l.advance (l.ahead.length - rest.length)

/-- Passes one character, if there is one. -/
def skipChar (l : Lexer) : Lexer := l.advance 1

/-- Passes the blanks ahead, and says whether there are any. -/
def skipBlanks (l : Lexer) : Bool × Lexer :=
  (isBlank l.char, l.moveTo (trimLeft l.ahead))

/-- Passes the comment that starts here, and says whether one does. -/
def skipComment (l : Lexer) : Bool × Lexer :=
  match comment? l.lineBlank l.ahead with
  | some rest => (true, l.moveTo rest)
  | none => (false, l)

/-- Passes the word that stands here. -/
def word (l : Lexer) : String × Lexer :=
  let (w, rest) := readWord l.ahead
  (String.ofList w, l.moveTo rest)

/-- Passes the digits and the point that stand here. -/
def number (l : Lexer) : String × Lexer :=
  let (n, rest) := readNumber l.ahead
  (String.ofList n, l.moveTo rest)

/-- Passes a quoted string, whose opening quote is the character here. -/
def string (l : Lexer) : Token × Lexer :=
  let (t, rest) := readString l.ahead
  (t, l.moveTo rest)

/-- Passes an HTML string, whose opening bracket is the character here. -/
def html (l : Lexer) : Token × Lexer :=
  let (t, rest) := readHtml l.ahead
  (t, l.moveTo rest)

/-- Passes the blanks and comments ahead, and notes where the next token
starts. -/
def toToken (l : Lexer) : Lexer :=
  let l := l.moveTo (skipGap l.lineBlank l.ahead)
  { l with start := l.pos }

/-- Passes the gap ahead and the token behind it. -/
def next (l : Lexer) : Token × Lexer :=
  let l := l.toToken
  let (t, rest) := readToken l.ahead
  (t, l.moveTo rest)

/-- The place of the character with index `i`. -/
def placeAt (l : Lexer) (i : Nat) : Place := Text.placeAt l.text i

/-- The line of the character with index `i`, with a mark under it. -/
def excerptAt (l : Lexer) (i : Nat) : String := String.ofList (Text.excerptAt l.text i)

/-! ## Moving -/

theorem length_text (l : Lexer) : l.text.length = l.pos + l.ahead.length := by
  simp [text, pos]

theorem length_reverse_behind (l : Lexer) : l.behind.reverse.length = l.pos :=
  List.length_reverse

theorem text_advance (l : Lexer) (n : Nat) : (l.advance n).text = l.text := by
  simp [advance, text, List.append_assoc]

theorem text_moveTo (l : Lexer) (rest : List Char) : (l.moveTo rest).text = l.text :=
  text_advance l _

theorem text_toToken (l : Lexer) : l.toToken.text = l.text := text_moveTo l _

theorem text_next (l : Lexer) : l.next.2.text = l.text :=
  (text_moveTo l.toToken _).trans (text_toToken l)

theorem moveTo_append {l : Lexer} {w rest : List Char} (h : l.ahead = w ++ rest) :
    l.moveTo rest = ⟨w.reverse ++ l.behind, rest, l.start⟩ := by
  simp [moveTo, advance, h]

theorem ahead_moveTo {l : Lexer} {rest : List Char} (h : rest <:+ l.ahead) :
    (l.moveTo rest).ahead = rest := by
  obtain ⟨taken, ht⟩ := h
  rw [moveTo_append ht.symm]

theorem ahead_toToken (l : Lexer) : l.toToken.ahead = skipGap l.lineBlank l.ahead :=
  ahead_moveTo (skipGap_suffix _ _)

theorem ahead_next (l : Lexer) :
    l.next.2.ahead = (readToken (skipGap l.lineBlank l.ahead)).2 := by
  have h : (readToken l.toToken.ahead).2 <:+ l.toToken.ahead := readToken_suffix _
  exact (ahead_moveTo h).trans (by rw [ahead_toToken])

theorem moveTo_next (l : Lexer) : l.next.2 = l.toToken.moveTo l.next.2.ahead := by
  rw [ahead_next, ← ahead_toToken]
  rfl

/-- The line stays blank as far as the text that is passed leaves it blank. -/
theorem lineBlank_moveTo {l : Lexer} {w rest : List Char} (h : l.ahead = w ++ rest) :
    (l.moveTo rest).lineBlank = lineBlankAfter l.lineBlank w := by
  have hline : ∀ behind : List Char,
      ((w.reverse ++ behind).takeWhile (· ≠ '\n')).all isBlank =
        lineBlankAfter ((behind.takeWhile (· ≠ '\n')).all isBlank) w := by
    clear h
    induction w with
    | nil => exact fun _ => rfl
    | cons c w ih =>
        intro behind
        rw [List.reverse_cons, List.append_assoc, List.singleton_append, ih]
        refine congrArg (lineBlankAfter · w) ?_
        by_cases hc : c = '\n'
        · simp [hc]
        · simp [hc, Bool.and_comm]
  rw [moveTo_append h]
  exact hline l.behind

/-- A token other than the end leaves less ahead. -/
theorem next_length {l : Lexer} (h : l.toToken.ahead ≠ []) :
    l.next.2.ahead.length < l.ahead.length := by
  rw [ahead_toToken] at h
  rw [ahead_next]
  have hg := skipGap_length_le l.lineBlank l.ahead
  cases hs : skipGap l.lineBlank l.ahead with
  | nil => exact absurd hs h
  | cons c cs =>
      rw [hs] at hg
      exact Nat.lt_of_lt_of_le readToken_length hg

/-! ## All tokens -/

/-- The tokens ahead, with where they stand, up to the end of the text. -/
def lexemes (l : Lexer) : List Lexeme :=
  if _h : l.toToken.ahead = [] then [⟨.finish, l.toToken.pos, l.toToken.pos⟩]
  else ⟨l.next.1, l.toToken.pos, l.next.2.pos⟩ :: l.next.2.lexemes
termination_by l.ahead.length
decreasing_by exact next_length _h

theorem lexemes_of_nil {l : Lexer} (h : l.toToken.ahead = []) :
    l.lexemes = [⟨.finish, l.toToken.pos, l.toToken.pos⟩] := by
  rw [lexemes, dif_pos h]

theorem lexemes_of_token {l : Lexer} (h : l.toToken.ahead ≠ []) :
    l.lexemes = ⟨l.next.1, l.toToken.pos, l.next.2.pos⟩ :: l.next.2.lexemes := by
  rw [lexemes, dif_neg h]

end Lexer

/-- The tokens of a text, the end included. -/
def lexemesOf (text : List Char) : List Lexeme := (Lexer.ofText text).lexemes

end DotLang
