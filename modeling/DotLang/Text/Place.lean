/-!
# Places in a text

A place is a line and a column, both counted from one, and lines end at a line
feed.  An excerpt shows the line of a place with a mark under its column.
-/

namespace DotLang.Text

/-- A line and a column, both counted from one. -/
structure Place where
  /-- The number of the line. -/
  line : Nat
  /-- The number of the character in its line. -/
  column : Nat
deriving DecidableEq, Repr

/-- The place after one more character. -/
def Place.after (p : Place) (c : Char) : Place :=
  if c = '\n' then ⟨p.line + 1, 1⟩ else ⟨p.line, p.column + 1⟩

/-- The place of the character with index `i`.  Past the end it is the place
after the last character. -/
def placeAt (text : List Char) (i : Nat) : Place :=
  (text.take i).foldl Place.after ⟨1, 1⟩

/-- The part of a line that precedes the character with index `i`. -/
def lineBefore (text : List Char) (i : Nat) : List Char :=
  ((text.take i).reverse.takeWhile (· ≠ '\n')).reverse

/-- The part of a line that starts at the character with index `i`. -/
def lineFrom (text : List Char) (i : Nat) : List Char :=
  (text.drop i).takeWhile (· ≠ '\n')

/-- The line without the carriage returns at its end. -/
def dropReturns (line : List Char) : List Char :=
  (line.reverse.dropWhile (· == '\r')).reverse

/-- The line that holds the character with index `i`, and under it a mark in
the column of that character. -/
def excerptAt (text : List Char) (i : Nat) : List Char :=
  dropReturns (lineBefore text i ++ lineFrom text i) ++ '\n' ::
    List.replicate (lineBefore text i).length ' ' ++ ['^']

example : placeAt "graph [\n  a ? b\n]".toList 12 = ⟨2, 5⟩ := by decide
example : excerptAt "graph [\n  a ? b\n]".toList 12 = "  a ? b\n    ^".toList := by decide

end DotLang.Text
