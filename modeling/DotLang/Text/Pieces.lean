/-!
# Cutting text into pieces

Attribute values are lists within lists: items between separators, a name and
its arguments, a number and its suffix.  The functions here cut a text at
characters and at whole prefixes and suffixes.  `splitWhere_ne_nil` says that a
split always leaves a piece.
-/

namespace DotLang.Text

/-- The pieces between the characters that `p` selects.  Two neighbours leave
an empty piece, and so does a separator at an end. -/
def splitWhere (p : Char → Bool) : List Char → List (List Char)
  | [] => [[]]
  | c :: cs =>
      if p c then [] :: splitWhere p cs
      else
        match splitWhere p cs with
        | [] => [[c]]
        | piece :: pieces => (c :: piece) :: pieces

/-- The pieces between the occurrences of `sep`. -/
def splitAt (sep : Char) : List Char → List (List Char) := splitWhere (· == sep)

/-- The non-empty pieces between the characters that `p` selects. -/
def wordsBy (p : Char → Bool) (cs : List Char) : List (List Char) :=
  (splitWhere p cs).filter (! ·.isEmpty)

/-- The text before and after the first occurrence of `sep`. -/
def cutFirst (sep : Char) : List Char → Option (List Char × List Char)
  | [] => none
  | c :: cs =>
      if c == sep then some ([], cs)
      else (cutFirst sep cs).map fun (before, after) => (c :: before, after)

/-- The text before and after the last occurrence of `sep`. -/
def cutLast (sep : Char) : List Char → Option (List Char × List Char)
  | [] => none
  | c :: cs =>
      match cutLast sep cs with
      | some (before, after) => some (c :: before, after)
      | none => if c == sep then some ([], cs) else none

/-- What follows `lead` in the text, if the text starts with it. -/
def afterLead? : (lead : List Char) → List Char → Option (List Char)
  | [], cs => some cs
  | _ :: _, [] => none
  | l :: ls, c :: cs => if l == c then afterLead? ls cs else none

/-- What precedes `tail` in the text, if the text ends with it. -/
def beforeTail? (tail cs : List Char) : Option (List Char) :=
  (afterLead? tail.reverse cs.reverse).map List.reverse

/-- The text without any number of `tail` at its end.  An empty tail is not
dropped. -/
def dropTails (tail cs : List Char) : List Char :=
  match beforeTail? tail cs with
  | none => cs
  | some rest => if rest.length < cs.length then dropTails tail rest else cs
termination_by cs.length

/-- The pieces in one text, with `sep` between neighbours. -/
def joinWith (sep : List Char) : List (List Char) → List Char
  | [] => []
  | [piece] => piece
  | piece :: pieces => piece ++ sep ++ joinWith sep pieces

/-- A split always leaves a piece. -/
theorem splitWhere_ne_nil (p : Char → Bool) (cs : List Char) : splitWhere p cs ≠ [] := by
  cases cs with
  | nil => simp [splitWhere]
  | cons c cs =>
      rw [splitWhere]
      split
      · simp
      · split <;> simp

example : splitAt ',' "a,,b,".toList = ["a".toList, [], "b".toList, []] := by decide
example : cutLast ':' "a:b:c".toList = some ("a:b".toList, "c".toList) := by decide
example : beforeTail? ['!'] "1,2!".toList = some "1,2".toList := by decide

end DotLang.Text
