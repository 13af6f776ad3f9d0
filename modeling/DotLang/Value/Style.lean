import DotLang.Text.Blank
import DotLang.Text.Pieces
import DotLang.Value
/-!
# Styles

A style is a list of items such as `filled` or `setlinewidth(2)`.  Items are
separated by the commas outside parentheses, and the arguments of an item by
every comma inside.
-/

namespace DotLang

open Text

/-- A name and its arguments. -/
structure StyleItem where
  /-- The name. -/
  name : String
  /-- The arguments in order. -/
  args : List String
deriving DecidableEq, Repr

/-- A list of style items. -/
structure Style where
  /-- The items in order. -/
  items : List StyleItem
deriving DecidableEq, Repr

namespace StyleItem

/-- The item with a name and arguments, if it is a good name. -/
def named (name : List Char) (args : List String) : Except ValueReason StyleItem :=
  if isName (trim name) then .ok ⟨String.ofList (trim name), args⟩
  else .error (.styleName (String.ofList (trim name)))

/-- The item that the text denotes.  The arguments run from the first opening
parenthesis to a closing one at the very end. -/
def read (cs : List Char) : Except ValueReason StyleItem :=
  match cutFirst '(' (trim cs) with
  | none => named (trim cs) []
  | some (name, rest) =>
      match beforeTail? [')'] rest with
      | none => .error .unclosed
      | some args => named name ((splitAt ',' args).map fun a => String.ofList (trim a))

/-- The canonical text of an item. -/
def text (i : StyleItem) : List Char :=
  i.name.toList ++
    if i.args.isEmpty then []
    else '(' :: joinWith [','] (i.args.map String.toList) ++ [')']

end StyleItem

namespace Style

/-- Whether the style has an item of that name. -/
def has (s : Style) (name : String) : Bool := s.items.any (·.name == name)

/-- The items of a text, inside `depth` parentheses and behind `item`, the part
of the present item that is already read, last character first. -/
def readItems (depth : Nat) (item : List Char) : List Char → Except ValueReason (List StyleItem)
  | [] =>
      if depth = 0 then do
        return [← StyleItem.read item.reverse]
      else .error .unclosed
  | c :: cs =>
      if c = '(' then readItems (depth + 1) (c :: item) cs
      else if c = ')' then
        if depth = 0 then .error .unopened else readItems (depth - 1) (c :: item) cs
      else if c = ',' ∧ depth = 0 then do
        let first ← StyleItem.read item.reverse
        return first :: (← readItems 0 [] cs)
      else readItems depth (c :: item) cs

/-- The style that the text denotes. -/
def read (cs : List Char) : Except ValueReason Style := do
  return ⟨← readItems 0 [] cs⟩

/-- The canonical text of a style. -/
def text (s : Style) : List Char := joinWith [','] (s.items.map StyleItem.text)

instance : AttrValue Style := ⟨read, text⟩

end Style

example : AttrValue.parse Style "filled, setlinewidth( 2 )" =
    .ok ⟨[⟨"filled", []⟩, ⟨"setlinewidth", ["2"]⟩]⟩ := by decide +kernel
example : AttrValue.parse Style "a,,b" = .error (.styleName "") := by decide +kernel
example : AttrValue.parse Style "a)" = .error .unopened := by decide +kernel

end DotLang
