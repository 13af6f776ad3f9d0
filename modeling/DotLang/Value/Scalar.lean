import DotLang.Number.Writing
import DotLang.Text.Blank
import DotLang.Value
/-!
# Truth values and numbers

A truth value is a word or a whole number, where zero is false.  Numbers may
have blanks around them and must be finite.  `readAtLeast` adds a least value to
the reader of a number.
-/

namespace DotLang

open Text

/-! ## Truth values -/

/-- The whole number that the text denotes, if it lies in the range of signed
numbers of so many bits. -/
def readSigned (bits : Nat) (cs : List Char) : Option Int :=
  let limit : Int := Nat.pow 2 (bits - 1)
  (readWhole cs).filter fun n => -limit ≤ n && n < limit

/-- The truth value that the text denotes. -/
def readTruth (cs : List Char) : Option Bool :=
  let word := cs.map Char.toLower
  if word = "true".toList ∨ word = "yes".toList then some true
  else if word = "false".toList ∨ word = "no".toList then some false
  else (readSigned 64 cs).map (· != 0)

instance : AttrValue Bool where
  read cs :=
    match readTruth cs with
    | some b => .ok b
    | none => .error .boolean
  text b := if b then "true".toList else "false".toList

/-- How the size of a node depends on its label. -/
inductive FixedSize
  | no
  | yes
  /-- Only the shape has a fixed size. -/
  | shape
deriving DecidableEq, Repr

instance : AttrValue FixedSize where
  read cs :=
    if cs = "shape".toList then .ok .shape
    else
      match readTruth cs with
      | some true => .ok .yes
      | some false => .ok .no
      | none => .error .booleanOrShape
  text
    | .no => "false".toList
    | .yes => "true".toList
    | .shape => "shape".toList

/-! ## Numbers -/

/-- The finite number that the text denotes. -/
def readNumberValue (cs : List Char) : Except ValueReason Double :=
  match Double.read (trim cs) with
  | some x => if x.isFinite then .ok x else .error .number
  | none => .error .number

instance : AttrValue Double where
  read := readNumberValue
  text := Double.text

instance : AttrValue Int32 where
  read cs :=
    match readSigned 32 (trim cs) with
    | some n => .ok (Int32.ofInt n)
    | none => .error .integer
  text n := wholeText n.toInt

/-- Any text is a value of its own. -/
instance : AttrValue String where
  read cs := .ok (String.ofList cs)
  text := String.toList

/-! ## Least values -/

/-- Numbers that can be compared with a least value. -/
class Bounded (α : Type) extends AttrValue α where
  /-- Whether the first number is below the second. -/
  below : α → α → Bool

instance : Bounded Double where
  below := Double.lt

instance : Bounded Int32 where
  below a b := a.toInt < b.toInt

/-- The number that the text denotes, if it is not below `least`. -/
def readAtLeast {α : Type} [Bounded α] (least : α) (cs : List Char) : Except ValueReason α := do
  let x ← AttrValue.read cs
  if Bounded.below x least then
    throw (.tooSmall (AttrValue.show least))
  return x

example : AttrValue.parse Bool "TRUE" = .ok true := by decide
example : AttrValue.parse Bool "-2" = .ok true := by decide
example : AttrValue.parse Bool "maybe" = .error .boolean := by decide
example : AttrValue.parse Int32 " 2147483648" = .error .integer := by decide
example : readAtLeast (3 : Int32) "2".toList = .error (.tooSmall "3") := by decide +kernel

end DotLang
