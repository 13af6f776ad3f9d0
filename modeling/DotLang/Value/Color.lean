import DotLang.Text.Pieces
import DotLang.Value.Scalar
/-!
# Colors

A color is written as `#` with hexadecimal bytes, as three numbers for hue,
saturation and value, or as a name, which may belong to a scheme.  The first
character tells the three apart, but a digit may also start a name, since the
names of a scheme can be numbers.  A list of colors gives each an optional
fraction of the area.
-/

namespace DotLang

open Text

/-- A color. -/
inductive Color
  /-- The bytes for red, green and blue, and opacity if it is given. -/
  | rgb (r g b : UInt8) (a : Option UInt8)
  /-- Hue, saturation and value. -/
  | hsv (h s v : Double)
  /-- A name, in a scheme or in the default one. -/
  | named (scheme : Option String) (name : String)
deriving DecidableEq

namespace Color

/-! ## Reading -/

/-- The value of a hexadecimal digit. -/
def hexValue? (c : Char) : Option Nat :=
  if c.isDigit then some (c.toNat - '0'.toNat)
  else if 'a' ≤ c ∧ c ≤ 'f' then some (c.toNat - 'a'.toNat + 10)
  else if 'A' ≤ c ∧ c ≤ 'F' then some (c.toNat - 'A'.toNat + 10)
  else none

/-- The bytes that pairs of hexadecimal digits denote. -/
def readBytes : List Char → Option (List UInt8)
  | [] => some []
  | [_] => none
  | c :: d :: cs => do
      let high ← hexValue? c
      let low ← hexValue? d
      return UInt8.ofNat (16 * high + low) :: (← readBytes cs)

/-- The color of the bytes behind a `#`. -/
def readRgb (cs : List Char) : Except ValueReason Color :=
  match readBytes cs with
  | some [r, g, b] => .ok (.rgb r g b none)
  | some [r, g, b, a] => .ok (.rgb r g b (some a))
  | _ => .error .hexDigits

/-- Whether a character separates the components of a color. -/
def isSeparator (c : Char) : Bool := c == ',' || isBlank c

/-- A component of a color, between zero and one. -/
def readComponent (cs : List Char) : Except ValueReason Double := do
  let x ← readNumberValue cs
  if x.inUnitInterval then return x else throw .hsvRange

/-- The color of three components. -/
def readHsv (cs : List Char) : Except ValueReason Color :=
  match wordsBy isSeparator cs with
  | [h, s, v] => do
      let h ← readComponent h
      let s ← readComponent s
      let v ← readComponent v
      return .hsv h s v
  | _ => .error .hsvCount

/-- The color of a name.  Behind a slash stand a scheme, which may be empty, and
a name. -/
def readNamed (cs : List Char) : Except ValueReason Color :=
  match cs with
  | '/' :: rest =>
      match cutFirst '/' rest with
      | some (scheme, name) =>
          if isName name && (scheme.isEmpty || isName scheme) then
            .ok (.named (if scheme.isEmpty then none else some (String.ofList scheme))
              (String.ofList name))
          else .error .schemeName
      | none => .error .schemeName
  | _ => if isName cs then .ok (.named none (String.ofList cs)) else .error .notColor

/-- The color that the text denotes.  A text that starts like a number and has
no separator is a name if it is not three components. -/
def read (cs : List Char) : Except ValueReason Color :=
  match trim cs with
  | [] => .error .emptyColor
  | '#' :: digits => readRgb digits
  | c :: rest =>
      if c.isDigit || c == '.' then
        match readHsv (c :: rest) with
        | .ok color => .ok color
        | .error reason =>
            if (c :: rest).any isSeparator then .error reason else readNamed (c :: rest)
      else readNamed (c :: rest)

/-! ## Writing -/

/-- The two hexadecimal digits of a byte. -/
def byteText (b : UInt8) : List Char :=
  [Nat.digitChar (b.toNat / 16), Nat.digitChar (b.toNat % 16)]

/-- The canonical text of a color.  Components have three places. -/
def text : Color → List Char
  | .rgb r g b a =>
      '#' :: byteText r ++ byteText g ++ byteText b ++ (a.map byteText).getD []
  | .hsv h s v => h.fixedText 3 ++ ' ' :: s.fixedText 3 ++ ' ' :: v.fixedText 3
  | .named none name => name.toList
  | .named (some scheme) name => '/' :: scheme.toList ++ '/' :: name.toList

instance : AttrValue Color := ⟨read, text⟩

end Color

/-! ## Lists of colors -/

/-- A color and the fraction of the area that it covers. -/
structure WeightedColor where
  /-- The color. -/
  color : Color
  /-- The fraction, if it is given. -/
  fraction : Option Double
deriving DecidableEq

/-- The colors of a gradient or a striped fill. -/
structure ColorList where
  /-- The colors in order. -/
  colors : List WeightedColor
deriving DecidableEq

namespace ColorList

/-- The list of one color. -/
def single (c : Color) : ColorList := ⟨[⟨c, none⟩]⟩

/-- The first color. -/
def first (l : ColorList) : Option Color := l.colors.head?.map WeightedColor.color

/-- A fraction of the area, between zero and one. -/
def readFraction (cs : List Char) : Except ValueReason Double := do
  let x ← readNumberValue cs
  if x.inUnitInterval then return x else throw .fractionRange

/-- A color with the fraction behind a semicolon, if there is one.  The fraction
is read first. -/
def readItem (cs : List Char) : Except ValueReason WeightedColor :=
  match cutFirst ';' cs with
  | some (color, fraction) => do
      let fraction ← readFraction fraction
      return ⟨← Color.read color, some fraction⟩
  | none => do
      return ⟨← Color.read cs, none⟩

/-- The colors between the colons of a text. -/
def read (cs : List Char) : Except ValueReason ColorList := do
  return ⟨← (splitAt ':' cs).mapM readItem⟩

/-- The canonical text of a color with its fraction. -/
def itemText (c : WeightedColor) : List Char :=
  c.color.text ++ match c.fraction with
    | none => []
    | some x => ';' :: x.text

/-- The canonical text of a list of colors. -/
def text (l : ColorList) : List Char := joinWith [':'] (l.colors.map itemText)

instance : AttrValue ColorList := ⟨read, text⟩

end ColorList

example : AttrValue.parse Color "#FF0080" = .ok (.rgb 255 0 128 none) := by decide
example : AttrValue.parse Color "3" = .ok (.named none "3") := by decide +kernel
example : AttrValue.parse Color "//red" = .ok (.named none "red") := by decide
example : AttrValue.parse Color "1 2" = .error .hsvCount := by decide +kernel
example : AttrValue.show (Color.rgb 0 128 255 (some 64)) = "#0080ff40" := by decide
example : (AttrValue.parse ColorList "red;0.3:#0000ff").toOption.map AttrValue.show =
    some "red;0.3:#0000ff" := by decide +kernel

end DotLang
