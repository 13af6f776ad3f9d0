import DotLang.Number.Double
/-!
# Reading numbers

A number of double precision is written as an optional sign, digits with at most
one point among them, and an optional exponent; or as one of the words `inf`,
`infinity` and `nan`, in any case of their letters.  A whole number is an
optional sign and digits.
-/

namespace DotLang

/-- The number that decimal digits denote. -/
def ofDigits (cs : List Char) : Nat :=
  cs.foldl (fun n c => 10 * n + (c.toNat - '0'.toNat)) 0

/-- The sign in front of a number, true for minus, and the rest. -/
def readSign : List Char → Bool × List Char
  | '-' :: cs => (true, cs)
  | '+' :: cs => (false, cs)
  | cs => (false, cs)

/-- The text is a non-empty sequence of ASCII digits. -/
def isDigits (cs : List Char) : Bool := !cs.isEmpty && cs.all Char.isDigit

/-- The whole number that the text denotes. -/
def readWhole (cs : List Char) : Option Int :=
  let (negative, digits) := readSign cs
  if isDigits digits then
    some (if negative then -(ofDigits digits : Int) else ofDigits digits)
  else none

/-- The exponent that ends a number, zero for none. -/
def readExponent : List Char → Option Int
  | [] => some 0
  | c :: cs => if c = 'e' ∨ c = 'E' then readWhole cs else none

namespace Double

/-- The number behind the sign, without the words. -/
def readUnsigned (negative : Bool) (cs : List Char) : Option Double :=
  let int := cs.takeWhile Char.isDigit
  let (frac, rest) := match cs.dropWhile Char.isDigit with
    | '.' :: rest => (rest.takeWhile Char.isDigit, rest.dropWhile Char.isDigit)
    | rest => ([], rest)
  if int.isEmpty && frac.isEmpty then none
  else (readExponent rest).map fun e => ofDecimal negative (ofDigits (int ++ frac)) (e - frac.length)

/-- The number that the text denotes, rounded to double precision. -/
def read (cs : List Char) : Option Double :=
  let (negative, body) := readSign cs
  let word := body.map Char.toLower
  if word = "inf".toList ∨ word = "infinity".toList then some (.infinite negative)
  else if word = "nan".toList then some .nan
  else readUnsigned negative body

example : read "-.5e1".toList = some (ofInt (-5)) := by decide +kernel
example : read "1.".toList = some (ofInt 1) := by decide +kernel
example : read ".".toList = none := by decide +kernel
example : read "1e".toList = none := by decide +kernel
example : read "+Inf".toList = some (.infinite false) := by decide +kernel

end Double

end DotLang
