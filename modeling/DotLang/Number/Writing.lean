import DotLang.Number.Reading
/-!
# Writing numbers

`Double.text` writes a number with the fewest digits that read back to it, and
of those with the digits nearest to it.  The text is always positional, without
an exponent and without zeros at the end of a fraction.  `Double.fixedText`
writes a given number of places.
-/

namespace DotLang

/-- The decimal digits of a number. -/
def digitsOf (n : Nat) : List Char := Nat.toDigits 10 n

/-- The sign in front of a number. -/
def signText (negative : Bool) : List Char := if negative then ['-'] else []

/-- A whole number in decimal digits. -/
def wholeText (n : Int) : List Char := signText (n < 0) ++ digitsOf n.natAbs

/-- The digits with zeros in front, up to a length. -/
def padLeft (length : Nat) (digits : List Char) : List Char :=
  List.replicate (length - digits.length) '0' ++ digits

/-- The digits without the zeros at their end. -/
def dropZeros (digits : List Char) : List Char := (digits.reverse.dropWhile (· == '0')).reverse

/-- The text of `digits · 10 ^ -places`, with all its places. -/
def placesText (digits places : Nat) : List Char × List Char :=
  let ds := padLeft (places + 1) (digitsOf digits)
  (ds.take (ds.length - places), ds.drop (ds.length - places))

/-- The text of `digits · 10 ^ exponent` without an exponent. -/
def positionalText (digits : Nat) (exponent : Int) : List Char :=
  if 0 ≤ exponent then digitsOf digits ++ List.replicate exponent.toNat '0'
  else
    let (int, frac) := placesText digits (-exponent).toNat
    if (dropZeros frac).isEmpty then int else int ++ '.' :: dropZeros frac

namespace Double

/-- An exponent `e` for which the quotient is below `10 ^ e` and not below
`10 ^ (e - 1)`. -/
def decade (num den : Nat) : Int :=
  if den ≤ num then (digitsOf (num / den)).length
  else 1 - ((digitsOf (den / num)).length : Int)

/-- The neighbours of a number of units among the multiples of
`10 ^ exponent`, the nearer first.  Of two equally near the upper one is
first. -/
def gridNeighbours (units : Nat) (exponent : Int) : List Nat :=
  let num := if exponent < 0 then units * Nat.pow 10 (-exponent).toNat else units
  let den := if exponent < 0 then unitsPerOne else unitsPerOne * Nat.pow 10 exponent.toNat
  let low := num / den
  if 2 * (num % den) < den then [low, low + 1] else [low + 1, low]

/-- The multiple of `10 ^ exponent` that reads back to the number of units, the
nearest if there are two. -/
def onGrid? (units : Nat) (exponent : Int) : Option (Nat × Int) :=
  ((gridNeighbours units exponent).find? fun digits =>
    ofDecimal false digits exponent == ofUnits false units).map (·, exponent)

/-- The digits and the exponent of the shortest decimal that reads back to the
number of units.  If no decimal of at most seventeen digits did, it would be the
exact value. -/
def shortest (units : Nat) : Nat × Int :=
  let top := decade units unitsPerOne
  ((List.range 17).findSome? fun (n : Nat) => onGrid? units (top - (n + 1))).getD
    (units * Nat.pow 5 1074, -1074)

/-- The number with the fewest digits that read back to it. -/
def text : Double → List Char
  | .nan => "NaN".toList
  | .infinite negative => signText negative ++ "inf".toList
  | .finite negative units _ =>
      signText negative ++
        if units = 0 then ['0'] else positionalText (shortest units).1 (shortest units).2

/-- The number with `places` places, a half to the even neighbour. -/
def fixedText (places : Nat) : Double → List Char
  | .finite negative units _ =>
      let (int, frac) := placesText (roundHalfEven (units * Nat.pow 10 places) unitsPerOne) places
      signText negative ++ int ++ '.' :: frac
  | x => x.text

example : (ofDecimal false 34 (-1)).text = "3.4".toList := by decide +kernel
example : (ofDecimal false 1 21).text = "1000000000000000000000".toList := by decide +kernel
example : (ofDecimal true 0 0).text = "-0".toList := by decide +kernel
example : (ofDecimal false 3 (-324)).text.length = 326 := by decide +kernel
example : (ofDecimal false 625 (-4)).fixedText 3 = "0.062".toList := by decide +kernel
example : (ofDecimal true 1 (-9)).fixedText 3 = "-0.000".toList := by decide +kernel

end Double

end DotLang
