/-!
# Double-precision numbers

Every finite number of double precision is a whole multiple of `2⁻¹⁰⁷⁴`.  A
finite number is therefore held as a sign and a natural number of these units,
and arithmetic on it is exact.

A number of units is representable if it has at most 53 significant bits and
stays below the largest power of two.  `Double.nearest` rounds any quotient to a
representable number, halves to the even neighbour, and gives infinity above
the range.
-/

namespace DotLang

/-- The number of units in one. -/
def unitsPerOne : Nat := Nat.pow 2 1074

/-- The number of units in the power of two above the range. -/
def unitsLimit : Nat := Nat.pow 2 2098

/-- The number of units of size `2⁻¹⁰⁷⁴` fits the format. -/
def Representable (units : Nat) : Prop :=
  units < unitsLimit ∧ Nat.pow 2 (units.log2 - 52) ∣ units

instance (units : Nat) : Decidable (Representable units) :=
  inferInstanceAs (Decidable (_ ∧ _))

/-- A number of double precision.  Zero has a sign. -/
inductive Double
  /-- No number. -/
  | nan
  /-- A number beyond the range. -/
  | infinite (negative : Bool)
  /-- A number of units of size `2⁻¹⁰⁷⁴`. -/
  | finite (negative : Bool) (units : Nat) (fits : Representable units)
deriving DecidableEq

/-- The quotient rounded to a whole number, a half to the even neighbour. -/
def roundHalfEven (num den : Nat) : Nat :=
  let q := num / den
  let r := num % den
  if 2 * r < den then q
  else if den < 2 * r then q + 1
  else q + q % 2

namespace Double

/-- The number with so many units, infinity if they do not fit. -/
def ofUnits (negative : Bool) (units : Nat) : Double :=
  if fits : Representable units then .finite negative units fits else .infinite negative

/-- The representable number of units nearest to a quotient.  Numbers with more
than 53 bits are rounded in steps of a power of two. -/
def nearest (negative : Bool) (num den : Nat) : Double :=
  let step := Nat.pow 2 ((num / den).log2 - 52)
  ofUnits negative (roundHalfEven num (den * step) * step)

/-- The number nearest to `digits · 10 ^ exponent`.  Exponents far beyond the
range are settled without computing the power. -/
def ofDecimal (negative : Bool) (digits : Nat) (exponent : Int) : Double :=
  if digits = 0 ∨ exponent < -(400 + digits.log2 : Int) then ofUnits negative 0
  else if 400 < exponent then .infinite negative
  else if exponent < 0 then nearest negative (digits * unitsPerOne) (Nat.pow 10 (-exponent).toNat)
  else nearest negative (digits * Nat.pow 10 exponent.toNat * unitsPerOne) 1

/-- The whole number `n`. -/
def ofInt (n : Int) : Double := ofDecimal (n < 0) n.natAbs 0

/-- Whether the number is neither infinite nor no number. -/
def isFinite : Double → Bool
  | .finite .. => true
  | _ => false

/-- The units with their sign. -/
def signedUnits (negative : Bool) (units : Nat) : Int := if negative then -units else units

/-- Whether the first number is below the second.  This never holds of `nan`,
and the two zeros are not below each other. -/
def lt : Double → Double → Bool
  | .nan, _ => false
  | _, .nan => false
  | .infinite a, .infinite b => a && !b
  | .infinite a, .finite .. => a
  | .finite .., .infinite b => !b
  | .finite a m _, .finite b n _ => signedUnits a m < signedUnits b n

/-- Whether the number lies between zero and one, both included. -/
def inUnitInterval (x : Double) : Bool :=
  x.isFinite && !x.lt (ofInt 0) && !(ofInt 1).lt x

example : ofDecimal false 1 0 = ofUnits false unitsPerOne := by decide +kernel
example : ofDecimal false 1 309 = .infinite false := by decide +kernel
example : ofDecimal false 5 (-324) = ofUnits false 1 := by decide +kernel
example : (ofDecimal true 0 0).lt (ofInt 0) = false := by decide +kernel

end Double

end DotLang
