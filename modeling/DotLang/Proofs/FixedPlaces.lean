import DotLang.Proofs.NumberTexts
/-!
# Numbers with fixed places

A text with a fixed number of places is read as the number nearest to it, which is another
number where more places would be needed (`Double.read_fixedText`).

Between zero and one the format is so fine that fifteen places are not lost
(`roundedPlaces_decimalUnits`).  So a number there is the number of its text just if it is
nearest to a decimal with so many places (`Double.toPlaces_eq_self_iff`), and the number of
a text is written as that text (`Double.fixedText_toPlaces`).
-/

namespace DotLang

open Text

variable {cs w int frac : List Char} {c : Char} {n places units : Nat} {negative : Bool}
  {x : Double}

/-! ## Fixed places -/

/-- The whole number of steps of `10 ^ -places` nearest to a number of units. -/
def roundedPlaces (places units : Nat) : Nat := roundHalfEven (units * 10 ^ places) unitsPerOne

theorem roundedPlaces_zero (places : Nat) : roundedPlaces places 0 = 0 := by
  unfold roundedPlaces
  rw [Nat.zero_mul]
  have hzero := roundHalfEven_exact (n := 0) unitsPerOne_pos
  rwa [Nat.zero_mul] at hzero

theorem Double.fixedText_finite (negative : Bool) (fits : Representable units) (places : Nat) :
    (Double.finite negative units fits).fixedText places =
      signText negative ++ (placesText (roundedPlaces places units) places).1 ++
        '.' :: (placesText (roundedPlaces places units) places).2 := rfl

/-- A finite number is written with fixed places by its sign and so many digits behind the
point. -/
theorem Double.fixedText_eq (hplaces : 0 < places) (negative : Bool)
    (fits : Representable units) :
    ∃ int frac, (Double.finite negative units fits).fixedText places =
        signText negative ++ pointText int frac ∧
      isDigits int = true ∧ (∀ c ∈ frac, c.isDigit = true) ∧ frac.length = places ∧
      ofDigits (int ++ frac) = roundedPlaces places units := by
  obtain ⟨int, frac, htext, hint, hfrac, hlength, hvalue⟩ :=
    placesText_eq (roundedPlaces places units) places
  refine ⟨int, frac, ?_, hint, hfrac, hlength, hvalue⟩
  have hne : frac.isEmpty = false := by
    rw [List.isEmpty_eq_false_iff, ← List.length_pos_iff, hlength]
    exact hplaces
  simp [fixedText_finite, htext, pointText, hne]

/-- The number that is nearest to the text with fixed places. -/
def Double.toPlaces (places : Nat) : Double → Double
  | .finite negative units _ => ofDecimal negative (roundedPlaces places units) (-places)
  | x => x

theorem Double.numberText_fixed (hplaces : 0 < places) (h : x.isFinite = true) :
    NumberText (x.fixedText places) := by
  obtain ⟨negative, units, fits, rfl⟩ := exists_finite h
  obtain ⟨int, frac, htext, hint, hfrac, _⟩ := fixedText_eq hplaces negative fits
  rw [htext]
  exact numberText_point hint hfrac negative

/-- The text with fixed places is read as the number nearest to it. -/
theorem Double.read_fixedText (hplaces : 0 < places) (h : x.isFinite = true) :
    read (x.fixedText places) = some (x.toPlaces places) := by
  obtain ⟨negative, units, fits, rfl⟩ := exists_finite h
  obtain ⟨int, frac, htext, hint, hfrac, hlength, hvalue⟩ := fixedText_eq hplaces negative fits
  rw [htext, read_pointText hint hfrac, hvalue, hlength, toPlaces, ofDecimal_eq]

/-! ## Signs -/

namespace Double

/-- The sign, which a zero has too. -/
def isNegative : Double → Bool
  | .nan => false
  | .infinite negative => negative
  | .finite negative .. => negative

theorem isNegative_ofUnits (negative : Bool) (units : Nat) :
    (ofUnits negative units).isNegative = negative := by
  unfold ofUnits
  split <;> rfl

/-- Without a minus sign a number is written with a digit in front. -/
theorem exists_fixedText (hplaces : 0 < places) (h : x.isFinite = true)
    (unsigned : x.isNegative = false) :
    ∃ c w, x.fixedText places = c :: w ∧ c.isDigit = true := by
  obtain ⟨negative, units, fits, rfl⟩ := exists_finite h
  obtain ⟨int, frac, htext, hint, _⟩ := fixedText_eq hplaces negative fits
  obtain ⟨hne, hall⟩ := isDigits_iff.1 hint
  obtain ⟨c, w, rfl⟩ := List.exists_cons_of_ne_nil hne
  obtain rfl : negative = false := unsigned
  have hc := hall c List.mem_cons_self
  rw [htext]
  cases frac <;> simp [signText, pointText, hc]

theorem isNegative_of_readUnsigned (h : readUnsigned negative cs = some x) :
    x.isNegative = negative := by
  simp only [readUnsigned, Option.ite_none_left_eq_some, Option.map_eq_some_iff] at h
  obtain ⟨_, e, _, rfl⟩ := h
  rw [ofDecimal_eq, isNegative_ofUnits]

/-- What is read without a minus sign has none. -/
theorem isNegative_of_read (hc : c ≠ '-') (h : read (c :: w) = some x) : x.isNegative = false := by
  obtain ⟨body, hsign⟩ : ∃ body, readSign (c :: w) = (false, body) := by
    unfold readSign
    split
    · next heq => exact absurd (List.cons.inj heq).1 hc
    · exact ⟨_, rfl⟩
    · exact ⟨_, rfl⟩
  rw [read, hsign] at h
  dsimp only at h
  split at h
  · cases h
    rfl
  · split at h
    · cases h
      rfl
    · exact isNegative_of_readUnsigned h

end Double

/-! ## Between zero and one -/

theorem roundedPlaces_le (places : Nat) (h : units ≤ unitsPerOne) :
    roundedPlaces places units ≤ 10 ^ places := by
  refine roundHalfEven_le unitsPerOne_pos ?_
  rw [Nat.mul_comm]
  exact Nat.mul_le_mul_left _ h

/-- Fifteen places are not lost between zero and one: half a step there is less than half a
unit of the last place. -/
theorem roundedPlaces_decimalUnits (hplaces : places ≤ 15)
    (h : decimalUnits n (-places) ≤ unitsPerOne) :
    roundedPlaces places (decimalUnits n (-places)) = n := by
  have hpow : 10 ^ places ≤ 10 ^ 15 := Nat.pow_le_pow_right (by decide) hplaces
  have hone : 10 ^ 16 < unitsPerOne :=
    (by decide : 10 ^ 16 < 2 ^ 54).trans (Nat.pow_lt_pow_right (by decide) (by decide))
  rw [decimalUnits_places] at h ⊢
  obtain ⟨hle, hge⟩ := nearestUnits_error (n * unitsPerOne) (pow_ten_pos places)
  have hunits := Nat.mul_le_mul_right (10 ^ places) h
  have hscale := Nat.mul_le_mul_left unitsPerOne hpow
  have hsmall : 10 ^ places * step (n * unitsPerOne / 10 ^ places) < unitsPerOne := by
    rcases step_le (n * unitsPerOne / 10 ^ places) with hstep | hstep
    · rw [hstep]
      omega
    · have hquot := Nat.div_mul_le_self (n * unitsPerOne) (10 ^ places)
      have := (Nat.mul_le_mul_right (10 ^ places) hstep).trans hquot
      have hcomm : step (n * unitsPerOne / 10 ^ places) * 2 ^ 52 * 10 ^ places =
          2 ^ 52 * (10 ^ places * step (n * unitsPerOne / 10 ^ places)) := by ring
      omega
  exact roundHalfEven_eq (by omega) (by omega)

namespace Double

/-- The number is the one nearest to a decimal with so many places. -/
def HasPlaces (places : Nat) (x : Double) : Prop :=
  ∃ negative digits, x = ofDecimal negative digits (-places)

theorem isFinite_of_inUnitInterval (h : x.inUnitInterval = true) : x.isFinite = true := by
  simp only [inUnitInterval, Bool.and_eq_true] at h
  exact h.1.1

/-- Between zero and one lie the units of one without a sign, and the zero with a sign. -/
theorem inUnitInterval_finite (fits : Representable units) :
    (finite negative units fits).inUnitInterval = true ↔
      units ≤ unitsPerOne ∧ (negative = true → units = 0) := by
  have hzero : ofInt 0 = finite false 0 (by decide +kernel) := by decide +kernel
  have hone : ofInt 1 = finite false unitsPerOne (by decide +kernel) := by decide +kernel
  rw [inUnitInterval, hzero, hone]
  simp only [isFinite, lt, Bool.true_and, Bool.and_eq_true, Bool.not_eq_true',
    decide_eq_false_iff_not, Int.not_lt]
  cases negative with
  | false =>
      simp only [signedUnits, Bool.false_eq_true, if_false, false_imp_iff, and_true]
      omega
  | true =>
      simp only [signedUnits, Bool.false_eq_true, if_false, if_true, true_imp_iff]
      omega

theorem exists_inUnitInterval (h : x.inUnitInterval = true) :
    ∃ negative units fits, x = finite negative units fits ∧ units ≤ unitsPerOne ∧
      (negative = true → units = 0) := by
  obtain ⟨negative, units, fits, rfl⟩ := exists_finite (isFinite_of_inUnitInterval h)
  exact ⟨negative, units, fits, rfl, (inUnitInterval_finite fits).1 h⟩

/-- A number that is rounded to places stays at most one, and keeps its sign. -/
theorem toPlaces_finite (negative : Bool) (places : Nat) (fits : Representable units)
    (h : units ≤ unitsPerOne) :
    decimalUnits (roundedPlaces places units) (-places) ≤ unitsPerOne ∧
      ∃ fits', (finite negative units fits).toPlaces places =
        finite negative (decimalUnits (roundedPlaces places units) (-places)) fits' := by
  have hle := decimalUnits_le_one (roundedPlaces_le places h)
  refine ⟨hle, fits_le_one hle, ?_⟩
  rw [toPlaces, ofDecimal_eq, ofUnits_eq_finite]

theorem inUnitInterval_toPlaces (h : x.inUnitInterval = true) :
    (x.toPlaces places).inUnitInterval = true := by
  obtain ⟨negative, units, fits, rfl, hle, hsign⟩ := exists_inUnitInterval h
  obtain ⟨hle', fits', hplaces⟩ := toPlaces_finite negative places fits hle
  rw [hplaces, inUnitInterval_finite]
  refine ⟨hle', fun hneg => ?_⟩
  rw [hsign hneg, roundedPlaces_zero, decimalUnits_zero]

/-- Rounding keeps the numbers that have the places already. -/
theorem toPlaces_eq_self_iff (hplaces : places ≤ 15) (h : x.inUnitInterval = true) :
    x.toPlaces places = x ↔ x.HasPlaces places := by
  obtain ⟨negative, units, fits, rfl, hle, _⟩ := exists_inUnitInterval h
  constructor
  · intro heq
    exact ⟨negative, roundedPlaces places units, heq.symm⟩
  · rintro ⟨negative', digits, hdigits⟩
    rw [ofDecimal_eq, ofUnits] at hdigits
    split at hdigits
    · cases hdigits
      rw [toPlaces, roundedPlaces_decimalUnits hplaces hle, ofDecimal_eq, ofUnits_eq_finite]
    · cases hdigits

/-- A rounded number is written as the number was. -/
theorem fixedText_toPlaces (hplaces : places ≤ 15) (h : x.inUnitInterval = true) :
    (x.toPlaces places).fixedText places = x.fixedText places := by
  obtain ⟨negative, units, fits, rfl, hle, _⟩ := exists_inUnitInterval h
  obtain ⟨hle', fits', hrounded⟩ := toPlaces_finite negative places fits hle
  rw [hrounded, fixedText_finite, fixedText_finite, roundedPlaces_decimalUnits hplaces hle']

end Double

/-- A number that is read and then has to lie between zero and one. -/
theorem inUnitInterval_bind_eq_ok_iff {number : Except ValueReason Double}
    {reason : ValueReason} :
    (number >>= fun y => if y.inUnitInterval then return y else throw reason) = .ok x ↔
      number = .ok x ∧ x.inUnitInterval = true := by
  rw [bind_eq_ok_iff]
  constructor
  · rintro ⟨y, hnumber, hy⟩
    split at hy
    · next hunit =>
        cases hy
        exact ⟨hnumber, hunit⟩
    · cases hy
  · rintro ⟨hnumber, hunit⟩
    exact ⟨x, hnumber, if_pos hunit⟩

end DotLang
