import DotLang.Proofs.Pieces
import DotLang.Proofs.Rounding
import DotLang.Proofs.SafeIds
import DotLang.Value.Scalar
/-!
# Numbers are read from their texts

A number is written with digits and a point, and reading puts the digits on the two sides
of the point together again.  The digits that are written are those of a decimal that is
rounded to the number (`shortest_units`): either the search has found one that is, or the
decimal is exact.  Zeros that are dropped at the end of a fraction change the exponent and
not the value.  So every number is read from its text (`Double.read_text`), with the sign of
a zero.

What separates numbers in a longer text is no character of theirs (`NumberText`).
-/

namespace DotLang

open Text

variable {cs ds int frac : List Char} {c : Char} {n digits places units : Nat}
  {negative : Bool} {exponent : Int} {x : Double}

/-! ## Digits -/

theorem ofDigits_eq (cs : List Char) : ofDigits cs = Nat.ofDigitChars 10 cs 0 := rfl

theorem ofDigits_digitsOf (n : Nat) : ofDigits (digitsOf n) = n := Nat.ofDigitChars_ten_toDigits

theorem ofDigits_zeros_append (k : Nat) (ds : List Char) :
    ofDigits (List.replicate k '0' ++ ds) = ofDigits ds := by
  simp [ofDigits_eq, Nat.ofDigitChars_append]

theorem ofDigits_append_zeros (ds : List Char) (k : Nat) :
    ofDigits (ds ++ List.replicate k '0') = ofDigits ds * 10 ^ k := by
  rw [ofDigits_eq, Nat.ofDigitChars_append, Nat.ofDigitChars_replicate_zero, Nat.mul_comm]
  rfl

theorem isDigits_iff : isDigits cs = true ↔ cs ≠ [] ∧ ∀ c ∈ cs, c.isDigit = true := by
  simp [isDigits]

theorem digits_digitsOf (n : Nat) : ∀ c ∈ digitsOf n, c.isDigit = true :=
  fun _ hc => Nat.isDigit_of_mem_toDigits (by decide) (by decide) hc

theorem isDigits_digitsOf (n : Nat) : isDigits (digitsOf n) = true :=
  isDigits_iff.2 ⟨Nat.toDigits_ne_nil, digits_digitsOf n⟩

theorem digits_zeros (k : Nat) : ∀ c ∈ List.replicate k '0', c.isDigit = true := by
  intro c hc
  rw [(List.mem_replicate.1 hc).2]
  rfl

/-- Digits in front of the point and behind it are the digits of the number. -/
theorem placesText_eq (digits places : Nat) :
    ∃ int frac, placesText digits places = (int, frac) ∧ isDigits int = true ∧
      (∀ c ∈ frac, c.isDigit = true) ∧ frac.length = places ∧
      ofDigits (int ++ frac) = digits := by
  have hall : ∀ c ∈ padLeft (places + 1) (digitsOf digits), c.isDigit = true := by
    intro c hc
    rcases List.mem_append.1 hc with hc | hc
    · exact digits_zeros _ c hc
    · exact digits_digitsOf digits c hc
  have hlength : places + 1 ≤ (padLeft (places + 1) (digitsOf digits)).length := by
    rw [padLeft, List.length_append, List.length_replicate]
    omega
  have hvalue : ofDigits (padLeft (places + 1) (digitsOf digits)) = digits := by
    rw [padLeft, ofDigits_zeros_append, ofDigits_digitsOf]
  refine ⟨_, _, rfl, isDigits_iff.2 ⟨?_, fun c hc => hall c (List.mem_of_mem_take hc)⟩,
    fun c hc => hall c (List.mem_of_mem_drop hc), ?_, ?_⟩
  · rw [← List.length_pos_iff, List.length_take]
    omega
  · rw [List.length_drop]
    omega
  · rw [List.take_append_drop, hvalue]

/-- Only zeros are dropped. -/
theorem exists_dropZeros (ds : List Char) : ∃ k, ds = dropZeros ds ++ List.replicate k '0' := by
  refine ⟨(ds.reverse.takeWhile (· == '0')).length, ?_⟩
  have hzeros : ds.reverse.takeWhile (· == '0') =
      List.replicate (ds.reverse.takeWhile (· == '0')).length '0' :=
    List.eq_replicate_of_mem fun c hc => by
      simpa using List.all_eq_true.1 List.all_takeWhile c hc
  have hsplit := congrArg List.reverse
    (List.takeWhile_append_dropWhile (p := (· == '0')) (l := ds.reverse)).symm
  rwa [List.reverse_reverse, List.reverse_append, hzeros, List.reverse_replicate] at hsplit

/-! ## Digits with a point -/

/-- Digits on the two sides of a point, without the point if nothing stands behind it. -/
def pointText (int frac : List Char) : List Char :=
  if frac.isEmpty then int else int ++ '.' :: frac

theorem readUnsigned_pointText (hint : isDigits int = true)
    (hfrac : ∀ c ∈ frac, c.isDigit = true) :
    Double.readUnsigned negative (pointText int frac) =
      some (Double.ofDecimal negative (ofDigits (int ++ frac)) (-frac.length)) := by
  obtain ⟨hne, hall⟩ := isDigits_iff.1 hint
  have hempty : int.isEmpty = false := by simpa using hne
  cases frac with
  | nil =>
      have hspan := span_append (p := Char.isDigit) [] (List.all_eq_true.2 hall) (by simp)
      rw [List.append_nil] at hspan
      simp [pointText, Double.readUnsigned, hspan.1, hspan.2, hempty, readExponent]
  | cons c frac =>
      have hspan := span_append (p := Char.isDigit) ('.' :: c :: frac) (List.all_eq_true.2 hall)
        (by simp [Char.isDigit])
      have hbehind := span_append (p := Char.isDigit) [] (List.all_eq_true.2 hfrac) (by simp)
      rw [List.append_nil] at hbehind
      simp [pointText, Double.readUnsigned, hspan.1, hspan.2, hbehind.1, hbehind.2, hempty,
        readExponent]

/-- A sign in front of a digit is read. -/
theorem readSign_signText (hc : c.isDigit = true) (negative : Bool) (cs : List Char) :
    readSign (signText negative ++ c :: cs) = (negative, c :: cs) := by
  cases negative with
  | true => rfl
  | false =>
      unfold readSign
      split
      · next h => simp [signText] at h; simp [h.1, Char.isDigit] at hc
      · next h => simp [signText] at h; simp [h.1, Char.isDigit] at hc
      · rfl

/-- What begins with a digit is neither a sign nor a word. -/
theorem Double.read_of_digit (hc : c.isDigit = true) (negative : Bool) (cs : List Char) :
    read (signText negative ++ c :: cs) = readUnsigned negative (c :: cs) := by
  have hlower : c.toLower = c := by
    unfold Char.toLower
    rw [dif_neg]
    rintro ⟨hle, _⟩
    have hle : 65 ≤ c.toNat := hle
    have hrange := isDigit_toNat hc
    omega
  have hword : ∀ word : List Char, word.head?.all (! ·.isDigit) = true →
      (c :: cs).map Char.toLower ≠ word := by
    rintro word hhead rfl
    simp [hlower, hc] at hhead
  rw [read, readSign_signText hc]
  dsimp only
  rw [if_neg (not_or.2 ⟨hword _ (by decide), hword _ (by decide)⟩), if_neg (hword _ (by decide))]

theorem Double.read_pointText (hint : isDigits int = true) (hfrac : ∀ c ∈ frac, c.isDigit = true)
    (negative : Bool) :
    read (signText negative ++ pointText int frac) =
      some (ofUnits negative (decimalUnits (ofDigits (int ++ frac)) (-frac.length))) := by
  obtain ⟨hne, hall⟩ := isDigits_iff.1 hint
  obtain ⟨c, w, rfl⟩ := List.exists_cons_of_ne_nil hne
  obtain ⟨w', hw'⟩ : ∃ w', pointText (c :: w) frac = c :: w' := by
    unfold pointText
    split <;> simp
  rw [hw', read_of_digit (hall c List.mem_cons_self), ← hw', readUnsigned_pointText hint hfrac,
    ofDecimal_eq]

/-- A decimal is written by the digits on the two sides of its point. -/
theorem positionalText_eq (digits : Nat) (exponent : Int) :
    ∃ int frac, positionalText digits exponent = pointText int frac ∧ isDigits int = true ∧
      (∀ c ∈ frac, c.isDigit = true) ∧
      decimalUnits (ofDigits (int ++ frac)) (-frac.length) = decimalUnits digits exponent := by
  unfold positionalText
  split
  · next hexp =>
      refine ⟨digitsOf digits ++ List.replicate exponent.toNat '0', [], rfl, ?_, by simp, ?_⟩
      · refine isDigits_iff.2 ⟨by simp [(isDigits_iff.1 (isDigits_digitsOf digits)).1], ?_⟩
        intro c hc
        rcases List.mem_append.1 hc with hc | hc
        · exact digits_digitsOf digits c hc
        · exact digits_zeros _ c hc
      · rw [List.append_nil, ofDigits_append_zeros, ofDigits_digitsOf, decimalUnits_mul_pow]
        simp [Int.toNat_of_nonneg hexp]
  · next hexp =>
      obtain ⟨int, frac, htext, hint, hfrac, hlength, hvalue⟩ :=
        placesText_eq digits (-exponent).toNat
      obtain ⟨k, hk⟩ := exists_dropZeros frac
      refine ⟨int, dropZeros frac, by rw [htext]; rfl, hint, fun c hc => ?_, ?_⟩
      · refine hfrac c ?_
        rw [hk]
        exact List.mem_append_left _ hc
      · -- The zeros that are dropped stand for a factor.
        have hdigits : digits = ofDigits (int ++ dropZeros frac) * 10 ^ k := by
          rw [← ofDigits_append_zeros, List.append_assoc, ← hk, hvalue]
        have hplaces : (dropZeros frac).length + k = (-exponent).toNat := by
          have h := congrArg List.length hk
          rw [List.length_append, List.length_replicate, hlength] at h
          exact h.symm
        rw [hdigits, decimalUnits_mul_pow]
        congr 1
        omega

/-! ## The text of a number -/

theorem ofUnits_eq_finite (fits : Representable units) (negative : Bool) :
    Double.ofUnits negative units = .finite negative units fits := dif_pos fits

/-- A number of units is a decimal itself, with as many places as there are halvings of
one in a unit. -/
theorem decimalUnits_exact (fits : Representable units) {n : Nat} (hn : unitsPerOne = 2 ^ n) :
    decimalUnits (units * 5 ^ n) (-n) = units := by
  have hneg : (-(n : Int)).toNat = 0 := by omega
  have hpos : (-(-(n : Int))).toNat = n := by omega
  rw [decimalUnits, hneg, hpos, hn, Nat.pow_zero, Nat.mul_one, Nat.mul_assoc, ← Nat.mul_pow,
    nearestUnits_exact (pow_ten_pos n) fits]

/-- The digits that are written are those of a decimal that is rounded to the number. -/
theorem shortest_units (fits : Representable units) :
    decimalUnits (Double.shortest units).1 (Double.shortest units).2 = units := by
  have hfound : ∀ {digits exponent},
      Double.ofDecimal false digits exponent = Double.ofUnits false units →
      decimalUnits digits exponent = units := by
    intro digits exponent h
    rw [Double.ofDecimal_eq, ofUnits_eq_finite fits, Double.ofUnits] at h
    split at h
    · exact (Double.finite.inj h).2
    · cases h
  simp only [Double.shortest, Nat.pow_eq]
  cases hfind : (List.range 17).findSome? fun (n : Nat) =>
      Double.onGrid? units (Double.decade units unitsPerOne - (n + 1)) with
  | none =>
      rw [Option.getD_none]
      exact decimalUnits_exact fits unitsPerOne_eq
  | some found =>
      obtain ⟨n, _, hn⟩ := List.exists_of_findSome?_eq_some hfind
      obtain ⟨digits, hdigits, rfl⟩ := Option.map_eq_some_iff.1 hn
      rw [Option.getD_some]
      exact hfound (by simpa using List.find?_some hdigits)

/-- A finite number is written by its sign and the digits on the two sides of a point, which
are rounded to the number. -/
theorem Double.text_eq (negative : Bool) (fits : Representable units) :
    ∃ int frac, (Double.finite negative units fits).text = signText negative ++ pointText int frac ∧
      isDigits int = true ∧ (∀ c ∈ frac, c.isDigit = true) ∧
      decimalUnits (ofDigits (int ++ frac)) (-frac.length) = units := by
  by_cases hzero : units = 0
  · refine ⟨['0'], [], by simp [text, hzero, pointText], rfl, by simp, ?_⟩
    rw [hzero]
    exact decimalUnits_zero _
  · obtain ⟨int, frac, htext, hint, hfrac, hunits⟩ :=
      positionalText_eq (shortest units).1 (shortest units).2
    refine ⟨int, frac, ?_, hint, hfrac, hunits.trans (shortest_units fits)⟩
    rw [text, if_neg hzero, htext]

theorem Double.exists_finite (h : x.isFinite = true) :
    ∃ negative units fits, x = .finite negative units fits := by
  cases x with
  | nan => cases h
  | infinite => cases h
  | finite negative units fits => exact ⟨negative, units, fits, rfl⟩

/-- A number is read from its text. -/
theorem Double.read_text (x : Double) : read x.text = some x := by
  cases x with
  | nan => decide
  | infinite negative => cases negative <;> decide
  | finite negative units fits =>
      obtain ⟨int, frac, htext, hint, hfrac, hunits⟩ := text_eq negative fits
      rw [htext, read_pointText hint hfrac, hunits, ofUnits_eq_finite fits]

/-! ## The characters of a number -/

/-- The characters that finite numbers are written with. -/
def isNumberChar (c : Char) : Bool := c.isDigit || c == '-' || c == '.'

/-- The text is one of digits, points and signs, and not empty. -/
structure NumberText (cs : List Char) : Prop where
  not_nil : cs ≠ []
  chars : ∀ c ∈ cs, isNumberChar c = true

theorem numberText_point (hint : isDigits int = true) (hfrac : ∀ c ∈ frac, c.isDigit = true)
    (negative : Bool) : NumberText (signText negative ++ pointText int frac) := by
  obtain ⟨hne, hall⟩ := isDigits_iff.1 hint
  constructor
  · intro h
    have hnil := (List.append_eq_nil_iff.1 h).2
    unfold pointText at hnil
    split at hnil
    · exact hne hnil
    · simp at hnil
  · intro c hc
    rcases List.mem_append.1 hc with hc | hc
    · cases negative with
      | false => cases hc
      | true =>
          obtain rfl := List.mem_singleton.1 hc
          rfl
    · unfold pointText at hc
      split at hc
      · simp [isNumberChar, hall c hc]
      · rcases List.mem_append.1 hc with hc | hc
        · simp [isNumberChar, hall c hc]
        · rcases List.mem_cons.1 hc with rfl | hc
          · rfl
          · simp [isNumberChar, hfrac c hc]

theorem Double.numberText (h : x.isFinite = true) : NumberText x.text := by
  obtain ⟨negative, units, fits, rfl⟩ := exists_finite h
  obtain ⟨int, frac, htext, hint, hfrac, _⟩ := text_eq negative fits
  rw [htext]
  exact numberText_point hint hfrac negative

theorem isBlank_of_isNumberChar (h : isNumberChar c = true) : isBlank c = false := by
  simp only [isNumberChar, Bool.or_eq_true, beq_iff_eq] at h
  rcases h with (h | rfl) | rfl
  · have hrange := isDigit_toNat h
    exact isBlank_of_visible (by omega) (by omega)
  · rfl
  · rfl

namespace NumberText

variable (h : NumberText cs)
include h

theorem not_blank : ∀ c ∈ cs, isBlank c = false := fun c hc =>
  isBlank_of_isNumberChar (h.chars c hc)

theorem not_mem (hc : isNumberChar c = false) : c ∉ cs := fun hmem =>
  Bool.false_ne_true (hc.symm.trans (h.chars c hmem))

theorem trim_eq : trim cs = cs := trim_of_not_blank h.not_blank

end NumberText

/-! ## Values -/

/-- What is read as a value is a finite number behind blanks. -/
theorem readNumberValue_eq_ok_iff :
    readNumberValue cs = .ok x ↔ Double.read (trim cs) = some x ∧ x.isFinite = true := by
  unfold readNumberValue
  constructor
  · intro h
    split at h
    · next hread =>
        split at h
        · next hfinite =>
            cases h
            exact ⟨hread, hfinite⟩
        · cases h
    · cases h
  · rintro ⟨hread, hfinite⟩
    rw [hread]
    exact if_pos hfinite

/-- The text of a number is one of three words if the number is not finite. -/
theorem Double.text_cases {P : List Char → Prop} (x : Double) (nan : P "NaN".toList)
    (infinite : ∀ negative, P (signText negative ++ "inf".toList))
    (finite : ∀ cs, NumberText cs → P cs) : P x.text := by
  cases x with
  | nan => exact nan
  | infinite negative => exact infinite negative
  | finite negative units fits => exact finite _ (numberText rfl)

theorem Double.trim_text (x : Double) : trim x.text = x.text :=
  x.text_cases (P := fun cs => trim cs = cs) (by decide) (by decide) fun _ h => h.trim_eq

/-- A number is read from its text as a value if it is finite. -/
theorem readNumberValue_text_iff {y : Double} :
    readNumberValue x.text = .ok y ↔ x.isFinite = true ∧ y = x := by
  rw [readNumberValue_eq_ok_iff, x.trim_text, x.read_text, Option.some.injEq]
  constructor
  · rintro ⟨rfl, h⟩
    exact ⟨h, rfl⟩
  · rintro ⟨h, rfl⟩
    exact ⟨rfl, h⟩

theorem readNumberValue_text (h : x.isFinite = true) : readNumberValue x.text = .ok x :=
  readNumberValue_text_iff.2 ⟨h, rfl⟩

/-! ## Whole numbers -/

theorem numberText_whole (n : Int) : NumberText (wholeText n) := by
  have hnil : ∀ c ∈ ([] : List Char), c.isDigit = true := by simp
  exact numberText_point (isDigits_digitsOf n.natAbs) hnil _

theorem readWhole_wholeText (n : Int) : readWhole (wholeText n) = some n := by
  have hdigits := isDigits_digitsOf n.natAbs
  obtain ⟨hne, hall⟩ := isDigits_iff.1 hdigits
  obtain ⟨c, w, hcw⟩ := List.exists_cons_of_ne_nil hne
  have hsign : readSign (wholeText n) = (decide (n < 0), digitsOf n.natAbs) := by
    rw [wholeText, hcw, readSign_signText (hall c (hcw ▸ List.mem_cons_self))]
  rw [readWhole, hsign]
  simp only [hdigits, ofDigits_digitsOf, if_true, decide_eq_true_eq, Option.some.injEq]
  split <;> omega

/-- A whole number is read from its text. -/
theorem read_text_whole (n : Int32) :
    AttrValue.read (AttrValue.text n) = (.ok n : Except ValueReason Int32) := by
  have hlow := n.le_toInt
  have hhigh := n.toInt_lt
  have hread : readSigned 32 (trim (wholeText n.toInt)) = some n.toInt := by
    rw [(numberText_whole n.toInt).trim_eq, readSigned, readWhole_wholeText]
    simp
    omega
  simp [AttrValue.read, AttrValue.text, hread]

end DotLang
