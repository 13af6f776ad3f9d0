import Mathlib.Tactic.Ring
import DotLang.Number.Double
/-!
# Rounding to double precision

A decimal is a quotient of whole numbers, and many pairs of digits and exponent denote the
same quotient.  Rounding sees the quotient alone (`nearestUnits_congr`), so zeros at the
end of the digits can be traded for the exponent (`decimalUnits_mul_pow`).  The limits in
`Double.ofDecimal`, which save the computation of huge powers, do not show in its results
(`ofDecimal_eq`).

A number of units that fits the format is not changed by rounding (`nearestUnits_exact`).
Any other quotient moves by at most half a step (`nearestUnits_error`), where a step is one
unit or a small part of the quotient (`step_le`).
-/

namespace DotLang

variable {num den num' den' k n digits places units : Nat} {negative : Bool} {exponent : Int}

/-! ## Halves to the even neighbour -/

theorem roundHalfEven_mul (hk : 0 < k) :
    roundHalfEven (num * k) (den * k) = roundHalfEven num den := by
  have hdouble : 2 * (num % den * k) = 2 * (num % den) * k := (Nat.mul_assoc ..).symm
  simp only [roundHalfEven, Nat.mul_div_mul_right _ _ hk, Nat.mul_mod_mul_right, hdouble,
    Nat.mul_lt_mul_right hk]

/-- A rounded quotient is at most half a divisor away. -/
theorem roundHalfEven_error (num : Nat) (hden : 0 < den) :
    2 * (roundHalfEven num den * den) ≤ 2 * num + den ∧
      2 * num ≤ 2 * (roundHalfEven num den * den) + den := by
  have hdiv := Nat.div_add_mod' num den
  have hmod := Nat.mod_lt num hden
  have hnext : (num / den + 1) * den = num / den * den + den := Nat.succ_mul ..
  simp only [roundHalfEven]
  split
  · omega
  · split
    · omega
    · rcases Nat.mod_two_eq_zero_or_one (num / den) with heven | hodd
      · rw [heven, Nat.add_zero]
        omega
      · rw [hodd]
        omega

/-- A whole number less than half a divisor away is the rounded quotient. -/
theorem roundHalfEven_eq (above : 2 * (n * den) < 2 * num + den)
    (below : 2 * num < 2 * (n * den) + den) : roundHalfEven num den = n := by
  have hden : 0 < den := by omega
  obtain ⟨hle, hge⟩ := roundHalfEven_error num hden
  rcases Nat.lt_trichotomy (roundHalfEven num den) n with hlt | heq | hlt
  · have := Nat.mul_le_mul_right den hlt
    rw [Nat.succ_mul] at this
    omega
  · exact heq
  · have := Nat.mul_le_mul_right den hlt
    rw [Nat.succ_mul] at this
    omega

theorem roundHalfEven_exact (hden : 0 < den) : roundHalfEven (n * den) den = n :=
  roundHalfEven_eq (by omega) (by omega)

/-- A quotient is not rounded beyond a whole number. -/
theorem roundHalfEven_le (hden : 0 < den) (h : num ≤ n * den) : roundHalfEven num den ≤ n := by
  by_contra hlt
  have hle := (roundHalfEven_error num hden).1
  have := Nat.mul_le_mul_right den (Nat.lt_of_not_le hlt)
  rw [Nat.succ_mul] at this
  omega

theorem le_roundHalfEven (num den : Nat) : num / den ≤ roundHalfEven num den := by
  simp only [roundHalfEven]
  split
  · exact le_rfl
  · split <;> omega

/-! ## The nearest number of units -/

/-- The distance between neighbours of the format near a whole number. -/
def step (q : Nat) : Nat := 2 ^ (q.log2 - 52)

theorem step_pos (q : Nat) : 0 < step q := Nat.two_pow_pos _

/-- Beyond the smallest steps there are at least `2 ^ 52` steps from zero. -/
theorem step_le (q : Nat) : step q = 1 ∨ step q * 2 ^ 52 ≤ q := by
  unfold step
  by_cases hlog : q.log2 ≤ 52
  · exact Or.inl (by rw [Nat.sub_eq_zero_of_le hlog, Nat.pow_zero])
  · have hq : q ≠ 0 := by
      rintro rfl
      simp at hlog
    refine Or.inr ?_
    rw [← Nat.pow_add, Nat.sub_add_cancel (by omega)]
    exact Nat.log2_self_le hq

/-- A step divides each power of two that its number does not exceed. -/
theorem step_dvd_pow {q : Nat} (h : q ≤ 2 ^ n) : step q ∣ 2 ^ n := by
  refine Nat.pow_dvd_pow 2 ?_
  by_cases hq : q = 0
  · simp [hq]
  · have hlog := (Nat.pow_le_pow_iff_right (by decide)).1 ((Nat.log2_self_le hq).trans h)
    omega

/-- The units of the number nearest to a quotient of units. -/
def nearestUnits (num den : Nat) : Nat :=
  roundHalfEven num (den * step (num / den)) * step (num / den)

namespace Double

theorem nearest_eq (negative : Bool) (num den : Nat) :
    nearest negative num den = ofUnits negative (nearestUnits num den) := rfl

end Double

theorem nearestUnits_mul (hk : 0 < k) :
    nearestUnits (num * k) (den * k) = nearestUnits num den := by
  simp only [nearestUnits, Nat.mul_div_mul_right _ _ hk, Nat.mul_right_comm den k,
    roundHalfEven_mul hk]

/-- Equal quotients are rounded to the same number. -/
theorem nearestUnits_congr (hden : 0 < den) (hden' : 0 < den') (h : num * den' = num' * den) :
    nearestUnits num den = nearestUnits num' den' := by
  rw [← nearestUnits_mul hden', h, Nat.mul_comm den den', nearestUnits_mul hden]

/-- A number that fits the format stays as it is. -/
theorem nearestUnits_exact (hden : 0 < den) (fits : Representable units) :
    nearestUnits (units * den) den = units := by
  have hdiv : units * den / den = units := Nat.mul_div_cancel _ hden
  obtain ⟨c, hc⟩ : step units ∣ units := fits.2
  have hquot : units * den = c * (den * step units) := by
    conv_lhs => rw [hc]
    ring
  rw [nearestUnits, hdiv, hquot, roundHalfEven_exact (Nat.mul_pos hden (step_pos _)), Nat.mul_comm]
  exact hc.symm

/-- Rounding moves a quotient by at most half a step. -/
theorem nearestUnits_error (num : Nat) (hden : 0 < den) :
    2 * (nearestUnits num den * den) ≤ 2 * num + den * step (num / den) ∧
      2 * num ≤ 2 * (nearestUnits num den * den) + den * step (num / den) := by
  have hrounded := roundHalfEven_error num (Nat.mul_pos hden (step_pos (num / den)))
  have hunits : nearestUnits num den * den =
      roundHalfEven num (den * step (num / den)) * (den * step (num / den)) := by
    rw [nearestUnits]
    ring
  rwa [hunits]

/-- A quotient is not rounded beyond a multiple of its step. -/
theorem nearestUnits_le (hden : 0 < den) (h : num ≤ units * den)
    (multiple : step (num / den) ∣ units) : nearestUnits num den ≤ units := by
  obtain ⟨c, hc⟩ := multiple
  have hround : roundHalfEven num (den * step (num / den)) ≤ c := by
    refine roundHalfEven_le (Nat.mul_pos hden (step_pos _)) (h.trans_eq ?_)
    conv_lhs => rw [hc]
    ring
  calc nearestUnits num den ≤ c * step (num / den) := Nat.mul_le_mul_right _ hround
    _ = units := by rw [Nat.mul_comm, ← hc]

/-- A rounded quotient in the range of the format fits it. -/
theorem fits_nearestUnits (hden : 0 < den) (h : nearestUnits num den < unitsLimit) :
    Representable (nearestUnits num den) := by
  refine ⟨h, ?_⟩
  rw [nearestUnits, step, Nat.pow_eq]
  generalize hk : (num / den).log2 - 52 = k
  -- The rounded number of steps has at most 53 bits, or is the power of two above them.
  have hquot : num / den < 2 ^ (53 + k) :=
    Nat.lt_log2_self.trans_le (Nat.pow_le_pow_right (by decide) (by omega))
  have hround : roundHalfEven num (den * 2 ^ k) ≤ 2 ^ 53 := by
    refine roundHalfEven_le (Nat.mul_pos hden (Nat.two_pow_pos k)) ?_
    calc num ≤ 2 ^ (53 + k) * den := ((Nat.div_lt_iff_lt_mul hden).1 hquot).le
      _ = 2 ^ 53 * (den * 2 ^ k) := by ring
  rcases Nat.lt_or_eq_of_le hround with hlt | heq
  · refine (Nat.pow_dvd_pow 2 (?_ : _ ≤ k)).trans (Nat.dvd_mul_left _ _)
    by_cases hzero : roundHalfEven num (den * 2 ^ k) * 2 ^ k = 0
    · rw [hzero]
      simp
    · have hunits : roundHalfEven num (den * 2 ^ k) * 2 ^ k < 2 ^ (53 + k) := by
        rw [Nat.pow_add]
        exact Nat.mul_lt_mul_of_pos_right hlt (Nat.two_pow_pos k)
      have := (Nat.log2_lt hzero).2 hunits
      omega
  · rw [heq, ← Nat.pow_add, Nat.log2_two_pow]
    exact Nat.pow_dvd_pow 2 (by omega)

/-- What is below half a unit is rounded to nothing. -/
theorem nearestUnits_eq_zero (h : 2 * num < den) : nearestUnits num den = 0 := by
  have hstep : step (num / den) = 1 := by
    rw [Nat.div_eq_of_lt (by omega)]
    rfl
  rw [nearestUnits, hstep, Nat.mul_one, Nat.mul_one]
  exact roundHalfEven_eq (by omega) (by omega)

/-- No power of two that is reached is lost by rounding. -/
theorem pow_le_nearestUnits (hn : 52 ≤ n) (h : 2 ^ n ≤ num / den) :
    2 ^ n ≤ nearestUnits num den := by
  have hpos : num / den ≠ 0 := fun h0 => by
    rw [h0] at h
    exact absurd h (Nat.not_le.2 (Nat.two_pow_pos n))
  have hlog : n ≤ (num / den).log2 := (Nat.le_log2 hpos).2 h
  have hpow : 2 ^ 52 * step (num / den) = 2 ^ (num / den).log2 := by
    rw [step, ← Nat.pow_add, Nat.add_sub_cancel' (by omega)]
  have hround : 2 ^ 52 ≤ roundHalfEven num (den * step (num / den)) := by
    refine le_trans ?_ (le_roundHalfEven _ _)
    rw [← Nat.div_div_eq_div_mul, Nat.le_div_iff_mul_le (step_pos _), hpow]
    exact Nat.log2_self_le hpos
  calc 2 ^ n ≤ 2 ^ (num / den).log2 := Nat.pow_le_pow_right (by decide) hlog
    _ = 2 ^ 52 * step (num / den) := hpow.symm
    _ ≤ nearestUnits num den := Nat.mul_le_mul_right _ hround

/-! ## Decimals -/

/-- The units of the number nearest to `digits · 10 ^ exponent`. -/
def decimalUnits (digits : Nat) (exponent : Int) : Nat :=
  nearestUnits (digits * 10 ^ exponent.toNat * unitsPerOne) (10 ^ (-exponent).toNat)

theorem unitsPerOne_eq : unitsPerOne = 2 ^ 1074 := rfl

theorem unitsPerOne_pos : 0 < unitsPerOne := Nat.two_pow_pos _

theorem pow_ten_pos (n : Nat) : 0 < 10 ^ n := Nat.pow_pos (by decide)

/-- A power of ten is at least the third power of two for each of its zeros. -/
theorem pow_two_le_pow_ten (n : Nat) : 2 ^ (3 * n) ≤ 10 ^ n := by
  rw [Nat.pow_mul]
  exact Nat.pow_le_pow_left (by decide) n

/-- Far below the range a decimal is rounded to nothing. -/
theorem decimalUnits_below (h : exponent < -(400 + digits.log2 : Int)) :
    decimalUnits digits exponent = 0 := by
  have hpos : exponent.toNat = 0 := by omega
  have hneg : 401 + digits.log2 ≤ (-exponent).toNat := by omega
  refine nearestUnits_eq_zero ?_
  rw [hpos, Nat.pow_zero, Nat.mul_one, unitsPerOne_eq]
  calc 2 * (digits * 2 ^ 1074) < 2 * (2 ^ (digits.log2 + 1) * 2 ^ 1074) :=
        Nat.mul_lt_mul_of_pos_left
          (Nat.mul_lt_mul_of_pos_right Nat.lt_log2_self (Nat.two_pow_pos _)) (by decide)
    _ = 2 ^ (digits.log2 + 1076) := by rw [← Nat.pow_add, ← Nat.pow_succ']
    _ ≤ 2 ^ (3 * (401 + digits.log2)) := Nat.pow_le_pow_right (by decide) (by omega)
    _ ≤ 10 ^ (401 + digits.log2) := pow_two_le_pow_ten _
    _ ≤ 10 ^ (-exponent).toNat := Nat.pow_le_pow_right (by decide) hneg

/-- Far above the range a decimal is no number of the format. -/
theorem decimalUnits_above (hdigits : digits ≠ 0) (h : 400 < exponent) :
    unitsLimit ≤ decimalUnits digits exponent := by
  have hneg : (-exponent).toNat = 0 := by omega
  have hpos : 401 ≤ exponent.toNat := by omega
  have hlimit : unitsLimit = 2 ^ 2098 := rfl
  rw [decimalUnits, hneg, Nat.pow_zero, hlimit]
  refine pow_le_nearestUnits (by omega) ?_
  rw [Nat.div_one, unitsPerOne_eq]
  calc 2 ^ 2098 ≤ 1 * 2 ^ (3 * 401) * 2 ^ 1074 := by
        rw [Nat.one_mul, ← Nat.pow_add]
        exact Nat.pow_le_pow_right (by decide) (by decide)
    _ ≤ digits * 10 ^ exponent.toNat * 2 ^ 1074 := by
        refine Nat.mul_le_mul_right _ (Nat.mul_le_mul (by omega) ?_)
        exact (pow_two_le_pow_ten 401).trans (Nat.pow_le_pow_right (by decide) hpos)

theorem decimalUnits_zero (exponent : Int) : decimalUnits 0 exponent = 0 := by
  refine nearestUnits_eq_zero ?_
  rw [Nat.zero_mul, Nat.zero_mul]
  exact pow_ten_pos _

theorem ofUnits_limit (h : unitsLimit ≤ units) :
    Double.ofUnits negative units = .infinite negative :=
  dif_neg fun fits => absurd fits.1 (Nat.not_lt.2 h)

/-- A decimal is rounded as the quotient that it is, whatever its exponent. -/
theorem Double.ofDecimal_eq (negative : Bool) (digits : Nat) (exponent : Int) :
    ofDecimal negative digits exponent = ofUnits negative (decimalUnits digits exponent) := by
  unfold ofDecimal
  split
  · next h =>
      rcases h with rfl | h
      · rw [decimalUnits_zero]
      · rw [decimalUnits_below h]
  · next h =>
      obtain ⟨hdigits, _⟩ := not_or.1 h
      split
      · next habove => rw [ofUnits_limit (decimalUnits_above hdigits habove)]
      · split
        · next hneg =>
            have hpos : exponent.toNat = 0 := by omega
            rw [nearest_eq, decimalUnits, hpos, Nat.pow_zero, Nat.mul_one]
            rfl
        · next hneg =>
            have hzero : (-exponent).toNat = 0 := by omega
            rw [nearest_eq, decimalUnits, hzero, Nat.pow_zero]
            rfl

/-- Zeros at the end of the digits can be traded for the exponent. -/
theorem decimalUnits_mul_pow (digits k : Nat) (exponent : Int) :
    decimalUnits (digits * 10 ^ k) exponent = decimalUnits digits (exponent + k) := by
  refine nearestUnits_congr (pow_ten_pos _) (pow_ten_pos _) ?_
  have hexp : k + exponent.toNat + (-(exponent + k)).toNat =
      (exponent + k).toNat + (-exponent).toNat := by omega
  calc digits * 10 ^ k * 10 ^ exponent.toNat * unitsPerOne * 10 ^ (-(exponent + k)).toNat
      = digits * 10 ^ (k + exponent.toNat + (-(exponent + k)).toNat) * unitsPerOne := by ring
    _ = digits * 10 ^ ((exponent + k).toNat + (-exponent).toNat) * unitsPerOne := by rw [hexp]
    _ = digits * 10 ^ (exponent + k).toNat * unitsPerOne * 10 ^ (-exponent).toNat := by ring

/-- The quotient that is rounded, with the places as divisor. -/
theorem decimalUnits_places (n places : Nat) :
    decimalUnits n (-places) = nearestUnits (n * unitsPerOne) (10 ^ places) := by
  have hneg : (-(places : Int)).toNat = 0 := by omega
  have hpos : (-(-(places : Int))).toNat = places := by omega
  rw [decimalUnits, hneg, hpos, Nat.pow_zero, Nat.mul_one]

/-- A fraction with so many places is not rounded beyond one. -/
theorem decimalUnits_le_one (h : n ≤ 10 ^ places) :
    decimalUnits n (-places) ≤ unitsPerOne := by
  have hnum : n * unitsPerOne ≤ unitsPerOne * 10 ^ places := by
    rw [Nat.mul_comm unitsPerOne]
    exact Nat.mul_le_mul_right _ h
  rw [decimalUnits_places]
  refine nearestUnits_le (pow_ten_pos places) hnum ?_
  exact step_dvd_pow (Nat.div_le_of_le_mul (hnum.trans_eq (Nat.mul_comm _ _)))

/-- What is not rounded beyond one fits the format. -/
theorem fits_le_one (h : decimalUnits n exponent ≤ unitsPerOne) :
    Representable (decimalUnits n exponent) := by
  refine fits_nearestUnits (pow_ten_pos _) (Nat.lt_of_le_of_lt h ?_)
  exact Nat.pow_lt_pow_right (by decide) (by decide)

end DotLang
