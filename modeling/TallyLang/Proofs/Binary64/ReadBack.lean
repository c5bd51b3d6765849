/-
The shortest digits of a number read back as the number.

A finite number is `significand * 2 ^ scale` units, and its pattern is
`scale * 2 ^ 52 + significand`.  `patternOf_eq` says which quotients are rounded to it:
those between the two midpoints, where the lower one is nearer if the significand is
the smallest normal one, since the numbers below it are twice as dense.  That is the
only case in which a quotient is measured with a smaller scale than its number has,
and the rounding then carries into the exponent.

The rounding interval that the shortest digits are searched in is the same one, so
what is found there reads back, and the finest grid holds the number itself.
-/
import Mathlib.Tactic.Ring
import TallyLang.Proofs.ConstantText

namespace TallyLang

/-! ### Rounding a quotient -/

/-- A quotient that lies halfway above a whole number is rounded to the even neighbour. -/
theorem roundDiv_halfway {num den q : Nat} (hden : 0 < den) (h : 2 * num = 2 * (q * den) + den) :
    roundDiv num den % 2 = 0 := by
  refine roundDiv_tie ?_
  have hnum : num = num - q * den + q * den := by omega
  rw [hnum, Nat.add_mul_mod_self_right, Nat.mod_eq_of_lt (by omega)]
  omega

/-- The rounded quotient is the whole number that is nearest, and of two the even one. -/
theorem roundDiv_eq {num den m : Nat} (hden : 0 < den) (hlow : 2 * (m * den) ≤ 2 * num + den)
    (hhigh : 2 * num ≤ 2 * (m * den) + den)
    (heven : 2 * (m * den) = 2 * num + den ∨ 2 * num = 2 * (m * den) + den → m % 2 = 0) :
    roundDiv num den = m := by
  obtain ⟨hr, hr'⟩ : 2 * num ≤ 2 * (roundDiv num den * den) + den ∧
      2 * (roundDiv num den * den) ≤ 2 * num + den := roundDiv_within hden
  rcases Nat.lt_trichotomy (roundDiv num den) m with hlt | heq | hgt
  · have hstep : (roundDiv num den + 1) * den ≤ m * den := Nat.mul_le_mul_right den hlt
    rw [Nat.add_mul, Nat.one_mul] at hstep
    have hm : m = roundDiv num den + 1 := by
      refine Nat.eq_of_mul_eq_mul_right hden ?_
      rw [Nat.add_mul, Nat.one_mul]
      omega
    have hhalfway : 2 * num = 2 * (roundDiv num den * den) + den := by omega
    have := roundDiv_halfway hden hhalfway
    have := heven (Or.inl (by omega))
    omega
  · exact heq
  · have hstep : (m + 1) * den ≤ roundDiv num den * den := Nat.mul_le_mul_right den hgt
    rw [Nat.add_mul, Nat.one_mul] at hstep
    have hm : roundDiv num den = m + 1 := by
      refine Nat.eq_of_mul_eq_mul_right hden ?_
      rw [Nat.add_mul, Nat.one_mul]
      omega
    have hhalfway : 2 * num = 2 * (m * den) + den := by omega
    have := roundDiv_halfway hden hhalfway
    have := heven (Or.inr (by omega))
    omega

namespace Binary64

/-! ### The fields of a number -/

theorem magnitude_eq (x : Binary64) : x.magnitude = x.scale * 2 ^ 52 + x.significand := by
  have hdiv : 2 ^ 52 * x.exponent + x.fraction = x.magnitude := Nat.div_add_mod _ _
  simp only [scale, significand, Nat.pow_eq]
  by_cases h : x.exponent = 0
  · rw [if_pos h]
    omega
  · rw [if_neg h]
    omega

theorem significand_lt (x : Binary64) : x.significand < 2 ^ 53 := by
  have hlt : x.fraction < 2 ^ 52 := Nat.mod_lt _ (by decide)
  simp only [significand, Nat.pow_eq]
  split <;> omega

/-- Only numbers with the smallest scale may have a small significand. -/
theorem scale_eq_zero_or (x : Binary64) : x.scale = 0 ∨ 2 ^ 52 ≤ x.significand := by
  simp only [scale, significand, Nat.pow_eq]
  split <;> omega

/-- The numbers below are twice as dense under the smallest normal significand of a scale. -/
theorem denserBelow_iff (x : Binary64) :
    x.fraction = 0 ∧ 1 < x.exponent ↔ x.significand = 2 ^ 52 ∧ 0 < x.scale := by
  have hlt : x.fraction < 2 ^ 52 := Nat.mod_lt _ (by decide)
  simp only [scale, significand, Nat.pow_eq]
  split <;> omega

theorem units_pos_iff (x : Binary64) : 0 < x.units ↔ x.isZero ≠ true := by
  have hfields := x.magnitude_eq
  have hnormal := x.scale_eq_zero_or
  rw [units, Nat.pow_eq, Nat.mul_pos_iff_of_pos_right (Nat.two_pow_pos _), isZero, ne_eq,
    decide_eq_true_eq]
  omega

/-! ### The quotients that round to a number -/

/-- How far the rounding interval of `m * 2 ^ s` goes down, in quarters of `2 ^ s`. -/
def quartersBelow (m s : Nat) : Nat := if m = 2 ^ 52 ∧ 0 < s then 1 else 2

/-- `num / den` lies in the rounding interval of `m * 2 ^ s`, whose ends belong to it if `m` is
even. -/
structure RoundsTo (num den m s : Nat) : Prop where
  den_pos : 0 < den
  lt : m < 2 ^ 53
  normal : s = 0 ∨ 2 ^ 52 ≤ m
  low : 4 * (m * (den * 2 ^ s)) ≤ 4 * num + quartersBelow m s * (den * 2 ^ s)
  high : 4 * num ≤ 4 * (m * (den * 2 ^ s)) + 2 * (den * 2 ^ s)
  low_even : 4 * (m * (den * 2 ^ s)) = 4 * num + quartersBelow m s * (den * 2 ^ s) → m % 2 = 0
  high_even : 4 * num = 4 * (m * (den * 2 ^ s)) + 2 * (den * 2 ^ s) → m % 2 = 0

theorem quartersBelow_le (m s : Nat) : quartersBelow m s ≤ 2 := by
  unfold quartersBelow
  split <;> omega

namespace RoundsTo

variable {num den m s : Nat}

/-- Measured with the scale of the number, the quotient rounds to the significand. -/
theorem roundDiv_scale (h : RoundsTo num den m s) : roundDiv num (den * 2 ^ s) = m := by
  have hpos : 0 < den * 2 ^ s := Nat.mul_pos h.den_pos (Nat.two_pow_pos s)
  have hle : quartersBelow m s * (den * 2 ^ s) ≤ 2 * (den * 2 ^ s) :=
    Nat.mul_le_mul_right _ (quartersBelow_le m s)
  have hlow := h.low
  have hhigh := h.high
  refine roundDiv_eq hpos (by omega) (by omega) ?_
  rintro (htie | htie)
  · exact h.low_even (by omega)
  · exact h.high_even (by omega)

/-- The quotient is too small for a larger scale. -/
theorem scaleFor_le (h : RoundsTo num den m s) : scaleFor num den ≤ s := by
  have hpos : 0 < den * 2 ^ s := Nat.mul_pos h.den_pos (Nat.two_pow_pos s)
  have hm : m * (den * 2 ^ s) + den * 2 ^ s ≤ 2 ^ 53 * (den * 2 ^ s) := by
    rw [← Nat.succ_mul]
    exact Nat.mul_le_mul_right _ h.lt
  have hhigh := h.high
  have hnum : num < 2 ^ (53 + s) * den := by
    have hpow : 2 ^ (53 + s) * den = 2 ^ 53 * (den * 2 ^ s) := by
      rw [Nat.pow_add, Nat.mul_assoc, Nat.mul_comm (2 ^ s)]
    omega
  have hquot : num / den < 2 ^ (53 + s) := (Nat.div_lt_iff_lt_mul h.den_pos).mpr hnum
  unfold scaleFor
  by_cases hzero : num / den = 0
  · rw [hzero]
    simp
  · have hlog := (Nat.log2_lt hzero).mpr hquot
    omega

/-- A quotient that is too small for the scale of its number lies just below a power of two,
and is measured with the next smaller scale. -/
theorem scaleFor_lt (h : RoundsTo num den m s) (hlt : scaleFor num den < s) :
    m = 2 ^ 52 ∧ num < 2 ^ 52 * (den * 2 ^ s) ∧ scaleFor num den + 1 = s := by
  have hpos : 0 < den * 2 ^ s := Nat.mul_pos h.den_pos (Nat.two_pow_pos s)
  have hlow := h.low
  have hpow : ∀ k, 2 ^ (k + s) * den = 2 ^ k * (den * 2 ^ s) := by
    intro k
    rw [Nat.pow_add, Nat.mul_assoc, Nat.mul_comm (2 ^ s)]
  have hquot : num / den < 2 ^ (52 + s) := by
    by_cases hzero : num / den = 0
    · rw [hzero]
      exact Nat.two_pow_pos _
    · refine (Nat.log2_lt hzero).mp ?_
      unfold scaleFor at hlt
      omega
  have hnum : num < 2 ^ 52 * (den * 2 ^ s) := by
    rw [← hpow]
    exact (Nat.div_lt_iff_lt_mul h.den_pos).mp hquot
  have hm : m = 2 ^ 52 := by
    have hnormal : 2 ^ 52 ≤ m := h.normal.resolve_left (by omega)
    have hle : quartersBelow m s * (den * 2 ^ s) ≤ 2 * (den * 2 ^ s) :=
      Nat.mul_le_mul_right _ (quartersBelow_le m s)
    have hmul : m * (den * 2 ^ s) < (2 ^ 52 + 1) * (den * 2 ^ s) := by
      rw [Nat.add_mul]
      omega
    have := Nat.lt_of_mul_lt_mul_right hmul
    omega
  have hquarter : quartersBelow m s = 1 := if_pos ⟨hm, by omega⟩
  rw [hquarter, hm] at hlow
  have hlog : 51 + s ≤ Nat.log2 (num / den) := by
    have hle : 2 ^ (51 + s) ≤ num / den := by
      rw [Nat.le_div_iff_mul_le h.den_pos, hpow]
      omega
    exact (Nat.le_log2 (by have := Nat.two_pow_pos (51 + s); omega)).mpr hle
  refine ⟨hm, hnum, ?_⟩
  unfold scaleFor at hlt ⊢
  omega

/-- The pattern of the number that a quotient rounds to.  Just below a power of two the
significand rounds up to `2 ^ 53`, and carries into the scale. -/
theorem patternOf_eq (h : RoundsTo num den m s) : patternOf num den = s * 2 ^ 52 + m := by
  simp only [patternOf, Nat.pow_eq]
  rcases Nat.lt_or_eq_of_le h.scaleFor_le with hlt | heq
  · obtain ⟨hm, hnum, hscale⟩ := h.scaleFor_lt hlt
    have hlow := h.low
    have hquarter : quartersBelow m s = 1 := if_pos ⟨hm, by omega⟩
    have hpos : 0 < den * 2 ^ scaleFor num den := Nat.mul_pos h.den_pos (Nat.two_pow_pos _)
    have hdouble : den * 2 ^ s = 2 * (den * 2 ^ scaleFor num den) := by
      rw [← hscale, Nat.pow_succ]
      ring
    rw [hquarter, hm] at hlow
    rw [hdouble] at hlow hnum
    have hround : roundDiv num (den * 2 ^ scaleFor num den) = 2 ^ 53 :=
      roundDiv_eq hpos (by omega) (by omega) (fun _ => by decide)
    rw [hround, hm]
    omega
  · rw [heq, h.roundDiv_scale]

end RoundsTo

/-! ### Reading back -/

theorem lower_mul (x : Binary64) (den : Nat) :
    x.lower * den = 4 * (x.significand * (den * 2 ^ x.scale)) -
      quartersBelow x.significand x.scale * (den * 2 ^ x.scale) := by
  simp only [lower, middle, units, quartersBelow, denserBelow_iff, Nat.pow_eq, Nat.sub_mul]
  congr 1 <;> ring

theorem upper_mul (x : Binary64) (den : Nat) :
    x.upper * den = 4 * (x.significand * (den * 2 ^ x.scale)) + 2 * (den * 2 ^ x.scale) := by
  simp only [upper, middle, units, Nat.pow_eq]
  ring

/-- The decimals that a number covers round to its significand and scale. -/
theorem roundsTo_of_covers {x : Binary64} {d : Decimal} (h : x.covers d = true) :
    RoundsTo (d.num * unitsPerOne) d.den x.significand x.scale := by
  have hpoint : d.num * quartersPerOne = 4 * (d.num * unitsPerOne) := by
    rw [quartersPerOne, Nat.mul_left_comm]
  simp only [covers, hpoint, lower_mul, upper_mul] at h
  by_cases heven : x.significand % 2 = 0
  · rw [if_pos heven, decide_eq_true_eq] at h
    exact ⟨d.den_pos, x.significand_lt, x.scale_eq_zero_or, by omega, by omega,
      fun _ => heven, fun _ => heven⟩
  · rw [if_neg heven, decide_eq_true_eq] at h
    exact ⟨d.den_pos, x.significand_lt, x.scale_eq_zero_or, by omega, by omega,
      fun htie => by omega, fun htie => by omega⟩

theorem eq_of_magnitude {x : Binary64} (hsign : x.negative = false) :
    x = ⟨UInt64.ofNat x.magnitude⟩ := by
  have hlt : x.bits.toNat < 2 ^ 63 := by
    simpa [negative] using hsign
  have hmagnitude : x.magnitude = x.bits.toNat := Nat.mod_eq_of_lt hlt
  rw [hmagnitude, UInt64.ofNat_toNat]

/-- A quotient in the rounding interval of a number is rounded to it. -/
theorem nearest_of_roundsTo {x : Binary64} {num den : Nat} (hfinite : x.isFinite = true)
    (hsign : x.negative = false)
    (h : RoundsTo (num * unitsPerOne) den x.significand x.scale) : nearest num den = x := by
  have hlt : x.magnitude < infinityBits := by
    simpa [isFinite] using hfinite
  rw [nearest, h.patternOf_eq, ← magnitude_eq, Nat.min_eq_left (Nat.le_of_lt hlt),
    ← eq_of_magnitude hsign]

/-- What a number covers reads back as the number. -/
theorem toBinary64_of_covers {x : Binary64} {d : Decimal} (hfinite : x.isFinite = true)
    (hsign : x.negative = false) (h : x.covers d = true) : d.toBinary64 = x :=
  nearest_of_roundsTo hfinite hsign (roundsTo_of_covers h)

/-! ### The shortest digits -/

theorem covers_of_pointOn? {x : Binary64} {e : Int} {d : Decimal} (h : x.pointOn? e = some d) :
    x.covers d = true := by
  unfold pointOn? at h
  grind

theorem lower_lt_middle {x : Binary64} (hpos : 0 < x.units) : x.lower < x.middle := by
  have hpow := Nat.two_pow_pos x.scale
  simp only [lower, middle, Nat.pow_eq]
  split <;> omega

theorem middle_lt_upper (x : Binary64) : x.middle < x.upper := by
  have hpow := Nat.two_pow_pos x.scale
  simp only [upper, Nat.pow_eq]
  omega

/-- A decimal that is exactly the number is covered. -/
theorem covers_of_eq {x : Binary64} {d : Decimal} (hpos : 0 < x.units)
    (h : d.num * unitsPerOne = x.units * d.den) : x.covers d = true := by
  have hpoint : d.num * quartersPerOne = x.middle * d.den := by
    unfold quartersPerOne middle
    rw [Nat.mul_left_comm, h, Nat.mul_assoc]
  have hlow := Nat.mul_lt_mul_of_pos_right (lower_lt_middle hpos) d.den_pos
  have hhigh := Nat.mul_lt_mul_of_pos_right x.middle_lt_upper d.den_pos
  simp only [covers, hpoint]
  split
  · exact decide_eq_true ⟨Nat.le_of_lt hlow, Nat.le_of_lt hhigh⟩
  · exact decide_eq_true ⟨hlow, hhigh⟩

/-- The grid of `10 ^ -k` holds every multiple of `2 ^ -k`. -/
theorem covers_finest {x : Binary64} (hpos : 0 < x.units) (k : Nat)
    (hk : unitsPerOne = Nat.pow 2 k) : x.covers ⟨x.floorOn (-k), -k⟩ = true := by
  have hdvd : unitsPerOne ∣ x.units * Nat.pow 10 k := by
    rw [hk]
    exact Nat.dvd_mul_left_of_dvd (pow_dvd_pow_of_dvd (by decide) k) x.units
  have hdown : (-(-k : Int)).toNat = k := by omega
  have hup : (-k : Int).toNat = 0 := by omega
  have hone : Nat.pow 10 0 = 1 := rfl
  refine covers_of_eq hpos ?_
  simp only [Decimal.num, Decimal.den, floorOn, hdown, hup, hone, Nat.mul_one]
  exact Nat.div_mul_cancel hdvd

/-- The search ends at a decimal that is covered, at the finest grid at the latest. -/
theorem covers_firstPoint {x : Binary64} (hpos : 0 < x.units) (n : Nat) :
    ∀ e : Int, e - n = -1074 → x.covers (x.firstPoint n e) = true := by
  induction n with
  | zero =>
      intro e he
      have he' : e = -(1074 : Nat) := by omega
      rw [firstPoint, he']
      exact covers_finest hpos 1074 unitsPerOne.eq_def
  | succ n ih =>
      intro e he
      rw [firstPoint]
      cases hpoint : x.pointOn? e with
      | none => exact ih (e - 1) (by omega)
      | some d => exact covers_of_pointOn? hpoint

/-- **The shortest digits of a number read back as the number.** -/
theorem toBinary64_shortest {x : Binary64} (hfinite : x.isFinite = true)
    (hsign : x.negative = false) : x.shortest.toBinary64 = x := by
  unfold shortest
  by_cases hzero : x.isZero = true
  · rw [if_pos hzero]
    have hmagnitude : x.magnitude = 0 := by simpa [isZero] using hzero
    rw [eq_of_magnitude hsign, hmagnitude]
    simp [Decimal.toBinary64, Decimal.num, nearest, patternOf, scaleFor, roundDiv]
  · rw [if_neg hzero]
    have hpos := x.units_pos_iff.mpr hzero
    exact toBinary64_of_covers hfinite hsign (covers_firstPoint hpos _ _ (by omega))

end Binary64

/-! ### The written form -/

namespace Decimal

theorem ofDigitChars_padded (width n : Nat) : Nat.ofDigitChars 10 (padded width n) 0 = n := by
  rw [padded, Nat.ofDigitChars_append, Nat.ofDigitChars_replicate_zero, Nat.mul_zero,
    Nat.ofDigitChars_ten_toDigits]

/-- The zeros that were filled in before the point do not change the number. -/
theorem toBinary64_ofDigits {d : Decimal} {whole fraction : List Char}
    (hdigits : Nat.ofDigitChars 10 (whole ++ fraction) 0 = d.num)
    (hplaces : fraction.length = (-d.exp).toNat) :
    (ofDigits whole fraction).toBinary64 = d.toBinary64 := by
  have hnum : (ofDigits whole fraction).num = d.num := by
    have hup : (-(fraction.length : Int)).toNat = 0 := by omega
    rw [num, ofDigits, hdigits, hup]
    exact Nat.mul_one _
  have hden : (ofDigits whole fraction).den = d.den := by
    have hdown : (-(-(fraction.length : Int))).toNat = (-d.exp).toNat := by omega
    rw [den, ofDigits, hdown, den]
  rw [toBinary64, toBinary64, hnum, hden]

/-- The written form of a decimal is digits, or digits with a point between them. -/
theorem text_shape (d : Decimal) :
    (d.text.toList ≠ [] ∧ (∀ c ∈ d.text.toList, isDigit c = true) ∧
        Nat.ofDigitChars 10 d.text.toList 0 = d.num ∧ (-d.exp).toNat = 0) ∨
      ∃ whole fraction, d.text.toList = whole ++ '.' :: fraction ∧
        whole ≠ [] ∧ (∀ c ∈ whole, isDigit c = true) ∧
        fraction ≠ [] ∧ (∀ c ∈ fraction, isDigit c = true) ∧
        Nat.ofDigitChars 10 (whole ++ fraction) 0 = d.num ∧ fraction.length = (-d.exp).toNat := by
  rw [text, String.toList_ofList]
  by_cases hplaces : (-d.exp).toNat = 0
  · have hpadded : pointed d.num (-d.exp).toNat = padded 1 d.num := by simp [pointed, hplaces]
    rw [hpadded]
    have hlength := le_length_padded 1 d.num
    exact Or.inl ⟨List.ne_nil_of_length_pos hlength, fun c => isDigit_of_mem_padded,
      ofDigitChars_padded _ _, hplaces⟩
  · obtain ⟨whole, fraction, htext, hdigits, hne, hwhole, hlength, hfraction⟩ :=
      pointed_shape d.num hplaces
    refine Or.inr ⟨whole, fraction, htext, hne, hwhole, ?_, hfraction, ?_, hlength⟩
    · exact List.ne_nil_of_length_pos (by omega)
    · rw [hdigits, ofDigitChars_padded]

/-- The written form of a decimal is a literal, and reads as the same number. -/
theorem text_eq_literal (d : Decimal) :
    ∃ (whole : List Char) (fraction? : Option (List Char)),
      d.text.toList = (Piece.literal whole fraction?).text ∧ whole ≠ [] ∧
      (∀ c ∈ whole, isDigit c = true) ∧
      (∀ fraction, fraction? = some fraction → ∀ c ∈ fraction, isDigit c = true) ∧
      (Piece.literal whole fraction?).kind = .token (.number d.toBinary64) := by
  rcases d.text_shape with ⟨hne, hdigits, hnum, hplaces⟩ |
    ⟨whole, fraction, htext, hne, hwhole, -, hfraction, hnum, hplaces⟩
  · refine ⟨d.text.toList, none, ?_, hne, hdigits, nofun, ?_⟩
    · simp [Piece.literal]
    · have hvalue : (ofDigits d.text.toList []).toBinary64 = d.toBinary64 := by
        refine toBinary64_ofDigits ?_ hplaces.symm
        rw [List.append_nil, hnum]
      simp [Piece.literal, hvalue]
  · refine ⟨whole, some fraction, ?_, hne, hwhole, ?_, ?_⟩
    · simp [htext, Piece.literal]
    · intro fraction' heq
      cases heq
      exact hfraction
    · have hvalue := toBinary64_ofDigits hnum hplaces
      simp [Piece.literal, hvalue]

end Decimal

end TallyLang
