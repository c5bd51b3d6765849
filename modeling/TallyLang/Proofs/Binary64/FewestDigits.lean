/-
No decimal with fewer digits reads back.

A decimal is read as a number exactly if the number covers it (`toBinary64_eq_iff`).
Covering is a matter of the value alone, and the values that a number covers are an
interval (`interval`), which holds the number and not zero.  So if a grid has a point
in the interval at all, then one next to the number is in it, and the search does not
pass that grid.  On the grids coarser than where the search begins, the first point
after zero is already more than twice the number.  Hence no decimal that is read as
the number has a larger exponent than the shortest one (`exp_le_shortest`).

What is left is to get from exponents to digits.  Suppose a literal has fewer
significant digits than the shortest decimal, `n` of them.  It is less than
`10 ^ n` steps of its grid, which is no coarser than the one of the shortest decimal,
and the shortest decimal is `10 ^ n` steps or more.  So `10 ^ n` steps lie between the
two, and are read as the number too; but that is one step of a coarser grid.
-/
import Mathlib.Data.List.DropRight
import Mathlib.Order.Interval.Set.OrdConnected
import TallyLang.Proofs.Binary64.Value

namespace TallyLang

namespace Binary64

/-! ### The decimals that are read as a number -/

section

variable {num den m s : Nat}

/-- A quotient that rounds to a multiple lies in the rounding interval of the multiple. -/
theorem roundsTo_of_roundDiv (hden : 0 < den) (hround : roundDiv num (den * 2 ^ s) = m)
    (hlt : m < 2 ^ 53) (hnormal : s = 0 ∨ 2 ^ 52 ≤ m)
    (hscale : s = 0 ∨ 2 ^ 52 * (den * 2 ^ s) ≤ num) : RoundsTo num den m s := by
  have hpos : 0 < den * 2 ^ s := Nat.mul_pos hden (Nat.two_pow_pos s)
  obtain ⟨hhigh, hlow⟩ := @roundDiv_within num _ hpos
  have hhalfway : ∀ q, 2 * num = 2 * (q * (den * 2 ^ s)) + den * 2 ^ s →
      roundDiv num (den * 2 ^ s) % 2 = 0 := fun q => roundDiv_halfway hpos
  rw [hround] at hhigh hlow hhalfway
  by_cases hdense : m = 2 ^ 52 ∧ 0 < s
  · -- the quotient does not lie below the multiple at all
    have habove := hscale.resolve_left (by omega)
    refine ⟨hden, hlt, hnormal, ?_, by omega, fun _ => by omega, fun _ => by omega⟩
    rw [hdense.1]
    omega
  · have hquarters : quartersBelow m s = 2 := if_neg hdense
    refine ⟨hden, hlt, hnormal, ?_, by omega, ?_, fun htie => hhalfway m (by omega)⟩
    · rw [hquarters]
      omega
    · rw [hquarters]
      intro htie
      have hone : 1 * (den * 2 ^ s) ≤ m * (den * 2 ^ s) := by
        refine Nat.mul_le_mul_right _ (Nat.pos_of_ne_zero ?_)
        rintro rfl
        omega
      refine hhalfway (m - 1) ?_
      rw [Nat.sub_mul]
      omega

/-- A quotient that rounds up to the next power of two lies in the rounding interval of the smallest
multiple of the next scale. -/
theorem roundsTo_of_carry (hden : 0 < den) (hround : roundDiv num (den * 2 ^ s) = 2 ^ 53) :
    RoundsTo num den (2 ^ 52) (s + 1) := by
  have hpos : 0 < den * 2 ^ s := Nat.mul_pos hden (Nat.two_pow_pos s)
  obtain ⟨hhigh, hlow⟩ := @roundDiv_within num _ hpos
  have hquarters : quartersBelow (2 ^ 52) (s + 1) = 1 := if_pos ⟨rfl, Nat.succ_pos s⟩
  have hdouble : den * 2 ^ (s + 1) = 2 * (den * 2 ^ s) := by
    rw [Nat.pow_succ]
    ring
  rw [hround] at hhigh hlow
  refine ⟨hden, by decide, Or.inr (Nat.le_refl _), ?_, ?_, fun _ => by decide, fun _ => by decide⟩
  · rw [hquarters, hdouble]
    omega
  · rw [hdouble]
    omega

/-- A quotient lies in the rounding interval of the number that it is rounded to. -/
theorem roundsTo_nearest (hden : 0 < den) (h : (nearest num den).isFinite = true) :
    RoundsTo (num * unitsPerOne) den (nearest num den).significand (nearest num den).scale := by
  have hmagnitude : (nearest num den).magnitude =
      scaleFor (num * unitsPerOne) den * 2 ^ 52 +
        roundDiv (num * unitsPerOne) (den * 2 ^ scaleFor (num * unitsPerOne) den) := by
    rw [magnitude_nearest, Nat.min_eq_left (Nat.le_of_lt (isFinite_nearest.mp h))]
    rfl
  rcases fields_of_magnitude hmagnitude (roundDiv_scaleFor_le hden) (le_roundDiv_scaleFor hden) with
    ⟨hs, hm⟩ | ⟨hs, hm, hcarry⟩
  · have hlt := (nearest num den).significand_lt
    rw [hs]
    refine roundsTo_of_roundDiv hden hm.symm hlt ?_ (scaleFor_le_or hden)
    rw [hm]
    exact le_roundDiv_scaleFor hden
  · rw [hs, hm]
    exact roundsTo_of_carry hden hcarry

end

theorem covers_of_roundsTo {x : Binary64} {d : Decimal}
    (h : RoundsTo (d.num * unitsPerOne) d.den x.significand x.scale) : x.covers d = true := by
  have hpoint : d.num * quartersPerOne = 4 * (d.num * unitsPerOne) := by
    rw [quartersPerOne, Nat.mul_left_comm]
  have hlow := h.low
  have hhigh := h.high
  simp only [covers, hpoint, lower_mul, upper_mul]
  by_cases heven : x.significand % 2 = 0
  · rw [if_pos heven]
    exact decide_eq_true ⟨by omega, hhigh⟩
  · rw [if_neg heven]
    have hlow' := Nat.lt_of_le_of_ne hlow fun htie => heven (h.low_even htie)
    have hhigh' := Nat.lt_of_le_of_ne hhigh fun htie => heven (h.high_even htie)
    have hpos : 0 < d.den * 2 ^ x.scale := Nat.mul_pos h.den_pos (Nat.two_pow_pos _)
    have hone : 1 * (d.den * 2 ^ x.scale) ≤ x.significand * (d.den * 2 ^ x.scale) :=
      Nat.mul_le_mul_right _ (by omega)
    have hquarters := Nat.mul_le_mul_right (d.den * 2 ^ x.scale)
      (quartersBelow_le x.significand x.scale)
    exact decide_eq_true ⟨by omega, hhigh'⟩

/-- **A decimal is read as a number exactly if the number covers it.** -/
theorem toBinary64_eq_iff {x : Binary64} {d : Decimal} (hfinite : x.isFinite = true)
    (hsign : x.negative = false) : d.toBinary64 = x ↔ x.covers d = true := by
  constructor
  · rintro rfl
    exact covers_of_roundsTo (roundsTo_nearest d.den_pos hfinite)
  · exact toBinary64_of_covers hfinite hsign

/-! ### The rounding interval -/

/-- The rounding interval of a number.  Its ends belong to it if the significand is even. -/
def interval (x : Binary64) : Set ℚ :=
  if x.significand % 2 = 0 then Set.Icc (x.lower / quartersPerOne) (x.upper / quartersPerOne)
  else Set.Ioo (x.lower / quartersPerOne) (x.upper / quartersPerOne)

theorem cast_quartersPerOne_pos : (0 : ℚ) < quartersPerOne := by
  exact_mod_cast Nat.mul_pos (by decide : 0 < 4) unitsPerOne_pos

/-- A number covers the decimals whose values lie in its rounding interval. -/
theorem mem_interval_iff (x : Binary64) (d : Decimal) :
    d.value ∈ x.interval ↔ x.covers d = true := by
  have hden : (0 : ℚ) < d.den := by exact_mod_cast d.den_pos
  have hquarters := cast_quartersPerOne_pos
  rw [Decimal.value_eq_div, interval, covers]
  by_cases heven : x.significand % 2 = 0
  · rw [if_pos heven, if_pos heven, decide_eq_true_eq, Set.mem_Icc, div_le_div_iff₀ hquarters hden,
      div_le_div_iff₀ hden hquarters]
    exact_mod_cast Iff.rfl
  · rw [if_neg heven, if_neg heven, decide_eq_true_eq, Set.mem_Ioo, div_lt_div_iff₀ hquarters hden,
      div_lt_div_iff₀ hden hquarters]
    exact_mod_cast Iff.rfl

theorem ordConnected_interval (x : Binary64) : x.interval.OrdConnected := by
  unfold interval
  split
  · exact Set.ordConnected_Icc
  · exact Set.ordConnected_Ioo

theorem le_of_mem_interval {x : Binary64} {q : ℚ} (h : q ∈ x.interval) :
    x.lower / quartersPerOne ≤ q ∧ q ≤ x.upper / quartersPerOne := by
  unfold interval at h
  split at h
  · exact h
  · exact ⟨h.1.le, h.2.le⟩

theorem abs_value_eq_middle (x : Binary64) : |x.value| = x.middle / quartersPerOne := by
  have hpos := cast_unitsPerOne_pos
  rw [abs_value, middle, quartersPerOne]
  push_cast
  field_simp

section

variable {x : Binary64} (hpos : 0 < x.units)

include hpos

theorem two_pow_scale_le_units : 2 ^ x.scale ≤ x.units :=
  Nat.le_mul_of_pos_left _ (Nat.pos_of_mul_pos_right hpos)

/-- The number lies in its rounding interval. -/
theorem abs_value_mem_interval : |x.value| ∈ x.interval := by
  have hquarters := cast_quartersPerOne_pos
  have hlow : (x.lower / quartersPerOne : ℚ) < |x.value| := by
    rw [abs_value_eq_middle]
    exact div_lt_div_of_pos_right (by exact_mod_cast lower_lt_middle hpos) hquarters
  have hhigh : |x.value| < (x.upper / quartersPerOne : ℚ) := by
    rw [abs_value_eq_middle]
    exact div_lt_div_of_pos_right (by exact_mod_cast x.middle_lt_upper) hquarters
  unfold interval
  split
  · exact ⟨hlow.le, hhigh.le⟩
  · exact ⟨hlow, hhigh⟩

/-- Zero does not lie in the rounding interval of another number. -/
theorem pos_of_mem_interval {q : ℚ} (h : q ∈ x.interval) : 0 < q := by
  have hlower : 0 < x.lower := by
    have hle := two_pow_scale_le_units hpos
    simp only [lower, middle, Nat.pow_eq]
    split <;> omega
  refine lt_of_lt_of_le ?_ (le_of_mem_interval h).1
  exact div_pos (by exact_mod_cast hlower) cast_quartersPerOne_pos

theorem coeff_pos_of_mem_interval {d : Decimal} (h : d.value ∈ x.interval) : 0 < d.coeff := by
  have hvalue := pos_of_mem_interval hpos h
  rw [Decimal.value, mul_pos_iff_of_pos_right (zpow_pos (by norm_num) _)] at hvalue
  exact_mod_cast hvalue

/-- The interval ends before twice the number. -/
theorem lt_of_mem_interval {q : ℚ} (h : q ∈ x.interval) : q < 2 * |x.value| := by
  have hupper : x.upper < 2 * x.middle := by
    have hle := two_pow_scale_le_units hpos
    simp only [upper, middle, Nat.pow_eq]
    omega
  refine lt_of_le_of_lt (le_of_mem_interval h).2 ?_
  rw [abs_value_eq_middle, ← mul_div_assoc]
  exact div_lt_div_of_pos_right (by exact_mod_cast hupper) cast_quartersPerOne_pos

end

/-! ### Grids -/

/-- The number lies between a point of a grid and the next. -/
theorem value_floorOn_le (x : Binary64) (e : Int) :
    (⟨x.floorOn e, e⟩ : Decimal).value ≤ |x.value| ∧
      |x.value| < (⟨x.floorOn e + 1, e⟩ : Decimal).value := by
  have hpow : ∀ k : Nat, 0 < 10 ^ k := fun k => Nat.pow_pos (by decide)
  have hden : ∀ c : Nat, (0 : ℚ) < (⟨c, e⟩ : Decimal).den := by
    intro c
    exact_mod_cast Decimal.den_pos _
  have hstep : 0 < unitsPerOne * 10 ^ e.toNat := Nat.mul_pos unitsPerOne_pos (hpow _)
  rw [Decimal.value_eq_div, Decimal.value_eq_div, abs_value]
  constructor
  · rw [div_le_div_iff₀ (hden _) cast_unitsPerOne_pos]
    have hfloor := Nat.div_mul_le_self (x.units * 10 ^ (-e).toNat) (unitsPerOne * 10 ^ e.toNat)
    have hle : x.floorOn e * 10 ^ e.toNat * unitsPerOne ≤ x.units * 10 ^ (-e).toNat := by
      rw [Nat.mul_assoc, Nat.mul_comm (10 ^ _) unitsPerOne]
      exact hfloor
    exact_mod_cast hle
  · rw [div_lt_div_iff₀ cast_unitsPerOne_pos (hden _)]
    have hfloor := (Nat.div_lt_iff_lt_mul hstep).mp
      (Nat.lt_succ_self (x.units * 10 ^ (-e).toNat / (unitsPerOne * 10 ^ e.toNat)))
    have hlt : x.units * 10 ^ (-e).toNat < (x.floorOn e + 1) * 10 ^ e.toNat * unitsPerOne := by
      rw [Nat.mul_assoc, Nat.mul_comm (10 ^ _) unitsPerOne]
      exact hfloor
    exact_mod_cast hlt

/-- If any point of a grid lies in the interval, one next to the number does. -/
theorem pointOn?_ne_none {x : Binary64} (hpos : 0 < x.units) {d : Decimal}
    (h : d.value ∈ x.interval) : x.pointOn? d.exp ≠ none := by
  obtain ⟨hbelow, habove⟩ := x.value_floorOn_le d.exp
  have hself := abs_value_mem_interval hpos
  have hconvex := x.ordConnected_interval.out
  have hnext : x.covers ⟨x.floorOn d.exp, d.exp⟩ = true ∨
      x.covers ⟨x.floorOn d.exp + 1, d.exp⟩ = true := by
    rw [← mem_interval_iff, ← mem_interval_iff]
    rcases Nat.lt_or_ge (x.floorOn d.exp) d.coeff with hlt | hge
    · exact Or.inr (hconvex hself h ⟨habove.le, Decimal.value_le_value hlt d.exp⟩)
    · exact Or.inl (hconvex h hself ⟨Decimal.value_le_value hge d.exp, hbelow⟩)
  unfold pointOn?
  grind

theorem exp_of_pointOn? {x : Binary64} {e : Int} {d : Decimal} (h : x.pointOn? e = some d) :
    d.exp = e := by
  unfold pointOn? at h
  grind

/-- The search passes a grid only if it has no point to offer. -/
theorem pointOn?_of_lt_firstPoint (x : Binary64) (n : Nat) :
    ∀ e e' : Int, (x.firstPoint n e).exp < e' → e' ≤ e → x.pointOn? e' = none := by
  induction n with
  | zero =>
      intro e e' hlt hle
      rw [firstPoint] at hlt
      exact absurd hlt (not_lt.mpr hle)
  | succ n ih =>
      intro e e' hlt hle
      rw [firstPoint] at hlt
      cases hpoint : x.pointOn? e with
      | none =>
          rw [hpoint, Option.getD_none] at hlt
          rcases eq_or_lt_of_le hle with rfl | hbelow
          · exact hpoint
          · exact ih (e - 1) e' hlt (by omega)
      | some d =>
          rw [hpoint, Option.getD_some, exp_of_pointOn? hpoint] at hlt
          exact absurd hlt (not_lt.mpr hle)

/-- The first grid of the search is coarser than the number. -/
theorem abs_value_lt_coarse (x : Binary64) : |x.value| < 10 ^ x.coarseExponent := by
  have hquot : x.units / unitsPerOne < 10 ^ x.coarseExponent :=
    calc x.units / unitsPerOne < 2 ^ (Nat.log2 (x.units / unitsPerOne) + 1) := Nat.lt_log2_self
      _ ≤ 2 ^ (3 * x.coarseExponent) := by
          refine Nat.pow_le_pow_right (by decide) ?_
          unfold coarseExponent
          omega
      _ = 8 ^ x.coarseExponent := by rw [Nat.pow_mul]
      _ ≤ 10 ^ x.coarseExponent := Nat.pow_le_pow_left (by decide) _
  have hlt := (Nat.div_lt_iff_lt_mul unitsPerOne_pos).mp hquot
  rw [abs_value, div_lt_iff₀ cast_unitsPerOne_pos]
  exact_mod_cast hlt

/-- **No decimal that is read as the number lies on a coarser grid than the shortest one.** -/
theorem exp_le_shortest {x : Binary64} (hpos : 0 < x.units) {d : Decimal}
    (h : d.value ∈ x.interval) : d.exp ≤ x.shortest.exp := by
  by_contra hgt
  rw [not_le, shortest, if_neg (x.units_pos_iff.mp hpos)] at hgt
  rcases le_or_gt d.exp x.coarseExponent with hle | hcoarse
  · exact pointOn?_ne_none hpos h (x.pointOn?_of_lt_firstPoint _ _ d.exp hgt hle)
  · -- a step of the grid is more than twice the number
    have hstep : (10 : ℚ) ^ x.coarseExponent * 10 ≤ 10 ^ d.exp := by
      rw [← pow_succ, ← zpow_natCast]
      exact zpow_le_zpow_right₀ (by norm_num) (by push_cast; omega)
    have hvalue : (10 : ℚ) ^ d.exp ≤ d.value := by
      have hcoeff : 10 ^ 0 ≤ d.coeff := coeff_pos_of_mem_interval hpos h
      have hle := Decimal.value_le_value hcoeff d.exp
      rwa [Decimal.value_pow, Nat.cast_zero, zero_add] at hle
    have hdouble := lt_of_mem_interval hpos h
    have hnumber := x.abs_value_lt_coarse
    have hnonneg := abs_nonneg x.value
    linarith

end Binary64

/-! ### Significant digits -/

namespace Decimal

/-- The digits of a text from the first to the last that is not zero. -/
def significantDigits (text : List Char) : List Char :=
  ((text.filter isDigit).dropWhile (· = '0')).rdropWhile (· = '0')

theorem digitValue_pos {c : Char} (h : isDigit c = true) (hzero : c ≠ '0') : 0 < digitValue c := by
  simp only [isDigit, decide_eq_true_eq, Char.le_def, UInt32.le_iff_toNat_le] at h
  have hle : '0'.toNat ≤ c.toNat := h.1
  have hne : c.toNat ≠ '0'.toNat := fun heq => hzero (Char.toNat_inj.mp heq)
  unfold digitValue
  omega

theorem ofDigitChars_dropWhile (digits : List Char) :
    Nat.ofDigitChars 10 (digits.dropWhile (· = '0')) 0 = Nat.ofDigitChars 10 digits 0 := by
  induction digits with
  | nil => rfl
  | cons c cs ih =>
      by_cases hc : c = '0'
      · rw [List.dropWhile_cons_of_pos (by simpa using hc), ih, ofDigitChars_cons_zero, hc,
          digitValue_zero, Nat.zero_mul, Nat.zero_add]
      · rw [List.dropWhile_cons_of_neg (by simpa using hc)]

theorem ofDigitChars_rdropWhile (digits : List Char) :
    ∃ k, Nat.ofDigitChars 10 digits 0 =
      Nat.ofDigitChars 10 (digits.rdropWhile (· = '0')) 0 * 10 ^ k := by
  induction digits using List.reverseRecOn with
  | nil => exact ⟨0, rfl⟩
  | append_singleton cs c ih =>
      by_cases hc : c = '0'
      · obtain ⟨k, hk⟩ := ih
        refine ⟨k + 1, ?_⟩
        rw [List.rdropWhile_concat_pos _ _ _ (by simpa using hc), ofDigitChars_append_zero,
          ofDigitChars_singleton, hk, hc, digitValue_zero, List.length_singleton, Nat.pow_succ]
        ring
      · refine ⟨0, ?_⟩
        rw [List.rdropWhile_concat_neg _ _ _ (by simpa using hc), Nat.pow_zero, Nat.mul_one]

section

variable (text : List Char)

theorem significantDigits_front :
    significantDigits text <+: (text.filter isDigit).dropWhile (· = '0') :=
  List.rdropWhile_prefix _ _

theorem isDigit_of_mem_significantDigits :
    ∀ c ∈ significantDigits text, isDigit c = true := by
  intro c hc
  have hmem := (List.dropWhile_suffix _).subset ((significantDigits_front text).subset hc)
  exact (List.mem_filter.mp hmem).2

/-- Zeros around the digits only shift the point. -/
theorem ofDigitChars_significantDigits :
    ∃ k, Nat.ofDigitChars 10 (text.filter isDigit) 0 =
      Nat.ofDigitChars 10 (significantDigits text) 0 * 10 ^ k := by
  obtain ⟨k, hk⟩ := ofDigitChars_rdropWhile ((text.filter isDigit).dropWhile (· = '0'))
  exact ⟨k, by rw [← ofDigitChars_dropWhile, hk, significantDigits]⟩

variable {text}

/-- The first significant digit is not zero. -/
theorem le_ofDigitChars_significantDigits {n : Nat} (h : n < (significantDigits text).length) :
    10 ^ n ≤ Nat.ofDigitChars 10 (significantDigits text) 0 := by
  obtain ⟨c, cs, hcons⟩ := List.exists_cons_of_length_pos (Nat.zero_lt_of_lt h)
  have hdigit : isDigit c = true :=
    isDigit_of_mem_significantDigits text c (hcons ▸ List.mem_cons_self)
  have hhead : c ≠ '0' := by
    obtain ⟨rest, hrest⟩ := significantDigits_front text
    rw [hcons, List.cons_append] at hrest
    have hnot := List.head?_dropWhile_not (fun d => decide (d = '0')) (text.filter isDigit)
    rw [← hrest] at hnot
    simpa using hnot
  have hlength : n ≤ cs.length := by
    rw [hcons, List.length_cons] at h
    omega
  rw [hcons, ofDigitChars_cons_zero]
  calc 10 ^ n ≤ 10 ^ cs.length := Nat.pow_le_pow_right (by decide) hlength
    _ ≤ digitValue c * 10 ^ cs.length := Nat.le_mul_of_pos_left _ (digitValue_pos hdigit hhead)
    _ ≤ digitValue c * 10 ^ cs.length + Nat.ofDigitChars 10 cs 0 := Nat.le_add_right _ _

/-- The last significant digit is not zero. -/
theorem ofDigitChars_significantDigits_mod (h : significantDigits text ≠ []) :
    Nat.ofDigitChars 10 (significantDigits text) 0 % 10 ≠ 0 := by
  have hdigit := isDigit_of_mem_significantDigits text _ (List.getLast_mem h)
  have hlast : (significantDigits text).getLast h ≠ '0' := by
    have hnot := List.rdropWhile_last_not (fun d => decide (d = '0')) _ h
    exact fun heq => hnot (decide_eq_true heq)
  have hpos := digitValue_pos hdigit hlast
  have hlt := digitValue_lt hdigit
  rw [← List.dropLast_append_getLast h, ofDigitChars_append_zero, ofDigitChars_singleton,
    List.length_singleton]
  omega

end

/-- A literal is its significant digits, scaled by a power of ten. -/
theorem writtenValue_eq_significantDigits {lexeme : List Char}
    (h : lexeme ∈ Rule.number.pattern) : ∃ e : Int,
      writtenValue lexeme =
        (⟨Nat.ofDigitChars 10 (significantDigits lexeme) 0, e⟩ : Decimal).value := by
  obtain ⟨k, hk⟩ := ofDigitChars_significantDigits lexeme
  have hpow : (10 : ℚ) ≠ 0 := by norm_num
  rcases Rule.mem_number.mp h with ⟨-, hdigits⟩ | ⟨whole, fraction, rfl, hwhole, hfraction⟩
  · have hfilter : lexeme.filter isDigit = lexeme := List.filter_eq_self.mpr hdigits
    refine ⟨k, ?_⟩
    rw [hfilter] at hk
    rw [writtenValue_digits hdigits, hk, value, zpow_natCast]
    push_cast
    rfl
  · have hfilter : (whole ++ '.' :: fraction).filter isDigit = whole ++ fraction := by
      rw [List.filter_append, List.filter_cons_of_neg (by decide), List.filter_eq_self.mpr hwhole,
        List.filter_eq_self.mpr hfraction]
    refine ⟨k - fraction.length, ?_⟩
    rw [hfilter] at hk
    rw [writtenValue_point hwhole, hk, value, zpow_sub₀ hpow, zpow_natCast, zpow_natCast]
    push_cast
    ring

/-! ### The written form -/

theorem text_mem_number (d : Decimal) : d.text.toList ∈ Rule.number.pattern := by
  rcases d.text_shape with ⟨hne, hdigits, -⟩ | ⟨whole, fraction, htext, -, hwhole, -, hfraction, -⟩
  · exact Rule.mem_number.mpr (Or.inl ⟨hne, hdigits⟩)
  · exact Rule.mem_number.mpr (Or.inr ⟨whole, fraction, htext, hwhole, hfraction⟩)

/-- The written form of a decimal has its value. -/
theorem writtenValue_text (d : Decimal) : writtenValue d.text.toList = d.value := by
  rw [value_eq_div, den, Nat.pow_eq]
  rcases d.text_shape with ⟨-, hdigits, hnum, hplaces⟩ |
    ⟨whole, fraction, htext, -, hwhole, -, -, hnum, hplaces⟩
  · rw [writtenValue_digits hdigits, hnum, hplaces]
    simp
  · rw [htext, writtenValue_point hwhole, hnum, hplaces]
    push_cast
    rfl

/-- A coefficient that does not end in a zero goes with the largest exponent. -/
theorem exp_le_of_value_eq {c : Nat} {e : Int} {d : Decimal}
    (h : d.value = (⟨c, e⟩ : Decimal).value) (hc : c % 10 ≠ 0) : d.exp ≤ e := by
  by_contra hgt
  obtain ⟨k, hk⟩ : ∃ k : Nat, d.exp = e + (k + 1 : Nat) := ⟨(d.exp - e - 1).toNat, by omega⟩
  have hpow : (10 : ℚ) ^ e ≠ 0 := zpow_ne_zero _ (by norm_num)
  have hcoeff : (d.coeff * 10 ^ (k + 1) : ℚ) = c := by
    rw [value, value, hk, zpow_add₀ (by norm_num), zpow_natCast, mul_left_comm,
      mul_comm (c : ℚ)] at h
    exact mul_left_cancel₀ hpow h
  have hcoeff' : d.coeff * 10 ^ (k + 1) = c := by exact_mod_cast hcoeff
  rw [← hcoeff', Nat.pow_succ, ← Nat.mul_assoc, Nat.mul_mod_left] at hc
  exact hc rfl

end Decimal

/-! ### No fewer digits -/

namespace Binary64

variable {x : Binary64}

theorem text_eq_shortest (hfinite : x.isFinite = true) (hsign : x.negative = false) :
    x.text = x.shortest.text := by
  have hlt : x.magnitude < infinityBits := by simpa [isFinite] using hfinite
  have hnan : x.isNaN = false := decide_eq_false (by omega)
  have hinfinite : x.isInfinite = false := decide_eq_false (by omega)
  simp [text, hnan, hinfinite, hsign]

/-- **What reads back has at least as many significant digits as the shortest decimal.** -/
theorem length_significantDigits_le (hfinite : x.isFinite = true) (hsign : x.negative = false)
    (hpos : 0 < x.units) {lexeme : List Char} (hlexeme : lexeme ∈ Rule.number.pattern)
    (hread : (Decimal.ofLexeme lexeme).toBinary64 = x) :
    (Decimal.significantDigits x.shortest.text.toList).length ≤
      (Decimal.significantDigits lexeme).length := by
  by_contra hfewer
  obtain ⟨e, hvalue⟩ := Decimal.writtenValue_eq_significantDigits hlexeme
  obtain ⟨e', hvalue'⟩ :=
    Decimal.writtenValue_eq_significantDigits x.shortest.text_mem_number
  rw [Decimal.writtenValue_text] at hvalue'
  have hmem : Decimal.writtenValue lexeme ∈ x.interval := by
    rw [← Decimal.value_ofLexeme, mem_interval_iff]
    exact (toBinary64_eq_iff hfinite hsign).mp hread
  have hmem' : x.shortest.value ∈ x.interval := by
    rw [mem_interval_iff]
    exact (toBinary64_eq_iff hfinite hsign).mp (toBinary64_shortest hfinite hsign)
  have hlt := Decimal.ofDigitChars_lt (Decimal.isDigit_of_mem_significantDigits lexeme)
  have hle := Decimal.le_ofDigitChars_significantDigits (not_le.mp hfewer)
  have hne : Decimal.significantDigits x.shortest.text.toList ≠ [] :=
    List.ne_nil_of_length_pos (by omega)
  have hexp' := Decimal.exp_le_of_value_eq hvalue' (Decimal.ofDigitChars_significantDigits_mod hne)
  have hexp : e ≤ x.shortest.exp := exp_le_shortest hpos (hvalue ▸ hmem)
  have hcoeff : 0 < Nat.ofDigitChars 10 (Decimal.significantDigits lexeme) 0 :=
    coeff_pos_of_mem_interval hpos (hvalue ▸ hmem)
  generalize (Decimal.significantDigits lexeme).length = n at hlt hle
  have hbetween : (⟨10 ^ 0, n + x.shortest.exp⟩ : Decimal).value ∈ x.interval := by
    refine x.ordConnected_interval.out hmem hmem' ⟨?_, ?_⟩
    · calc Decimal.writtenValue lexeme ≤ (⟨10 ^ n, e⟩ : Decimal).value :=
            hvalue.trans_le (Decimal.value_le_value hlt.le e)
        _ ≤ (⟨10 ^ 0, n + x.shortest.exp⟩ : Decimal).value := by
            rw [Decimal.value_pow, Decimal.value_pow]
            exact zpow_le_zpow_right₀ (by norm_num) (by omega)
    · calc (⟨10 ^ 0, n + x.shortest.exp⟩ : Decimal).value ≤ (⟨10 ^ n, e'⟩ : Decimal).value := by
            rw [Decimal.value_pow, Decimal.value_pow]
            exact zpow_le_zpow_right₀ (by norm_num) (by omega)
        _ ≤ x.shortest.value := (Decimal.value_le_value hle e').trans_eq hvalue'.symm
  have hcoarser : n + x.shortest.exp ≤ x.shortest.exp := exp_le_shortest hpos hbetween
  have hsome : n ≠ 0 := by
    rintro rfl
    omega
  omega

end Binary64

/-- **Numbers are written with the fewest digits that read back.**  A finite number without a sign
is written alike in expressions and in tokens, with digits only or with digits on both sides of a
point.  The text is read as one token, which holds that very number, and a literal that is read as
the same positive number has no fewer significant digits. -/
theorem number_text_fewest {v : Binary64} (hfinite : v.isFinite = true)
    (hsign : v.negative = false) :
    (Expr.num v).text = v.text ∧ (Token.number v).text = "number " ++ v.text ∧
      ((v.text.toList ≠ [] ∧ ∀ c ∈ v.text.toList, isDigit c = true) ∨
        ∃ whole fraction, v.text.toList = whole ++ '.' :: fraction ∧
          whole ≠ [] ∧ (∀ c ∈ whole, isDigit c = true) ∧
          fraction ≠ [] ∧ ∀ c ∈ fraction, isDigit c = true) ∧
      (tokensOf v.text).map LocatedToken.token = [.number v, .eof] ∧
      (0 < v.value → ∀ lexeme ∈ Rule.number.pattern,
        (tokensOf (String.ofList lexeme)).map LocatedToken.token = [.number v, .eof] →
        (Decimal.significantDigits v.text.toList).length ≤
          (Decimal.significantDigits lexeme).length) := by
  rw [Binary64.text_eq_shortest hfinite hsign]
  refine ⟨?_, ?_, ?_, ?_, ?_⟩
  · rw [Expr.text, Binary64.text_eq_shortest hfinite hsign]
  · rw [Token.text, Binary64.text_eq_shortest hfinite hsign]
  · rcases v.shortest.text_shape with ⟨hne, hdigits, -⟩ |
      ⟨whole, fraction, htext, hwhole, hwhole', hfraction, hfraction', -⟩
    · exact Or.inl ⟨hne, hdigits⟩
    · exact Or.inr ⟨whole, fraction, htext, hwhole, hwhole', hfraction, hfraction'⟩
  · have hlexed := @lexed_decimal v.shortest [] rfl
    rw [List.append_nil, lexed_nil, Binary64.toBinary64_shortest hfinite hsign] at hlexed
    rw [map_token_tokensOf, hlexed]
    rfl
  · intro hpos lexeme hlexeme htokens
    rw [map_token_tokensOf, String.toList_ofList, lexed_of_mem_number hlexeme] at htokens
    have hunits : 0 < v.units := by
      rw [Binary64.value_of_unsigned hsign,
        div_pos_iff_of_pos_right Binary64.cast_unitsPerOne_pos] at hpos
      exact_mod_cast hpos
    refine Binary64.length_significantDigits_le hfinite hsign hunits hlexeme ?_
    exact Token.number.inj (List.cons.inj htokens).1

/-- The number after three tenths needs all seventeen digits. -/
theorem number_text_fewest_tenths :
    (⟨0x3fd3333333333334⟩ : Binary64).isFinite = true ∧
      (⟨0x3fd3333333333334⟩ : Binary64).negative = false ∧
      (⟨0x3fd3333333333334⟩ : Binary64).text = "0.30000000000000004" ∧
      (tokensOf "0.30000000000000004").map LocatedToken.token =
        [.number ⟨0x3fd3333333333334⟩, .eof] ∧
      ∀ lexeme ∈ Rule.number.pattern,
        (tokensOf (String.ofList lexeme)).map LocatedToken.token =
          [.number ⟨0x3fd3333333333334⟩, .eof] →
        17 ≤ (Decimal.significantDigits lexeme).length := by
  have hfinite : (⟨0x3fd3333333333334⟩ : Binary64).isFinite = true := by decide
  have hsign : (⟨0x3fd3333333333334⟩ : Binary64).negative = false := by decide
  have htext : (⟨0x3fd3333333333334⟩ : Binary64).text = "0.30000000000000004" := by decide +kernel
  have hlength : (Decimal.significantDigits "0.30000000000000004".toList).length = 17 := by
    decide +kernel
  have hpos : 0 < (⟨0x3fd3333333333334⟩ : Binary64).value := by
    have hunits := (⟨0x3fd3333333333334⟩ : Binary64).units_pos_iff.mpr (by decide)
    rw [Binary64.value_of_unsigned hsign]
    exact div_pos (by exact_mod_cast hunits) Binary64.cast_unitsPerOne_pos
  obtain ⟨-, -, -, htokens, hfewest⟩ := number_text_fewest hfinite hsign
  rw [htext] at htokens hfewest
  rw [hlength] at hfewest
  exact ⟨hfinite, hsign, htext, htokens, hfewest hpos⟩

end TallyLang
