/-
What the nearest number is.

A quotient is rounded once, to a whole multiple of the power of two that leaves 53 bits, and
the pattern is put together from the multiple and the power.  Where the multiple is `2 ^ 53`
it carries into the exponent, and then the scale of the number is one larger than the power.
Either way the number is the multiple times the power (`nearest_units`), so it is within half
a step of the quotient, a step being the distance to the next number (`nearest_within`).

No number is nearer, and of two the even one is taken (`isNearest_nearest`): a number is a
multiple of the power, or it is so small that the quotient lies above all such numbers.  The
result is infinite from the middle between the largest number and the next power of two on.

Only the quotient counts, not how it is written (`nearest_mul_right`).
-/
import Mathlib.Data.Nat.Dist
import TallyLang.Proofs.Binary64.ReadBack

namespace TallyLang

/-! ### Rounding a quotient -/

/-- A quotient is rounded alike in lower and in higher terms. -/
theorem roundDiv_mul_right (num den : Nat) {k : Nat} (hk : 0 < k) :
    roundDiv (num * k) (den * k) = roundDiv num den := by
  have hlt : ∀ a b : Nat, a * k < b * k ↔ a < b := fun a b => Nat.mul_lt_mul_right hk
  unfold roundDiv
  simp only [Nat.mul_div_mul_right _ _ hk, Nat.mul_mod_mul_right, ← Nat.mul_assoc, hlt]

/-- No whole number is nearer, and only an even one shares its place. -/
theorem roundDiv_nearest {num den : Nat} (hden : 0 < den) (k : Nat) :
    Nat.dist (roundDiv num den * den) num ≤ Nat.dist (k * den) num ∧
      (Nat.dist (k * den) num = Nat.dist (roundDiv num den * den) num →
        k = roundDiv num den ∨ roundDiv num den % 2 = 0) := by
  obtain ⟨hlow, hhigh⟩ := @roundDiv_within num den hden
  unfold Nat.dist
  rcases Nat.lt_trichotomy k (roundDiv num den) with hlt | heq | hgt
  · have hstep : (k + 1) * den ≤ roundDiv num den * den := Nat.mul_le_mul_right den hlt
    rw [Nat.add_mul, Nat.one_mul] at hstep
    refine ⟨by omega, fun htie => Or.inr ?_⟩
    have hhalfway : 2 * num = 2 * (k * den) + den := by omega
    exact roundDiv_halfway hden hhalfway
  · rw [heq]
    exact ⟨Nat.le_refl _, fun _ => Or.inl rfl⟩
  · have hstep : (roundDiv num den + 1) * den ≤ k * den := Nat.mul_le_mul_right den hgt
    rw [Nat.add_mul, Nat.one_mul] at hstep
    refine ⟨by omega, fun htie => Or.inr ?_⟩
    have hhalfway : 2 * num = 2 * (roundDiv num den * den) + den := by omega
    exact roundDiv_halfway hden hhalfway

/-- Below an even number the rounded quotient stays as long as the quotient is below the half in
front of it. -/
theorem roundDiv_lt_iff {num den k : Nat} (hden : 0 < den) (heven : k % 2 = 0) :
    roundDiv num den < k ↔ 2 * num + den < 2 * (k * den) := by
  obtain ⟨hlow, hhigh⟩ := @roundDiv_within num den hden
  constructor
  · intro hlt
    have hstep : (roundDiv num den + 1) * den ≤ k * den := Nat.mul_le_mul_right den hlt
    by_contra hge
    have hk : k = roundDiv num den + 1 := by
      refine Nat.eq_of_mul_eq_mul_right hden ?_
      rw [Nat.add_mul, Nat.one_mul] at hstep ⊢
      omega
    rw [hk, Nat.add_mul, Nat.one_mul] at hge
    have hhalfway : 2 * num = 2 * (roundDiv num den * den) + den := by omega
    have := roundDiv_halfway hden hhalfway
    omega
  · intro hlt
    have hmul : roundDiv num den * den < k * den := by omega
    exact Nat.lt_of_mul_lt_mul_right hmul

namespace Binary64

theorem scaleFor_mul_right (num den : Nat) {k : Nat} (hk : 0 < k) :
    scaleFor (num * k) (den * k) = scaleFor num den := by
  rw [scaleFor, scaleFor, Nat.mul_div_mul_right _ _ hk]

/-- The nearest number depends on the quotient alone. -/
theorem nearest_mul_right (num den : Nat) {k : Nat} (hk : 0 < k) :
    nearest (num * k) (den * k) = nearest num den := by
  have hpattern : patternOf (num * k * unitsPerOne) (den * k) =
      patternOf (num * unitsPerOne) den := by
    simp only [patternOf]
    rw [Nat.mul_right_comm num, scaleFor_mul_right _ _ hk, Nat.mul_right_comm den,
      roundDiv_mul_right _ _ hk]
  rw [nearest, nearest, hpattern]

/-! ### The multiple and the power -/

section

variable {num den : Nat}

/-- The power leaves at most 53 bits. -/
theorem lt_scaleFor (hden : 0 < den) : num < 2 ^ 53 * (den * 2 ^ scaleFor num den) := by
  have hquot : num / den < 2 ^ (53 + scaleFor num den) := by
    by_cases hzero : num / den = 0
    · rw [hzero]
      exact Nat.two_pow_pos _
    · refine (Nat.log2_lt hzero).mp ?_
      unfold scaleFor
      omega
  have hlt := (Nat.div_lt_iff_lt_mul hden).mp hquot
  rwa [Nat.pow_add, Nat.mul_assoc, Nat.mul_comm (2 ^ scaleFor num den)] at hlt

/-- It leaves 53 bits, unless it is the smallest. -/
theorem scaleFor_le_or (hden : 0 < den) :
    scaleFor num den = 0 ∨ 2 ^ 52 * (den * 2 ^ scaleFor num den) ≤ num := by
  by_cases hscale : scaleFor num den = 0
  · exact Or.inl hscale
  have hquot : 2 ^ (52 + scaleFor num den) ≤ num / den := by
    have hlog : 52 + scaleFor num den = Nat.log2 (num / den) := by
      unfold scaleFor at hscale ⊢
      omega
    have hne : num / den ≠ 0 := by
      intro hzero
      rw [scaleFor, hzero] at hscale
      exact hscale rfl
    rw [hlog]
    exact Nat.log2_self_le hne
  have hle := (Nat.le_div_iff_mul_le hden).mp hquot
  rw [Nat.pow_add, Nat.mul_assoc, Nat.mul_comm (2 ^ scaleFor num den)] at hle
  exact Or.inr hle

/-- The multiple has at most 53 bits, or is the next power of two. -/
theorem roundDiv_scaleFor_le (hden : 0 < den) :
    roundDiv num (den * 2 ^ scaleFor num den) ≤ 2 ^ 53 := by
  have hpos : 0 < den * 2 ^ scaleFor num den := Nat.mul_pos hden (Nat.two_pow_pos _)
  have hnum := @lt_scaleFor num den hden
  obtain ⟨-, hround⟩ := @roundDiv_within num _ hpos
  have hmul : roundDiv num (den * 2 ^ scaleFor num den) * (den * 2 ^ scaleFor num den) <
      (2 ^ 53 + 1) * (den * 2 ^ scaleFor num den) := by
    rw [Nat.add_mul, Nat.one_mul]
    omega
  exact Nat.le_of_lt_succ (Nat.lt_of_mul_lt_mul_right hmul)

/-- It has 53 bits, unless the power is the smallest. -/
theorem le_roundDiv_scaleFor (hden : 0 < den) :
    scaleFor num den = 0 ∨ 2 ^ 52 ≤ roundDiv num (den * 2 ^ scaleFor num den) := by
  rcases @scaleFor_le_or num den hden with hscale | hnum
  · exact Or.inl hscale
  have hpos : 0 < den * 2 ^ scaleFor num den := Nat.mul_pos hden (Nat.two_pow_pos _)
  obtain ⟨hround, -⟩ := @roundDiv_within num _ hpos
  have hmul : 2 ^ 52 * (den * 2 ^ scaleFor num den) <
      (roundDiv num (den * 2 ^ scaleFor num den) + 1) * (den * 2 ^ scaleFor num den) := by
    rw [Nat.add_mul, Nat.one_mul]
    omega
  exact Or.inr (Nat.le_of_lt_succ (Nat.lt_of_mul_lt_mul_right hmul))

/-- The fields of a number whose pattern is put together from a multiple and a power.  A multiple
of `2 ^ 53` carries. -/
theorem fields_of_magnitude {x : Binary64} {m s : Nat} (h : x.magnitude = s * 2 ^ 52 + m)
    (hle : m ≤ 2 ^ 53) (hnormal : s = 0 ∨ 2 ^ 52 ≤ m) :
    x.scale = s ∧ x.significand = m ∨ x.scale = s + 1 ∧ x.significand = 2 ^ 52 ∧ m = 2 ^ 53 := by
  have hfields := x.magnitude_eq
  have hlt := x.significand_lt
  have hnormal' := x.scale_eq_zero_or
  rw [h] at hfields
  omega

theorem units_of_magnitude {x : Binary64} {m s : Nat} (h : x.magnitude = s * 2 ^ 52 + m)
    (hle : m ≤ 2 ^ 53) (hnormal : s = 0 ∨ 2 ^ 52 ≤ m) :
    x.units = m * 2 ^ s ∧ s ≤ x.scale ∧ (m % 2 = 0 → x.significand % 2 = 0) := by
  rcases fields_of_magnitude h hle hnormal with ⟨rfl, rfl⟩ | ⟨hscale, hsignificand, rfl⟩
  · exact ⟨rfl, Nat.le_refl _, id⟩
  · refine ⟨?_, by omega, fun _ => by omega⟩
    rw [units, hscale, hsignificand, Nat.pow_eq, Nat.pow_succ]
    ring

/-! ### The number -/

/-- The pattern is cut off at infinity. -/
theorem magnitude_nearest :
    (nearest num den).magnitude = min (patternOf (num * unitsPerOne) den) infinityBits := by
  have hlt : infinityBits < 2 ^ 63 := by decide
  have hmin : min (patternOf (num * unitsPerOne) den) infinityBits < 2 ^ 63 := by omega
  have hbits : (nearest num den).bits.toNat =
      min (patternOf (num * unitsPerOne) den) infinityBits :=
    UInt64.toNat_ofNat_of_lt (Nat.lt_trans hmin (by decide))
  rw [magnitude, hbits]
  exact Nat.mod_eq_of_lt hmin

theorem isFinite_nearest :
    (nearest num den).isFinite = true ↔ patternOf (num * unitsPerOne) den < infinityBits := by
  rw [isFinite, decide_eq_true_eq, magnitude_nearest]
  omega

/-- A finite nearest number is the multiple times the power, its scale is at least the power's,
and an even multiple gives an even significand. -/
theorem nearest_units (hden : 0 < den) (h : (nearest num den).isFinite = true) :
    (nearest num den).units =
        roundDiv (num * unitsPerOne) (den * 2 ^ scaleFor (num * unitsPerOne) den) *
          2 ^ scaleFor (num * unitsPerOne) den ∧
      scaleFor (num * unitsPerOne) den ≤ (nearest num den).scale ∧
      (roundDiv (num * unitsPerOne) (den * 2 ^ scaleFor (num * unitsPerOne) den) % 2 = 0 →
        (nearest num den).significand % 2 = 0) := by
  refine units_of_magnitude ?_ (roundDiv_scaleFor_le hden) (le_roundDiv_scaleFor hden)
  rw [magnitude_nearest, Nat.min_eq_left (Nat.le_of_lt (isFinite_nearest.mp h))]
  rfl

/-- **The nearest number is within half a step of the quotient.** -/
theorem nearest_within (hden : 0 < den) (h : (nearest num den).isFinite = true) :
    2 * (num * unitsPerOne) ≤
        2 * ((nearest num den).units * den) + den * 2 ^ (nearest num den).scale ∧
      2 * ((nearest num den).units * den) ≤
        2 * (num * unitsPerOne) + den * 2 ^ (nearest num den).scale := by
  obtain ⟨hunits, hscale, -⟩ := nearest_units hden h
  have hpos : 0 < den * 2 ^ scaleFor (num * unitsPerOne) den :=
    Nat.mul_pos hden (Nat.two_pow_pos _)
  obtain ⟨hlow, hhigh⟩ := @roundDiv_within (num * unitsPerOne) _ hpos
  have hstep : den * 2 ^ scaleFor (num * unitsPerOne) den ≤ den * 2 ^ (nearest num den).scale :=
    Nat.mul_le_mul_left den (Nat.pow_le_pow_right (by decide) hscale)
  rw [hunits, Nat.mul_assoc, Nat.mul_comm (2 ^ _) den]
  omega

/-! ### No number is nearer -/

/-- How far a number is from a quotient, in parts of a unit. -/
def gap (x : Binary64) (num den : Nat) : Nat := Nat.dist (x.units * den) (num * unitsPerOne)

/-- A number is a multiple of a power of two, or is too small for 53 bits of it. -/
theorem units_multiple_or (x : Binary64) (s : Nat) :
    (∃ k, x.units = k * 2 ^ s) ∨ 0 < s ∧ x.units < 2 ^ 52 * 2 ^ s := by
  rcases Nat.lt_or_ge x.scale s with hlt | hge
  · refine Or.inr ⟨by omega, ?_⟩
    calc x.units < 2 ^ 53 * 2 ^ x.scale :=
          Nat.mul_lt_mul_of_pos_right x.significand_lt (Nat.two_pow_pos _)
      _ = 2 ^ 52 * 2 ^ (x.scale + 1) := by rw [Nat.pow_succ]; omega
      _ ≤ 2 ^ 52 * 2 ^ s := Nat.mul_le_mul_left _ (Nat.pow_le_pow_right (by decide) hlt)
  · refine Or.inl ⟨x.significand * 2 ^ (x.scale - s), ?_⟩
    rw [Nat.mul_assoc, ← Nat.pow_add, Nat.sub_add_cancel hge]
    rfl

theorem gap_nearest (hden : 0 < den) (h : (nearest num den).isFinite = true) (y : Binary64) :
    (nearest num den).gap num den ≤ y.gap num den ∧
      (y.gap num den = (nearest num den).gap num den →
        y.units = (nearest num den).units ∨ (nearest num den).significand % 2 = 0) := by
  obtain ⟨hunits, -, heven⟩ := nearest_units hden h
  have hscale := @scaleFor_le_or (num * unitsPerOne) den hden
  unfold gap
  rw [hunits]
  revert heven hscale
  generalize scaleFor (num * unitsPerOne) den = s
  generalize num * unitsPerOne = point
  intro heven hscale
  have hpos : 0 < den * 2 ^ s := Nat.mul_pos hden (Nat.two_pow_pos s)
  rw [Nat.mul_assoc, Nat.mul_comm (2 ^ s) den]
  rcases y.units_multiple_or s with ⟨k, hk⟩ | ⟨hs, hsmall⟩
  · obtain ⟨hle, htie⟩ := @roundDiv_nearest point _ hpos k
    rw [hk, Nat.mul_assoc, Nat.mul_comm (2 ^ s) den]
    refine ⟨hle, fun heq => ?_⟩
    rcases htie heq with rfl | hmultiple
    · exact Or.inl rfl
    · exact Or.inr (heven hmultiple)
  · -- the smallest multiple with 53 bits lies between the number and the quotient
    have hpoint := hscale.resolve_left (by omega)
    have hbelow : y.units * den < 2 ^ 52 * (den * 2 ^ s) := by
      have := Nat.mul_lt_mul_of_pos_right hsmall hden
      rwa [Nat.mul_assoc, Nat.mul_comm (2 ^ s) den] at this
    obtain ⟨hle, -⟩ := @roundDiv_nearest point _ hpos (2 ^ 52)
    unfold Nat.dist at hle ⊢
    exact ⟨by omega, by omega⟩

/-! ### Overflow -/

theorem unitsPerOne_eq {a b : Nat} (h : a + b = 1074) : unitsPerOne = 2 ^ a * 2 ^ b := by
  rw [← Nat.pow_add, h]
  rfl

theorem unitsPerOne_pos : 0 < unitsPerOne := Nat.two_pow_pos 1074

/-- The middle between the largest finite number and the power of two after it. -/
def overflow : Nat := (2 ^ 54 - 1) * 2 ^ 970

theorem overflow_mul (den : Nat) :
    overflow * den * (2 * unitsPerOne) = (2 ^ 54 - 1) * (den * 2 ^ 2045) := by
  obtain ⟨a, b, ha, hb⟩ : ∃ a b, a = 970 ∧ b + 0 = 1074 := ⟨970, 1074, rfl, rfl⟩
  have hpow : 2045 = a + (b + 1) := by omega
  rw [overflow, unitsPerOne_eq hb, hpow, ← ha, Nat.pow_add, Nat.pow_succ]
  ring

/-- The pattern reaches infinity where the largest scale would round up to `2 ^ 53`. -/
theorem patternOf_lt_iff (hden : 0 < den) :
    patternOf num den < infinityBits ↔ 2 * num < (2 ^ 54 - 1) * (den * 2 ^ 2045) := by
  obtain ⟨t, ht⟩ : ∃ t, t = 2045 := ⟨2045, rfl⟩
  have hinfinity : infinityBits = 2047 * 2 ^ 52 := by decide
  have hpos : 0 < den * 2 ^ t := Nat.mul_pos hden (Nat.two_pow_pos t)
  have hle := @roundDiv_scaleFor_le num den hden
  have hnormal := @le_roundDiv_scaleFor num den hden
  have hstep : ∀ {a b : Nat}, a < b → 2 * (den * 2 ^ a) ≤ den * 2 ^ b := by
    intro a b hab
    have := Nat.mul_le_mul_left den (Nat.pow_le_pow_right (by decide : 0 < 2) hab)
    rw [Nat.pow_succ, ← Nat.mul_assoc] at this
    omega
  simp only [patternOf, Nat.pow_eq, hinfinity, ← ht]
  rcases Nat.lt_trichotomy (scaleFor num den) t with hlt | heq | hgt
  · have hnum := @lt_scaleFor num den hden
    have := hstep hlt
    omega
  · have hround := @roundDiv_lt_iff num _ (2 ^ 53) hpos (by decide)
    rw [heq] at hle ⊢
    omega
  · have hnum := (@scaleFor_le_or num den hden).resolve_left (by omega)
    have := hstep hgt
    omega

theorem isFinite_nearest_iff (hden : 0 < den) :
    (nearest num den).isFinite = true ↔ num < overflow * den := by
  have hpos : 0 < 2 * unitsPerOne := Nat.mul_pos (by decide) unitsPerOne_pos
  rw [isFinite_nearest, patternOf_lt_iff hden, ← overflow_mul, Nat.mul_left_comm]
  exact Nat.mul_lt_mul_right hpos

/-! ### Correct rounding -/

/-- The number that a quotient is rounded to.  It is infinite if the quotient is too large, and
otherwise no number is nearer, and it is the even one of two. -/
structure IsNearest (x : Binary64) (num den : Nat) : Prop where
  isFinite_iff : x.isFinite = true ↔ num < overflow * den
  gap_le : x.isFinite = true → ∀ y : Binary64, x.gap num den ≤ y.gap num den
  even : x.isFinite = true → ∀ y : Binary64, y.gap num den = x.gap num den →
    y.units = x.units ∨ x.significand % 2 = 0

/-- **A quotient is rounded correctly.** -/
theorem isNearest_nearest (hden : 0 < den) : (nearest num den).IsNearest num den where
  isFinite_iff := isFinite_nearest_iff hden
  gap_le h y := (gap_nearest hden h y).1
  even h y := (gap_nearest hden h y).2

end

end Binary64

end TallyLang
