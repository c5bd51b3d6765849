/-
The exact values of numbers and literals.

What a literal writes is a rational number, digit by digit, and so is the value of a finite
number: its significand times a power of two, with its sign.  `IsRounded` says in these
terms which number a quantity is rounded to: no finite number is nearer, of two the
one with an even significand is taken, and from a certain size on the result is infinite.
There is exactly one such number (`IsRounded.unique`), because between two numbers with
even significands there is always a third, nearer to their middle.

That the nearest number is the rounded one was seen in natural numbers, with gaps in parts of a
unit; here it only remains to divide.
-/
import Mathlib.Algebra.Order.Field.Basic
import Mathlib.Algebra.Order.Field.Power
import Mathlib.Algebra.Order.Ring.Rat
import Mathlib.Data.List.TakeWhile
import Mathlib.Tactic.FieldSimp
import Mathlib.Tactic.Linarith
import TallyLang.Proofs.Binary64.SixDecimals

namespace TallyLang

/-- The distance of two quotients, in parts of the product of their denominators. -/
theorem cast_dist_mul (a c : ℕ) {b d : ℕ} (hb : 0 < b) (hd : 0 < d) :
    (Nat.dist (a * d) (c * b) : ℚ) = |(a / b - c / d : ℚ)| * (b * d) := by
  have hb' : (0 : ℚ) < b := by exact_mod_cast hb
  have hd' : (0 : ℚ) < d := by exact_mod_cast hd
  have hcross : ((a * d : ℕ) : ℚ) - (c * b : ℕ) = (a / b - c / d) * (b * d) := by
    push_cast
    field_simp
  rw [← abs_of_pos (mul_pos hb' hd'), ← abs_mul, ← hcross]
  rcases le_total (a * d) (c * b) with hle | hle
  · rw [Nat.dist_eq_sub_of_le hle, Nat.cast_sub hle, abs_sub_comm, abs_of_nonneg]
    exact sub_nonneg.mpr (by exact_mod_cast hle)
  · rw [Nat.dist_eq_sub_of_le_right hle, Nat.cast_sub hle, abs_of_nonneg]
    exact sub_nonneg.mpr (by exact_mod_cast hle)

/-! ### Decimals -/

namespace Decimal

/-- The value of a decimal digit. -/
def digitValue (c : Char) : Nat := c.toNat - '0'.toNat

/-- What digits in front of the point are worth. -/
def wholeValue : List Char → ℚ
  | [] => 0
  | c :: cs => digitValue c * 10 ^ cs.length + wholeValue cs

/-- What digits behind the point are worth. -/
def fractionValue : List Char → ℚ
  | [] => 0
  | c :: cs => (digitValue c + fractionValue cs) / 10

/-- The number that is written with digits and at most one point. -/
def writtenValue (text : List Char) : ℚ :=
  wholeValue (text.takeWhile (· ≠ '.')) + fractionValue ((text.dropWhile (· ≠ '.')).drop 1)

theorem ofDigitChars_append_zero (front back : List Char) :
    Nat.ofDigitChars 10 (front ++ back) 0 =
      Nat.ofDigitChars 10 front 0 * 10 ^ back.length + Nat.ofDigitChars 10 back 0 := by
  rw [Nat.ofDigitChars_append, Nat.ofDigitChars_eq_ofDigitChars_zero, Nat.mul_comm]

theorem ofDigitChars_cons_zero (c : Char) (cs : List Char) :
    Nat.ofDigitChars 10 (c :: cs) 0 =
      digitValue c * 10 ^ cs.length + Nat.ofDigitChars 10 cs 0 := by
  rw [Nat.ofDigitChars_cons, Nat.ofDigitChars_eq_ofDigitChars_zero, Nat.mul_zero, Nat.zero_add,
    Nat.mul_comm, digitValue]

theorem ofDigitChars_singleton (c : Char) : Nat.ofDigitChars 10 [c] 0 = digitValue c := by
  simp [ofDigitChars_cons_zero]

theorem digitValue_zero : digitValue '0' = 0 := rfl

theorem digitValue_lt {c : Char} (h : isDigit c = true) : digitValue c < 10 := by
  simp only [isDigit, decide_eq_true_eq, Char.le_def, UInt32.le_iff_toNat_le] at h
  have hnine : c.toNat ≤ '9'.toNat := h.2
  have hvalue : '9'.toNat - '0'.toNat = 9 := rfl
  unfold digitValue
  omega

theorem ofDigitChars_lt {cs : List Char} (h : ∀ c ∈ cs, isDigit c = true) :
    Nat.ofDigitChars 10 cs 0 < 10 ^ cs.length := by
  induction cs with
  | nil => simp
  | cons c cs ih =>
      have hc := digitValue_lt (h c List.mem_cons_self)
      have hcs := ih fun d hd => h d (List.mem_cons_of_mem c hd)
      rw [ofDigitChars_cons_zero, List.length_cons, Nat.pow_succ]
      have hmul : digitValue c * 10 ^ cs.length ≤ 9 * 10 ^ cs.length :=
        Nat.mul_le_mul_right _ (by omega)
      omega

theorem wholeValue_eq (cs : List Char) : wholeValue cs = Nat.ofDigitChars 10 cs 0 := by
  induction cs with
  | nil => simp [wholeValue]
  | cons c cs ih =>
      rw [wholeValue, ih, ofDigitChars_cons_zero]
      push_cast
      ring

theorem fractionValue_eq (cs : List Char) :
    fractionValue cs = Nat.ofDigitChars 10 cs 0 / 10 ^ cs.length := by
  induction cs with
  | nil => simp [fractionValue]
  | cons c cs ih =>
      rw [fractionValue, ih, ofDigitChars_cons_zero, List.length_cons]
      push_cast
      field_simp
      ring

theorem ne_point_of_digits {digits : List Char} (h : ∀ c ∈ digits, isDigit c = true) :
    ∀ c ∈ digits, decide (c ≠ '.') = true := by
  intro c hc
  simpa using Piece.ne_point_of_isDigit (h c hc)

theorem writtenValue_digits {digits : List Char} (h : ∀ c ∈ digits, isDigit c = true) :
    writtenValue digits = Nat.ofDigitChars 10 digits 0 := by
  have hpoint := ne_point_of_digits h
  rw [writtenValue, List.takeWhile_eq_self_iff.mpr hpoint, List.dropWhile_eq_nil_iff.mpr hpoint,
    wholeValue_eq]
  simp [fractionValue]

/-- A point divides by a power of ten. -/
theorem writtenValue_point {whole : List Char} (h : ∀ c ∈ whole, isDigit c = true)
    (fraction : List Char) : writtenValue (whole ++ '.' :: fraction) =
      Nat.ofDigitChars 10 (whole ++ fraction) 0 / 10 ^ fraction.length := by
  have hpoint := ne_point_of_digits h
  have hpow : (10 : ℚ) ^ fraction.length ≠ 0 := by positivity
  rw [writtenValue, List.takeWhile_append_of_pos hpoint, List.dropWhile_append_of_pos hpoint,
    ofDigitChars_append_zero, wholeValue_eq]
  simp only [List.takeWhile_cons, List.dropWhile_cons]
  simp [fractionValue_eq]
  field_simp

/-- The exact value. -/
def value (d : Decimal) : ℚ := d.coeff * 10 ^ d.exp

theorem value_ofDigits (whole fraction : List Char) :
    (ofDigits whole fraction).value = wholeValue whole + fractionValue fraction := by
  have hpow : (10 : ℚ) ^ fraction.length ≠ 0 := by positivity
  rw [value, ofDigits, ofDigitChars_append_zero, wholeValue_eq, fractionValue_eq, zpow_neg, zpow_natCast]
  push_cast
  field_simp

theorem value_ofLexeme (lexeme : List Char) : (ofLexeme lexeme).value = writtenValue lexeme :=
  value_ofDigits _ _

theorem value_eq_div (d : Decimal) : d.value = d.num / d.den := by
  have hpow : (10 : ℚ) ^ d.exp = 10 ^ d.exp.toNat / 10 ^ (-d.exp).toNat := by
    rw [← zpow_natCast, ← zpow_natCast, ← zpow_sub₀ (by norm_num)]
    congr 1
    omega
  rw [value, num, den, Nat.pow_eq, Nat.pow_eq, hpow]
  push_cast
  ring

theorem value_pow (n : Nat) (e : Int) : (⟨10 ^ n, e⟩ : Decimal).value = 10 ^ (n + e) := by
  rw [value, zpow_add₀ (by norm_num), zpow_natCast]
  push_cast
  rfl

theorem value_le_value {c c' : Nat} (h : c ≤ c') (e : Int) :
    (⟨c, e⟩ : Decimal).value ≤ (⟨c', e⟩ : Decimal).value :=
  mul_le_mul_of_nonneg_right (by exact_mod_cast h) (zpow_nonneg (by norm_num) _)

end Decimal

/-! ### Numbers -/

namespace Binary64

/-- The exact value of a finite number. -/
def value (x : Binary64) : ℚ :=
  (if x.negative then -1 else 1) * (x.significand * 2 ^ ((x.scale : ℤ) - 1074))

theorem value_eq (x : Binary64) :
    x.value = (if x.negative then -1 else 1) * (x.units / unitsPerOne) := by
  obtain ⟨k, hk⟩ : ∃ k : ℕ, k = 1074 := ⟨1074, rfl⟩
  have hone : (unitsPerOne : ℚ) = 2 ^ k := by
    rw [unitsPerOne_eq (Nat.add_zero k ▸ hk)]
    push_cast
    ring
  have hunits : (x.units : ℚ) = x.significand * 2 ^ x.scale := by
    rw [units, Nat.pow_eq]
    push_cast
    rfl
  have hexp : (x.scale : ℤ) - 1074 = (x.scale : ℤ) - (k : ℤ) := by omega
  rw [value, hexp, zpow_sub₀ (by norm_num), zpow_natCast, zpow_natCast, hone, hunits, mul_div_assoc]

theorem value_of_unsigned {x : Binary64} (h : x.negative = false) :
    x.value = x.units / unitsPerOne := by
  rw [value_eq, h, if_neg Bool.false_ne_true, one_mul]

theorem cast_unitsPerOne_pos : (0 : ℚ) < unitsPerOne := by
  exact_mod_cast unitsPerOne_pos

theorem abs_value (x : Binary64) : |x.value| = x.units / unitsPerOne := by
  have hnonneg : (0 : ℚ) ≤ x.units / unitsPerOne := by positivity
  rw [value_eq]
  split
  · rw [neg_one_mul, abs_neg, abs_of_nonneg hnonneg]
  · rw [one_mul, abs_of_nonneg hnonneg]

/-- The distance of the magnitude to a quotient, in parts of a unit. -/
theorem cast_gap (x : Binary64) {num den : Nat} (hden : 0 < den) :
    (x.gap num den : ℚ) = |(|x.value| - num / den)| * (unitsPerOne * den) := by
  rw [gap, cast_dist_mul _ _ unitsPerOne_pos hden, abs_value]

/-! ### The numbers in order -/

theorem magnitude_ofNat {m : Nat} (h : m < 2 ^ 63) :
    (⟨UInt64.ofNat m⟩ : Binary64).magnitude = m := by
  have hbits : (⟨UInt64.ofNat m⟩ : Binary64).bits.toNat = m :=
    UInt64.toNat_ofNat_of_lt (Nat.lt_trans h (by decide))
  rw [magnitude, hbits]
  exact Nat.mod_eq_of_lt h

theorem negative_ofNat {m : Nat} (h : m < 2 ^ 63) :
    (⟨UInt64.ofNat m⟩ : Binary64).negative = false := by
  have hbits : (⟨UInt64.ofNat m⟩ : Binary64).bits.toNat = m :=
    UInt64.toNat_ofNat_of_lt (Nat.lt_trans h (by decide))
  rw [negative, hbits]
  exact decide_eq_false h.not_ge

/-- A larger pattern is a larger number. -/
theorem units_lt_of_magnitude_lt {x y : Binary64} (h : x.magnitude < y.magnitude) :
    x.units < y.units := by
  have hx := x.magnitude_eq
  have hy := y.magnitude_eq
  have hltx := x.significand_lt
  have hlty := y.significand_lt
  have hnormalx := x.scale_eq_zero_or
  have hnormaly := y.scale_eq_zero_or
  rcases Nat.lt_trichotomy x.scale y.scale with hlt | heq | hgt
  · have hnormal : 2 ^ 52 ≤ y.significand := hnormaly.resolve_left (by omega)
    calc x.units < 2 ^ 53 * 2 ^ x.scale :=
          Nat.mul_lt_mul_of_pos_right hltx (Nat.two_pow_pos _)
      _ = 2 ^ 52 * 2 ^ (x.scale + 1) := by rw [Nat.pow_succ]; omega
      _ ≤ 2 ^ 52 * 2 ^ y.scale := Nat.mul_le_mul_left _ (Nat.pow_le_pow_right (by decide) hlt)
      _ ≤ y.units := Nat.mul_le_mul_right _ hnormal
  · rw [units, units, heq]
    rw [heq] at hx
    exact Nat.mul_lt_mul_of_pos_right (by omega) (Nat.two_pow_pos _)
  · -- the pattern of a larger scale is larger, since its significand has 53 bits
    have hnormal : 2 ^ 52 ≤ x.significand := hnormalx.resolve_left (by omega)
    omega

theorem even_magnitude_iff (x : Binary64) : x.magnitude % 2 = 0 ↔ x.significand % 2 = 0 := by
  rw [x.magnitude_eq]
  omega

/-! ### Correct rounding -/

/-- The number that a nonnegative quantity is rounded to.  It is infinite from the middle between
the largest number and the next power of two on.  Below, no number is nearer, and of two equally
near ones it is the one with an even significand. -/
structure IsRounded (x : Binary64) (q : ℚ) : Prop where
  unsigned : x.negative = false
  infinite_iff : x.bits = 0x7ff0000000000000 ↔ 2 ^ 1024 - 2 ^ 970 ≤ q
  isFinite : q < 2 ^ 1024 - 2 ^ 970 → x.isFinite = true
  nearest : x.isFinite = true → ∀ y : Binary64, y.isFinite = true → |x.value - q| ≤ |y.value - q|
  even : x.isFinite = true → ∀ y : Binary64, y.isFinite = true →
    |y.value - q| = |x.value - q| → y.value = x.value ∨ x.significand % 2 = 0

theorem cast_overflow : (overflow : ℚ) = 2 ^ 1024 - 2 ^ 970 := by
  obtain ⟨a, b, ha, hb⟩ : ∃ a b : ℕ, a = 970 ∧ b = 1024 := ⟨970, 1024, rfl, rfl⟩
  have hpow : b = 54 + a := by omega
  rw [overflow, ← ha, ← hb, hpow, pow_add]
  push_cast
  ring

section

variable {x : Binary64} {num den : Nat}

/-- The distance to a quotient is least if no gap is smaller. -/
theorem IsNearest.abs_sub_le (h : x.IsNearest num den) (hden : 0 < den)
    (hfinite : x.isFinite = true) (y : Binary64) :
    |(|x.value| - num / den)| ≤ |(|y.value| - num / den)| := by
  have hgap : (x.gap num den : ℚ) ≤ y.gap num den := by exact_mod_cast h.gap_le hfinite y
  have hpos : (0 : ℚ) < unitsPerOne * den := mul_pos cast_unitsPerOne_pos (by exact_mod_cast hden)
  rw [cast_gap x hden, cast_gap y hden] at hgap
  exact le_of_mul_le_mul_right hgap hpos

theorem IsNearest.even_of_abs_sub_eq (h : x.IsNearest num den) (hden : 0 < den)
    (hfinite : x.isFinite = true) {y : Binary64}
    (heq : |(|y.value| - num / den)| = |(|x.value| - num / den)|) :
    |y.value| = |x.value| ∨ x.significand % 2 = 0 := by
  have hgap : (y.gap num den : ℚ) = x.gap num den := by
    rw [cast_gap x hden, cast_gap y hden, heq]
  refine (h.even hfinite y (by exact_mod_cast hgap)).imp_left fun hunits => ?_
  rw [abs_value, abs_value, hunits]

theorem value_nonneg (h : x.negative = false) : 0 ≤ x.value := by
  rw [value_of_unsigned h]
  exact div_nonneg (Nat.cast_nonneg _) (Nat.cast_nonneg _)

theorem value_zero : (⟨0⟩ : Binary64).value = 0 := by
  have hzero : (⟨0⟩ : Binary64).significand = 0 := by decide
  rw [value, hzero]
  simp

/-- A sign only takes a number away from what is not negative. -/
theorem abs_abs_sub_le (y : Binary64) {q : ℚ} (hq : 0 ≤ q) : |(|y.value| - q)| ≤ |y.value - q| := by
  have h := abs_abs_sub_abs_le_abs_sub y.value q
  rwa [abs_of_nonneg hq] at h

/-- **A quotient is rounded correctly, in rational numbers.** -/
theorem IsNearest.isRounded (h : x.IsNearest num den) (hden : 0 < den)
    (hunsigned : x.isUnsigned = true) : x.IsRounded (num / den) := by
  have hden' : (0 : ℚ) < den := by exact_mod_cast hden
  have hq : (0 : ℚ) ≤ num / den := div_nonneg (Nat.cast_nonneg _) hden'.le
  have hsign : x.negative = false := by
    simpa [isUnsigned] using (Bool.and_eq_true_iff.mp hunsigned).1
  have habs : |x.value| = x.value := abs_of_nonneg (value_nonneg hsign)
  have hfinite_iff : x.isFinite = true ↔ (num / den : ℚ) < 2 ^ 1024 - 2 ^ 970 := by
    rw [h.isFinite_iff, ← cast_overflow, div_lt_iff₀ hden']
    exact_mod_cast Iff.rfl
  have hnearest : x.isFinite = true → ∀ y : Binary64,
      |x.value - num / den| ≤ |(|y.value| - num / den)| := by
    intro hfinite y
    have := h.abs_sub_le hden hfinite y
    rwa [habs] at this
  refine ⟨hsign, ?_, hfinite_iff.mpr, ?_, ?_⟩
  · rw [← not_lt, ← hfinite_iff]
    constructor
    · intro hbits hfinite
      rw [isFinite, magnitude, hbits] at hfinite
      exact absurd hfinite (by decide)
    · intro hfinite
      rw [eq_infinity hunsigned hfinite]
  · intro hfinite y _
    exact (hnearest hfinite y).trans (abs_abs_sub_le y hq)
  · intro hfinite y _ heq
    have hle := abs_abs_sub_le y hq
    have hge := hnearest hfinite y
    have hmagnitude : |(|y.value| - num / den)| = |(|x.value| - (num / den : ℚ))| := by
      rw [habs]
      exact le_antisymm (hle.trans heq.le) hge
    refine (h.even_of_abs_sub_eq hden hfinite hmagnitude).imp_left fun hvalue => ?_
    rcases abs_eq_abs.mp hvalue with hvalue | hvalue
    · exact hvalue
    · -- the sign makes a difference unless the number or the quotient is zero
      have hzero : |x.value - num / den| ≤ |(0 - num / den : ℚ)| := by
        have := hnearest hfinite ⟨0⟩
        rwa [value_zero, abs_zero] at this
      rw [hvalue] at heq ⊢
      rcases abs_eq_abs.mp heq with hsame | hopposite
      · linarith
      · have hnone : (num / den : ℚ) = 0 := by linarith
        rw [hnone, sub_zero, sub_zero, abs_zero, habs] at hzero
        linarith [value_nonneg hsign]

end

section

variable {x y : Binary64}

theorem value_lt_iff (hx : x.negative = false) (hy : y.negative = false) :
    x.value < y.value ↔ x.magnitude < y.magnitude := by
  rw [value_of_unsigned hx, value_of_unsigned hy, div_lt_div_iff_of_pos_right cast_unitsPerOne_pos,
    Nat.cast_lt]
  refine ⟨fun h => ?_, units_lt_of_magnitude_lt⟩
  rcases Nat.lt_trichotomy x.magnitude y.magnitude with hlt | heq | hgt
  · exact hlt
  · rw [eq_of_magnitude hx, eq_of_magnitude hy, heq] at h
    exact absurd h (lt_irrefl _)
  · exact absurd h (units_lt_of_magnitude_lt hgt).asymm

theorem eq_of_value_eq (hx : x.negative = false) (hy : y.negative = false)
    (h : x.value = y.value) : x = y := by
  have hle := (value_lt_iff hx hy).not.mp h.not_lt
  have hge := (value_lt_iff hy hx).not.mp h.not_gt
  have hmagnitude : x.magnitude = y.magnitude := by omega
  rw [eq_of_magnitude hx, eq_of_magnitude hy, hmagnitude]

/-- Between two numbers with even significands there is another, nearer to their middle. -/
theorem exists_nearer {q : ℚ} (hx : x.negative = false) (hy : y.negative = false)
    (hfinite : y.isFinite = true) (hlt : x.value < y.value) (hevenx : x.significand % 2 = 0)
    (heveny : y.significand % 2 = 0) (hdist : |y.value - q| = |x.value - q|) :
    ∃ z : Binary64, z.isFinite = true ∧ |z.value - q| < |x.value - q| := by
  rw [← even_magnitude_iff] at hevenx heveny
  have hmagnitude := (value_lt_iff hx hy).mp hlt
  have hbelow : y.magnitude < infinityBits := by simpa [isFinite] using hfinite
  have hinfinity : infinityBits < 2 ^ 63 := by decide
  have hz : (⟨UInt64.ofNat (x.magnitude + 1)⟩ : Binary64).magnitude = x.magnitude + 1 :=
    magnitude_ofNat (by omega)
  have hzsign : (⟨UInt64.ofNat (x.magnitude + 1)⟩ : Binary64).negative = false :=
    negative_ofNat (by omega)
  revert hz hzsign
  generalize (⟨UInt64.ofNat (x.magnitude + 1)⟩ : Binary64) = z
  intro hz hzsign
  have hlow : x.value < z.value := (value_lt_iff hx hzsign).mpr (by omega)
  have hhigh : z.value < y.value := (value_lt_iff hzsign hy).mpr (by omega)
  have hmiddle : y.value - q = -(x.value - q) := by
    refine (abs_eq_abs.mp hdist).resolve_left fun hsame => ?_
    linarith
  refine ⟨z, ?_, ?_⟩
  · rw [isFinite, decide_eq_true_eq]
    omega
  · have hneg : x.value - q < 0 := by linarith
    rw [abs_of_neg hneg, abs_lt]
    constructor <;> linarith

end

/-- There is one number that a quantity is rounded to. -/
theorem IsRounded.unique {x y : Binary64} {q : ℚ} (hx : x.IsRounded q) (hy : y.IsRounded q) :
    x = y := by
  rcases lt_or_ge q (2 ^ 1024 - 2 ^ 970) with hlt | hge
  · have hfinitex := hx.isFinite hlt
    have hfinitey := hy.isFinite hlt
    have hdist : |y.value - q| = |x.value - q| :=
      le_antisymm (hy.nearest hfinitey x hfinitex) (hx.nearest hfinitex y hfinitey)
    by_cases hvalue : y.value = x.value
    · exact eq_of_value_eq hx.unsigned hy.unsigned hvalue.symm
    have hevenx := (hx.even hfinitex y hfinitey hdist).resolve_left hvalue
    have heveny := (hy.even hfinitey x hfinitex hdist.symm).resolve_left (Ne.symm hvalue)
    rcases lt_or_gt_of_ne hvalue with hlt | hgt
    · obtain ⟨z, hfinite, hz⟩ :=
        exists_nearer hy.unsigned hx.unsigned hfinitex hlt heveny hevenx hdist.symm
      exact absurd (hy.nearest hfinitey z hfinite) hz.not_ge
    · obtain ⟨z, hfinite, hz⟩ :=
        exists_nearer hx.unsigned hy.unsigned hfinitey hgt hevenx heveny hdist
      exact absurd (hx.nearest hfinitex z hfinite) hz.not_ge
  · have hbits := (hx.infinite_iff.mpr hge).trans (hy.infinite_iff.mpr hge).symm
    cases x
    cases y
    exact congrArg Binary64.mk hbits

end Binary64

/-! ### Literals -/

theorem isRounded_numberValue (lexeme : List Char) :
    (Rule.numberValue lexeme).IsRounded (Decimal.writtenValue lexeme) := by
  have hden := (Decimal.ofLexeme lexeme).den_pos
  rw [← Decimal.value_ofLexeme, Decimal.value_eq_div]
  exact (Binary64.isNearest_nearest hden).isRounded hden (isUnsigned_toBinary64 _)

/-- **A literal is read as the number nearest to it.**  Whatever stands behind it, a literal is one
token, and the token holds the one number that its exact value is rounded to.  A point without
digits is zero. -/
theorem literal_isRounded_iff {lexeme : List Char} (h : lexeme ∈ Rule.number.pattern) :
    ∃ v : Binary64,
      (tokensOf (String.ofList lexeme)).map LocatedToken.token = [.number v, .eof] ∧
      (∀ rest, Rule.number.Takes lexeme rest →
        lexed (lexeme ++ rest) = .number v :: lexed rest) ∧
      (∀ x : Binary64, x.IsRounded (Decimal.writtenValue lexeme) ↔ x = v) ∧
      (lexeme = ['.'] → v.bits = 0) := by
  have hrounded := isRounded_numberValue lexeme
  refine ⟨Rule.numberValue lexeme, ?_, fun rest htakes => lexed_of_takes htakes, fun x => ?_, ?_⟩
  · rw [map_token_tokensOf, String.toList_ofList, lexed_of_mem_number h]
    rfl
  · constructor
    · intro hx
      exact hx.unique hrounded
    · rintro rfl
      exact hrounded
  · rintro rfl
    decide +kernel

/-- A digit far behind the point decides which way a tie goes. -/
theorem literal_isRounded_iff_decided :
    (⟨0x4340000000000000⟩ : Binary64).IsRounded
        (Decimal.writtenValue "9007199254740993.0000000000".toList) ∧
      (⟨0x4340000000000001⟩ : Binary64).IsRounded
        (Decimal.writtenValue "9007199254740993.0000000001".toList) := by
  have hread : ∀ {text : String} {x : Binary64}, text.toList ∈ Rule.number.pattern →
      (tokensOf text).map LocatedToken.token = [.number x, .eof] →
      x.IsRounded (Decimal.writtenValue text.toList) := by
    intro text x hlexeme htokens
    obtain ⟨v, hv, -, hrounded, -⟩ := literal_isRounded_iff hlexeme
    rw [String.ofList_toList, htokens] at hv
    cases hv
    exact (hrounded x).mpr rfl
  have hlexeme : ∀ {fraction : List Char}, fraction.all isDigit = true →
      "9007199254740993".toList ++ '.' :: fraction ∈ Rule.number.pattern := fun hfraction =>
    Rule.mem_number.mpr (Or.inr
      ⟨_, _, rfl, List.all_eq_true.mp rfl, List.all_eq_true.mp hfraction⟩)
  exact ⟨hread (@hlexeme "0000000000".toList rfl) (by decide +kernel),
    hread (@hlexeme "0000000001".toList rfl) (by decide +kernel)⟩

end TallyLang
