/-
What a constant of the emitted code is worth.

A constant has six decimals, so it denotes a whole number of millionths.  The
magnitude of the constant is rounded to such a number in integers, half to even, and
`abs_millionths_sub_le` says in rational numbers what that means: no millionth is
nearer, and of two equally near ones it is the even one.  `signedMillionths_nearest`
carries the sign over, where a number that rounds to zero keeps its minus and still
denotes zero.

That rounding keeps the order needs nothing else.  If two numbers were rounded the
other way round, each would lie on the wrong side of the middle between the two
results, or on it; so both are the middle, and equal numbers are rounded alike.
-/
import TallyLang.Proofs.Binary64.Value

namespace TallyLang

/-! ### Digits -/

namespace Decimal

/-- The number that a text denotes, with a minus in front of what is negative. -/
def denotedValue : List Char → ℚ
  | '-' :: cs => -writtenValue cs
  | cs => writtenValue cs

/-- The digits of a number do not begin with a zero, unless that is all there is. -/
theorem head_toDigits {n : Nat} (h : 1 < (Nat.toDigits 10 n).length) :
    (Nat.toDigits 10 n).head? ≠ some '0' := by
  intro hhead
  obtain ⟨cs, hcs⟩ : ∃ cs, Nat.toDigits 10 n = '0' :: cs := by
    cases hdigits : Nat.toDigits 10 n with
    | nil =>
        rw [hdigits] at hhead
        cases hhead
    | cons c cs =>
        rw [hdigits] at hhead
        cases hhead
        exact ⟨cs, rfl⟩
  rw [hcs] at h
  have hlt : n < 10 ^ cs.length := by
    have hdigits : ∀ c ∈ cs, isDigit c = true := fun c hc =>
      isDigit_of_mem_toDigits (hcs ▸ List.mem_cons_of_mem '0' hc)
    rw [← Nat.ofDigitChars_ten_toDigits (n := n), hcs, ofDigitChars_cons_zero, digitValue_zero,
      Nat.zero_mul, Nat.zero_add]
    exact ofDigitChars_lt hdigits
  have hle := (Nat.length_toDigits_le_iff (by decide) (by simpa using h)).mpr hlt
  rw [hcs, List.length_cons] at hle
  omega

/-- No zeros are filled in before the digit in front of the point. -/
theorem head_whole {n places : Nat} {whole fraction : List Char}
    (h : whole ++ fraction = padded (places + 1) n) (hplaces : fraction.length = places)
    (hlong : 1 < whole.length) : whole.head? ≠ some '0' := by
  have hlength : places + 1 < (padded (places + 1) n).length := by
    rw [← h, List.length_append]
    omega
  have hdigits : places + 1 < (Nat.toDigits 10 n).length := by
    simp only [padded, List.length_append, List.length_replicate] at hlength
    omega
  have hpadded : padded (places + 1) n = Nat.toDigits 10 n := by
    have hnone : places + 1 - (Nat.toDigits 10 n).length = 0 := by omega
    simp only [padded, hnone, List.replicate_zero, List.nil_append]
  have hhead : whole.head? = (Nat.toDigits 10 n).head? := by
    rw [← hpadded, ← h, List.head?_append_of_ne_nil _ (List.ne_nil_of_length_pos (by omega))]
  rw [hhead]
  exact head_toDigits (by omega)

/-- The last digit of an even number is even. -/
theorem even_getLast {cs : List Char} (hne : cs ≠ []) (heven : Nat.ofDigitChars 10 cs 0 % 2 = 0) :
    digitValue (cs.getLast hne) % 2 = 0 := by
  rw [← List.dropLast_append_getLast hne, ofDigitChars_append_zero, ofDigitChars_singleton] at heven
  simp only [List.length_singleton] at heven
  omega

end Decimal

/-! ### Millionths -/

namespace Binary64

/-- The millionths, with the sign of the number. -/
def signedMillionths (x : Binary64) : ℤ := if x.negative then -x.millionths else x.millionths

/-- No number of millionths is nearer to the magnitude, and only an even one shares its place. -/
theorem millionths_sub_le (x : Binary64) (j : ℕ) :
    |(x.millionths / 10 ^ 6 - |x.value| : ℚ)| ≤ |(j / 10 ^ 6 - |x.value| : ℚ)| ∧
      (|(j / 10 ^ 6 - |x.value| : ℚ)| = |(x.millionths / 10 ^ 6 - |x.value| : ℚ)| →
        j = x.millionths ∨ x.millionths % 2 = 0) := by
  have hmillion : 0 < 10 ^ 6 := by decide
  have hpos : (0 : ℚ) < (10 ^ 6 : ℕ) * unitsPerOne :=
    mul_pos (by exact_mod_cast hmillion) cast_unitsPerOne_pos
  have hcast : ((10 ^ 6 : ℕ) : ℚ) = 10 ^ 6 := by norm_num
  have hdist : ∀ i : ℕ, (Nat.dist (i * unitsPerOne) (x.units * 10 ^ 6) : ℚ) =
      |(i / 10 ^ 6 - |x.value| : ℚ)| * ((10 ^ 6 : ℕ) * unitsPerOne) := by
    intro i
    rw [cast_dist_mul _ _ hmillion unitsPerOne_pos, abs_value, hcast]
  obtain ⟨hle, htie⟩ := @roundDiv_nearest (x.units * 10 ^ 6) unitsPerOne unitsPerOne_pos j
  have hle' : (Nat.dist (x.millionths * unitsPerOne) (x.units * 10 ^ 6) : ℚ) ≤
      Nat.dist (j * unitsPerOne) (x.units * 10 ^ 6) := by exact_mod_cast hle
  rw [hdist, hdist] at hle'
  refine ⟨le_of_mul_le_mul_right hle' hpos, fun heq => htie ?_⟩
  have heq' : (Nat.dist (j * unitsPerOne) (x.units * 10 ^ 6) : ℚ) =
      Nat.dist (x.millionths * unitsPerOne) (x.units * 10 ^ 6) := by
    rw [hdist, hdist, heq]
  exact_mod_cast heq'

/-- Nor is a negative one, since zero is nearer. -/
theorem abs_millionths_sub_le (x : Binary64) (k : ℤ) :
    |(x.millionths / 10 ^ 6 - |x.value| : ℚ)| ≤ |(k / 10 ^ 6 - |x.value| : ℚ)| ∧
      (|(k / 10 ^ 6 - |x.value| : ℚ)| = |(x.millionths / 10 ^ 6 - |x.value| : ℚ)| →
        k = x.millionths ∨ x.millionths % 2 = 0) := by
  rcases le_or_gt 0 k with hk | hk
  · obtain ⟨j, rfl⟩ := Int.eq_ofNat_of_zero_le hk
    obtain ⟨hle, htie⟩ := x.millionths_sub_le j
    rw [Int.cast_natCast]
    exact ⟨hle, fun heq => (htie heq).imp_left (congrArg Nat.cast)⟩
  · have hk' : (k / 10 ^ 6 : ℚ) < 0 := div_neg_of_neg_of_pos (by exact_mod_cast hk) (by norm_num)
    have hzero := (x.millionths_sub_le 0).1
    have hvalue := abs_nonneg x.value
    rw [Nat.cast_zero, zero_div, zero_sub, abs_neg, abs_abs] at hzero
    have hfar : |x.value| < |(k / 10 ^ 6 - |x.value| : ℚ)| :=
      lt_abs.mpr (Or.inr (by linarith))
    exact ⟨(hzero.trans_lt hfar).le, fun heq => absurd heq (hzero.trans_lt hfar).ne'⟩

theorem value_eq_abs (x : Binary64) : x.value = if x.negative then -|x.value| else |x.value| := by
  rw [abs_value, value_eq]
  split <;> ring

theorem value_nonpos {x : Binary64} (h : x.negative = true) : x.value ≤ 0 := by
  rw [value_eq_abs, h, if_pos rfl]
  exact neg_nonpos.mpr (abs_nonneg _)

/-- No whole number of millionths is nearer. -/
theorem signedMillionths_nearest (x : Binary64) (k : ℤ) :
    |(x.signedMillionths / 10 ^ 6 - x.value : ℚ)| ≤ |(k / 10 ^ 6 - x.value : ℚ)| ∧
      (|(k / 10 ^ 6 - x.value : ℚ)| = |(x.signedMillionths / 10 ^ 6 - x.value : ℚ)| →
        k = x.signedMillionths ∨ x.millionths % 2 = 0) := by
  have hnearest := x.abs_millionths_sub_le
  have hvalue := x.value_eq_abs
  generalize |x.value| = a at hnearest hvalue
  rw [hvalue, signedMillionths]
  cases x.negative with
  | false =>
      simp only [Bool.false_eq_true, if_false, Int.cast_natCast]
      exact hnearest k
  | true =>
      have hmirror : ∀ q : ℚ, |q / 10 ^ 6 - -a| = |-q / 10 ^ 6 - a| := by
        intro q
        rw [← abs_neg]
        congr 1
        ring
      have hk := hnearest (-k)
      push_cast at hk
      simp only [if_true, hmirror]
      push_cast
      rw [neg_neg]
      exact ⟨hk.1, fun heq => (hk.2 heq).imp_left fun h => by omega⟩

theorem signedMillionths_eq_zero {x : Binary64} (h : x.value = 0) : x.signedMillionths = 0 := by
  have hle := (x.signedMillionths_nearest 0).1
  rw [h, Int.cast_zero, zero_div, sub_zero, sub_zero, abs_zero, abs_nonpos_iff,
    div_eq_zero_iff] at hle
  exact_mod_cast hle.resolve_right (by norm_num)

theorem signedMillionths_congr {x y : Binary64} (h : x.value = y.value) :
    x.signedMillionths = y.signedMillionths := by
  have hunits : x.units = y.units := by
    have habs : |x.value| = |y.value| := congrArg _ h
    rw [abs_value, abs_value, div_left_inj' cast_unitsPerOne_pos.ne'] at habs
    exact_mod_cast habs
  have hmillionths : x.millionths = y.millionths := by rw [millionths, millionths, hunits]
  by_cases hsign : x.negative = y.negative
  · rw [signedMillionths, signedMillionths, hsign, hmillionths]
  · -- only zero has two signs
    have hzero : x.value = 0 := by
      cases hx : x.negative with
      | false =>
          have hy : y.negative = true := by
            rw [hx] at hsign
            exact Bool.eq_true_of_not_eq_false (Ne.symm hsign)
          exact le_antisymm (h ▸ value_nonpos hy) (value_nonneg hx)
      | true =>
          have hy : y.negative = false := by
            rw [hx] at hsign
            exact Bool.eq_false_of_not_eq_true (Ne.symm hsign)
          exact le_antisymm (value_nonpos hx) (h ▸ value_nonneg hy)
    rw [signedMillionths_eq_zero hzero, signedMillionths_eq_zero (h ▸ hzero)]

/-- Rounding keeps the order. -/
theorem signedMillionths_mono {x y : Binary64} (h : x.value ≤ y.value) :
    x.signedMillionths ≤ y.signedMillionths := by
  by_contra hgt
  have hlt : (y.signedMillionths / 10 ^ 6 : ℚ) < x.signedMillionths / 10 ^ 6 :=
    div_lt_div_of_pos_right (by exact_mod_cast not_le.mp hgt) (by norm_num)
  have hx := sq_le_sq.mpr (x.signedMillionths_nearest y.signedMillionths).1
  have hy := sq_le_sq.mpr (y.signedMillionths_nearest x.signedMillionths).1
  -- neither value lies on its own side of the middle of the two millionths
  have hupper : (y.signedMillionths / 10 ^ 6 + x.signedMillionths / 10 ^ 6 : ℚ) ≤ 2 * x.value := by
    nlinarith
  have hlower : 2 * y.value ≤ (y.signedMillionths / 10 ^ 6 + x.signedMillionths / 10 ^ 6 : ℚ) := by
    nlinarith
  have heq : x.value = y.value := by linarith
  exact hgt (signedMillionths_congr heq).le

/-! ### The text -/

/-- A constant is its millionths with a point, behind a minus if its sign bit is set. -/
theorem exists_constantText {x : Binary64} (hfinite : x.isFinite = true) :
    ∃ whole fraction : List Char,
      x.constantText.toList = (if x.negative then ['-'] else []) ++ (whole ++ '.' :: fraction) ∧
      whole ++ fraction = Decimal.padded (places + 1) x.millionths ∧
      whole ≠ [] ∧ (∀ c ∈ whole, isDigit c = true) ∧
      fraction.length = places ∧ ∀ c ∈ fraction, isDigit c = true := by
  obtain ⟨whole, fraction, htext, hdigits⟩ :=
    @Decimal.pointed_shape x.millionths places (by decide)
  refine ⟨whole, fraction, ?_, hdigits⟩
  rw [constantText, if_pos hfinite, String.toList_append, String.toList_ofList, ← htext]
  cases x.negative <;> rfl

/-- A constant denotes its millionths. -/
theorem denotedValue_constantText {x : Binary64} (hfinite : x.isFinite = true) :
    Decimal.denotedValue x.constantText.toList = x.signedMillionths / 10 ^ 6 := by
  obtain ⟨whole, fraction, htext, hpadded, hne, hwhole, hplaces, -⟩ := exists_constantText hfinite
  have hvalue : Decimal.writtenValue (whole ++ '.' :: fraction) = x.millionths / 10 ^ 6 := by
    rw [Decimal.writtenValue_point hwhole, hpadded, Decimal.ofDigitChars_padded, hplaces, places]
  rw [htext, signedMillionths]
  cases x.negative with
  | true =>
      rw [if_pos rfl, if_pos rfl, List.singleton_append, Decimal.denotedValue, hvalue]
      push_cast
      ring
  | false =>
      rw [if_neg Bool.false_ne_true, if_neg Bool.false_ne_true, List.nil_append,
        Decimal.denotedValue, hvalue, Int.cast_natCast]
      -- a digit is no minus
      intro cs hcs
      obtain ⟨c, rest, rfl⟩ := List.exists_cons_of_ne_nil hne
      have hdigit := hwhole c List.mem_cons_self
      rw [(List.cons.inj hcs).1] at hdigit
      exact absurd hdigit (by decide)

end Binary64

/-- **Constants are rounded to six decimals.**  A finite constant is a minus exactly if its sign bit
is set, digits without a zero that could be left out, a point and six digits.  Of all multiples of a
millionth it denotes the one nearest to the number, and one that ends in an even digit if two are
nearest.  So the denoted numbers are in the order of the constants. -/
theorem constantText_isRounded (v : Binary64) (hfinite : v.isFinite = true) :
    ∃ whole fraction : List Char,
      v.constantText.toList = (if v.negative then ['-'] else []) ++ (whole ++ '.' :: fraction) ∧
      whole ≠ [] ∧ (∀ c ∈ whole, isDigit c = true) ∧
      (1 < whole.length → whole.head? ≠ some '0') ∧
      fraction.length = 6 ∧ (∀ c ∈ fraction, isDigit c = true) ∧
      (∃ k : ℤ, Decimal.denotedValue v.constantText.toList = k / 10 ^ 6) ∧
      (∀ k : ℤ, |Decimal.denotedValue v.constantText.toList - v.value| ≤ |k / 10 ^ 6 - v.value|) ∧
      (∀ k : ℤ,
        |k / 10 ^ 6 - v.value| = |Decimal.denotedValue v.constantText.toList - v.value| →
        k / 10 ^ 6 = Decimal.denotedValue v.constantText.toList ∨
          ∃ d, fraction.getLast? = some d ∧ Decimal.digitValue d % 2 = 0) ∧
      ∀ w : Binary64, w.isFinite = true → v.value ≤ w.value →
        Decimal.denotedValue v.constantText.toList ≤
          Decimal.denotedValue w.constantText.toList := by
  obtain ⟨whole, fraction, htext, hpadded, hne, hwhole, hplaces, hfraction⟩ :=
    Binary64.exists_constantText hfinite
  rw [Binary64.denotedValue_constantText hfinite]
  refine ⟨whole, fraction, htext, hne, hwhole, Decimal.head_whole hpadded hplaces, hplaces,
    hfraction, ⟨_, rfl⟩, fun k => (v.signedMillionths_nearest k).1, ?_, ?_⟩
  · intro k htie
    refine ((v.signedMillionths_nearest k).2 htie).imp (fun h => by rw [h]) fun heven => ?_
    have hlast : fraction ≠ [] := List.ne_nil_of_length_pos (hplaces ▸ by decide)
    refine ⟨_, List.getLast?_eq_some_getLast hlast, ?_⟩
    rw [← Decimal.ofDigitChars_padded (Binary64.places + 1) v.millionths, ← hpadded] at heven
    have hall := Decimal.even_getLast (List.append_ne_nil_of_right_ne_nil whole hlast) heven
    rwa [List.getLast_append_of_ne_nil _ hlast] at hall
  · intro w hfinitew hle
    rw [Binary64.denotedValue_constantText hfinitew]
    exact div_le_div_of_nonneg_right
      (by exact_mod_cast Binary64.signedMillionths_mono hle) (by norm_num)

/-- The negative of 2 to the power of -7 lies in the middle between two millionths. -/
theorem constantText_isRounded_halfway :
    (⟨0xbf80000000000000⟩ : Binary64).isFinite = true ∧ (⟨0⟩ : Binary64).isFinite = true ∧
      (⟨0xbf80000000000000⟩ : Binary64).constantText = "-0.007812" ∧
      (∀ k : ℤ,
        |Decimal.denotedValue "-0.007812".toList - (⟨0xbf80000000000000⟩ : Binary64).value| ≤
          |k / 10 ^ 6 - (⟨0xbf80000000000000⟩ : Binary64).value|) ∧
      Decimal.denotedValue "-0.007812".toList ≤ Decimal.denotedValue "0.000000".toList := by
  have htext : (⟨0xbf80000000000000⟩ : Binary64).constantText = "-0.007812" := by decide +kernel
  have hzero : (⟨0⟩ : Binary64).constantText = "0.000000" := by decide +kernel
  have hle : (⟨0xbf80000000000000⟩ : Binary64).value ≤ (⟨0⟩ : Binary64).value := by
    rw [Binary64.value_zero]
    exact Binary64.value_nonpos (by decide)
  obtain ⟨-, -, -, -, -, -, -, -, -, hnearest, -, hmono⟩ :=
    constantText_isRounded ⟨0xbf80000000000000⟩ (by decide)
  have hordered := hmono ⟨0⟩ (by decide) hle
  rw [htext] at hnearest hordered
  rw [hzero] at hordered
  exact ⟨by decide, by decide, htext, hnearest, hordered⟩

end TallyLang
