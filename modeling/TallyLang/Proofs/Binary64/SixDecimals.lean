/-
Literals with at most six decimals survive compilation.

A literal is rounded to the nearest number, and a constant of the emitted code is that number
rounded to six decimals.  Reading the constant gives the number again, for a reason that
depends on how dense the numbers are there.

  * Where they are less than a millionth apart, up to a scale of 1054, the number is within
    half a step of the literal, which is less than half a millionth, so the constant is the
    literal again.
  * Where they are farther apart, the constant is within half a millionth of the number, which
    is less than half a step, so it is rounded back.  Below a power of two the numbers are
    twice as dense and half a millionth may be too much, but a power of two of that size is a
    whole number and its constant is exact.

No tie can occur in either case, because a millionth is no power of two.
-/
import TallyLang.Proofs.Binary64.Rounding
import TallyLang.Proofs.WrittenForm

namespace TallyLang

/-- A whole quotient is not rounded. -/
theorem roundDiv_mul_self (n : Nat) {den : Nat} (hden : 0 < den) : roundDiv (n * den) den = n :=
  roundDiv_eq hden (by omega) (by omega) (by omega)

namespace Binary64

theorem millionths_eq (x : Binary64) :
    x.millionths = roundDiv (x.significand * (10 ^ 6 * 2 ^ x.scale)) unitsPerOne := by
  rw [millionths, units, places, Nat.pow_eq, Nat.pow_eq, Nat.mul_assoc, Nat.mul_comm (2 ^ _)]

/-- Up to a scale of 1054 the numbers are less than a millionth apart. -/
theorem step_lt_of_le {s : Nat} (h : s ≤ 1054) : 10 ^ 6 * 2 ^ s < unitsPerOne := by
  rw [unitsPerOne_eq (Nat.sub_add_cancel (Nat.le_trans h (by decide)))]
  have hpow : 2 ^ 20 ≤ 2 ^ (1074 - s) := Nat.pow_le_pow_right (by decide) (by omega)
  refine Nat.mul_lt_mul_of_pos_right ?_ (Nat.two_pow_pos s)
  omega

/-- From there on they are farther apart. -/
theorem lt_step_of_lt {s : Nat} (h : 1054 < s) : unitsPerOne < 10 ^ 6 * 2 ^ s := by
  obtain ⟨b, hb⟩ : ∃ b, 19 + b = 1074 := ⟨1055, rfl⟩
  have hpow : 2 ^ b ≤ 2 ^ s := Nat.pow_le_pow_right (by decide) (by omega)
  have hpos := Nat.two_pow_pos b
  rw [unitsPerOne_eq hb]
  omega

/-- Where numbers are dense, the millionths of a literal come back. -/
theorem millionths_nearest {n : Nat} (hfinite : (nearest n (10 ^ 6)).isFinite = true)
    (hscale : (nearest n (10 ^ 6)).scale ≤ 1054) : (nearest n (10 ^ 6)).millionths = n := by
  obtain ⟨hlow, hhigh⟩ := nearest_within (by decide) hfinite
  have hstep := step_lt_of_le hscale
  rw [millionths, places, Nat.pow_eq]
  exact roundDiv_eq unitsPerOne_pos (by omega) (by omega) (by omega)

/-- A power of two that is a whole number has an exact constant. -/
theorem millionths_mul_of_whole {x : Binary64} (hsignificand : x.significand = 2 ^ 52)
    (hscale : 1022 ≤ x.scale) :
    x.millionths * unitsPerOne = x.significand * (10 ^ 6 * 2 ^ x.scale) := by
  have hdvd : unitsPerOne ∣ x.significand * (10 ^ 6 * 2 ^ x.scale) := by
    obtain ⟨b, hb⟩ : ∃ b, 52 + b = 1074 := ⟨1022, rfl⟩
    rw [unitsPerOne_eq hb, hsignificand]
    exact Nat.mul_dvd_mul_left _ (Nat.dvd_mul_left_of_dvd (Nat.pow_dvd_pow 2 (by omega)) _)
  obtain ⟨n, hn⟩ := exists_eq_mul_left_of_dvd hdvd
  rw [millionths_eq, hn, roundDiv_mul_self n unitsPerOne_pos]

/-- Where numbers are not dense, the millionths of a number round to it. -/
theorem roundsTo_millionths {x : Binary64} (hscale : 1054 < x.scale) :
    RoundsTo (x.millionths * unitsPerOne) (10 ^ 6) x.significand x.scale := by
  have hstep := lt_step_of_lt hscale
  obtain ⟨hlow, hhigh⟩ :=
    @roundDiv_within (x.significand * (10 ^ 6 * 2 ^ x.scale)) _ unitsPerOne_pos
  rw [← millionths_eq] at hlow hhigh
  have hbelow : 4 * (x.significand * (10 ^ 6 * 2 ^ x.scale)) <
      4 * (x.millionths * unitsPerOne) +
        quartersBelow x.significand x.scale * (10 ^ 6 * 2 ^ x.scale) := by
    unfold quartersBelow
    split
    next hdense =>
        rw [millionths_mul_of_whole hdense.1 (by omega)]
        omega
    next => omega
  exact ⟨by decide, x.significand_lt, x.scale_eq_zero_or, by omega, by omega, by omega, by omega⟩

/-- **Rounding to millionths and back does not move the number nearest to some millionths.** -/
theorem nearest_millionths {n : Nat} (hfinite : (nearest n (10 ^ 6)).isFinite = true)
    (hsign : (nearest n (10 ^ 6)).negative = false) :
    nearest (nearest n (10 ^ 6)).millionths (10 ^ 6) = nearest n (10 ^ 6) := by
  by_cases hscale : (nearest n (10 ^ 6)).scale ≤ 1054
  · rw [millionths_nearest hfinite hscale]
  · exact nearest_of_roundsTo hfinite hsign (roundsTo_millionths (by omega))

/-- The constant of a finite number without a sign is a decimal. -/
theorem constantText_eq {x : Binary64} (hfinite : x.isFinite = true)
    (hsign : x.negative = false) :
    x.constantText = (⟨x.millionths, -(places : Int)⟩ : Decimal).text := by
  simp [constantText, hfinite, hsign, Decimal.text, Decimal.num, places]

end Binary64

/-! ### Decimals -/

namespace Decimal

theorem toBinary64_neg_exp (c k : Nat) :
    (⟨c, -(k : Int)⟩ : Decimal).toBinary64 = Binary64.nearest c (10 ^ k) := by
  simp [toBinary64, num, den]

/-- A decimal with at most six places is a number of millionths. -/
theorem toBinary64_millionths (c : Nat) {k : Nat} (hk : k ≤ 6) :
    (⟨c, -(k : Int)⟩ : Decimal).toBinary64 = Binary64.nearest (c * 10 ^ (6 - k)) (10 ^ 6) := by
  have hden : 10 ^ 6 = 10 ^ k * 10 ^ (6 - k) := by
    rw [← Nat.pow_add, Nat.add_sub_cancel' hk]
  rw [toBinary64_neg_exp, hden, Binary64.nearest_mul_right _ _ (Nat.pow_pos (by decide))]

/-- The number that a literal writes, before it is rounded. -/
def ofLexeme (lexeme : List Char) : Decimal :=
  ofDigits (lexeme.takeWhile (· ≠ '.')) ((lexeme.dropWhile (· ≠ '.')).drop 1)

example : ofLexeme "31.50".toList = ⟨3150, -2⟩ := by decide

end Decimal

/-! ### Literals -/

/-- A number that fills the whole text is one token. -/
theorem lexed_of_mem_number {lexeme : List Char} (h : lexeme ∈ Rule.number.pattern) :
    lexed lexeme = [.number (Rule.numberValue lexeme)] := by
  have htakes : Rule.number.Takes lexeme [] := by
    refine Piece.takes_number h fun w _ hfront => ?_
    simpa using hfront.length_le
  have hlexed := lexed_of_takes htakes
  rw [lexed_nil, List.append_nil] at hlexed
  exact hlexed

/-- The constant of a literal is read as the literal is. -/
theorem lexed_constantText {c k : Nat} (hk : k ≤ 6) {v : Binary64}
    (hv : (⟨c, -(k : Int)⟩ : Decimal).toBinary64 = v) (hfinite : v.isFinite = true) :
    lexed v.constantText.toList = [.number v] := by
  have hsign : v.negative = false := by
    have hunsigned := isUnsigned_toBinary64 ⟨c, -(k : Int)⟩
    rw [hv] at hunsigned
    simpa [Binary64.isUnsigned] using (Bool.and_eq_true_iff.mp hunsigned).1
  have hread : (⟨v.millionths, -(Binary64.places : Int)⟩ : Decimal).toBinary64 = v := by
    rw [Decimal.toBinary64_millionths _ hk] at hv
    subst hv
    rw [Decimal.toBinary64_neg_exp]
    exact Binary64.nearest_millionths hfinite hsign
  have hlexed := @lexed_decimal ⟨v.millionths, -(Binary64.places : Int)⟩ [] rfl
  rwa [List.append_nil, lexed_nil, hread, ← Binary64.constantText_eq hfinite hsign] at hlexed

/-- A number without a sign that is not finite is positive infinity. -/
theorem Binary64.eq_infinity {x : Binary64} (hunsigned : x.isUnsigned = true)
    (h : ¬ x.isFinite = true) : x = ⟨0x7ff0000000000000⟩ := by
  obtain ⟨hsign, hnan⟩ : x.negative = false ∧ ¬ infinityBits < x.magnitude := by
    simpa [isUnsigned, isNaN] using hunsigned
  have hfinite : ¬ x.magnitude < infinityBits := by
    simpa [isFinite] using h
  have hmagnitude : x.magnitude = infinityBits := by omega
  rw [eq_of_magnitude hsign, hmagnitude]
  rfl

/-- **A literal with at most six decimals survives as a constant.**  Wherever it stands, it is
read as the number nearest to it, and the six decimals of the constant are read as the same
number.  If the literal is too large the constant is the pattern of infinity. -/
theorem constant_reads_as_literal {lexeme : List Char} (hlexeme : lexeme ∈ Rule.number.pattern)
    (hplaces : ((lexeme.dropWhile (· ≠ '.')).drop 1).length ≤ 6) :
    ∃ v : Binary64,
      (tokensOf (String.ofList lexeme)).map LocatedToken.token = [.number v, .eof] ∧
      (∀ rest, Rule.number.Takes lexeme rest →
        lexed (lexeme ++ rest) = .number v :: lexed rest) ∧
      v.IsNearest (Decimal.ofLexeme lexeme).num (Decimal.ofLexeme lexeme).den ∧
      (v.isFinite = true ∧
          (tokensOf v.constantText).map LocatedToken.token = [.number v, .eof] ∨
        v.bits = 0x7ff0000000000000 ∧ v.constantText = "0x7FF0000000000000") := by
  refine ⟨Rule.numberValue lexeme, ?_, fun rest htakes => lexed_of_takes htakes,
    Binary64.isNearest_nearest (Decimal.ofLexeme lexeme).den_pos, ?_⟩
  · rw [map_token_tokensOf, String.toList_ofList, lexed_of_mem_number hlexeme]
    rfl
  by_cases hfinite : (Rule.numberValue lexeme).isFinite = true
  · have hconstant : lexed (Rule.numberValue lexeme).constantText.toList =
        [.number (Rule.numberValue lexeme)] := lexed_constantText hplaces rfl hfinite
    refine Or.inl ⟨hfinite, ?_⟩
    rw [map_token_tokensOf, hconstant]
    rfl
  · have hinfinity : Rule.numberValue lexeme = ⟨0x7ff0000000000000⟩ :=
      Binary64.eq_infinity (isUnsigned_toBinary64 _) hfinite
    rw [hinfinity]
    exact Or.inr ⟨rfl, by decide⟩

/-- Two millionths for one: the numbers above `2 ^ 33` are almost two millionths apart. -/
theorem constant_reads_as_literal_coarse :
    (tokensOf "8589934592.000002").map LocatedToken.token =
      (tokensOf "8589934592.000001").map LocatedToken.token := by
  have htokens : (tokensOf "8589934592.000001").map LocatedToken.token =
      [.number ⟨0x4200000000000001⟩, .eof] := by
    decide +kernel
  have htext : (⟨0x4200000000000001⟩ : Binary64).constantText = "8589934592.000002" := by
    decide +kernel
  have hlexeme : "8589934592.000001".toList ∈ Rule.number.pattern :=
    Rule.mem_number.mpr (Or.inr
      ⟨"8589934592".toList, "000001".toList, rfl, List.all_eq_true.mp rfl, List.all_eq_true.mp rfl⟩)
  obtain ⟨v, hread, -, -, hconstant⟩ := constant_reads_as_literal hlexeme (by decide)
  rw [String.ofList_toList, htokens] at hread
  cases hread
  rcases hconstant with ⟨-, hback⟩ | ⟨hbits, -⟩
  · rw [htokens, ← htext, hback]
  · cases hbits

end TallyLang
