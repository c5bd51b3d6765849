/-
Rounding a quotient of natural numbers to the nearest whole number.

Both directions of number text rest on this one function: a literal is rounded to
the grid of representable numbers, and a constant is rounded to six decimals.
The two laws say that the result is within half a unit of the exact quotient and
that an exact half goes to the even neighbour.
-/

namespace TallyLang

/-- The whole number nearest to `num / den`, an exact half to the even one. -/
def roundDiv (num den : Nat) : Nat :=
  let q := num / den
  let r := num % den
  if 2 * r < den then q
  else if den < 2 * r then q + 1
  else q + q % 2

/-- The rounded quotient is within half a unit of the exact one. -/
theorem roundDiv_within {num den : Nat} (h : 0 < den) :
    2 * num ≤ 2 * (roundDiv num den * den) + den ∧
      2 * (roundDiv num den * den) ≤ 2 * num + den := by
  have hdm := Nat.div_add_mod num den
  have hlt := Nat.mod_lt num h
  rw [Nat.mul_comm] at hdm
  unfold roundDiv
  simp only
  split
  · omega
  · split
    · rw [Nat.add_mul]; omega
    · rcases Nat.mod_two_eq_zero_or_one (num / den) with h2 | h2 <;> rw [h2]
      · rw [Nat.add_zero]; omega
      · rw [Nat.add_mul]; omega

/-- An exact half goes to the even neighbour. -/
theorem roundDiv_tie {num den : Nat} (h : 2 * (num % den) = den) :
    roundDiv num den % 2 = 0 := by
  unfold roundDiv
  simp only [h, Nat.lt_irrefl, if_false]
  omega

end TallyLang
