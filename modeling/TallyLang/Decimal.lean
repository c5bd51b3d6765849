/-
Decimal numbers as whole multiples of a power of ten.

A literal of the language is a run of digits with at most one point, and the text
of a number is the same shape, so one type serves reading and printing:
`coeff * 10 ^ exp`.  The written form never has an exponent; zeros are filled in
on whichever side they are needed.
-/

namespace TallyLang

/-- The number `coeff * 10 ^ exp`. -/
structure Decimal where
  coeff : Nat
  exp : Int
deriving DecidableEq, Repr

namespace Decimal

/-- The number written with the digits `whole` before the point and `fraction` after it. -/
def ofDigits (whole fraction : List Char) : Decimal :=
  ⟨Nat.ofDigitChars 10 (whole ++ fraction) 0, -(fraction.length : Int)⟩

/-- The numerator of the number as a quotient of natural numbers. -/
def num (d : Decimal) : Nat := d.coeff * Nat.pow 10 d.exp.toNat

/-- The denominator that goes with `num`. -/
def den (d : Decimal) : Nat := Nat.pow 10 (-d.exp).toNat

theorem den_pos (d : Decimal) : 0 < d.den := Nat.pow_pos (by decide)

/-- The digits of `n`, with zeros in front up to `width` digits. -/
def padded (width n : Nat) : List Char :=
  let digits := Nat.toDigits 10 n
  List.replicate (width - digits.length) '0' ++ digits

/-- The written form of `n / 10 ^ places`: the last `places` digits stand after the point,
and there is no point when `places` is zero. -/
def pointed (n places : Nat) : List Char :=
  let digits := padded (places + 1) n
  let whole := digits.length - places
  if places = 0 then digits else digits.take whole ++ '.' :: digits.drop whole

/-- The written form, without an exponent. -/
def text (d : Decimal) : String := String.ofList (pointed d.num (-d.exp).toNat)

end Decimal

end TallyLang
