/-
The double-precision number nearest to a quotient.

The quotient is measured in multiples of `2 ^ -1074`.  Below `2 ^ 53` of them the
representable numbers are exactly the multiples, and above that they are the
multiples of the power of two that leaves 53 significant bits.  So one rounding
settles the significand, and the pattern is `scale * 2 ^ 52 + significand`: a
significand that rounds up to `2 ^ 53` carries into the exponent field by itself,
and one that carries past the largest exponent is the pattern of infinity.
-/
import TallyLang.Rounding
import TallyLang.Decimal
import TallyLang.Binary64.Basic

namespace TallyLang

namespace Binary64

/-- The scale at which a quotient, in multiples of `2 ^ -1074`, keeps 53 bits. -/
def scaleFor (num den : Nat) : Nat := Nat.log2 (num / den) - 52

/-- The pattern of the number nearest to `num / den` multiples of `2 ^ -1074`, without regard
to the largest number. -/
def patternOf (num den : Nat) : Nat :=
  let scale := scaleFor num den
  scale * Nat.pow 2 52 + roundDiv num (den * Nat.pow 2 scale)

/-- The number nearest to `num / den`, ties to the even significand; infinite when the rounded
value is too large. -/
def nearest (num den : Nat) : Binary64 :=
  ⟨UInt64.ofNat (min (patternOf (num * unitsPerOne) den) infinityBits)⟩

end Binary64

/-- The double-precision number nearest to a decimal. -/
def Decimal.toBinary64 (d : Decimal) : Binary64 := Binary64.nearest d.num d.den

end TallyLang
