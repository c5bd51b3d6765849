/-
The text of a constant in the emitted code.

A finite constant has exactly six decimals: the exact binary value, rounded once,
an exact half to the even digit.  The sign bit is always shown, also where all
digits are zero.  What is not finite is written as its bit pattern.
-/
import TallyLang.Rounding
import TallyLang.Decimal
import TallyLang.Binary64.Basic

namespace TallyLang

namespace Binary64

/-- How many decimals a constant has. -/
def places : Nat := 6

/-- The magnitude of a finite number in millionths, rounded. -/
def millionths (x : Binary64) : Nat := roundDiv (x.units * Nat.pow 10 places) unitsPerOne

/-- The text of a constant. -/
def constantText (x : Binary64) : String :=
  if x.isFinite then
    (if x.negative then "-" else "") ++ String.ofList (Decimal.pointed x.millionths places)
  else "0x" ++ String.ofList (x.hexDigits.map Char.toUpper)

end Binary64

end TallyLang
