/-
Double-precision numbers by their bit patterns.

The language computes in 64-bit binary floating point.  Nothing here does
arithmetic on such numbers: they are read from literals, compared, and printed.
So a number is kept as its bit pattern, and what the pattern means is said in
natural numbers.  The magnitude of a finite number is `units / 2 ^ 1074`, because
`2 ^ -1074` is the smallest positive number and all others are multiples of it.
-/

namespace TallyLang

/-- A double-precision number, given by its 64 bits. -/
structure Binary64 where
  bits : UInt64
deriving DecidableEq, Repr

namespace Binary64

/-- The pattern of positive infinity. -/
def infinityBits : Nat := 0x7ff0000000000000

/-- The pattern without its sign. -/
def magnitude (x : Binary64) : Nat := x.bits.toNat % Nat.pow 2 63

/-- Whether the sign bit is set. -/
def negative (x : Binary64) : Bool := decide (Nat.pow 2 63 ≤ x.bits.toNat)

/-- The exponent field. -/
def exponent (x : Binary64) : Nat := x.magnitude / Nat.pow 2 52

/-- The fraction field. -/
def fraction (x : Binary64) : Nat := x.magnitude % Nat.pow 2 52

/-- Neither infinite nor a NaN. -/
def isFinite (x : Binary64) : Bool := decide (x.magnitude < infinityBits)

/-- One of the two infinities. -/
def isInfinite (x : Binary64) : Bool := decide (x.magnitude = infinityBits)

/-- Not a number. -/
def isNaN (x : Binary64) : Bool := decide (infinityBits < x.magnitude)

/-- One of the two zeros. -/
def isZero (x : Binary64) : Bool := decide (x.magnitude = 0)

/-- The significand of a finite number, with the leading bit that a normal number implies. -/
def significand (x : Binary64) : Nat :=
  if x.exponent = 0 then x.fraction else Nat.pow 2 52 + x.fraction

/-- The power of two that the significand is scaled by, counted from the smallest one. -/
def scale (x : Binary64) : Nat := x.exponent - 1

/-- The magnitude of a finite number as a multiple of `2 ^ -1074`. -/
def units (x : Binary64) : Nat := x.significand * Nat.pow 2 x.scale

/-- What `units` counts, as one over a natural number. -/
def unitsPerOne : Nat := Nat.pow 2 1074

/-- Numeric equality: the two zeros are equal, and a NaN equals nothing. -/
def eqv (x y : Binary64) : Bool :=
  !x.isNaN && !y.isNaN && (decide (x.bits = y.bits) || (x.isZero && y.isZero))

/-- The bit pattern as 16 hexadecimal digits. -/
def hexDigits (x : Binary64) : List Char :=
  let digits := Nat.toDigits 16 x.bits.toNat
  List.replicate (16 - digits.length) '0' ++ digits

end Binary64

end TallyLang
