/-
Binary operators and how tightly they bind.

A source can only write the five arithmetic and comparison operators.  A tree made
by hand may also hold an operator that has no instruction; it prints like the
others, binds loosest, and stops the emission of code.
-/
import TallyLang.Token.Basic

namespace TallyLang

/-- A binary operator. -/
inductive Operator where
  | add
  | sub
  | mul
  | div
  | less
  | unsupported (c : Char)
deriving DecidableEq, Repr

namespace Operator

/-- The operator a token writes, if it writes one. -/
def ofToken? : Token → Option Operator
  | .symbol .plus => some add
  | .symbol .minus => some sub
  | .symbol .star => some mul
  | .symbol .slash => some div
  | .symbol .less => some less
  | _ => none

/-- How tightly the operator binds; larger is tighter. -/
def precedence : Operator → Int
  | less => 10
  | add | sub => 20
  | mul | div => 40
  | unsupported _ => -1

/-- The spelling. -/
def char : Operator → Char
  | add => '+'
  | sub => '-'
  | mul => '*'
  | div => '/'
  | less => '<'
  | unsupported c => c

end Operator

end TallyLang
