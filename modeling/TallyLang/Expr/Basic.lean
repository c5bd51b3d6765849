/-
Expressions.

Statements are expressions, a `return` is an expression that may stand anywhere an
operand may, and a block is a sequence of statements.  Reading a source yields a
block only as the body of a function; trees made by hand may nest them.
-/
import TallyLang.Operator

namespace TallyLang

/-- An expression.  An operator, a `return` and a block remember where they stand. -/
inductive Expr where
  | num (value : Binary64)
  | var (name : String)
  | bin (op : Operator) (left right : Expr) (loc : Location)
  | ret (value : Expr) (loc : Location)
  | block (stmts : List Expr) (loc : Location)
deriving Repr

namespace Expr

instance : Inhabited Expr := ⟨.block [] .start⟩

/-- Whether the expression is a `return`. -/
def isReturn : Expr → Bool
  | .ret _ _ => true
  | _ => false

mutual

/-- Equality of trees, locations included.  Numbers are compared as numbers, so a tree that
holds a NaN is not equal to itself. -/
def eqv : Expr → Expr → Bool
  | .num x, .num y => x.eqv y
  | .var x, .var y => x = y
  | .bin op l r loc, .bin op' l' r' loc' => op = op' && eqv l l' && eqv r r' && loc = loc'
  | .ret v loc, .ret v' loc' => eqv v v' && loc = loc'
  | .block ss loc, .block ss' loc' => eqvList ss ss' && loc = loc'
  | _, _ => false

/-- Equality of sequences of trees. -/
def eqvList : List Expr → List Expr → Bool
  | [], [] => true
  | e :: es, e' :: es' => eqv e e' && eqvList es es'
  | _, _ => false

end

end Expr

end TallyLang
