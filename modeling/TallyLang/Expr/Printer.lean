/-
The written form of an expression.

Every operator is put in parentheses with its operands, so the written form shows
the shape of the tree.  A block stands on lines of its own, four blanks before
each statement whatever the depth.
-/
import TallyLang.Expr.Basic

namespace TallyLang

namespace Expr

/-- The written form of a block, given whether it is empty and the lines of its statements. -/
def braced (isEmpty : Bool) (lines : String) : String :=
  if isEmpty then "\x7b \x7d" else "\x7b\n" ++ lines ++ "\x7d"

mutual

/-- The written form. -/
def text : Expr → String
  | .num value => value.text
  | .var name => name
  | .bin op left right _ => "(" ++ text left ++ " " ++ op.char.toString ++ " " ++ text right ++ ")"
  | .ret value _ => "return " ++ text value
  | .block stmts _ => braced stmts.isEmpty (lines stmts)

/-- The lines of the statements of a block. -/
def lines : List Expr → String
  | [] => ""
  | e :: es => "    " ++ text e ++ ";\n" ++ lines es

end

/-- The written form of a block. -/
def blockText (stmts : List Expr) : String := braced stmts.isEmpty (lines stmts)

end Expr

end TallyLang
