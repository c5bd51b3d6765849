/-
Functions.

A function has a name, parameters and a body of statements.  Its written form is
itself a source text, with every operator of the body in parentheses.
-/
import TallyLang.Expr.Printer

namespace TallyLang

/-- A function; `bodyLoc` is where its body starts, after the opening brace. -/
structure Function where
  name : String
  params : List String
  body : List Expr
  bodyLoc : Location
  loc : Location
deriving Repr, Inhabited

namespace Function

/-- The name with the parameters in parentheses. -/
def signature (f : Function) : String := f.name ++ "(" ++ ", ".intercalate f.params ++ ")"

/-- The written form. -/
def text (f : Function) : String := "func " ++ f.signature ++ " " ++ Expr.blockText f.body

end Function

end TallyLang
