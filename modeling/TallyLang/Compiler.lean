/-
From source text to code.

`check` reads a source as a function, `compile` goes on to its code.
-/
import TallyLang.Token.Scanner
import TallyLang.Cursor
import TallyLang.IR.Emitter
import TallyLang.Diagnostic

namespace TallyLang

/-- The code of a function, from an emitter of its own. -/
def generate (f : Function) : Except IR.EmitError String := (IR.emitFunction f .empty).1

/-- The function that a source writes. -/
def check (source : String) : Except ParseError Function := parse (tokensOf source)

/-- The code of the function that a source writes. -/
def compile (source : String) : Except Diagnostic String :=
  match check source with
  | .error e => .error e.diagnostic
  | .ok f => (generate f).mapError IR.EmitError.diagnostic

end TallyLang
