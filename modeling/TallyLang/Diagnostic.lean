/-
Failures as they are reported.

Whatever goes wrong is reported as one of three kinds of failure, each with its own
opening words and its own exit code.
-/
import TallyLang.Reading
import TallyLang.IR.Emitter

namespace TallyLang

/-- A failure as it is reported: what it concerns, and the wording. -/
inductive Diagnostic where
  | parser (loc : Location) (text : String)
  | codegen (text : String)
  | io (text : String)
deriving DecidableEq, Repr

namespace Diagnostic

/-- The full wording. -/
def message : Diagnostic → String
  | parser loc text =>
    "Parser error at line " ++ toString loc.line ++ ", column " ++ toString loc.column ++ ": " ++ text
  | codegen text => "Code generation error: " ++ text
  | io text => "IO error: " ++ text

/-- The exit code of a program that fails this way. -/
def exitCode : Diagnostic → Nat
  | parser _ _ => 1
  | codegen _ => 2
  | io _ => 3

end Diagnostic

/-- The report of a parse error. -/
def ParseError.diagnostic (e : ParseError) : Diagnostic := .parser e.loc e.fault.message

/-- The report of an operator without an instruction. -/
def IR.EmitError.diagnostic (e : IR.EmitError) : Diagnostic := .codegen e.message

end TallyLang
