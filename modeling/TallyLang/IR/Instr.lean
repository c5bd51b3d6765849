/-
Instructions of the emitted code and their text.

The code of a function is straight-line: parameters are stored in slots, every
value is put in a fresh temporary, and a `ret` ends it.
-/
import TallyLang.Binary64.Fixed

namespace TallyLang

namespace IR

/-- A value that an instruction uses: a temporary, or zero where there is none yet. -/
inductive Operand where
  | zero
  | temp (n : Nat)
deriving DecidableEq, Repr

namespace Operand

/-- The text. -/
def text : Operand → String
  | zero => "0.0"
  | temp n => "%t" ++ toString n

end Operand

/-- The arithmetic instructions on two values. -/
inductive Arith where
  | fadd
  | fsub
  | fmul
  | fdiv
deriving DecidableEq, Repr

namespace Arith

/-- The mnemonic. -/
def text : Arith → String
  | fadd => "fadd"
  | fsub => "fsub"
  | fmul => "fmul"
  | fdiv => "fdiv"

end Arith

/-- An instruction.  A destination is the number of the temporary that is defined. -/
inductive Instr where
  | slot (name : String)
  | store (name : String)
  | const (dest : Nat) (value : Binary64)
  | load (dest : Nat) (name : String)
  | arith (dest : Nat) (op : Arith) (left right : Operand)
  | less (dest : Nat) (left right : Operand)
  | widen (dest : Nat) (flag : Operand)
  | ret (value : Operand)
deriving DecidableEq, Repr

namespace Instr

/-- An instruction that defines a temporary. -/
def define (dest : Nat) (rhs : String) : String := (Operand.temp dest).text ++ " = " ++ rhs

/-- The slot of a parameter. -/
def slotName (name : String) : String := "%" ++ name ++ ".addr"

/-- The text. -/
def text : Instr → String
  | slot name => slotName name ++ " = alloca double"
  | store name => "store double %" ++ name ++ ", double* " ++ slotName name
  | const dest value => define dest ("fadd double 0.0, " ++ value.constantText)
  | load dest name => define dest ("load double, double* " ++ slotName name)
  | arith dest op left right =>
    define dest (op.text ++ " double " ++ left.text ++ ", " ++ right.text)
  | less dest left right => define dest ("fcmp olt double " ++ left.text ++ ", " ++ right.text)
  | widen dest flag => define dest ("uitofp i1 " ++ flag.text ++ " to double")
  | ret value => "ret double " ++ value.text

end Instr

end IR

end TallyLang
