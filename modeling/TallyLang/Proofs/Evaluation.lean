/-
What a function computes.

A function is evaluated on its tree, with no regard to code.  Operands are
evaluated from left to right and statements in order.  A `return` ends the whole
function at once, wherever it stands, and so does an empty block, which returns
zero.  A block that is not empty has the value of its last statement, and a
function whose body comes to its end without a `return` returns zero.

Numbers are left open: an `Interpretation` gives their type and the meaning of
every operation, of a comparison and its conversion to a number, and of the text of
a constant.  A literal stands for zero plus its constant.
-/
import TallyLang.Function
import TallyLang.Binary64.Fixed

namespace TallyLang

universe u v

/-- A meaning for the operations: numbers `V`, flags `F`, and what is done with them. -/
structure Interpretation (V : Type u) (F : Type v) where
  constant : String → V
  fadd : V → V → V
  fsub : V → V → V
  fmul : V → V → V
  fdiv : V → V → V
  olt : V → V → F
  uitofp : F → V

variable {V : Type u} {F : Type v}

namespace Interpretation

/-- The number that is returned where nothing else is. -/
def zero (I : Interpretation V F) : V := I.constant "0.0"

/-- The value of a literal. -/
def literal (I : Interpretation V F) (x : Binary64) : V := I.fadd I.zero (I.constant x.constantText)

/-- The operation that an operator stands for. -/
def operator? (I : Interpretation V F) : Operator → Option (V → V → V)
  | .add => some I.fadd
  | .sub => some I.fsub
  | .mul => some I.fmul
  | .div => some I.fdiv
  | .less => some fun a b => I.uitofp (I.olt a b)
  | .unsupported _ => none

end Interpretation

/-- How the evaluation of an expression ends: with its value, or with the return of the function. -/
inductive Ending (V : Type u) where
  | value (v : V)
  | returned (v : V)

/-- Goes on with the value of an expression, unless the function has returned. -/
def Ending.andThen (o : Option (Ending V)) (next : V → Option (Ending V)) :
    Option (Ending V) :=
  match o with
  | some (.value v) => next v
  | some (.returned v) => some (.returned v)
  | none => none

namespace Expr

mutual

/-- The outcome of an expression, given the values of the variables.  There is none if a variable
has no value or an operator no meaning. -/
def eval (I : Interpretation V F) (env : String → Option V) : Expr → Option (Ending V)
  | .num x => some (.value (I.literal x))
  | .var name => (env name).map .value
  | .bin op left right _ =>
    Ending.andThen (eval I env left) fun a =>
    Ending.andThen (eval I env right) fun b =>
      (I.operator? op).map fun f => .value (f a b)
  | .ret value _ => Ending.andThen (eval I env value) fun a => some (.returned a)
  | .block stmts _ => evalBlock I env stmts

/-- The outcome of a block. -/
def evalBlock (I : Interpretation V F) (env : String → Option V) :
    List Expr → Option (Ending V)
  | [] => some (.returned I.zero)
  | stmt :: rest => Ending.andThen (eval I env stmt) fun v => evalAfter I env v rest

/-- The outcome of the rest of a block, after a statement of value `v`. -/
def evalAfter (I : Interpretation V F) (env : String → Option V) (v : V) :
    List Expr → Option (Ending V)
  | [] => some (.value v)
  | stmt :: rest => Ending.andThen (eval I env stmt) fun w => evalAfter I env w rest

end

end Expr

/-- The values of the parameters. -/
def Function.environment (f : Function) (args : List V) : String → Option V :=
  fun name => (f.params.zip args).lookup name

/-- The value that a function returns. -/
def Function.eval (I : Interpretation V F) (f : Function) (args : List V) : Option V :=
  (Expr.evalBlock I (f.environment args) f.body).map fun
    | .returned v => v
    | .value _ => I.zero

end TallyLang
