/-
Emitting the code of a function.

An emitter collects lines of text and remembers the number of temporaries, the
depth of indentation, the function it is in, and whether a `ret` has been written.
Once it has, expressions emit nothing more, so code after a return is dropped
wherever the return stands.

The one thing that can go wrong is an operator without an instruction.  What was
emitted before it stays, so an emission gives the emitter back in either case.
-/
import TallyLang.Function
import TallyLang.IR.Instr

namespace TallyLang

namespace IR

/-- An operator that has no instruction, where it stands and in which function. -/
structure EmitError where
  operator : Char
  loc : Location
  function : String
deriving DecidableEq, Repr

namespace EmitError

/-- The wording. -/
def message (e : EmitError) : String :=
  "Unknown binary operator " ++ Token.quoted e.operator.toString ++ " at " ++ e.loc.text ++
    " in function " ++ Token.quoted e.function

end EmitError

/-- The code emitted so far, and what the rest of the emission depends on.  The two counts are kept
in machine words.  They start at zero with each function; then the depth is at most one, and the
number of temporaries at most twice that of the nodes of the body (`emitFunction_counts`). -/
structure Emitter where
  output : String
  indent : Nat
  temps : Nat
  returned : Bool
  function : String
deriving DecidableEq, Repr

namespace Emitter

/-- An emitter that has emitted nothing. -/
def empty : Emitter := ⟨"", 0, 0, false, ""⟩

instance : Inhabited Emitter := ⟨empty⟩

/-- Forgets everything, for the next function. -/
def reset (s : Emitter) : Emitter :=
  { s with output := "", indent := 0, temps := 0, returned := false, function := "" }

/-- The most recent temporary, or zero if there is none. -/
def lastTemp (s : Emitter) : Operand :=
  match s.temps with
  | 0 => .zero
  | n + 1 => .temp n

/-- The blanks in front of a line. -/
def margin (s : Emitter) : String := String.ofList (List.replicate (2 * s.indent) ' ')

/-- Appends a line as it is. -/
def writeRaw (s : Emitter) (line : String) : Emitter :=
  { s with output := s.output ++ line ++ "\n" }

/-- Appends a line with its indentation; an empty line gets none. -/
def writeLine (s : Emitter) (line : String) : Emitter :=
  if line.isEmpty then s.writeRaw line else s.writeRaw (s.margin ++ line)

/-- Appends an instruction. -/
def write (s : Emitter) (i : Instr) : Emitter := s.writeLine i.text

/-- Takes a fresh temporary. -/
def freshTemp (s : Emitter) : Nat × Emitter := (s.temps, { s with temps := s.temps + 1 })

/-- Appends the instruction that a fresh temporary is defined by. -/
def define (s : Emitter) (instr : Nat → Instr) : Operand × Emitter :=
  let (n, s) := s.freshTemp
  (.temp n, s.write (instr n))

/-- Appends a `ret`, after which nothing more is emitted. -/
def finish (s : Emitter) (value : Operand) : Emitter :=
  { s.write (.ret value) with returned := true }

end Emitter

/-! ### Emission -/

/-- An emission gives a value or an error, and in either case the emitter after it. -/
abbrev Emit (α : Type) := Emitter → Except EmitError α × Emitter

namespace Emit

variable {α β : Type}

/-- Emits on after a success. -/
def andThen (act : Emit α) (next : α → Emit β) : Emit β := fun s =>
  match act s with
  | (.ok a, s) => next a s
  | (.error e, s) => (.error e, s)

/-- Changes the emitter, and gives nothing. -/
def update (f : Emitter → Emitter) : Emit Unit := fun s => (.ok (), f s)

end Emit

/-- Emits the definition of a fresh temporary, which is the value. -/
def emitDefinition (instr : Nat → Instr) : Emit Operand := fun s =>
  (.ok (s.define instr).1, (s.define instr).2)

/-- Emits as `act` does, unless the function has returned; then the value is the most recent
temporary. -/
def unlessReturned (act : Emit Operand) : Emit Operand := fun s =>
  if s.returned then (.ok s.lastTemp, s) else act s

/-- Emits an operator on two values. -/
def emitOperator (op : Operator) (loc : Location) (left right : Operand) : Emit Operand :=
  match op with
  | .add => emitDefinition (.arith · .fadd left right)
  | .sub => emitDefinition (.arith · .fsub left right)
  | .mul => emitDefinition (.arith · .fmul left right)
  | .div => emitDefinition (.arith · .fdiv left right)
  | .less =>
    (emitDefinition (.less · left right)).andThen fun flag => emitDefinition (.widen · flag)
  | .unsupported c => fun s => (.error ⟨c, loc, s.function⟩, s)

/-- Emits an operator on two values, unless one of them has returned. -/
def emitApplied (op : Operator) (loc : Location) (left right : Operand) : Emit Operand := fun s =>
  if s.returned then (.ok left, s) else emitOperator op loc left right s

/-- Emits the return of a value, unless the value itself has returned. -/
def emitReturned (value : Operand) : Emit Operand := fun s =>
  if s.returned then (.ok value, s) else (.ok value, s.finish value)

mutual

/-- Emits an expression and gives its value. -/
def emitExpr : Expr → Emit Operand
  | .num value => unlessReturned (emitDefinition (.const · value))
  | .var name => unlessReturned (emitDefinition (.load · name))
  | .bin op left right loc => unlessReturned <|
    (emitExpr left).andThen fun a =>
    (emitExpr right).andThen fun b => emitApplied op loc a b
  | .ret value _ => unlessReturned <| (emitExpr value).andThen emitReturned
  | .block stmts _ => unlessReturned <|
    (emitBlock stmts).andThen fun _ s => (.ok s.lastTemp, s)

/-- Emits the statements of a block.  An empty block returns zero. -/
def emitBlock : List Expr → Emit Unit
  | [] => .update (·.finish .zero)
  | stmt :: rest => (emitExpr stmt).andThen fun _ => emitStatements rest

/-- Emits statements in order. -/
def emitStatements : List Expr → Emit Unit
  | [] => .update id
  | stmt :: rest => (emitExpr stmt).andThen fun _ => emitStatements rest

end

/-! ### A whole function -/

/-- The first line of a function. -/
def headerText (f : Function) : String :=
  "define double @" ++ f.name ++ "(" ++ ", ".intercalate (f.params.map ("double %" ++ ·)) ++ ") \x7b"

/-- Starts a function afresh: its first lines, and a slot for each parameter. -/
def Emitter.openFunction (s : Emitter) (f : Function) : Emitter :=
  let start := ({ s.reset with function := f.name }.writeRaw (headerText f)).writeRaw "entry:"
  f.params.foldl (fun s p => (s.write (.slot p)).write (.store p)) { start with indent := 1 }

/-- Ends a function, which returns zero if it has not returned. -/
def Emitter.closeFunction (s : Emitter) : Emitter :=
  let s := if s.returned then s else s.write (.ret .zero)
  { s with indent := 0 }.writeRaw "\x7d"

/-- Emits a function and gives all of its code. -/
def emitFunction (f : Function) : Emit String := fun s =>
  (emitBlock f.body).andThen (fun _ s => (.ok s.closeFunction.output, s.closeFunction))
    (s.openFunction f)

end IR

end TallyLang
