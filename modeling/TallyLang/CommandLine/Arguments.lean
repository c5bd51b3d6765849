/-
Reading the arguments of a tool.

Arguments are taken from left to right and the first problem ends the reading, with
one subtlety.  A value that stands in an argument of its own, and the input, are
held back: they are only looked at when the next argument that means something has
been recognised, or at the end.  So an unknown argument right after an unacceptable
value is the one that is reported.
-/
import TallyLang.CommandLine.Options
import TallyLang.Terminal
import TallyLang.Token.Basic

namespace TallyLang

/-- What can be wrong with the arguments. -/
inductive UsageError where
  | unexpectedArgument (arg : String)
  | repeated (switch : Switch)
  | missingOutput
  | missingInput
  | unexpectedValue (switch : Switch) (value : String)
deriving DecidableEq, Repr

namespace UsageError

private def valueRequired (what : String) : String :=
  "a value is required for " ++ Token.quoted what ++ " but none was supplied"

/-- The wording.  What the user wrote is shown without terminal controls. -/
def message : UsageError → String
  | unexpectedArgument arg =>
    "unexpected argument " ++ Token.quoted (Terminal.plain arg) ++ " found"
  | repeated switch => "the argument " ++ Token.quoted switch.text ++ " cannot be used multiple times"
  | missingOutput => valueRequired Switch.output.text
  | missingInput => valueRequired "[INPUT]"
  | unexpectedValue switch value =>
    "unexpected value " ++ Token.quoted (Terminal.plain value) ++ " for " ++ Token.quoted switch.text ++
      " found; no more were expected"

/-- The first line of the report: the wording up to its first line break, which only an argument can
bring into it.  The report goes on with tips and a usage section, which are left out here, so
what a usage error puts on standard error is known by its first line only. -/
def line (e : UsageError) : String :=
  "error: " ++ String.ofList (e.message.toList.takeWhile (· ≠ '\n')) ++ "\n"

end UsageError

/-- Why a tool does not start its work. -/
inductive Halt where
  | help
  | version
  | misuse (e : UsageError)
deriving DecidableEq, Repr

/-- A value that is held back. -/
inductive Held where
  | input (value : String)
  | output (value? : Option String)
deriving DecidableEq, Repr

/-- The arguments read so far. -/
structure ArgState where
  options : Options := {}
  held : Option Held := none
  hasInput : Bool := false
  switchesEnded : Bool := false
deriving DecidableEq, Repr

namespace ArgState

/-- Accepts a value for the output. -/
def setOutput (s : ArgState) (value : String) : Except Halt ArgState :=
  if s.options.output.isSome then .error (.misuse (.repeated .output))
  else if value.isEmpty then .error (.misuse .missingOutput)
  else .ok { s with options.output := some ⟨value⟩ }

/-- Looks at the value that is held back. -/
def settle (s : ArgState) : Except Halt ArgState :=
  let free := { s with held := none }
  match s.held with
  | none => .ok s
  | some (.input value) =>
    if value.isEmpty then .error (.misuse .missingInput)
    else .ok { free with options.input := some ⟨value⟩ }
  | some (.output none) => .error (.misuse .missingOutput)
  | some (.output (some value)) => free.setOutput value

/-- Switches something on that may be switched on once. -/
def switchOn (s : ArgState) (switch : Switch) (isOn : Options → Bool)
    (turnOn : Options → Options) : Except Halt ArgState :=
  if isOn s.options then .error (.misuse (.repeated switch))
  else .ok { s with options := turnOn s.options }

/-- Takes a switch that has no value attached. -/
def takeSwitch (s : ArgState) (switch : Switch) : Except Halt ArgState := do
  let s ← s.settle
  match switch with
  | .output => .ok { s with held := some (.output none) }
  | .dumpTokens => s.switchOn switch Options.dumpTokens (fun o => { o with dumpTokens := true })
  | .dumpAst => s.switchOn switch Options.dumpAst (fun o => { o with dumpAst := true })
  | .frame => s.switchOn switch Options.frame (fun o => { o with frame := true })
  | .prompt => s.switchOn switch Options.prompt (fun o => { o with prompt := true })
  | .verbose => .ok { s with options.verbose := s.options.verbose + 1 }
  | .help => .error .help
  | .version => .error .version

/-- Takes a switch with a value attached to its long name. -/
def takeAttached (s : ArgState) (switch : Switch) (value : String) : Except Halt ArgState := do
  match switch with
  | .output => (← s.settle).setOutput value
  | _ => .error (.misuse (.unexpectedValue switch value))

/-- Takes an argument that starts with two dashes, given what follows them. -/
def takeLong (tool : Tool) (s : ArgState) (rest : List Char) : Except Halt ArgState :=
  let name := String.ofList (rest.takeWhile (· ≠ '='))
  match tool.long? name with
  | none => .error (.misuse (.unexpectedArgument ("--" ++ name)))
  | some switch =>
    match rest.dropWhile (· ≠ '=') with
    | [] => s.takeSwitch switch
    | _ :: value => s.takeAttached switch (String.ofList value)

/-- Takes the letters of an argument that starts with one dash.  What follows the letter of the
output is its value. -/
def takeLetters (tool : Tool) (s : ArgState) : List Char → Except Halt ArgState
  | [] => .ok s
  | c :: rest =>
    match tool.short? c with
    | none => .error (.misuse (.unexpectedArgument ("-" ++ c.toString)))
    | some .output =>
      match rest with
      | [] => s.takeSwitch .output
      | '=' :: value => do (← s.settle).setOutput (String.ofList value)
      | value => do (← s.settle).setOutput (String.ofList value)
    | some switch => do takeLetters tool (← s.takeSwitch switch) rest

/-- Takes an argument as the input. -/
def takeInput (s : ArgState) (arg : String) : Except Halt ArgState := do
  if s.hasInput then .error (.misuse (.unexpectedArgument arg))
  else
    let s ← s.settle
    .ok { s with held := some (.input arg), hasInput := true }

/-- Takes an argument that is not a switch. -/
def takePlain (s : ArgState) (arg : String) : Except Halt ArgState :=
  match s.held with
  | some (.output none) => .ok { s with held := some (.output (some arg)) }
  | _ => s.takeInput arg

/-- Takes the next argument. -/
def take (tool : Tool) (s : ArgState) (arg : String) : Except Halt ArgState :=
  if s.switchesEnded then s.takeInput arg
  else
    match arg.toList with
    | ['-', '-'] => .ok { s with switchesEnded := true }
    | '-' :: '-' :: rest => s.takeLong tool rest
    | ['-'] => s.takePlain arg
    | '-' :: letters => s.takeLetters tool letters
    | _ => s.takePlain arg

theorem exists_of_bind_eq_ok {α β : Type} {x : Except Halt α} {f : α → Except Halt β} {b : β}
    (h : x >>= f = .ok b) : ∃ a, x = .ok a ∧ f a = .ok b := by
  cases x with
  | error halt => cases h
  | ok a => exact ⟨a, rfl, h⟩

end ArgState

/-- What the arguments of a tool ask for. -/
def Tool.readArgs (tool : Tool) (args : List String) : Except Halt Options := do
  let s ← args.foldlM (ArgState.take tool) {}
  return (← s.settle).options

end TallyLang
