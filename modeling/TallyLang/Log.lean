/-
The log of a run.

Every event has a level, and the number of `-v` flags says down to which level
events are written.  Which events happen does not depend on that number.
-/
import TallyLang.Token.Basic

namespace TallyLang

/-- The levels, from the most to the least urgent. -/
inductive LogLevel where
  | warn
  | info
  | debug
  | trace
deriving DecidableEq, Repr

namespace LogLevel

/-- The name. -/
def text : LogLevel → String
  | warn => "WARN"
  | info => "INFO"
  | debug => "DEBUG"
  | trace => "TRACE"

/-- How many `-v` flags it takes to see events of this level. -/
def verbosity : LogLevel → Nat
  | warn => 0
  | info => 1
  | debug => 2
  | trace => 3

/-- The lowest level that is written with `verbose` many `-v` flags. -/
def ofVerbosity : Nat → LogLevel
  | 0 => warn
  | 1 => info
  | 2 => debug
  | _ => trace

/-- Whether events of this level are written with `verbose` many `-v` flags. -/
def enabledAt (level : LogLevel) (verbose : Nat) : Bool := decide (level.verbosity ≤ verbose)

end LogLevel

/-- What is logged. -/
inductive LogEvent where
  | token (t : LocatedToken)
  | lexed (count : Nat)
  | parsed (name : String) (params : Nat)
  | accepted (name : String) (params : Nat)
  | generated (name : String) (temps : Nat)
  | wrote (path : String) (bytes : Nat)
deriving DecidableEq, Repr

namespace LogEvent

/-- The level. -/
def level : LogEvent → LogLevel
  | token _ => .trace
  | lexed _ | parsed _ _ | generated _ _ => .debug
  | accepted _ _ | wrote _ _ => .info

/-- The part of the tool that speaks. -/
def source : LogEvent → String
  | token _ => "tally::lexer"
  | lexed _ => "tally"
  | parsed _ _ => "tally::parser"
  | generated _ _ => "tally::codegen::generator"
  | accepted _ _ | wrote _ _ => "tallyc"

/-- The message with its fields. -/
def message : LogEvent → String
  | token t => "token token=" ++ t.token.text ++ " loc=" ++ t.loc.text
  | lexed count => "lexed tokens count=" ++ toString count
  | parsed name params | accepted name params =>
    "parsed function name=" ++ name ++ " params=" ++ toString params
  | generated name temps => "generated IR function=" ++ name ++ " temps=" ++ toString temps
  | wrote path bytes => "wrote IR path=" ++ path ++ " bytes=" ++ toString bytes

/-- The line written, with the level set to the right in five columns. -/
def text (e : LogEvent) : String :=
  let level := e.level.text
  String.ofList (List.replicate (5 - level.length) ' ') ++ level ++ " " ++ e.source ++ ": " ++ e.message

/-- The events of reading tokens.  The end and characters that belong to no token are passed
over in silence. -/
def ofTokens (ts : List LocatedToken) : List LogEvent :=
  ts.filterMap fun t =>
    match t.token with
    | .eof | .char _ => none
    | _ => some (token t)

end LogEvent

end TallyLang
