/-
Reading from a list of tokens.

A reader takes a list of tokens and gives a value or an error, together with the
tokens it has not passed.  The tokens left behind are kept on error too, because
they say how far the reader came.  The end of the input is never passed, and an
empty list counts as its end.
-/
import TallyLang.Token.Basic

namespace TallyLang

/-! ### What can be wrong -/

/-- A part of a function that has to stand at a certain place. -/
inductive Expectation where
  | funcWord
  | functionName
  | openParams
  | paramName
  | closeParams
  | openBody
  | closeBody
  | closeParen
  | semicolon
deriving DecidableEq, Repr

namespace Expectation

/-- The complaint that the part is missing. -/
def message : Expectation → String
  | funcWord => "Expected 'func'"
  | functionName => "Expected function name"
  | openParams => "Expected '(' after function name"
  | paramName => "Expected identifier in parameter list"
  | closeParams => "Expected ')' after parameters"
  | openBody => "Expected '\x7b' before function body"
  | closeBody => "Expected '\x7d' after function body"
  | closeParen => "Expected ')' after expression"
  | semicolon => "Expected ';' after expression"

end Expectation

/-- Why a list of tokens is not a function. -/
inductive ParseFault where
  | missing (part : Expectation)
  | noOperand (found : Token)
  | duplicateParam (name : String)
deriving DecidableEq, Repr

namespace ParseFault

/-- The wording. -/
def message : ParseFault → String
  | missing part => part.message
  | noOperand found => "Unexpected token when expecting an expression: " ++ found.text
  | duplicateParam name => "Duplicate parameter " ++ Token.quoted name

end ParseFault

/-- A fault and where it is. -/
structure ParseError where
  loc : Location
  fault : ParseFault
deriving DecidableEq, Repr

/-! ### Readers -/

/-- What came of reading, and the tokens that were not passed. -/
inductive Reading (α : Type) where
  | done (value : α) (rest : List LocatedToken)
  | failed (error : ParseError) (rest : List LocatedToken)
deriving Repr

namespace Reading

variable {α β : Type}

/-- The tokens that were not passed. -/
def rest : Reading α → List LocatedToken
  | done _ rest => rest
  | failed _ rest => rest

/-- The value or the error. -/
def result : Reading α → Except ParseError α
  | done value _ => .ok value
  | failed error _ => .error error

/-- Reads on after a success. -/
def andThen (r : Reading α) (next : α → List LocatedToken → Reading β) : Reading β :=
  match r with
  | done value rest => next value rest
  | failed error rest => failed error rest

@[simp] theorem andThen_done (value : α) (rest : List LocatedToken)
    (next : α → List LocatedToken → Reading β) : (done value rest).andThen next = next value rest :=
  rfl

@[simp] theorem andThen_failed (error : ParseError) (rest : List LocatedToken)
    (next : α → List LocatedToken → Reading β) :
    (failed error rest : Reading α).andThen next = failed error rest :=
  rfl

theorem andThen_assoc {γ : Type} (r : Reading α) (next : α → List LocatedToken → Reading β)
    (last : β → List LocatedToken → Reading γ) :
    (r.andThen next).andThen last = r.andThen fun a rest => (next a rest).andThen last := by
  cases r <;> rfl

@[simp] theorem andThen_done_unit (r : Reading Unit) :
    (r.andThen fun _ rest => done () rest) = r := by
  cases r <;> rfl

/-- A success leaves fewer than `n` tokens. -/
def LeavesBelow (n : Nat) : Reading α → Prop
  | done _ rest => rest.length < n
  | failed _ _ => True

theorem LeavesBelow.lt {n : Nat} {value : α} {rest : List LocatedToken}
    (h : (done value rest).LeavesBelow n) : rest.length < n := h

theorem LeavesBelow.done {n : Nat} {value : α} {rest : List LocatedToken}
    (h : rest.length < n) : (done value rest).LeavesBelow n := h

theorem LeavesBelow.failed {n : Nat} {error : ParseError} {rest : List LocatedToken} :
    (failed error rest : Reading α).LeavesBelow n := trivial

end Reading

/-- The first token; the end of the input when there is none. -/
def headToken : List LocatedToken → Token
  | [] => .eof
  | t :: _ => t.token

/-- Where the first token stands. -/
def headLoc : List LocatedToken → Location
  | [] => .start
  | t :: _ => t.loc

/-- Stops at the first token with a fault. -/
def faultAt {α : Type} (ts : List LocatedToken) (fault : ParseFault) : Reading α :=
  .failed ⟨headLoc ts, fault⟩ ts

@[simp] theorem andThen_faultAt {α β : Type} (ts : List LocatedToken) (fault : ParseFault)
    (next : α → List LocatedToken → Reading β) :
    (faultAt ts fault : Reading α).andThen next = faultAt ts fault :=
  rfl

/-- Passes the symbol `s`, which has to come first. -/
def expectSymbol (s : Symbol) (part : Expectation) (ts : List LocatedToken) : Reading Unit :=
  if headToken ts = .symbol s then .done () ts.tail else faultAt ts (.missing part)

/-- Passes the reserved word `k`, which has to come first. -/
def expectKeyword (k : Keyword) (part : Expectation) (ts : List LocatedToken) : Reading Unit :=
  if headToken ts = .keyword k then .done () ts.tail else faultAt ts (.missing part)

/-- Passes an identifier, which has to come first, and gives its name. -/
def expectIdent (part : Expectation) (ts : List LocatedToken) : Reading String :=
  match headToken ts with
  | .ident name => .done name ts.tail
  | _ => faultAt ts (.missing part)

/-- Passes the symbol `s` if it comes first. -/
def skipSymbol (s : Symbol) (ts : List LocatedToken) : List LocatedToken :=
  if headToken ts = .symbol s then ts.tail else ts

theorem length_skipSymbol_le (s : Symbol) (ts : List LocatedToken) :
    (skipSymbol s ts).length ≤ ts.length := by
  unfold skipSymbol
  split
  · simp
  · exact Nat.le_refl _

/-- A list with a real token in front is not empty. -/
theorem length_tail_lt {ts : List LocatedToken} (h : headToken ts ≠ .eof) :
    ts.tail.length < ts.length := by
  cases ts with
  | nil => exact absurd rfl h
  | cons t rest => simp

theorem expectSymbol_leavesBelow (s : Symbol) (part : Expectation) (ts : List LocatedToken) :
    (expectSymbol s part ts).LeavesBelow ts.length := by
  unfold expectSymbol
  split
  · rename_i h
    exact .done (length_tail_lt (by rw [h]; exact Token.noConfusion))
  · exact .failed

theorem length_lt_of_expectSymbol {s : Symbol} {part : Expectation}
    {ts rest : List LocatedToken} (h : expectSymbol s part ts = .done () rest) :
    rest.length < ts.length := by
  have hb := expectSymbol_leavesBelow s part ts
  rw [h] at hb
  exact hb.lt

end TallyLang
