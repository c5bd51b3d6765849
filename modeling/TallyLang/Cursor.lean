/-
A position in a list of tokens, from which functions are read one after the other.

The list ends in `eof` when the cursor is made.  Tokens can be added later, also
behind that `eof`, and the position can be set anywhere; a position past the end
stands for the last token, as often as it is asked for.  `ahead` is the list of
tokens that a reader sees from the cursor.
-/
import TallyLang.Function.Reader

namespace TallyLang

/-- Whether a list of tokens ends in `eof`. -/
def isClosed (ts : List LocatedToken) : Bool := (ts.getLast?.map LocatedToken.token) = some .eof

/-- The list with an `eof` at the end, put where the last token stands if it was missing. -/
def closed (ts : List LocatedToken) : List LocatedToken :=
  if isClosed ts then ts
  else ts ++ [⟨.eof, (ts.getLast?.map LocatedToken.loc).getD .start⟩]

theorem isClosed_append_eof (ts : List LocatedToken) (loc : Location) :
    isClosed (ts ++ [⟨.eof, loc⟩]) = true := by
  simp [isClosed]

theorem isClosed_closed (ts : List LocatedToken) : isClosed (closed ts) = true := by
  unfold closed
  by_cases h : isClosed ts = true
  · rw [if_pos h]
    exact h
  · rw [if_neg h]
    exact isClosed_append_eof ts _

theorem closed_of_isClosed {ts : List LocatedToken} (h : isClosed ts = true) : closed ts = ts :=
  if_pos h

/-- The function that a list of tokens writes. -/
def parse (ts : List LocatedToken) : Except ParseError Function := (readFunction (closed ts)).result

/-- A list of tokens and a position in it. -/
structure Cursor where
  tokens : List LocatedToken
  pos : Nat
deriving Repr

namespace Cursor

/-- A cursor at the start of a list of tokens. -/
def ofTokens (ts : List LocatedToken) : Cursor := ⟨closed ts, 0⟩

/-- Moves to a position. -/
def moveTo (c : Cursor) (pos : Nat) : Cursor := { c with pos }

/-- Puts a token before position `i`, or at the end if there is no such position. -/
def insert (c : Cursor) (i : Nat) (t : LocatedToken) : Cursor :=
  { c with tokens := c.tokens.insertIdx (min i c.tokens.length) t }

/-- What stands behind the list: nothing if it ends in `eof`, which no reader passes, and else
its last token over and over.  As many as there are tokens close all that is open. -/
def beyond (c : Cursor) : List LocatedToken :=
  if isClosed c.tokens then []
  else List.replicate c.tokens.length (c.tokens.getLast?.getD ⟨.eof, .start⟩)

/-- The tokens from the position on. -/
def ahead (c : Cursor) : List LocatedToken :=
  c.tokens.drop (min c.pos (c.tokens.length - 1)) ++ c.beyond

/-- Reads a function from the position on.  The position moves by as many tokens as were passed,
also when there is a fault. -/
def readFunction (c : Cursor) : Except ParseError Function × Cursor :=
  let r := TallyLang.readFunction c.ahead
  (r.result, c.moveTo (c.pos + (c.ahead.length - r.rest.length)))

end Cursor

end TallyLang
