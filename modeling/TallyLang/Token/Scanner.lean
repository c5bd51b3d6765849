/-
Reading tokens from a source, one at a time or all at once.

A scanner holds the pieces still to be read and the location of the first of them.
`next` passes over blanks, comments and line breaks and gives the token after
them; at the end it gives `eof`, again and again at the same place.
-/
import TallyLang.Token.Piece

namespace TallyLang

/-- A place in a source from which tokens are read. -/
structure Scanner where
  loc : Location
  pending : List Piece
deriving DecidableEq, Repr

namespace Scanner

/-- A scanner at the start of a source. -/
def ofSource (source : String) : Scanner := ⟨.start, Piece.pieces source.toList⟩

/-- The next token from a list of pieces, and the scanner after it. -/
def nextFrom (loc : Location) : List Piece → LocatedToken × Scanner
  | [] => (⟨.eof, loc⟩, ⟨loc, []⟩)
  | p :: ps =>
    match p.kind with
    | .token t => (⟨t, loc⟩, ⟨p.after loc, ps⟩)
    | _ => nextFrom (p.after loc) ps

/-- The next token, and the scanner after it. -/
def next (s : Scanner) : LocatedToken × Scanner := nextFrom s.loc s.pending

/-- The tokens of a list of pieces up to the end, and the scanner there. -/
def drainFrom (loc : Location) : List Piece → List LocatedToken × Scanner
  | [] => ([⟨.eof, loc⟩], ⟨loc, []⟩)
  | p :: ps =>
    let (tokens, s) := drainFrom (p.after loc) ps
    match p.kind with
    | .token t => (⟨t, loc⟩ :: tokens, s)
    | _ => (tokens, s)

/-- All tokens up to and including the first `eof`, and the scanner there. -/
def drain (s : Scanner) : List LocatedToken × Scanner := drainFrom s.loc s.pending

end Scanner

/-- The tokens of a source, the last of them `eof`. -/
def tokensOf (source : String) : List LocatedToken := (Scanner.ofSource source).drain.1

end TallyLang
