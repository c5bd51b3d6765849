/-
Paths.

A path is kept as it was written, because messages show it that way.  Its parts are
the stretches between slashes.  Empty parts and single dots lead nowhere, except
at the very front, where an empty part is the root and a dot stands for itself.
-/

namespace TallyLang

/-- A path as it was written. -/
structure Path where
  text : String
deriving DecidableEq, Repr

namespace Path

/-- The stretches between slashes. -/
def splitSlash : List Char → List (List Char)
  | [] => [[]]
  | c :: cs =>
    if c = '/' then [] :: splitSlash cs
    else
      match splitSlash cs with
      | [] => [[c]]
      | part :: parts => (c :: part) :: parts

/-- The parts of the path. -/
def parts (p : Path) : List String := (splitSlash p.text.toList).map String.ofList

/-- A part that leads nowhere. -/
def isIdle (part : String) : Bool := part = "" || part = "."

/-- The parts that lead somewhere. -/
def steps (p : Path) : List String := p.parts.filter (!isIdle ·)

/-- The parts without the idle ones at the end; the first part stays. -/
def trimParts : List String → List String
  | [] => []
  | first :: rest => first :: (rest.reverse.dropWhile isIdle).reverse

/-- The path with the given parts.  A lone empty part is the root. -/
def ofParts : List String → Path
  | [""] => ⟨"/"⟩
  | parts => ⟨"/".intercalate parts⟩

/-- The path up to its last part, without slashes and dots at its end.  The empty path and the
root have none. -/
def parent? (p : Path) : Option Path :=
  match trimParts p.parts with
  | [] | [""] => none
  | parts => some (ofParts (trimParts parts.dropLast))

/-- Whether the path is a single dash, up to slashes and dots at its end. -/
def isDash (p : Path) : Bool := trimParts p.parts = ["-"]

end Path

end TallyLang
