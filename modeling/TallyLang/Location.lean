/-
Places in a source text.

Lines and columns count from one, and a column counts characters, not bytes.
Every token, operator and parse error carries a location.
-/

namespace TallyLang

/-- A line and a column, both counted from one. -/
structure Location where
  line : Nat
  column : Nat
deriving DecidableEq, Repr

namespace Location

/-- The first character of a source. -/
def start : Location := ⟨1, 1⟩

instance : Inhabited Location := ⟨start⟩

/-- The start of the following line. -/
def nextLine (loc : Location) : Location := ⟨loc.line + 1, 1⟩

/-- The place `n` characters further on the same line. -/
def right (loc : Location) (n : Nat) : Location := ⟨loc.line, loc.column + n⟩

/-- The written form, `line:column`. -/
def text (loc : Location) : String := toString loc.line ++ ":" ++ toString loc.column

end Location

end TallyLang
