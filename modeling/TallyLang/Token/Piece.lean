/-
Cutting a source text into pieces.

A source is a sequence of pieces: tokens, and the blanks, comments and line breaks
between them.  At each point the piece is the longest that starts there, which for
every kind is a run of characters of one class after a first character, so that
`takeWhile` finds it.  A word that spells a reserved word is that word, and a
character that starts nothing is a token by itself.

Nothing is lost: the texts of the pieces put together are the source
(`flatMap_text_pieces`).
-/
import TallyLang.Binary64.Nearest
import TallyLang.Token.Basic

namespace TallyLang

/-! ### Character classes -/

/-- A space, a tab, a form feed or a vertical tab. -/
def isBlank (c : Char) : Bool := c = ' ' || c = '\t' || c = '\x0c' || c = '\x0b'

/-- A character that ends a line. -/
def isLineEnd (c : Char) : Bool := c = '\n' || c = '\r'

/-- A decimal digit. -/
def isDigit (c : Char) : Bool := decide ('0' ≤ c ∧ c ≤ '9')

/-- A character that may start an identifier. -/
def isNameStart (c : Char) : Bool :=
  decide ('a' ≤ c ∧ c ≤ 'z') || decide ('A' ≤ c ∧ c ≤ 'Z') || c = '_'

/-- A character that may follow in an identifier. -/
def isNamePart (c : Char) : Bool := isNameStart c || isDigit c

/-! ### Pieces -/

/-- What a piece of source text is. -/
inductive Piece.Kind where
  | blank
  | comment
  | lineBreak
  | token (t : Token)
deriving DecidableEq, Repr

/-- A piece of source text. -/
structure Piece where
  kind : Piece.Kind
  text : List Char
deriving DecidableEq, Repr

namespace Piece

/-- The piece a word makes: a reserved word, or an identifier. -/
def word (text : List Char) : Piece :=
  let name := String.ofList text
  match Keyword.ofText? name with
  | some k => ⟨.token (.keyword k), text⟩
  | none => ⟨.token (.ident name), text⟩

/-- The piece a literal makes of its digits before the point and, if it has a point, after it. -/
def literal (whole : List Char) (fraction? : Option (List Char)) : Piece :=
  let value := (Decimal.ofDigits whole (fraction?.getD [])).toBinary64
  ⟨.token (.number value), whole ++ (fraction?.map ('.' :: ·)).getD []⟩

/-- The piece a single character makes when no longer one starts with it. -/
def mark (c : Char) : Piece :=
  match Symbol.ofChar? c with
  | some s => ⟨.token (.symbol s), [c]⟩
  | none => ⟨.token (.char c), [c]⟩

/-- The first piece of the text `c :: cs`, and the text after it. -/
def cut (c : Char) (cs : List Char) : Piece × List Char :=
  if isBlank c then
    (⟨.blank, c :: cs.takeWhile isBlank⟩, cs.dropWhile isBlank)
  else if c = '#' then
    (⟨.comment, c :: cs.takeWhile (!isLineEnd ·)⟩, cs.dropWhile (!isLineEnd ·))
  else if c = '\n' then (⟨.lineBreak, [c]⟩, cs)
  else if c = '\r' then
    match cs with
    | '\n' :: rest => (⟨.lineBreak, ['\r', '\n']⟩, rest)
    | _ => (⟨.lineBreak, ['\r']⟩, cs)
  else if isNameStart c then
    (word (c :: cs.takeWhile isNamePart), cs.dropWhile isNamePart)
  else if isDigit c then
    match cs.dropWhile isDigit with
    | '.' :: rest =>
      (literal (c :: cs.takeWhile isDigit) (some (rest.takeWhile isDigit)), rest.dropWhile isDigit)
    | rest => (literal (c :: cs.takeWhile isDigit) none, rest)
  else if c = '.' then
    (literal [] (some (cs.takeWhile isDigit)), cs.dropWhile isDigit)
  else (mark c, cs)

theorem text_word (text : List Char) : (word text).text = text := by
  unfold word
  simp only
  split <;> rfl

theorem text_mark (c : Char) : (mark c).text = [c] := by
  unfold mark
  split <;> rfl

/-- The piece and what follows it make up the text. -/
theorem text_append_cut (c : Char) (cs : List Char) :
    (cut c cs).1.text ++ (cut c cs).2 = c :: cs := by
  unfold cut
  split
  · simp [List.takeWhile_append_dropWhile]
  split
  · simp [List.takeWhile_append_dropWhile]
  split
  · simp
  split
  · rename_i h
    subst h
    split <;> simp
  split
  · simp [text_word, List.takeWhile_append_dropWhile]
  split
  · have h := List.takeWhile_append_dropWhile (p := isDigit) (l := cs)
    split
    · rename_i hd
      rw [hd] at h
      simp [literal, List.takeWhile_append_dropWhile, h]
    · simp [literal, h]
  split
  · rename_i h
    subst h
    simp [literal, List.takeWhile_append_dropWhile]
  · simp [text_mark]

/-- What follows the first piece is no longer than what followed its first character. -/
theorem length_cut_le (c : Char) (cs : List Char) : (cut c cs).2.length ≤ cs.length := by
  have hd := List.dropWhile_suffix (l := cs) isDigit
  unfold cut
  split
  · exact (List.dropWhile_suffix isBlank).length_le
  split
  · exact (List.dropWhile_suffix _).length_le
  split
  · exact Nat.le_refl _
  split
  · split <;> simp
  split
  · exact (List.dropWhile_suffix _).length_le
  split
  · split
    · rename_i rest h
      rw [h] at hd
      have := hd.length_le
      have := (List.dropWhile_suffix (l := rest) isDigit).length_le
      simp at *
      omega
    · exact hd.length_le
  split
  · exact hd.length_le
  · exact Nat.le_refl _

/-- All pieces of a text, in order. -/
def pieces : List Char → List Piece
  | [] => []
  | c :: cs => (cut c cs).1 :: pieces (cut c cs).2
termination_by text => text.length
decreasing_by exact Nat.lt_succ_of_le (length_cut_le c cs)

/-- The pieces of a text put together are the text. -/
theorem flatMap_text_pieces (text : List Char) : (pieces text).flatMap Piece.text = text := by
  fun_induction pieces text with
  | case1 => rfl
  | case2 c cs ih => rw [List.flatMap_cons, ih, text_append_cut]

/-- Where the piece after this one starts. -/
def after (p : Piece) (loc : Location) : Location :=
  match p.kind with
  | .lineBreak => loc.nextLine
  | _ => loc.right p.text.length

theorem after_of_lineBreak {p : Piece} (h : p.kind = .lineBreak) (loc : Location) :
    p.after loc = loc.nextLine := by
  rw [after, h]

theorem after_of_ne_lineBreak {p : Piece} (h : p.kind ≠ .lineBreak) (loc : Location) :
    p.after loc = loc.right p.text.length := by
  unfold after
  split
  · exact absurd ‹_› h
  · rfl

end Piece

end TallyLang
