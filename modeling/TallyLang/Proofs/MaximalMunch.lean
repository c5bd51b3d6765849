/-
Pieces are the longest matches of a list of patterns.

What can stand in a source is said by patterns: reserved words and symbols, which
are fixed texts, and names, numbers, blanks, comments and line breaks.  A tokenizer
that knows nothing else takes the longest text that some pattern matches, prefers a
fixed text where two patterns match the same, and makes a token of a single
character where none matches.  `Munches` is that tokenizer, as a relation, and
`munches_iff` says that it cuts every text as `Piece.pieces` does.

The patterns of one text begin with characters of the same kind, `Family`, so at any
place only one or two of them are in question.
-/
import Mathlib.Computability.Language
import TallyLang.Token.Scanner

namespace TallyLang

open Computability

/-! ### Patterns -/

/-- The texts of one character of a class. -/
def oneOf (p : Char → Bool) : Language Char := {w | ∃ c, p c = true ∧ w = [c]}

/-- A text alone. -/
def exactly (s : String) : Language Char := {s.toList}

/-- What a pattern is for. -/
inductive Rule where
  | blanks
  | comment
  | lineBreak
  | keyword (k : Keyword)
  | name
  | number
  | symbol (s : Symbol)
deriving DecidableEq, Repr

namespace Rule

/-- The texts that match. -/
def pattern : Rule → Language Char
  | blanks => oneOf isBlank * (oneOf isBlank)∗
  | comment => exactly "#" * (oneOf (!isLineEnd ·))∗
  | lineBreak => exactly "\r\n" + exactly "\n" + exactly "\r"
  | keyword k => exactly k.text
  | name => oneOf isNameStart * (oneOf isNamePart)∗
  | number =>
    oneOf isDigit * (oneOf isDigit)∗ * (1 + exactly "." * (oneOf isDigit)∗) +
      exactly "." * (oneOf isDigit)∗
  | symbol s => exactly s.char.toString

/-- Whether the pattern is a fixed text. -/
def isFixed : Rule → Bool
  | keyword _ => true
  | symbol _ => true
  | _ => false

/-- The number that a literal stands for. -/
def numberValue (lexeme : List Char) : Binary64 :=
  (Decimal.ofDigits (lexeme.takeWhile (· ≠ '.')) ((lexeme.dropWhile (· ≠ '.')).drop 1)).toBinary64

/-- What a matching text becomes. -/
def kind (lexeme : List Char) : Rule → Piece.Kind
  | blanks => .blank
  | comment => .comment
  | lineBreak => .lineBreak
  | keyword k => .token (.keyword k)
  | name => .token (.ident (String.ofList lexeme))
  | number => .token (.number (numberValue lexeme))
  | symbol s => .token (.symbol s)

/-- The rule takes `lexeme` from the front of `lexeme ++ rest`. -/
structure Takes (r : Rule) (lexeme rest : List Char) : Prop where
  isMatch : lexeme ∈ r.pattern
  longest : ∀ (r' : Rule) (w : List Char), w <+: lexeme ++ rest → w ∈ r'.pattern →
    w.length ≤ lexeme.length
  preferred : r.isFixed = true ∨ ∀ r' : Rule, r'.isFixed = true → lexeme ∉ r'.pattern

end Rule

/-- The tokenizer that knows the patterns only. -/
inductive Munches : List Char → List Piece → Prop where
  | nil : Munches [] []
  | rule {r : Rule} {lexeme rest : List Char} {ps : List Piece} (takes : r.Takes lexeme rest)
      (h : Munches rest ps) : Munches (lexeme ++ rest) (⟨r.kind lexeme, lexeme⟩ :: ps)
  | other {c : Char} {rest : List Char} {ps : List Piece}
      (unmatched : ∀ (r : Rule) (w : List Char), w <+: c :: rest → w ∉ r.pattern)
      (h : Munches rest ps) : Munches (c :: rest) (⟨.token (.char c), [c]⟩ :: ps)

/-! ### What the patterns match -/

theorem mem_exactly {s : String} {w : List Char} : w ∈ exactly s ↔ w = s.toList := Iff.rfl

/-- A run of characters of a class. -/
theorem mem_kstar_oneOf {p : Char → Bool} {w : List Char} :
    w ∈ (oneOf p)∗ ↔ ∀ c ∈ w, p c = true := by
  rw [Language.mem_kstar]
  constructor
  · rintro ⟨parts, rfl, hparts⟩ c hc
    obtain ⟨part, hpart, hcpart⟩ := List.mem_flatten.mp hc
    obtain ⟨d, hd, rfl⟩ := hparts part hpart
    rw [List.mem_singleton.mp hcpart]
    exact hd
  · intro h
    refine ⟨w.map fun c => [c], ?_, ?_⟩
    · induction w with
      | nil => rfl
      | cons c w ih => simp [← ih fun d hd => h d (List.mem_cons_of_mem c hd)]
    · intro part hpart
      obtain ⟨c, hc, rfl⟩ := List.mem_map.mp hpart
      exact ⟨c, h c hc, rfl⟩

theorem mem_oneOf_mul {p : Char → Bool} {l : Language Char} {w : List Char} :
    w ∈ oneOf p * l ↔ ∃ c cs, w = c :: cs ∧ p c = true ∧ cs ∈ l := by
  rw [Language.mem_mul]
  constructor
  · rintro ⟨_, ⟨c, hc, rfl⟩, cs, hcs, rfl⟩
    exact ⟨c, cs, rfl, hc, hcs⟩
  · rintro ⟨c, cs, rfl, hc, hcs⟩
    exact ⟨[c], ⟨c, hc, rfl⟩, cs, hcs, rfl⟩

theorem mem_exactly_mul {s : String} {l : Language Char} {w : List Char} :
    w ∈ exactly s * l ↔ ∃ cs, w = s.toList ++ cs ∧ cs ∈ l := by
  rw [Language.mem_mul]
  constructor
  · rintro ⟨_, rfl, cs, hcs, rfl⟩
    exact ⟨cs, rfl, hcs⟩
  · rintro ⟨cs, rfl, hcs⟩
    exact ⟨s.toList, rfl, cs, hcs, rfl⟩

namespace Rule

theorem mem_blanks {w : List Char} :
    w ∈ blanks.pattern ↔ ∃ c cs, w = c :: cs ∧ isBlank c = true ∧ ∀ d ∈ cs, isBlank d = true := by
  simp only [pattern, mem_oneOf_mul, mem_kstar_oneOf]

theorem mem_comment {w : List Char} :
    w ∈ comment.pattern ↔ ∃ cs, w = '#' :: cs ∧ ∀ d ∈ cs, (!isLineEnd d) = true := by
  simp only [pattern, mem_exactly_mul, mem_kstar_oneOf]
  rfl

theorem mem_name {w : List Char} :
    w ∈ name.pattern ↔
      ∃ c cs, w = c :: cs ∧ isNameStart c = true ∧ ∀ d ∈ cs, isNamePart d = true := by
  simp only [pattern, mem_oneOf_mul, mem_kstar_oneOf]

theorem mem_lineBreak {w : List Char} :
    w ∈ lineBreak.pattern ↔ w = ['\r', '\n'] ∨ w = ['\n'] ∨ w = ['\r'] := by
  simp only [pattern, Language.mem_add, mem_exactly, or_assoc]
  rfl

theorem mem_symbol {s : Symbol} {w : List Char} : w ∈ (symbol s).pattern ↔ w = [s.char] := by
  simp [pattern, mem_exactly]

/-- A number is some digits, or digits with a point between or around them. -/
theorem mem_number {w : List Char} :
    w ∈ number.pattern ↔
      (w ≠ [] ∧ ∀ d ∈ w, isDigit d = true) ∨
      ∃ whole fraction, w = whole ++ '.' :: fraction ∧ (∀ d ∈ whole, isDigit d = true) ∧
        ∀ d ∈ fraction, isDigit d = true := by
  have hpoint : ∀ v : List Char, v ∈ exactly "." * (oneOf isDigit)∗ ↔
      ∃ fraction, v = '.' :: fraction ∧ ∀ d ∈ fraction, isDigit d = true := by
    intro v
    simp only [mem_exactly_mul, mem_kstar_oneOf]
    rfl
  have hdigits : ∀ v : List Char, v ∈ oneOf isDigit * (oneOf isDigit)∗ ↔
      v ≠ [] ∧ ∀ d ∈ v, isDigit d = true := by
    intro v
    simp only [mem_oneOf_mul, mem_kstar_oneOf]
    cases v with
    | nil => simp
    | cons c cs => simp
  simp only [pattern, Language.mem_add, Language.mem_mul, Language.mem_one, hpoint, hdigits]
  constructor
  · rintro (⟨whole, ⟨hne, hwhole⟩, tail, htail, rfl⟩ | ⟨fraction, rfl, hfraction⟩)
    · rcases htail with rfl | ⟨fraction, rfl, hfraction⟩
      · rw [List.append_nil]
        exact Or.inl ⟨hne, hwhole⟩
      · exact Or.inr ⟨whole, fraction, rfl, hwhole, hfraction⟩
    · exact Or.inr ⟨[], fraction, rfl, by simp, hfraction⟩
  · rintro (⟨hne, hw⟩ | ⟨whole, fraction, rfl, hwhole, hfraction⟩)
    · exact Or.inl ⟨w, ⟨hne, hw⟩, [], Or.inl rfl, List.append_nil w⟩
    · cases whole with
      | nil => exact Or.inr ⟨fraction, rfl, hfraction⟩
      | cons c cs =>
          exact Or.inl ⟨c :: cs, ⟨by simp, hwhole⟩, '.' :: fraction,
            Or.inr ⟨fraction, rfl, hfraction⟩, rfl⟩

end Rule

theorem Keyword.ofText?_text (k : Keyword) : Keyword.ofText? k.text = some k := by
  cases k <;> rfl

theorem Symbol.ofChar?_char (s : Symbol) : Symbol.ofChar? s.char = some s := by
  cases s <;> rfl

/-! ### Families of first characters -/

/-- The kinds of first characters. -/
inductive Family where
  | blank
  | hash
  | lineEnd
  | letter
  | numeric
  | mark
deriving DecidableEq, Repr

/-- The family of a character; one that begins no pattern counts as a mark. -/
def familyOf (c : Char) : Family :=
  if isBlank c then .blank
  else if c = '#' then .hash
  else if isLineEnd c then .lineEnd
  else if isNameStart c then .letter
  else if isDigit c || c = '.' then .numeric
  else .mark

/-- The family of the first character of a match. -/
def Rule.family : Rule → Family
  | blanks => .blank
  | comment => .hash
  | lineBreak => .lineEnd
  | keyword _ => .letter
  | name => .letter
  | number => .numeric
  | symbol _ => .mark

theorem isNameStart_of_isDigit {c : Char} (h : isDigit c = true) : isNameStart c = false := by
  simp only [isDigit, decide_eq_true_eq, Char.le_def, UInt32.le_iff_toNat_le] at h
  have hunderscore : c ≠ '_' := by
    rintro rfl
    exact absurd h (by decide)
  simp [isNameStart, Char.le_def, UInt32.le_iff_toNat_le, hunderscore] at h ⊢
  omega

theorem ne_of_class {p : Char → Bool} {c d : Char} (hc : p c = true) (hd : p d = false) : c ≠ d := by
  rintro rfl
  rw [hd] at hc
  cases hc

theorem familyOf_of_isNameStart {c : Char} (h : isNameStart c = true) : familyOf c = .letter := by
  have hother : ∀ d, isNameStart d = false → c ≠ d := fun d => ne_of_class h
  simp [familyOf, isBlank, isLineEnd, h, hother ' ' rfl, hother '\t' rfl, hother '\x0c' rfl,
    hother '\x0b' rfl, hother '#' rfl, hother '\n' rfl, hother '\r' rfl]

theorem familyOf_of_isDigit {c : Char} (h : isDigit c = true) : familyOf c = .numeric := by
  have hother : ∀ d, isDigit d = false → c ≠ d := fun d => ne_of_class h
  simp [familyOf, isBlank, isLineEnd, h, isNameStart_of_isDigit h, hother ' ' rfl, hother '\t' rfl,
    hother '\x0c' rfl, hother '\x0b' rfl, hother '#' rfl, hother '\n' rfl, hother '\r' rfl]

theorem familyOf_symbol (s : Symbol) : familyOf s.char = .mark := by
  cases s <;> rfl

theorem exists_cons_of_keyword (k : Keyword) : ∃ c cs, k.text.toList = c :: cs ∧
    isNameStart c = true ∧ ∀ d ∈ cs, isNamePart d = true := by
  cases k <;> exact ⟨_, _, rfl, rfl, List.all_eq_true.mp rfl⟩

namespace Rule

/-- A match begins with a character of the rule's family. -/
theorem exists_cons_of_mem {r : Rule} {w : List Char} (h : w ∈ r.pattern) :
    ∃ c cs, w = c :: cs ∧ familyOf c = r.family := by
  cases r with
  | blanks =>
      obtain ⟨c, cs, rfl, hc, -⟩ := mem_blanks.mp h
      exact ⟨c, cs, rfl, by simp [familyOf, hc, family]⟩
  | comment =>
      obtain ⟨cs, rfl, -⟩ := mem_comment.mp h
      exact ⟨'#', cs, rfl, rfl⟩
  | lineBreak =>
      rcases mem_lineBreak.mp h with rfl | rfl | rfl
      · exact ⟨_, _, rfl, rfl⟩
      · exact ⟨_, _, rfl, rfl⟩
      · exact ⟨_, _, rfl, rfl⟩
  | keyword k =>
      obtain ⟨c, cs, htext, hc, -⟩ := exists_cons_of_keyword k
      exact ⟨c, cs, (mem_exactly.mp h).trans htext, familyOf_of_isNameStart hc⟩
  | name =>
      obtain ⟨c, cs, rfl, hc, -⟩ := mem_name.mp h
      exact ⟨c, cs, rfl, familyOf_of_isNameStart hc⟩
  | number =>
      rcases mem_number.mp h with ⟨hne, hw⟩ | ⟨whole, fraction, rfl, hwhole, -⟩
      · cases w with
        | nil => exact absurd rfl hne
        | cons c cs => exact ⟨c, cs, rfl, familyOf_of_isDigit (hw c List.mem_cons_self)⟩
      · cases whole with
        | nil => exact ⟨'.', fraction, rfl, rfl⟩
        | cons c cs =>
            exact ⟨c, _, rfl, familyOf_of_isDigit (hwhole c List.mem_cons_self)⟩
  | symbol s =>
      exact ⟨s.char, [], mem_symbol.mp h, familyOf_symbol s⟩

/-- The rules that match at the front of a text are of one family. -/
theorem family_eq_of_prefix {r r' : Rule} {w w' text : List Char} (h : w ∈ r.pattern)
    (hfront : w <+: text) (h' : w' ∈ r'.pattern) (hfront' : w' <+: text) :
    r'.family = r.family := by
  obtain ⟨c, cs, rfl, hfamily⟩ := exists_cons_of_mem h
  obtain ⟨d, ds, rfl, hfamily'⟩ := exists_cons_of_mem h'
  cases text with
  | nil => simp at hfront
  | cons e es =>
      rw [← hfamily, ← hfamily', (List.cons_prefix_cons.mp hfront).1,
        (List.cons_prefix_cons.mp hfront').1]

/-- To take a text, a rule has to be compared only with the rules of its family. -/
theorem takes_of_family {r : Rule} {lexeme rest : List Char} (hmatch : lexeme ∈ r.pattern)
    (hlongest : ∀ (r' : Rule) (w : List Char), r'.family = r.family → w <+: lexeme ++ rest →
      w ∈ r'.pattern → w.length ≤ lexeme.length)
    (hpreferred : r.isFixed = true ∨
      ∀ r' : Rule, r'.family = r.family → r'.isFixed = true → lexeme ∉ r'.pattern) :
    r.Takes lexeme rest := by
  refine ⟨hmatch, ?_, ?_⟩
  · intro r' w hfront hw
    have hfamily := family_eq_of_prefix hmatch (List.prefix_append lexeme rest) hw hfront
    exact hlongest r' w hfamily hfront hw
  · rcases hpreferred with hfixed | hpreferred
    · exact Or.inl hfixed
    · refine Or.inr fun r' hfixed hmem => ?_
      have hfamily := family_eq_of_prefix hmatch List.prefix_rfl hmem List.prefix_rfl
      exact hpreferred r' hfamily hfixed hmem

end Rule

/-! ### The first piece is the longest match -/

/-- A run of a class is no longer than the run that `takeWhile` finds. -/
theorem length_le_takeWhile {p : Char → Bool} {ws cs : List Char} (hfront : ws <+: cs)
    (hall : ∀ c ∈ ws, p c = true) : ws.length ≤ (cs.takeWhile p).length := by
  obtain ⟨rest, rfl⟩ := hfront
  rw [List.takeWhile_append_of_pos hall]
  simp

theorem takeWhile_dropWhile_self (p : Char → Bool) (cs : List Char) :
    (cs.dropWhile p).takeWhile p = [] := by
  induction cs with
  | nil => rfl
  | cons c cs ih =>
      by_cases hc : p c = true
      · simpa [hc] using ih
      · simp [hc]

theorem all_takeWhile {p : Char → Bool} {cs : List Char} : ∀ c ∈ cs.takeWhile p, p c = true :=
  fun c hc => List.all_eq_true.mp List.all_takeWhile c hc

namespace Piece

open Rule

theorem takes_blanks {c : Char} (hc : isBlank c = true) (cs : List Char) :
    blanks.Takes (c :: cs.takeWhile isBlank) (cs.dropWhile isBlank) := by
  refine takes_of_family (mem_blanks.mpr ⟨c, _, rfl, hc, all_takeWhile⟩) ?_ ?_
  · intro r w hfamily hfront hw
    rw [List.cons_append, List.takeWhile_append_dropWhile] at hfront
    cases r <;> simp [family] at hfamily
    obtain ⟨d, ds, rfl, -, hds⟩ := mem_blanks.mp hw
    simpa using length_le_takeWhile (List.cons_prefix_cons.mp hfront).2 hds
  · refine Or.inr fun r hfamily hfixed => ?_
    cases r <;> simp [family, isFixed] at hfamily hfixed

theorem takes_comment (cs : List Char) :
    comment.Takes ('#' :: cs.takeWhile (!isLineEnd ·)) (cs.dropWhile (!isLineEnd ·)) := by
  refine takes_of_family (mem_comment.mpr ⟨_, rfl, all_takeWhile⟩) ?_ ?_
  · intro r w hfamily hfront hw
    rw [List.cons_append, List.takeWhile_append_dropWhile] at hfront
    cases r <;> simp [family] at hfamily
    obtain ⟨ds, rfl, hds⟩ := mem_comment.mp hw
    simpa using length_le_takeWhile (List.cons_prefix_cons.mp hfront).2 hds
  · refine Or.inr fun r hfamily hfixed => ?_
    cases r <;> simp [family, isFixed] at hfamily hfixed

/-- A line break is two characters only if they are a carriage return and a line feed. -/
theorem takes_lineBreak {c : Char} {cs rest : List Char} (hmatch : c :: cs ∈ lineBreak.pattern)
    (hpair : ['\r', '\n'] <+: c :: cs ++ rest → (c :: cs).length = 2) :
    lineBreak.Takes (c :: cs) rest := by
  refine takes_of_family hmatch ?_ ?_
  · intro r w hfamily hfront hw
    cases r <;> simp [family] at hfamily
    rcases mem_lineBreak.mp hw with rfl | rfl | rfl
    · rw [hpair hfront]
      rfl
    · simp
    · simp
  · refine Or.inr fun r hfamily hfixed => ?_
    cases r <;> simp [family, isFixed] at hfamily hfixed

theorem length_le_of_letter {r : Rule} {w cs : List Char} {c : Char} (hfamily : r.family = .letter)
    (hfront : w <+: c :: cs) (hw : w ∈ r.pattern) :
    w.length ≤ (c :: cs.takeWhile isNamePart).length := by
  have hshape : ∃ d ds, w = d :: ds ∧ isNameStart d = true ∧ ∀ e ∈ ds, isNamePart e = true := by
    cases r <;> simp [family] at hfamily
    · obtain ⟨d, ds, htext, hd, hds⟩ := exists_cons_of_keyword _
      exact ⟨d, ds, (mem_exactly.mp hw).trans htext, hd, hds⟩
    · exact mem_name.mp hw
  obtain ⟨d, ds, rfl, -, hds⟩ := hshape
  simpa using length_le_takeWhile (List.cons_prefix_cons.mp hfront).2 hds

/-- A word is a reserved word if it spells one, and else a name. -/
theorem takes_word {c : Char} (hc : isNameStart c = true) (cs : List Char) :
    ∃ r : Rule, (word (c :: cs.takeWhile isNamePart)).kind = r.kind (c :: cs.takeWhile isNamePart) ∧
      r.Takes (c :: cs.takeWhile isNamePart) (cs.dropWhile isNamePart) := by
  have hlongest : ∀ (r : Rule) (w : List Char), r.family = .letter →
      w <+: c :: cs.takeWhile isNamePart ++ cs.dropWhile isNamePart → w ∈ r.pattern →
      w.length ≤ (c :: cs.takeWhile isNamePart).length := by
    intro r w hfamily hfront hw
    rw [List.cons_append, List.takeWhile_append_dropWhile] at hfront
    exact length_le_of_letter hfamily hfront hw
  unfold word
  simp only
  split
  · rename_i k hk
    have htext := List.find?_some hk
    simp only [decide_eq_true_eq] at htext
    refine ⟨.keyword k, rfl, takes_of_family ?_ hlongest (Or.inl rfl)⟩
    rw [pattern, mem_exactly, htext, String.toList_ofList]
  · rename_i hnone
    refine ⟨.name, rfl, takes_of_family (mem_name.mpr ⟨c, _, rfl, hc, all_takeWhile⟩) hlongest
      (Or.inr ?_)⟩
    intro r hfamily hfixed hmem
    cases r <;> simp [family, isFixed] at hfamily hfixed
    rename_i k
    have hk := List.find?_eq_none.mp hnone k (by cases k <;> decide)
    rw [mem_exactly.mp hmem, String.ofList_toList] at hk
    simp at hk

theorem takes_symbol (s : Symbol) (rest : List Char) : (Rule.symbol s).Takes [s.char] rest := by
  refine takes_of_family (mem_symbol.mpr rfl) ?_ (Or.inl rfl)
  intro r w hfamily _ hw
  cases r <;> simp [family] at hfamily
  rw [mem_symbol.mp hw]
  exact Nat.le_refl _

/-! ### Numbers -/

theorem ne_point_of_isDigit {c : Char} (h : isDigit c = true) : c ≠ '.' :=
  ne_of_class h rfl

/-- The digits before a point are all digits that come first. -/
theorem span_digits {whole : List Char} (hwhole : ∀ d ∈ whole, isDigit d = true)
    (tail : List Char) :
    (whole ++ '.' :: tail).takeWhile isDigit = whole ∧
      (whole ++ '.' :: tail).dropWhile isDigit = '.' :: tail := by
  rw [List.takeWhile_append_of_pos hwhole, List.dropWhile_append_of_pos hwhole]
  simp [isDigit]

/-- A number at the front of a text is no longer than the digits there, or than the digits, the
point and the digits after it. -/
theorem length_number_le {w text : List Char} (hw : w ∈ number.pattern) (hfront : w <+: text) :
    w.length ≤ (text.takeWhile isDigit).length ∨
      ∃ rest, text.dropWhile isDigit = '.' :: rest ∧
        w.length ≤ (text.takeWhile isDigit).length + 1 + (rest.takeWhile isDigit).length := by
  rcases mem_number.mp hw with ⟨-, hdigits⟩ | ⟨whole, fraction, rfl, hwhole, hfraction⟩
  · exact Or.inl (length_le_takeWhile hfront hdigits)
  · obtain ⟨after, rfl⟩ := hfront
    rw [List.append_assoc, List.cons_append]
    obtain ⟨htake, hdrop⟩ := span_digits hwhole (fraction ++ after)
    refine Or.inr ⟨fraction ++ after, hdrop, ?_⟩
    have hle := length_le_takeWhile (List.prefix_append fraction after) hfraction
    rw [htake]
    simp only [List.length_append, List.length_cons]
    omega

theorem kind_literal {whole : List Char} (hwhole : ∀ d ∈ whole, isDigit d = true)
    (fraction? : Option (List Char)) :
    (literal whole fraction?).kind = Rule.number.kind (literal whole fraction?).text := by
  have hpoint : ∀ d ∈ whole, decide (d ≠ '.') = true := by
    intro d hd
    simpa using ne_point_of_isDigit (hwhole d hd)
  have htake : ∀ tail : List Char, (whole ++ tail).takeWhile (· ≠ '.') =
      whole ++ tail.takeWhile (· ≠ '.') := fun tail => List.takeWhile_append_of_pos hpoint
  have hdrop : ∀ tail : List Char, (whole ++ tail).dropWhile (· ≠ '.') =
      tail.dropWhile (· ≠ '.') := fun tail => List.dropWhile_append_of_pos hpoint
  simp only [literal, Rule.kind, numberValue, htake, hdrop]
  cases fraction? with
  | none => simp
  | some fraction => simp

/-- No other rule is in question where a number is. -/
theorem takes_number {lexeme rest : List Char} (hmatch : lexeme ∈ number.pattern)
    (hlongest : ∀ w ∈ number.pattern, w <+: lexeme ++ rest → w.length ≤ lexeme.length) :
    number.Takes lexeme rest := by
  refine takes_of_family hmatch ?_ ?_
  · intro r w hfamily hfront hw
    cases r <;> simp [family] at hfamily
    exact hlongest w hw hfront
  · refine Or.inr fun r hfamily hfixed => ?_
    cases r <;> simp [family, isFixed] at hfamily hfixed

theorem takes_literal_some {whole : List Char} (hwhole : ∀ d ∈ whole, isDigit d = true)
    (tail : List Char) :
    number.Takes (literal whole (some (tail.takeWhile isDigit))).text (tail.dropWhile isDigit) := by
  have htext : (literal whole (some (tail.takeWhile isDigit))).text =
      whole ++ '.' :: tail.takeWhile isDigit := rfl
  refine takes_number ?_ ?_
  · rw [htext]
    exact mem_number.mpr (Or.inr ⟨whole, _, rfl, hwhole, all_takeWhile⟩)
  · intro w hw hfront
    rw [htext, List.append_assoc, List.cons_append, List.takeWhile_append_dropWhile] at hfront
    rw [htext]
    obtain ⟨htake, hdrop⟩ := span_digits hwhole tail
    rcases length_number_le hw hfront with hle | ⟨rest, hrest, hle⟩
    · rw [htake] at hle
      simp only [List.length_append]
      omega
    · rw [hdrop] at hrest
      cases hrest
      rw [htake] at hle
      simp only [List.length_append, List.length_cons]
      omega

theorem takes_literal_none {whole tail : List Char} (hne : whole ≠ [])
    (hwhole : ∀ d ∈ whole, isDigit d = true) (hdigit : tail.takeWhile isDigit = [])
    (hpoint : ∀ rest, tail ≠ '.' :: rest) : number.Takes (literal whole none).text tail := by
  have htext : (literal whole none).text = whole := List.append_nil whole
  have hdrop : tail.dropWhile isDigit = tail := by
    have h : tail.takeWhile isDigit ++ tail.dropWhile isDigit = tail :=
      List.takeWhile_append_dropWhile
    rwa [hdigit, List.nil_append] at h
  refine takes_number ?_ ?_
  · rw [htext]
    exact mem_number.mpr (Or.inl ⟨hne, hwhole⟩)
  · intro w hw hfront
    rw [htext] at hfront ⊢
    rcases length_number_le hw hfront with hle | ⟨rest, hrest, -⟩
    · rwa [List.takeWhile_append_of_pos hwhole, hdigit, List.append_nil] at hle
    · rw [List.dropWhile_append_of_pos hwhole, hdrop] at hrest
      exact absurd hrest (hpoint rest)

/-! ### The first piece -/

theorem takes_feed (cs : List Char) : lineBreak.Takes ['\n'] cs := by
  refine takes_lineBreak (mem_lineBreak.mpr (Or.inr (Or.inl rfl))) fun hpair => ?_
  exact absurd (List.cons_prefix_cons.mp hpair).1 (by decide)

theorem takes_return {cs : List Char} (h : ∀ after, cs ≠ '\n' :: after) :
    lineBreak.Takes ['\r'] cs := by
  refine takes_lineBreak (mem_lineBreak.mpr (Or.inr (Or.inr rfl))) fun hpair => ?_
  obtain ⟨after, hafter⟩ := (List.cons_prefix_cons.mp hpair).2
  exact absurd hafter.symm (h after)

/-- A character that begins no longer piece is a symbol, or nothing that starts with it matches. -/
theorem takes_mark {c : Char} (h : familyOf c = .mark) (cs : List Char) :
    (∃ r : Rule, (mark c).kind = r.kind [c] ∧ r.Takes [c] cs) ∨
    (∀ (r : Rule) (w : List Char), w <+: c :: cs → w ∉ r.pattern) ∧
      mark c = ⟨.token (.char c), [c]⟩ := by
  unfold mark
  split
  · rename_i s hs
    have hchar := List.find?_some hs
    simp only [decide_eq_true_eq] at hchar
    rw [← hchar]
    exact Or.inl ⟨.symbol s, rfl, takes_symbol s cs⟩
  · rename_i hnone
    refine Or.inr ⟨?_, rfl⟩
    intro r w hfront hw
    obtain ⟨d, ds, rfl, hd⟩ := exists_cons_of_mem hw
    obtain rfl := (List.cons_prefix_cons.mp hfront).1
    rw [h] at hd
    cases r <;> simp [family] at hd
    rename_i s
    have hs := List.find?_eq_none.mp hnone s (by cases s <;> decide)
    cases mem_symbol.mp hw
    simp at hs

/-- Some rule takes the first piece, or none matches and the piece is the first character. -/
theorem takes_cut (c : Char) (cs : List Char) :
    (∃ r : Rule, (cut c cs).1.kind = r.kind (cut c cs).1.text ∧
      r.Takes (cut c cs).1.text (cut c cs).2) ∨
    (∀ (r : Rule) (w : List Char), w <+: c :: cs → w ∉ r.pattern) ∧
      cut c cs = (⟨.token (.char c), [c]⟩, cs) := by
  unfold cut
  by_cases hblank : isBlank c = true
  · rw [if_pos hblank]
    exact Or.inl ⟨.blanks, rfl, takes_blanks hblank cs⟩
  rw [if_neg hblank]
  by_cases hhash : c = '#'
  · rw [if_pos hhash, hhash]
    exact Or.inl ⟨.comment, rfl, takes_comment cs⟩
  rw [if_neg hhash]
  by_cases hfeed : c = '\n'
  · rw [if_pos hfeed, hfeed]
    exact Or.inl ⟨.lineBreak, rfl, takes_feed cs⟩
  rw [if_neg hfeed]
  by_cases hreturn : c = '\r'
  · rw [if_pos hreturn]
    split
    · refine Or.inl ⟨.lineBreak, rfl, takes_lineBreak (mem_lineBreak.mpr (Or.inl rfl)) ?_⟩
      intro _
      rfl
    · rename_i hnext
      exact Or.inl ⟨.lineBreak, rfl, takes_return fun after hafter => hnext after hafter⟩
  rw [if_neg hreturn]
  by_cases hletter : isNameStart c = true
  · rw [if_pos hletter]
    simp only [text_word]
    exact Or.inl (takes_word hletter cs)
  rw [if_neg hletter]
  by_cases hdigit : isDigit c = true
  · rw [if_pos hdigit]
    have hwhole : ∀ d ∈ c :: cs.takeWhile isDigit, isDigit d = true := by
      intro d hd
      rcases List.mem_cons.mp hd with rfl | hd
      · exact hdigit
      · exact all_takeWhile d hd
    split
    · rename_i tail htail
      exact Or.inl ⟨.number, kind_literal hwhole _, takes_literal_some hwhole tail⟩
    · rename_i hpoint
      refine Or.inl ⟨.number, kind_literal hwhole none,
        takes_literal_none (by simp) hwhole ?_ fun rest hrest => hpoint rest hrest⟩
      exact takeWhile_dropWhile_self isDigit cs
  rw [if_neg hdigit]
  by_cases hpoint : c = '.'
  · rw [if_pos hpoint]
    exact Or.inl ⟨.number, kind_literal (by simp) _, takes_literal_some (by simp) cs⟩
  rw [if_neg hpoint]
  have hfamily : familyOf c = .mark := by
    simp [familyOf, isLineEnd, hblank, hhash, hfeed, hreturn, hletter, hdigit, hpoint]
  rcases takes_mark hfamily cs with hrule | ⟨hunmatched, hmark⟩
  · simp only [text_mark]
    exact Or.inl hrule
  · exact Or.inr ⟨hunmatched, by rw [hmark]⟩

end Piece

/-! ### All pieces -/

theorem Rule.Takes.eq_of_append_eq {r r' : Rule} {lexeme lexeme' rest rest' : List Char}
    (h : r.Takes lexeme rest) (h' : r'.Takes lexeme' rest')
    (heq : lexeme ++ rest = lexeme' ++ rest') : lexeme = lexeme' ∧ rest = rest' := by
  have hle := h'.longest r lexeme (heq ▸ List.prefix_append lexeme rest) h.isMatch
  have hle' := h.longest r' lexeme' (heq ▸ List.prefix_append lexeme' rest') h'.isMatch
  exact List.append_inj heq (Nat.le_antisymm hle hle')

theorem Rule.Takes.isFixed_le {r r' : Rule} {lexeme rest rest' : List Char}
    (h : r.Takes lexeme rest) (h' : r'.Takes lexeme rest') (hfixed : r.isFixed = true) :
    r'.isFixed = true := by
  rcases h'.preferred with hfixed' | hnone
  · exact hfixed'
  · exact absurd h.isMatch (hnone r hfixed)

/-- Two rules that take the same text are the same. -/
theorem Rule.Takes.rule_eq {r r' : Rule} {lexeme rest : List Char} (h : r.Takes lexeme rest)
    (h' : r'.Takes lexeme rest) : r = r' := by
  have hfamily : r'.family = r.family :=
    family_eq_of_prefix h.isMatch List.prefix_rfl h'.isMatch List.prefix_rfl
  have hfixed : r.isFixed = r'.isFixed :=
    Bool.eq_iff_iff.mpr ⟨h.isFixed_le h', h'.isFixed_le h⟩
  have hmatch := h.isMatch
  have hmatch' := h'.isMatch
  -- only two reserved words or two symbols are left to tell apart
  cases r <;> cases r' <;> simp [family, isFixed] at hfamily hfixed ⊢
  · rename_i k k'
    have htext : k.text.toList = k'.text.toList := (mem_exactly.mp hmatch).symm.trans
      (mem_exactly.mp hmatch')
    have hfound := congrArg Keyword.ofText? (String.toList_inj.mp htext)
    rw [Keyword.ofText?_text, Keyword.ofText?_text] at hfound
    exact Option.some.inj hfound
  · rename_i s s'
    have hchar : [s.char] = [s'.char] := (mem_symbol.mp hmatch).symm.trans (mem_symbol.mp hmatch')
    have hfound := congrArg Symbol.ofChar? (List.singleton_inj.mp hchar)
    rw [Symbol.ofChar?_char, Symbol.ofChar?_char] at hfound
    exact Option.some.inj hfound

/-- The pieces of a text are what maximal munch makes of it. -/
theorem munches_pieces (text : List Char) : Munches text (Piece.pieces text) := by
  fun_induction Piece.pieces text with
  | case1 => exact .nil
  | case2 c cs ih =>
      rcases Piece.takes_cut c cs with ⟨r, hkind, htakes⟩ | ⟨hunmatched, hcut⟩
      · have h := Munches.rule htakes ih
        rw [Piece.text_append_cut, ← hkind] at h
        exact h
      · rw [hcut] at ih ⊢
        exact .other hunmatched ih

/-- Maximal munch makes nothing else of it. -/
theorem Munches.eq_pieces {text : List Char} {ps : List Piece} (h : Munches text ps) :
    ps = Piece.pieces text := by
  induction h with
  | nil => rw [Piece.pieces]
  | @rule r lexeme rest ps htakes _ ih =>
      obtain ⟨c, cs, rfl, -⟩ := Rule.exists_cons_of_mem htakes.isMatch
      rw [List.cons_append, Piece.pieces]
      rcases Piece.takes_cut c (cs ++ rest) with ⟨r', hkind, htakes'⟩ | ⟨hunmatched, -⟩
      · have heq : c :: cs ++ rest = (Piece.cut c (cs ++ rest)).1.text ++
            (Piece.cut c (cs ++ rest)).2 := (Piece.text_append_cut c (cs ++ rest)).symm
        obtain ⟨hlexeme, hrest⟩ := htakes.eq_of_append_eq htakes' heq
        rw [← hlexeme, ← hrest] at htakes'
        rw [← hlexeme] at hkind
        rw [← hrest, ← ih, htakes.rule_eq htakes', ← hkind, hlexeme]
      · exact absurd htakes.isMatch (hunmatched r _ (List.prefix_append (c :: cs) rest))
  | @other c rest ps hunmatched _ ih =>
      rw [Piece.pieces]
      rcases Piece.takes_cut c rest with ⟨r, -, htakes⟩ | ⟨-, hcut⟩
      · refine absurd htakes.isMatch (hunmatched r _ ?_)
        rw [← Piece.text_append_cut c rest]
        exact List.prefix_append _ _
      · rw [hcut, ih]

theorem munches_iff {text : List Char} {ps : List Piece} :
    Munches text ps ↔ ps = Piece.pieces text := by
  constructor
  · exact Munches.eq_pieces
  · rintro rfl
    exact munches_pieces text

/-! ### Tokens -/

/-- The token that a piece is, if it is one. -/
def Piece.token? (p : Piece) : Option Token :=
  match p.kind with
  | .token t => some t
  | _ => none

theorem map_token_drainFrom (ps : List Piece) : ∀ loc : Location,
    (Scanner.drainFrom loc ps).1.map LocatedToken.token = ps.filterMap Piece.token? ++ [.eof] := by
  induction ps with
  | nil =>
      intro loc
      rfl
  | cons p ps ih =>
      intro loc
      cases hkind : p.kind <;> simp [Scanner.drainFrom, Piece.token?, hkind, ih]

/-- What holds of every token that a rule makes and of every single character that none matches
holds of all tokens. -/
theorem Munches.forall_token {text : List Char} {ps : List Piece} (h : Munches text ps)
    {P : Token → Prop}
    (hrule : ∀ (r : Rule) (lexeme rest : List Char) (t : Token), r.Takes lexeme rest →
      r.kind lexeme = .token t → P t)
    (hchar : ∀ (c : Char) (rest : List Char),
      (∀ (r : Rule) (w : List Char), w <+: c :: rest → w ∉ r.pattern) → P (.char c)) :
    ∀ t ∈ ps.filterMap Piece.token?, P t := by
  induction h with
  | nil => simp
  | @rule r lexeme rest ps htakes _ ih =>
      intro t ht
      obtain ⟨p, hp, htoken⟩ := List.mem_filterMap.mp ht
      rcases List.mem_cons.mp hp with rfl | hp
      · refine hrule r lexeme rest t htakes ?_
        unfold Piece.token? at htoken
        split at htoken
        · rename_i hkind
          cases htoken
          exact hkind
        · cases htoken
      · exact ih t (List.mem_filterMap.mpr ⟨p, hp, htoken⟩)
  | @other c rest ps hunmatched _ ih =>
      intro t ht
      obtain ⟨p, hp, htoken⟩ := List.mem_filterMap.mp ht
      rcases List.mem_cons.mp hp with rfl | hp
      · cases htoken
        exact hchar c rest hunmatched
      · exact ih t (List.mem_filterMap.mpr ⟨p, hp, htoken⟩)

/-- No token of a text is the end of the input, or a line break. -/
theorem Munches.ne_of_mem_tokens {text : List Char} {ps : List Piece} (h : Munches text ps) :
    ∀ t ∈ ps.filterMap Piece.token?, t ≠ .eof ∧ t ≠ .newline := by
  refine h.forall_token (P := fun t => t ≠ .eof ∧ t ≠ .newline) ?_ (by simp)
  intro r lexeme rest t _ hkind
  cases r <;> cases hkind <;> simp

/-- **The tokens of a source.**  Maximal munch over the patterns cuts a source in exactly one
way.  Its pieces put together are the source, and its tokens with an `eof` after them
are the tokens of the source. -/
theorem tokensOf_eq_munched (source : String) :
    ∃ ps : List Piece, (∀ qs : List Piece, Munches source.toList qs ↔ qs = ps) ∧
      ps.flatMap Piece.text = source.toList ∧
      (tokensOf source).map LocatedToken.token = ps.filterMap Piece.token? ++ [.eof] ∧
      ∀ t ∈ ps.filterMap Piece.token?, t ≠ .eof ∧ t ≠ .newline :=
  ⟨Piece.pieces source.toList, fun _ => munches_iff, Piece.flatMap_text_pieces source.toList,
    map_token_drainFrom _ _, (munches_pieces source.toList).ne_of_mem_tokens⟩

end TallyLang
