/-
Locations are what counting from the start of the source gives.

A scanner keeps the location of the next piece and moves it along, to the right by the
length of a piece and to the next line after a line break.  `locationAt` asks nothing of
pieces.  It looks at every offset up to a place, takes those at which a line break ends,
and counts: the line is one more than their number, and the column is one more than the
distance from the last of them.  Offsets count characters.

Whether a break ends at an offset depends on two characters only, the one before it and,
after a carriage return, the one behind it.  So one piece changes the count in one of two
ways (`locationAt_add`, `locationAt_succ`), and moving a location past a piece is counting
on (`after_locationAt`).  The pieces one after the other then bring the scanner to every
token at its counted location.  A scanner that only remembers the column of one offset, and
counts on from there, is in step with it (`TextScanner.Follows`) and comes to the same.
-/
import TallyLang.Proofs.TextScanner

namespace TallyLang

/-! ### Counting line breaks -/

/-- Whether a line break ends at an offset: behind a line feed, and behind a carriage return that no
line feed follows. -/
def endsBreak (text : List Char) : Nat → Bool
  | 0 => false
  | k + 1 => text[k]? = some '\n' || (text[k]? = some '\r' && text[k + 1]? ≠ some '\n')

/-- The offsets up to a place at which a line break ends. -/
def breakEnds (text : List Char) (place : Nat) : List Nat :=
  (List.range (place + 1)).filter (endsBreak text)

/-- The location of an offset, counted from the start of the text. -/
def locationAt (text : List Char) (place : Nat) : Location :=
  ⟨1 + (breakEnds text place).length, 1 + (place - (breakEnds text place).getLastD 0)⟩

-- a pair counts once, and a carriage return before it by itself
example : locationAt "é\r\r\n\nb".toList 5 = ⟨4, 1⟩ := by decide

theorem getLastD_breakEnds_le (text : List Char) (place : Nat) :
    (breakEnds text place).getLastD 0 ≤ place := by
  cases hlast : (breakEnds text place).getLast? with
  | none =>
      rw [List.getLastD_eq_getLast?, hlast]
      exact Nat.zero_le _
  | some k =>
      have hmem := (List.mem_filter.mp (List.mem_of_getLast? hlast)).1
      rw [List.getLastD_eq_getLast?, hlast]
      exact Nat.le_of_lt_succ (List.mem_range.mp hmem)

/-- Where no break ends, the column grows. -/
theorem locationAt_add {text : List Char} {place n : Nat}
    (h : ∀ k, place < k → k ≤ place + n → endsBreak text k = false) :
    locationAt text (place + n) = (locationAt text place).right n := by
  have hends : breakEnds text (place + n) = breakEnds text place := by
    have hnone : ((List.range n).map (place + 1 + ·)).filter (endsBreak text) = [] := by
      refine List.filter_eq_nil_iff.mpr fun k hk => ?_
      obtain ⟨j, hj, rfl⟩ := List.mem_map.mp hk
      have hlt := List.mem_range.mp hj
      rw [h _ (by omega) (by omega)]
      exact Bool.false_ne_true
    have hrange : place + n + 1 = place + 1 + n := by omega
    rw [breakEnds, breakEnds, hrange, List.range_add, List.filter_append, hnone, List.append_nil]
  have hle := getLastD_breakEnds_le text place
  simp only [locationAt, Location.right, hends, Location.mk.injEq, true_and]
  omega

/-- Where a break ends, the next line starts. -/
theorem locationAt_succ {text : List Char} {place : Nat} (h : endsBreak text (place + 1) = true) :
    locationAt text (place + 1) = (locationAt text place).nextLine := by
  have hends : breakEnds text (place + 1) = breakEnds text place ++ [place + 1] := by
    rw [breakEnds, List.range_succ, List.filter_append, List.filter_singleton, h]
    rfl
  simp [locationAt, Location.nextLine, hends, Nat.add_assoc]

/-- A break of two characters ends once. -/
theorem locationAt_pair {text : List Char} {place : Nat}
    (hinside : endsBreak text (place + 1) = false) (hend : endsBreak text (place + 2) = true) :
    locationAt text (place + 2) = (locationAt text place).nextLine := by
  have hright : locationAt text (place + 1) = (locationAt text place).right 1 := by
    refine locationAt_add fun k hlt hle => ?_
    obtain rfl : k = place + 1 := by omega
    exact hinside
  rw [locationAt_succ hend, hright]
  rfl

/-! ### One piece -/

namespace Piece

/-- What a piece has to do with line ends, if `rest` follows it: a line break is a whole one, and
no other piece holds a line end. -/
def KeepsLines (p : Piece) (rest : List Char) : Prop :=
  if p.kind = .lineBreak then
    p.text = ['\r', '\n'] ∨ p.text = ['\n'] ∨ (p.text = ['\r'] ∧ rest.head? ≠ some '\n')
  else ∀ c ∈ p.text, isLineEnd c = false

end Piece

theorem getElem?_middle (front lexeme rest : List Char) {i : Nat} (h : i < lexeme.length) :
    (front ++ (lexeme ++ rest))[front.length + i]? = lexeme[i]? := by
  rw [List.getElem?_append_right (Nat.le_add_right _ _), Nat.add_sub_cancel_left,
    List.getElem?_append_left h]

theorem endsBreak_of_not_isLineEnd {text : List Char} {k : Nat} {c : Char}
    (hc : text[k]? = some c) (hend : isLineEnd c = false) : endsBreak text (k + 1) = false := by
  simp only [isLineEnd, Bool.or_eq_false_iff, decide_eq_false_iff_not] at hend
  simp [endsBreak, hc, hend.1, hend.2]

/-- A carriage return ends a break if no line feed follows. -/
theorem endsBreak_return (front : List Char) {rest : List Char} (h : rest.head? ≠ some '\n') :
    endsBreak (front ++ (['\r'] ++ rest)) (front.length + 1) = true := by
  have hnext : (front ++ (['\r'] ++ rest))[front.length + 1]? = rest.head? := by
    rw [List.getElem?_append_right (Nat.le_add_right _ _), Nat.add_sub_cancel_left]
    cases rest <;> rfl
  simp only [endsBreak, hnext]
  simpa using h

/-- Moving a location past a piece is counting on. -/
theorem after_locationAt {p : Piece} {rest : List Char} (h : p.KeepsLines rest) (front : List Char) :
    p.after (locationAt (front ++ (p.text ++ rest)) front.length) =
      locationAt (front ++ (p.text ++ rest)) (front.length + p.text.length) := by
  unfold Piece.KeepsLines at h
  split at h
  · rename_i hkind
    rw [Piece.after_of_lineBreak hkind]
    rcases h with htext | htext | ⟨htext, hrest⟩
    · rw [htext]
      exact (locationAt_pair (by simp [endsBreak]) (by simp [endsBreak])).symm
    · rw [htext]
      exact (locationAt_succ (by simp [endsBreak])).symm
    · rw [htext]
      exact (locationAt_succ (endsBreak_return front hrest)).symm
  · rename_i hkind
    rw [Piece.after_of_ne_lineBreak hkind, locationAt_add]
    intro k hlt hle
    obtain ⟨i, rfl⟩ : ∃ i, k = front.length + i + 1 := ⟨k - front.length - 1, by omega⟩
    have hi : i < p.text.length := by omega
    have hchar := (getElem?_middle front p.text rest hi).trans (List.getElem?_eq_getElem hi)
    exact endsBreak_of_not_isLineEnd hchar (h _ (List.getElem_mem hi))

/-! ### Every piece keeps lines -/

theorem isLineEnd_of_isNamePart {c : Char} (h : isNamePart c = true) : isLineEnd c = false := by
  simp [isLineEnd, ne_of_class h (d := '\n') rfl, ne_of_class h (d := '\r') rfl]

theorem isLineEnd_of_isDigit {c : Char} (h : isDigit c = true) : isLineEnd c = false :=
  isLineEnd_of_isNamePart (by rw [isNamePart, h, Bool.or_true])

theorem isLineEnd_of_isBlank {c : Char} (h : isBlank c = true) : isLineEnd c = false := by
  simp [isLineEnd, ne_of_class h (d := '\n') rfl, ne_of_class h (d := '\r') rfl]

/-- The characters of a word are none that end a line. -/
theorem isLineEnd_of_mem_word {c : Char} {cs : List Char} (hc : isNameStart c = true)
    (hcs : ∀ d ∈ cs, isNamePart d = true) : ∀ d ∈ c :: cs, isLineEnd d = false := by
  intro d hd
  rcases List.mem_cons.mp hd with rfl | hd
  · exact isLineEnd_of_isNamePart (by rw [isNamePart, hc, Bool.true_or])
  · exact isLineEnd_of_isNamePart (hcs d hd)

namespace Rule

/-- Only the pattern of line breaks matches a text with a line end. -/
theorem isLineEnd_of_mem {r : Rule} {w : List Char} (h : w ∈ r.pattern) (hr : r ≠ .lineBreak) :
    ∀ c ∈ w, isLineEnd c = false := by
  cases r with
  | blanks =>
      obtain ⟨c, cs, rfl, hc, hcs⟩ := mem_blanks.mp h
      intro d hd
      rcases List.mem_cons.mp hd with rfl | hd
      · exact isLineEnd_of_isBlank hc
      · exact isLineEnd_of_isBlank (hcs d hd)
  | comment =>
      obtain ⟨cs, rfl, hcs⟩ := mem_comment.mp h
      intro d hd
      rcases List.mem_cons.mp hd with rfl | hd
      · rfl
      · simpa using hcs d hd
  | lineBreak => exact absurd rfl hr
  | keyword k =>
      obtain ⟨c, cs, htext, hc, hcs⟩ := exists_cons_of_keyword k
      rw [(mem_exactly.mp h).trans htext]
      exact isLineEnd_of_mem_word hc hcs
  | name =>
      obtain ⟨c, cs, rfl, hc, hcs⟩ := mem_name.mp h
      exact isLineEnd_of_mem_word hc hcs
  | number =>
      intro d hd
      rcases mem_number.mp h with ⟨-, hw⟩ | ⟨whole, fraction, rfl, hwhole, hfraction⟩
      · exact isLineEnd_of_isDigit (hw d hd)
      · rcases List.mem_append.mp hd with hd | hd
        · exact isLineEnd_of_isDigit (hwhole d hd)
        rcases List.mem_cons.mp hd with rfl | hd
        · rfl
        · exact isLineEnd_of_isDigit (hfraction d hd)
  | symbol s =>
      intro d hd
      rw [mem_symbol.mp h, List.mem_singleton] at hd
      rw [hd]
      cases s <;> rfl

theorem kind_eq_lineBreak {r : Rule} {lexeme : List Char} :
    r.kind lexeme = .lineBreak ↔ r = .lineBreak := by
  cases r <;> simp [kind]

/-- What a rule takes keeps lines: a carriage return alone is the longest break only where no line
feed follows. -/
theorem Takes.keepsLines {r : Rule} {lexeme rest : List Char} (h : r.Takes lexeme rest) :
    Piece.KeepsLines ⟨r.kind lexeme, lexeme⟩ rest := by
  unfold Piece.KeepsLines
  by_cases hr : r = .lineBreak
  · subst hr
    rw [if_pos (show kind lexeme .lineBreak = .lineBreak from rfl)]
    rcases mem_lineBreak.mp h.isMatch with rfl | rfl | rfl
    · exact Or.inl rfl
    · exact Or.inr (Or.inl rfl)
    · refine Or.inr (Or.inr ⟨rfl, fun hhead => ?_⟩)
      obtain ⟨after, rfl⟩ := List.head?_eq_some_iff.mp hhead
      have hlength := h.longest .lineBreak ['\r', '\n'] (List.prefix_append _ after)
        (mem_lineBreak.mpr (Or.inl rfl))
      simp at hlength
  · rw [if_neg (mt kind_eq_lineBreak.mp hr)]
    exact isLineEnd_of_mem h.isMatch hr

end Rule

/-- A character that nothing matches ends no line. -/
theorem isLineEnd_of_unmatched {c : Char} {rest : List Char}
    (h : ∀ (r : Rule) (w : List Char), w <+: c :: rest → w ∉ r.pattern) : isLineEnd c = false := by
  by_contra hend
  rw [Bool.not_eq_false, isLineEnd, Bool.or_eq_true, decide_eq_true_eq, decide_eq_true_eq] at hend
  refine h .lineBreak [c] (List.prefix_append [c] rest) (Rule.mem_lineBreak.mpr ?_)
  rcases hend with rfl | rfl
  · exact Or.inr (Or.inl rfl)
  · exact Or.inr (Or.inr rfl)

theorem keepsLines_char {c : Char} {rest : List Char}
    (h : ∀ (r : Rule) (w : List Char), w <+: c :: rest → w ∉ r.pattern) :
    Piece.KeepsLines ⟨.token (.char c), [c]⟩ rest := by
  rw [Piece.KeepsLines, if_neg (by simp)]
  intro d hd
  rw [List.mem_singleton.mp hd]
  exact isLineEnd_of_unmatched h

/-! ### All pieces -/

/-- The pieces, each with the offset at which it starts if the first starts at `place`. -/
def Piece.placed (place : Nat) : List Piece → List (Nat × Piece)
  | [] => []
  | p :: ps => (place, p) :: placed (place + p.text.length) ps

/-- The token that a piece at an offset of a text is, with the location counted there. -/
def Piece.counted? (text : List Char) (here : Nat × Piece) : Option LocatedToken :=
  here.2.token?.map fun t => ⟨t, locationAt text here.1⟩

/-- A placed piece stands where it is placed. -/
theorem text_prefix_of_mem_placed (ps : List Piece) : ∀ (front : List Char),
    ∀ here ∈ Piece.placed front.length ps,
      here.2.text <+: (front ++ ps.flatMap Piece.text).drop here.1 := by
  induction ps with
  | nil => simp [Piece.placed]
  | cons p ps ih =>
      intro front here hhere
      rcases List.mem_cons.mp hhere with rfl | hhere
      · rw [List.drop_left, List.flatMap_cons]
        exact List.prefix_append _ _
      · rw [← List.length_append] at hhere
        have hprefix := ih (front ++ p.text) here hhere
        rwa [List.append_assoc, ← List.flatMap_cons] at hprefix

/-- Draining the pieces of the rest of a text gives the counted locations, whatever the text before
it is. -/
def DrainsCounted (rest : List Char) (ps : List Piece) : Prop :=
  ∀ front : List Char, (Scanner.drainFrom (locationAt (front ++ rest) front.length) ps).1 =
    (Piece.placed front.length ps).filterMap (Piece.counted? (front ++ rest)) ++
      [⟨.eof, locationAt (front ++ rest) (front ++ rest).length⟩]

theorem drainFrom_cons (loc : Location) (p : Piece) (ps : List Piece) :
    (Scanner.drainFrom loc (p :: ps)).1 =
      (p.token?.map fun t => ⟨t, loc⟩).toList ++ (Scanner.drainFrom (p.after loc) ps).1 := by
  cases hkind : p.kind <;> simp [Scanner.drainFrom, Piece.token?, hkind]

/-- One piece more in front. -/
theorem DrainsCounted.cons {p : Piece} {rest : List Char} {ps : List Piece}
    (hkeeps : p.KeepsLines rest) (h : DrainsCounted rest ps) :
    DrainsCounted (p.text ++ rest) (p :: ps) := by
  intro front
  have hrest := h (front ++ p.text)
  rw [List.append_assoc, List.length_append] at hrest
  rw [drainFrom_cons, after_locationAt hkeeps, hrest]
  cases htoken : p.token? <;> simp [Piece.placed, Piece.counted?, htoken]

/-- All pieces of a text. -/
theorem Munches.drainsCounted {text : List Char} {ps : List Piece} (h : Munches text ps) :
    DrainsCounted text ps := by
  induction h with
  | nil =>
      intro front
      rw [List.append_nil]
      rfl
  | rule takes _ ih => exact .cons takes.keepsLines ih
  | other unmatched _ ih => exact .cons (keepsLines_char unmatched) ih

/-- Every token of a source is at the location that counting from the start gives for the place of
its lexeme, and the end of the input is at that of the end.  A scanner that works on the text, with
its line and its remembered column, gives the same tokens at the same locations. -/
theorem tokensOf_eq_counted (source : String) :
    (∀ here ∈ Piece.placed 0 (Piece.pieces source.toList),
      here.2.text <+: source.toList.drop here.1) ∧
    tokensOf source =
      (Piece.placed 0 (Piece.pieces source.toList)).filterMap (Piece.counted? source.toList) ++
        [⟨.eof, locationAt source.toList source.toList.length⟩] ∧
    ∀ reach, (TextScanner.start.drain source.toList reach).1 = tokensOf source := by
  refine ⟨?_, (munches_pieces source.toList).drainsCounted [], fun reach => ?_⟩
  · have hprefix := text_prefix_of_mem_placed (Piece.pieces source.toList) []
    rwa [Piece.flatMap_text_pieces] at hprefix
  · exact ((TextScanner.follows_ofSource source).drain reach).1

end TallyLang
