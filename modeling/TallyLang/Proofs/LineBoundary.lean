/-
A line feed is a boundary that no token crosses.

What stands before a line feed and what stands after it are cut into pieces apart from
each other.  No class of characters that a piece is a run of holds the line feed, so a piece
that begins before it ends before it, whatever it is: a comment, half of a reserved
word, a number that ends in its point.  The one piece that can take the line feed in is a
carriage return right before it, and that is one line break with the line feed as it is
without it.

After the line feed the scanner is at the first column of some line.  Which line that is
only moves the locations down, so all that the second text has to know of the first is
the number of its line breaks.
-/
import TallyLang.Proofs.CountedLocations

namespace TallyLang

/-- The number of line breaks in a text; a carriage return with a line feed is one. -/
def lineBreaks (text : List Char) : Nat := (breakEnds text text.length).length

example : lineBreaks "a\r\r\nb\n".toList = 3 := by decide

/-! ### Cutting up to a line end -/

/-- Whether a text is at its end or at a line end. -/
def atLineEnd : List Char → Bool
  | [] => true
  | c :: _ => isLineEnd c

/-- A change of texts that begins at the first line end, or behind the last character. -/
structure KeepsFirstLine (g : List Char → List Char) : Prop where
  cons : ∀ {c : Char}, isLineEnd c = false → ∀ cs, g (c :: cs) = c :: g cs
  atEnd : ∀ {cs : List Char}, atLineEnd cs = true → atLineEnd (g cs) = true

theorem span_of_atLineEnd {p : Char → Bool} (hp : ∀ c, p c = true → isLineEnd c = false)
    {cs : List Char} (h : atLineEnd cs = true) : cs.takeWhile p = [] ∧ cs.dropWhile p = cs := by
  cases cs with
  | nil => exact ⟨rfl, rfl⟩
  | cons c cs =>
      have hc : ¬ p c = true := fun hc => absurd h (Bool.eq_false_iff.mp (hp c hc))
      simp [hc]

namespace KeepsFirstLine

variable {g : List Char → List Char}

/-- A run of a class without line ends stays, and only what follows it is changed. -/
theorem span (hg : KeepsFirstLine g) {p : Char → Bool} (hp : ∀ c, p c = true → isLineEnd c = false)
    (cs : List Char) :
    (g cs).takeWhile p = cs.takeWhile p ∧ (g cs).dropWhile p = g (cs.dropWhile p) := by
  induction cs with
  | nil => exact span_of_atLineEnd hp (hg.atEnd rfl)
  | cons c cs ih =>
      by_cases hend : atLineEnd (c :: cs) = true
      · obtain ⟨htake, hdrop⟩ := span_of_atLineEnd hp hend
        rw [htake, hdrop]
        exact span_of_atLineEnd hp (hg.atEnd hend)
      · have hcons := hg.cons (Bool.eq_false_iff.mpr hend) cs
        rw [hcons]
        by_cases hc : p c = true
        · simpa [hc] using ih
        · simp [hc, hcons]

/-- A piece that does not begin with a line end stays, and only what follows it is changed. -/
theorem cut (hg : KeepsFirstLine g) {c : Char} (hc : isLineEnd c = false) (cs : List Char) :
    Piece.cut c (g cs) = ((Piece.cut c cs).1, g (Piece.cut c cs).2) := by
  obtain ⟨hblank, hblank'⟩ := hg.span (fun _ => isLineEnd_of_isBlank) cs
  obtain ⟨hcomment, hcomment'⟩ := hg.span (p := (!isLineEnd ·)) (by simp) cs
  obtain ⟨hname, hname'⟩ := hg.span (fun _ => isLineEnd_of_isNamePart) cs
  obtain ⟨hdigit, hdigit'⟩ := hg.span (fun _ => isLineEnd_of_isDigit) cs
  have hfeed : c ≠ '\n' := by
    rintro rfl
    cases hc
  have hreturn : c ≠ '\r' := by
    rintro rfl
    cases hc
  unfold Piece.cut
  simp only [hblank, hblank', hcomment, hcomment', hname, hname', hdigit, hdigit', if_neg hfeed,
    if_neg hreturn]
  split
  · rfl
  split
  · rfl
  split
  · rfl
  split
  · -- the digits may end at a line end, at a point, or at something else
    generalize cs.dropWhile isDigit = rest
    by_cases hend : atLineEnd rest = true
    · have hnone : ∀ {ds : List Char}, atLineEnd ds = true → ∀ tail, ds ≠ '.' :: tail := by
        rintro ds hds tail rfl
        cases hds
      simp [hnone hend, hnone (hg.atEnd hend)]
    · cases rest with
      | nil => exact absurd rfl hend
      | cons d ds =>
          rw [hg.cons (Bool.eq_false_iff.mpr hend)]
          by_cases hd : d = '.'
          · subst hd
            obtain ⟨hfraction, hfraction'⟩ := hg.span (fun _ => isLineEnd_of_isDigit) ds
            simp [hfraction, hfraction']
          · simp [hd, hg.cons (Bool.eq_false_iff.mpr hend)]
  split
  · rfl
  · rfl

end KeepsFirstLine

theorem keepsFirstLine_append_feed (b : List Char) : KeepsFirstLine (· ++ '\n' :: b) := by
  refine ⟨fun _ _ => rfl, fun {cs} h => ?_⟩
  cases cs with
  | nil => rfl
  | cons c cs => exact h

/-- A piece that begins before a line feed is the same without it, unless it is a carriage return
next to it. -/
theorem Piece.cut_append_feed {c : Char} {cs : List Char} (h : ¬ (c = '\r' ∧ cs = []))
    (b : List Char) : cut c (cs ++ '\n' :: b) = ((cut c cs).1, (cut c cs).2 ++ '\n' :: b) := by
  by_cases hend : isLineEnd c = true
  · rw [isLineEnd, Bool.or_eq_true, decide_eq_true_eq, decide_eq_true_eq] at hend
    rcases hend with rfl | rfl
    · rfl
    · cases cs with
      | nil => exact absurd ⟨rfl, rfl⟩ h
      | cons d ds =>
          by_cases hd : d = '\n'
          · subst hd
            rfl
          · simp [cut, isBlank, hd]
  · exact (keepsFirstLine_append_feed b).cut (Bool.eq_false_iff.mpr hend) cs

/-! ### Locations further down -/

/-- The same column some lines further down. -/
def Location.down (lines : Nat) (loc : Location) : Location := ⟨loc.line + lines, loc.column⟩

/-- The token some lines further down. -/
def LocatedToken.down (lines : Nat) (t : LocatedToken) : LocatedToken :=
  ⟨t.token, t.loc.down lines⟩

theorem Piece.after_down (p : Piece) (lines : Nat) (loc : Location) :
    p.after (loc.down lines) = (p.after loc).down lines := by
  by_cases h : p.kind = .lineBreak
  · rw [after_of_lineBreak h, after_of_lineBreak h]
    simp [Location.down, Location.nextLine]
    omega
  · rw [after_of_ne_lineBreak h, after_of_ne_lineBreak h]
    simp [Location.down, Location.right]

/-- A scanner that starts further down finds every token further down. -/
theorem drainFrom_down (lines : Nat) (ps : List Piece) : ∀ loc : Location,
    (Scanner.drainFrom (loc.down lines) ps).1 =
      (Scanner.drainFrom loc ps).1.map (LocatedToken.down lines) := by
  induction ps with
  | nil =>
      intro loc
      rfl
  | cons p ps ih =>
      intro loc
      rw [drainFrom_cons, drainFrom_cons, p.after_down, ih, List.map_append]
      cases p.token? <;> rfl

/-! ### The boundary -/

theorem Piece.pieces_nil : pieces [] = [] := by
  rw [pieces]

/-- The tokens before a line feed are found whatever follows it, and what follows is read from the
first column of a line that does not depend on it. -/
def FeedDivides (a : List Char) : Prop :=
  ∀ loc : Location, ∃ (tokens : List LocatedToken) (eofLoc : Location) (line : Nat),
    (Scanner.drainFrom loc (Piece.pieces a)).1 = tokens ++ [⟨.eof, eofLoc⟩] ∧
    ∀ b : List Char, (Scanner.drainFrom loc (Piece.pieces (a ++ '\n' :: b))).1 =
      tokens ++ (Scanner.drainFrom ⟨line, 1⟩ (Piece.pieces b)).1

theorem feedDivides_nil : FeedDivides [] := by
  intro loc
  refine ⟨[], loc, loc.line + 1, by simp [Piece.pieces_nil, Scanner.drainFrom], fun b => ?_⟩
  rw [List.nil_append, Piece.pieces, drainFrom_cons]
  rfl

/-- A carriage return and the line feed are one break, as the return was alone. -/
theorem feedDivides_return : FeedDivides ['\r'] := by
  intro loc
  refine ⟨[], loc.nextLine, loc.line + 1, ?_, fun b => ?_⟩
  · rw [Piece.pieces, drainFrom_cons]
    show [] ++ (Scanner.drainFrom loc.nextLine (Piece.pieces [])).1 = _
    rw [Piece.pieces_nil]
    rfl
  · rw [List.singleton_append, Piece.pieces, drainFrom_cons]
    rfl

/-- One piece more in front. -/
theorem FeedDivides.cons {c : Char} {cs : List Char} (hfirst : ¬ (c = '\r' ∧ cs = []))
    (h : FeedDivides (Piece.cut c cs).2) : FeedDivides (c :: cs) := by
  intro loc
  obtain ⟨tokens, eofLoc, line, hbefore, hboth⟩ := h ((Piece.cut c cs).1.after loc)
  refine ⟨((Piece.cut c cs).1.token?.map fun t => ⟨t, loc⟩).toList ++ tokens, eofLoc, line, ?_, ?_⟩
  · rw [Piece.pieces, drainFrom_cons, hbefore, List.append_assoc]
  · intro b
    rw [List.cons_append, Piece.pieces, Piece.cut_append_feed hfirst, drainFrom_cons, hboth,
      List.append_assoc]

theorem feedDivides (a : List Char) : FeedDivides a := by
  fun_induction Piece.pieces a with
  | case1 => exact feedDivides_nil
  | case2 c cs ih =>
      by_cases hreturn : c = '\r' ∧ cs = []
      · obtain ⟨rfl, rfl⟩ := hreturn
        exact feedDivides_return
      · exact .cons hreturn ih

/-- The line after a line feed is the one that counting gives. -/
theorem line_eq_of_drainFrom {text : List Char} {tokens : List LocatedToken} {line : Nat}
    (h : (Scanner.drainFrom .start (Piece.pieces text)).1 = tokens ++ [⟨.eof, ⟨line, 1⟩⟩]) :
    line = 1 + lineBreaks text := by
  have hcounted := (munches_pieces text).drainsCounted []
  have hstart : locationAt ([] ++ text) ([] : List Char).length = .start := rfl
  rw [hstart, List.nil_append, h] at hcounted
  have hlast := (List.append_inj' hcounted rfl).2
  rw [List.singleton_inj, LocatedToken.mk.injEq] at hlast
  exact congrArg Location.line hlast.2

/-- **A line feed divides a source.**  The tokens are those of the part before it, without the end
of the input, and then those of the part after it, in the same columns and further down by the
number of line breaks up to and with the line feed. -/
theorem tokensOf_append_lineFeed (a b : String) :
    (tokensOf a).getLast?.map LocatedToken.token = some .eof ∧
      tokensOf (a ++ "\n" ++ b) = (tokensOf a).dropLast ++
        (tokensOf b).map (LocatedToken.down (lineBreaks (a ++ "\n").toList)) := by
  obtain ⟨tokens, eofLoc, line, hbefore, hboth⟩ := feedDivides a.toList .start
  have hfeed := hboth []
  rw [Piece.pieces_nil] at hfeed
  have hline : line = 1 + lineBreaks (a.toList ++ ['\n']) := line_eq_of_drainFrom hfeed
  have hstart : (⟨line, 1⟩ : Location) = Location.start.down (lineBreaks (a.toList ++ ['\n'])) := by
    rw [hline]
    rfl
  have ha : tokensOf a = tokens ++ [⟨.eof, eofLoc⟩] := hbefore
  have hall : tokensOf (a ++ "\n" ++ b) =
      (Scanner.drainFrom .start (Piece.pieces (a.toList ++ '\n' :: b.toList))).1 := by
    simp [tokensOf, Scanner.drain, Scanner.ofSource]
  refine ⟨by simp [ha], ?_⟩
  rw [hall, hboth, hstart, drainFrom_down, ha, List.dropLast_concat, String.toList_append]
  rfl

end TallyLang
