/-
The style of line endings is invisible.

A source may end its lines with a line feed, with a carriage return, or with both, and may
mix them.  `withFeeds` writes all of them as line feeds.  That changes the offsets of
everything behind a pair, but no token and no location: what stands between two line ends
stays as it is, and each line end stays one line break, whatever stands next to it.  Checking
and compiling see nothing of a source but its tokens, so the errors are the same too, and at
the same places.
-/
import TallyLang.Compiler
import TallyLang.Proofs.LineBoundary

namespace TallyLang

/-- The text with a line feed for every carriage return and for every pair of a carriage return
and a line feed. -/
def withFeeds : List Char → List Char
  | '\r' :: '\n' :: cs => '\n' :: withFeeds cs
  | '\r' :: cs => '\n' :: withFeeds cs
  | c :: cs => c :: withFeeds cs
  | [] => []

-- a pair is one line end, a carriage return before it is another
example : withFeeds "a\n\r# b\r\r\nc\r".toList = "a\n\n# b\n\nc\n".toList := by decide

theorem withFeeds_cons {c : Char} (h : c ≠ '\r') (cs : List Char) :
    withFeeds (c :: cs) = c :: withFeeds cs := by
  rw [withFeeds]
  · rintro cs' rfl
    exact absurd rfl h
  · exact h

theorem withFeeds_return {cs : List Char} (h : ∀ after, cs ≠ '\n' :: after) :
    withFeeds ('\r' :: cs) = '\n' :: withFeeds cs := by
  rw [withFeeds]
  intro after hafter
  exact h after hafter

theorem keepsFirstLine_withFeeds : KeepsFirstLine withFeeds := by
  refine ⟨fun {c} hc cs => withFeeds_cons ?_ cs, fun {cs} h => ?_⟩
  · rintro rfl
    cases hc
  · fun_cases withFeeds cs with
    | case1 cs => rfl
    | case2 cs _ => rfl
    | case3 c cs _ _ => exact h
    | case4 => rfl

/-- A carriage return that no line feed follows is a line break by itself. -/
theorem Piece.cut_return {cs : List Char} (h : ∀ after, cs ≠ '\n' :: after) :
    cut '\r' cs = (⟨.lineBreak, ['\r']⟩, cs) := by
  -- the first case of the match is refuted by `h`
  simp [cut, isBlank]

/-- A line end becomes a line feed, and what follows its line break is changed by itself. -/
theorem withFeeds_lineEnd {c : Char} (h : isLineEnd c = true) (cs : List Char) :
    (Piece.cut c cs).1.kind = .lineBreak ∧
      withFeeds (c :: cs) = '\n' :: withFeeds (Piece.cut c cs).2 := by
  rw [isLineEnd, Bool.or_eq_true, decide_eq_true_eq, decide_eq_true_eq] at h
  rcases h with rfl | rfl
  · exact ⟨rfl, withFeeds_cons (by decide) cs⟩
  · by_cases hpair : ∃ after, cs = '\n' :: after
    · obtain ⟨after, rfl⟩ := hpair
      exact ⟨rfl, by rw [withFeeds]; rfl⟩
    · have halone : ∀ after, cs ≠ '\n' :: after := fun after hafter => hpair ⟨after, hafter⟩
      rw [Piece.cut_return halone]
      exact ⟨rfl, withFeeds_return halone⟩

/-- A line break is no token, and the next line follows it. -/
theorem drainFrom_lineBreak {p : Piece} (h : p.kind = .lineBreak) (loc : Location)
    (ps : List Piece) :
    (Scanner.drainFrom loc (p :: ps)).1 = (Scanner.drainFrom loc.nextLine ps).1 := by
  rw [drainFrom_cons, Piece.after_of_lineBreak h, Piece.token?, h]
  rfl

/-- Two scanners, one in the text and one in the changed text, stay in step. -/
theorem drainFrom_withFeeds (text : List Char) : ∀ loc : Location,
    (Scanner.drainFrom loc (Piece.pieces (withFeeds text))).1 =
      (Scanner.drainFrom loc (Piece.pieces text)).1 := by
  fun_induction Piece.pieces text with
  | case1 =>
      intro loc
      rw [withFeeds, Piece.pieces_nil]
  | case2 c cs ih =>
      intro loc
      by_cases hend : isLineEnd c = true
      · obtain ⟨hkind, htext⟩ := withFeeds_lineEnd hend cs
        rw [htext, Piece.pieces, drainFrom_lineBreak hkind]
        exact ih loc.nextLine
      · rw [Bool.not_eq_true] at hend
        rw [keepsFirstLine_withFeeds.cons hend, Piece.pieces, keepsFirstLine_withFeeds.cut hend,
          drainFrom_cons, drainFrom_cons, ih]

/-- The source with a line feed for each of its line ends. -/
def lineFed (source : String) : String := String.ofList (withFeeds source.toList)

/-- **The style of line endings is invisible.**  A source with line feeds for its line ends has
the same tokens at the same locations, and it is checked and compiled with the same result, be
it a function, its code, or an error and its location. -/
theorem lineFed_invisible (source : String) :
    tokensOf (lineFed source) = tokensOf source ∧ check (lineFed source) = check source ∧
      compile (lineFed source) = compile source := by
  have htokens : tokensOf (lineFed source) = tokensOf source := by
    have hstep := drainFrom_withFeeds source.toList .start
    simpa [tokensOf, Scanner.drain, Scanner.ofSource, lineFed] using hstep
  have hcheck : check (lineFed source) = check source := congrArg parse htokens
  refine ⟨htokens, hcheck, ?_⟩
  rw [compile, compile, hcheck]

end TallyLang
