/-
A parse error is found at the earliest token that can be at fault.

Reading goes from state to state, one token each, so what has been passed when an error
is found and the token it is found at decide the error.  And whatever has been
passed can still become a function: a state knows what is open, and
`State.completion` closes it.

The tokens passed before the error are therefore the start of some function, while
with the next token they are the start of none.
-/
import TallyLang.Cursor
import TallyLang.Proofs.Locations
import TallyLang.Proofs.Grammar.Stepwise

namespace TallyLang

namespace State

/-! ### Passing tokens -/

/-- The state after some tokens, if all of them are passed. -/
def after? : State → List LocatedToken → Option State
  | s, [] => some s
  | s, t :: ts =>
    match s.step t.token with
    | .moved s' => after? s' ts
    | _ => none

theorem run_append {passed : List LocatedToken} : ∀ {s s' : State}, s.after? passed = some s' →
    ∀ rest : List LocatedToken, s.run (passed ++ rest) = s'.run rest := by
  induction passed with
  | nil =>
      intro s s' h rest
      cases h
      rfl
  | cons t passed ih =>
      intro s s' h rest
      rw [after?] at h
      cases hstep : s.step t.token with
      | moved next =>
          rw [hstep] at h
          rw [List.cons_append, run, hstep]
          exact ih h rest
      | _ =>
          rw [hstep] at h
          cases h

end State

/-! ### Which faults pass their token -/

/-- The fault is a name that has been used already. -/
def ParseFault.isDuplicate : ParseFault → Bool
  | duplicateParam _ => true
  | _ => false

namespace State

/-- A step is in order if just the faults of repeated names pass their token. -/
def Orderly : Step → Prop
  | .stopped fault => fault.isDuplicate = false
  | .stoppedAfter fault => fault.isDuplicate = true
  | _ => True

theorem orderly_expectStep (wanted : Token) (next : State) (part : Expectation) (t : Token) :
    Orderly (expectStep wanted next part t) := by
  unfold expectStep
  split
  · trivial
  · rfl

theorem orderly_nameStep (names : List String) (t : Token) : Orderly (nameStep names t) := by
  unfold nameStep
  split
  · split
    · rfl
    · trivial
  · rfl

theorem orderly_deadStep (depth : Nat) (t : Token) : Orderly (deadStep depth t) := by
  unfold deadStep
  split
  · rfl
  · trivial
  · split
    · trivial
    · trivial
  · trivial

theorem orderly_operandStep (first : Bool) (frames : List Frame) (t : Token) :
    Orderly (operandStep first frames t) := by
  unfold operandStep
  split
  · trivial
  · trivial
  · trivial
  · trivial
  · rfl

theorem orderly_endStep (t : Token) (frames : List Frame) : ∀ whole : Bool,
    Orderly (endStep t whole frames) := by
  induction frames with
  | nil =>
      intro whole
      rw [endStep]
      split
      · exact orderly_deadStep 0 t
      · exact orderly_expectStep _ _ _ t
  | cons frame frames ih =>
      intro whole
      cases frame with
      | paren first => exact orderly_expectStep _ _ _ t
      | ret first =>
          rw [endStep]
          split
          · trivial
          · exact ih first

theorem orderly_step (s : State) (t : Token) : Orderly (s.step t) := by
  unfold step
  split
  · exact orderly_expectStep _ _ _ _
  · trivial
  · rfl
  · exact orderly_expectStep _ _ _ _
  · split
    · trivial
    · exact orderly_nameStep _ _
  · split
    · trivial
    · exact orderly_expectStep _ _ _ _
  · exact orderly_expectStep _ _ _ _
  · split
    · trivial
    · split
      · rfl
      · exact orderly_operandStep _ _ _
  · exact orderly_operandStep _ _ _
  · split
    · trivial
    · exact orderly_endStep _ _ _
  · exact orderly_deadStep _ _

/-! ### Where a run stops -/

/-- The token stops the state with the error. -/
def StopsAt (s : State) (t : LocatedToken) (e : ParseError) : Prop :=
  e.loc = t.loc ∧
    (s.step t.token = .stopped e.fault ∨ s.step t.token = .stoppedAfter e.fault)

/-- The tokens left when the error has been found at the token before `after`. -/
def leftAt (e : ParseError) (t : LocatedToken) (after : List LocatedToken) : List LocatedToken :=
  if e.fault.isDuplicate then after else t :: after

theorem StopsAt.run_eq {s : State} {t : LocatedToken} {e : ParseError} (h : s.StopsAt t e)
    (after : List LocatedToken) : s.run (t :: after) = .failed e (leftAt e t after) := by
  obtain ⟨loc, fault⟩ := e
  obtain ⟨hloc, hstep⟩ := h
  have horderly := s.orderly_step t.token
  simp only at hloc hstep
  rcases hstep with hstep | hstep
  · rw [hstep] at horderly
    have hdup : fault.isDuplicate = false := horderly
    simp [run, hstep, leftAt, hdup, hloc, faultAt, headLoc]
  · rw [hstep] at horderly
    have hdup : fault.isDuplicate = true := horderly
    simp [run, hstep, leftAt, hdup, hloc]

/-- A run that fails passes some tokens and is stopped by the next one. -/
theorem exists_stopsAt {ts : List LocatedToken} (heof : ∃ t ∈ ts, t.token = .eof) :
    ∀ {s : State} {e : ParseError} {rest : List LocatedToken}, s.run ts = .failed e rest →
      ∃ passed t after s', ts = passed ++ t :: after ∧ s.after? passed = some s' ∧
        s'.StopsAt t e := by
  induction ts with
  | nil =>
      obtain ⟨t, ht, -⟩ := heof
      cases ht
  | cons t ts ih =>
      intro s e rest h
      rw [run] at h
      cases hstep : s.step t.token with
      | moved next =>
          rw [hstep] at h
          have hrest : ∃ u ∈ ts, u.token = .eof := by
            obtain ⟨u, hu, hueof⟩ := heof
            rcases List.mem_cons.mp hu with rfl | hu
            · obtain ⟨fault, hfault⟩ := s.step_eof
              rw [hueof, hfault] at hstep
              cases hstep
            · exact ⟨u, hu, hueof⟩
          obtain ⟨passed, u, after, s', rfl, hafter, hstops⟩ := ih hrest h
          refine ⟨t :: passed, u, after, s', rfl, ?_, hstops⟩
          rw [after?, hstep]
          exact hafter
      | finished =>
          rw [hstep] at h
          cases h
      | stopped fault =>
          rw [hstep] at h
          cases h
          exact ⟨[], t, ts, s, rfl, rfl, rfl, Or.inl hstep⟩
      | stoppedAfter fault =>
          rw [hstep] at h
          cases h
          exact ⟨[], t, ts, s, rfl, rfl, rfl, Or.inr hstep⟩

/-! ### What is still possible -/

/-- Tokens that close what is open after an operand, and the body. -/
def closing : Bool → List Frame → List Token
  | whole, [] => if whole then [.symbol .closeBrace] else [.symbol .semicolon, .symbol .closeBrace]
  | whole, .paren first :: frames => .symbol .closeParen :: closing (first && whole) frames
  | _, .ret first :: frames => .symbol .semicolon :: closing first frames

/-- Tokens that complete the function. -/
def completion : State → List Token
  | funcWord => [.keyword .funcWord, .ident "f", .symbol .openParen, .symbol .closeParen,
      .symbol .openBrace, .symbol .closeBrace]
  | functionName => [.ident "f", .symbol .openParen, .symbol .closeParen, .symbol .openBrace,
      .symbol .closeBrace]
  | openParams => [.symbol .openParen, .symbol .closeParen, .symbol .openBrace, .symbol .closeBrace]
  | param _ => [.symbol .closeParen, .symbol .openBrace, .symbol .closeBrace]
  | afterParam _ => [.symbol .closeParen, .symbol .openBrace, .symbol .closeBrace]
  | openBody => [.symbol .openBrace, .symbol .closeBrace]
  | statement => [.symbol .closeBrace]
  | operand _ frames => .number ⟨0⟩ :: closing false frames
  | operator whole frames => closing whole frames
  | dead depth => List.replicate (depth + 1) (.symbol .closeBrace)

theorem run_closing (frames : List Frame) : ∀ (whole : Bool) (rest : List LocatedToken),
    (operator whole frames).run (atStart (closing whole frames) ++ rest) = .done () rest := by
  induction frames with
  | nil =>
      intro whole rest
      cases whole
      · rfl
      · rfl
  | cons frame frames ih =>
      intro whole rest
      cases frame with
      | paren first => exact ih (first && whole) rest
      | ret first => exact ih first rest

theorem run_replicate_closeBrace (depth : Nat) (rest : List LocatedToken) :
    (dead depth).run (atStart (List.replicate (depth + 1) (.symbol .closeBrace)) ++ rest) =
      .done () rest := by
  induction depth with
  | zero => rfl
  | succ depth ih => exact ih

/-- Every state can be completed. -/
theorem run_completion (s : State) (rest : List LocatedToken) :
    s.run (atStart s.completion ++ rest) = .done () rest := by
  cases s with
  | operand first frames => exact run_closing frames false rest
  | operator whole frames => exact run_closing frames whole rest
  | dead depth => exact run_replicate_closeBrace depth rest
  | _ => rfl

end State

/-! ### The cursor -/

theorem exists_eof_of_isClosed {ts : List LocatedToken} (h : isClosed ts = true) :
    ∃ t ∈ ts, t.token = .eof := by
  simp only [isClosed, decide_eq_true_eq, Option.map_eq_some_iff] at h
  obtain ⟨t, hlast, htoken⟩ := h
  exact ⟨t, List.mem_of_getLast? hlast, htoken⟩

/-- From the start of a list that ends in `eof`, the cursor moves by the tokens that are passed. -/
theorem readFunction_ofTokens {ts : List LocatedToken} (h : isClosed ts = true) :
    (Cursor.ofTokens ts).readFunction =
      ((readFunction ts).result, ⟨ts, ts.length - (readFunction ts).rest.length⟩) := by
  have hahead : (Cursor.ofTokens ts).ahead = ts := by
    simp [Cursor.ofTokens, Cursor.ahead, Cursor.beyond, closed_of_isClosed h, h]
  rw [Cursor.readFunction, hahead]
  simp [Cursor.ofTokens, Cursor.moveTo, closed_of_isClosed h]

/-- The place in the list of the token that an error is about: where the cursor stopped, or one
before if the token has been passed. -/
def Cursor.faultIndex (c : Cursor) (e : ParseError) : Nat :=
  if e.fault.isDuplicate then c.pos - 1 else c.pos

theorem ofTokens_closed (ts : List LocatedToken) :
    Cursor.ofTokens (closed ts) = Cursor.ofTokens ts := by
  rw [Cursor.ofTokens, Cursor.ofTokens, closed_of_isClosed (isClosed_closed ts)]

theorem Reading.eq_failed_of_result {α : Type} {r : Reading α} {e : ParseError}
    (h : r.result = .error e) : r = .failed e r.rest := by
  cases r with
  | done value rest => cases h
  | failed error rest =>
      cases h
      rfl

/-- When a list of tokens is stopped after `passed`, that is where the cursor ends and where the
fault is. -/
theorem readFunction_stopped {passed after : List LocatedToken} {t : LocatedToken} {s : State}
    {e : ParseError} (hclosed : isClosed (passed ++ t :: after) = true)
    (hpassed : State.funcWord.after? passed = some s) (hstops : s.StopsAt t e) :
    (Cursor.ofTokens (passed ++ t :: after)).readFunction =
      (.error e, ⟨passed ++ t :: after,
        if e.fault.isDuplicate then passed.length + 1 else passed.length⟩) := by
  have hrun : readFunction (passed ++ t :: after) = .failed e (State.leftAt e t after) := by
    rw [readFunction_eq_failed_iff, State.run_append hpassed, hstops.run_eq]
  rw [readFunction_ofTokens hclosed, hrun]
  by_cases hdup : e.fault.isDuplicate = true
  · simp [Reading.result, Reading.rest, State.leftAt, hdup]
    omega
  · simp [Reading.result, Reading.rest, State.leftAt, hdup]

/-- Lists that agree up to a token share it and what is before it. -/
theorem exists_append_of_agree {passed after us : List LocatedToken} {t : LocatedToken}
    (h : ∀ i ≤ passed.length, us[i]? = (passed ++ t :: after)[i]?) :
    ∃ after', us = passed ++ t :: after' := by
  refine ⟨us.drop (passed.length + 1), ?_⟩
  have htake : us.take (passed.length + 1) = (passed ++ t :: after).take (passed.length + 1) := by
    refine List.ext_getElem? fun i => ?_
    by_cases hi : i < passed.length + 1
    · rw [List.getElem?_take_of_lt hi, List.getElem?_take_of_lt hi]
      exact h i (by omega)
    · simp [List.getElem?_take_eq_none (Nat.le_of_not_lt hi)]
  have hword : (passed ++ t :: after).take (passed.length + 1) = passed ++ [t] := by
    simp [List.take_append, List.take_of_length_le]
  rw [hword] at htake
  have hsplit := List.take_append_drop (passed.length + 1) us
  rw [htake] at hsplit
  simpa using hsplit.symm

/-- **A parse error is found as early as it can be.**  It is placed at the token it is about; every
list with the same tokens up to that one fails in the same way at the same place; and
with other tokens from there on the list can be read. -/
theorem readFunction_fault_earliest {ts : List LocatedToken} {e : ParseError} {c : Cursor}
    (h : (Cursor.ofTokens ts).readFunction = (.error e, c)) :
    (closed ts)[c.faultIndex e]?.map LocatedToken.loc = some e.loc ∧
    (∀ us : List LocatedToken, isClosed us = true →
      (∀ i ≤ c.faultIndex e, us[i]? = (closed ts)[i]?) →
      (Cursor.ofTokens us).readFunction = (.error e, ⟨us, c.pos⟩)) ∧
    ∃ (us : List LocatedToken) (f : Function), isClosed us = true ∧
      (∀ i < c.faultIndex e, us[i]? = (closed ts)[i]?) ∧ parse us = .ok f := by
  have hclosed := isClosed_closed ts
  have hread := readFunction_ofTokens hclosed
  rw [ofTokens_closed, h] at hread
  have hfailed := Reading.eq_failed_of_result (congrArg Prod.fst hread).symm
  obtain ⟨passed, t, after, s, hts, hpassed, hstops⟩ :=
    State.exists_stopsAt (exists_eof_of_isClosed hclosed) (readFunction_eq_failed_iff.mp hfailed)
  rw [← ofTokens_closed] at h
  rw [hts] at h hclosed ⊢
  rw [readFunction_stopped hclosed hpassed hstops] at h
  cases h
  have hindex : Cursor.faultIndex ⟨passed ++ t :: after,
      if e.fault.isDuplicate then passed.length + 1 else passed.length⟩ e = passed.length := by
    unfold Cursor.faultIndex
    by_cases hdup : e.fault.isDuplicate = true <;> simp [hdup]
  rw [hindex]
  refine ⟨by simp [hstops.1], ?_, ?_⟩
  · intro us hus hagree
    obtain ⟨after', rfl⟩ := exists_append_of_agree hagree
    exact readFunction_stopped hus hpassed hstops
  · let us := passed ++ (atStart s.completion ++ [⟨.eof, .start⟩])
    have hus : isClosed us = true := by
      simp only [us, ← List.append_assoc]
      exact isClosed_append_eof _ _
    have hrun : State.funcWord.run us = .done () [⟨.eof, .start⟩] := by
      rw [State.run_append hpassed, State.run_completion]
    obtain ⟨f, hf⟩ : ∃ f, parse us = .ok f := by
      rw [exists_parse_eq_ok_iff, closed_of_isClosed hus, hrun]
      rfl
    refine ⟨us, f, hus, ?_, hf⟩
    intro i hi
    simp [us, List.getElem?_append_left hi]

/-- `func f(a, a) { }`, a function that names a parameter twice. -/
private def twiceNamed : List LocatedToken :=
  [⟨.keyword .funcWord, ⟨1, 1⟩⟩, ⟨.ident "f", ⟨1, 6⟩⟩, ⟨.symbol .openParen, ⟨1, 7⟩⟩,
    ⟨.ident "a", ⟨1, 8⟩⟩, ⟨.symbol .comma, ⟨1, 9⟩⟩, ⟨.ident "a", ⟨1, 11⟩⟩,
    ⟨.symbol .closeParen, ⟨1, 12⟩⟩, ⟨.symbol .openBrace, ⟨1, 14⟩⟩, ⟨.symbol .closeBrace, ⟨1, 16⟩⟩,
    ⟨.eof, ⟨1, 17⟩⟩]

theorem readFunction_fault_earliest_twiceNamed :
    (Cursor.ofTokens twiceNamed).readFunction =
      (.error ⟨⟨1, 11⟩, .duplicateParam "a"⟩, ⟨twiceNamed, 6⟩) ∧
    twiceNamed[5]?.map LocatedToken.loc = some ⟨1, 11⟩ ∧
    (∀ us : List LocatedToken, isClosed us = true → (∀ i ≤ 5, us[i]? = twiceNamed[i]?) →
      (Cursor.ofTokens us).readFunction = (.error ⟨⟨1, 11⟩, .duplicateParam "a"⟩, ⟨us, 6⟩)) ∧
    ∃ (us : List LocatedToken) (f : Function), isClosed us = true ∧
      (∀ i < 5, us[i]? = twiceNamed[i]?) ∧ parse us = .ok f := by
  have hread : (Cursor.ofTokens twiceNamed).readFunction =
      (.error ⟨⟨1, 11⟩, .duplicateParam "a"⟩, ⟨twiceNamed, 6⟩) := by
    with_unfolding_all rfl
  exact ⟨hread, readFunction_fault_earliest hread⟩

end TallyLang
