/-
Reading by positions.

The readers hand on the tokens that are left.  Here the same is done with a position in
one list: a token is looked up where it is needed, a position past the end stands for the
last token, and the end of the input is not passed.  Such a walk can go wrong in ways that
the readers cannot.  It may look up a token that is not there, it may count fewer than
no open braces, and nothing makes it come to an end, so it is given a number of steps
that every loop and every call uses up.

`Traces` says that a walk comes to what a reader gives on the tokens from the position on.
It is shown for every part of a function, by induction on the steps, as long as there
are about two steps for each token that is left: a turn of the operator loop or an operand
passes a token, and a call that passes none is followed by one that does.

From this follows how the position moves (`Cursor.readFunction_walks`).
-/
import TallyLang.Proofs.ViablePrefix

namespace TallyLang

/-- What came of a walk, and the position it stopped at. -/
inductive Walk (α : Type) where
  | done (value : α) (pos : Nat)
  | failed (error : ParseError) (pos : Nat)
  /-- A token was looked up where there is none. -/
  | outside
  /-- A brace was closed when none was open. -/
  | belowZero
  /-- There were too few steps. -/
  | unfinished
deriving Repr

namespace Walk

variable {α β : Type}

/-- Walks on after a success. -/
def andThen (w : Walk α) (next : α → Nat → Walk β) : Walk β :=
  match w with
  | done value pos => next value pos
  | failed error pos => failed error pos
  | outside => outside
  | belowZero => belowZero
  | unfinished => unfinished

/-- Looks up the token at a position.  A position past the end stands for the last token. -/
def look (ts : List LocatedToken) (pos : Nat) (next : LocatedToken → Walk α) : Walk α :=
  match ts[min pos (ts.length - 1)]? with
  | some t => next t
  | none => outside

/-- The position after the token at a position.  The end of the input is not passed. -/
def advance (t : LocatedToken) (pos : Nat) : Nat := if t.token = .eof then pos else pos + 1

/-! ### The parts of a function -/

section

variable (ts : List LocatedToken)

/-- Passes the token `wanted`, which has to come first. -/
def token (wanted : Token) (part : Expectation) (pos : Nat) : Walk Unit :=
  look ts pos fun t =>
    if t.token = wanted then done () (advance t pos) else failed ⟨t.loc, .missing part⟩ pos

/-- Passes an identifier, which has to come first, and gives its name. -/
def ident (part : Expectation) (pos : Nat) : Walk String :=
  look ts pos fun t =>
    match t.token with
    | .ident name => done name (advance t pos)
    | _ => failed ⟨t.loc, .missing part⟩ pos

mutual

/-- Walks over an expression. -/
def expr : Nat → Nat → Walk Expr
  | 0, _ => unfinished
  | steps + 1, pos => (operand steps pos).andThen (tail steps 0)

/-- Continues `left` with the operators that bind at least as tightly as `least`. -/
def tail : Nat → Int → Expr → Nat → Walk Expr
  | 0, _, _, _ => unfinished
  | steps + 1, least, left, pos =>
    look ts pos fun t =>
      match operatorFrom? least [t] with
      | none => done left pos
      | some op =>
        (operand steps (advance t pos)).andThen fun right pos' =>
          look ts pos' fun t' =>
            if tighterFollows op [t'] then
              (tail steps (op.precedence + 1) right pos').andThen fun right' pos'' =>
                tail steps least (.bin op left right' t.loc) pos''
            else tail steps least (.bin op left right t.loc) pos'

/-- Walks over an operand. -/
def operand : Nat → Nat → Walk Expr
  | 0, _ => unfinished
  | steps + 1, pos =>
    look ts pos fun t =>
      match t.token with
      | .ident name => done (.var name) (advance t pos)
      | .number value => done (.num value) (advance t pos)
      | .symbol .openParen =>
        (expr steps (advance t pos)).andThen fun e pos' =>
          (token ts (.symbol .closeParen) .closeParen pos').andThen fun _ pos'' => done e pos''
      | .keyword .returnWord =>
        (expr steps (advance t pos)).andThen fun e pos' =>
          look ts pos' fun t' =>
            done (.ret e t.loc) (if t'.token = .symbol .semicolon then advance t' pos' else pos')
      | found => failed ⟨t.loc, .noOperand found⟩ pos

end

/-- Walks over the names after `names`, at least one of them. -/
def names : Nat → List String → Nat → Walk (List String)
  | 0, _, _ => unfinished
  | steps + 1, before, pos =>
    look ts pos fun t =>
      (ident ts .paramName pos).andThen fun name pos' =>
        if before.contains name then failed ⟨t.loc, .duplicateParam name⟩ pos'
        else
          look ts pos' fun t' =>
            if t'.token = .symbol .comma then
              look ts (advance t' pos') fun t'' =>
                if t''.token = .symbol .closeParen then done (before ++ [name]) (advance t' pos')
                else names steps (before ++ [name]) (advance t' pos')
            else done (before ++ [name]) pos'

/-- Walks over the parameters up to the closing parenthesis. -/
def params (steps pos : Nat) : Walk (List String) :=
  look ts pos fun t => if t.token = .symbol .closeParen then done [] pos else names ts steps [] pos

/-- Walks over what follows a return statement, with `depth` braces open, up to the brace that
closes the body. -/
def dead : Nat → Int → Nat → Walk Unit
  | 0, _, _ => unfinished
  | steps + 1, depth, pos =>
    look ts pos fun t =>
      match t.token with
      | .eof => done () pos
      | .symbol .openBrace => dead steps (depth + 1) (advance t pos)
      | .symbol .closeBrace =>
        if depth = 0 then done () pos
        else if depth - 1 < 0 then belowZero
        else dead steps (depth - 1) (advance t pos)
      | _ => dead steps depth (advance t pos)

/-- Walks over the statements of a body up to the closing brace. -/
def statements : Nat → Nat → Walk (List Expr)
  | 0, _ => unfinished
  | steps + 1, pos =>
    look ts pos fun t =>
      if bodyEnds [t] then done [] pos
      else
        (expr ts steps pos).andThen fun e pos' =>
          if e.isReturn then (dead ts steps 0 pos').andThen fun _ pos'' => done [e] pos''
          else
            (token ts (.symbol .semicolon) .semicolon pos').andThen fun _ pos'' =>
              (statements steps pos'').andThen fun es pos''' => done (e :: es) pos'''

/-- Walks over a function. -/
def function (steps pos : Nat) : Walk Function :=
  look ts pos fun t =>
  (token ts (.keyword .funcWord) .funcWord pos).andThen fun _ pos =>
  (ident ts .functionName pos).andThen fun name pos =>
  (token ts (.symbol .openParen) .openParams pos).andThen fun _ pos =>
  (params ts steps pos).andThen fun params pos =>
  (token ts (.symbol .closeParen) .closeParams pos).andThen fun _ pos =>
  (token ts (.symbol .openBrace) .openBody pos).andThen fun _ pos =>
  look ts pos fun body =>
  (statements ts steps pos).andThen fun stmts pos =>
  (token ts (.symbol .closeBrace) .closeBody pos).andThen fun _ pos =>
    done ⟨name, params, stmts, body.loc, t.loc⟩ pos

end

/-! ### What a position sees -/

/-- The tokens from a position on. -/
def view (ts : List LocatedToken) (pos : Nat) : List LocatedToken :=
  ts.drop (min pos (ts.length - 1))

theorem length_view_le (ts : List LocatedToken) (pos : Nat) :
    (view ts pos).length ≤ ts.length := by
  rw [view, List.length_drop]
  omega

section

variable {ts : List LocatedToken} {pos : Nat}

theorem getLast?_view (h : isClosed ts = true) (pos : Nat) :
    (view ts pos).getLast?.map LocatedToken.token = some .eof := by
  rw [isClosed, decide_eq_true_eq] at h
  have hlength : ¬ ts.length ≤ min pos (ts.length - 1) := by
    cases ts with
    | nil => cases h
    | cons t ts =>
        rw [List.length_cons]
        omega
  rw [view, List.getLast?_drop, if_neg hlength, h]

/-- A token is there wherever one is looked up. -/
theorem exists_view_eq_cons (h : isClosed ts = true) (pos : Nat) :
    ∃ t rest, view ts pos = t :: rest := by
  have hlast := getLast?_view h pos
  cases hview : view ts pos with
  | nil =>
      rw [hview] at hlast
      cases hlast
  | cons t rest => exact ⟨t, rest, rfl⟩

theorem length_view_pos (h : isClosed ts = true) (pos : Nat) : 0 < (view ts pos).length := by
  obtain ⟨t, rest, hview⟩ := exists_view_eq_cons h pos
  rw [hview]
  exact Nat.zero_lt_succ _

theorem look_eq {t : LocatedToken} {rest : List LocatedToken} (h : view ts pos = t :: rest)
    (next : LocatedToken → Walk α) : look ts pos next = next t := by
  have hhead := List.head?_drop (l := ts) (i := min pos (ts.length - 1))
  rw [show ts.drop (min pos (ts.length - 1)) = t :: rest from h, List.head?_cons] at hhead
  rw [look, ← hhead]

/-- After tokens that do not hold the end of the input, the position sees what follows them. -/
theorem view_add {passed rest : List LocatedToken} (h : isClosed ts = true)
    (hview : view ts pos = passed ++ rest) (hpassed : ∀ t ∈ passed, t.token ≠ .eof) :
    view ts (pos + passed.length) = rest := by
  have hne : rest ≠ [] := by
    rintro rfl
    have hlast := getLast?_view h pos
    rw [hview, List.append_nil, Option.map_eq_some_iff] at hlast
    obtain ⟨t, hlast, heof⟩ := hlast
    exact hpassed t (List.mem_of_getLast? hlast) heof
  have hlength := congrArg List.length hview
  rw [view, List.length_drop, List.length_append] at hlength
  have hpos := List.length_pos_iff.mpr hne
  have hmin : min (pos + passed.length) (ts.length - 1) =
      min pos (ts.length - 1) + passed.length := by
    omega
  rw [view] at hview
  rw [view, hmin, ← List.drop_drop, hview, List.drop_left]

end

/-! ### Walks that come to what a reader gives -/

/-- What a reader gives, with a position in place of the tokens left. -/
def ofReading (pos : Nat) : Reading α → Walk α
  | .done value _ => done value pos
  | .failed error _ => failed error pos

/-- The walk comes to what the reader gives on the tokens from the position on, and the position has
moved by the tokens that the reader has passed. -/
def Traces (ts : List LocatedToken) (pos : Nat) (r : Reading α) (w : Walk α) : Prop :=
  ∃ passed : List LocatedToken, (∀ t ∈ passed, t.token ≠ .eof) ∧ view ts pos = passed ++ r.rest ∧
    w = ofReading (pos + passed.length) r

namespace Traces

variable {ts : List LocatedToken} {pos : Nat}

/-- Nothing has been passed. -/
theorem stay {r : Reading α} (h : r.rest = view ts pos) : Traces ts pos r (ofReading pos r) :=
  ⟨[], by simp, by rw [h, List.nil_append], rfl⟩

/-- One token has been passed. -/
theorem cons {t : LocatedToken} {rest : List LocatedToken} {r : Reading α} {w : Walk α}
    (hclosed : isClosed ts = true) (hview : view ts pos = t :: rest) (ht : t.token ≠ .eof)
    (h : view ts (advance t pos) = rest → Traces ts (advance t pos) r w) : Traces ts pos r w := by
  have hsingle : ∀ u ∈ [t], u.token ≠ .eof := by simpa using ht
  have hadvance : advance t pos = pos + [t].length := if_neg ht
  have hsplit : view ts pos = [t] ++ rest := hview
  have hnext := view_add hclosed hsplit hsingle
  rw [hadvance] at h
  obtain ⟨passed, hpassed, hrest, hw⟩ := h hnext
  refine ⟨t :: passed, ?_, ?_, ?_⟩
  · intro u hu
    rcases List.mem_cons.mp hu with rfl | hu
    · exact ht
    · exact hpassed u hu
  · rw [hview, ← hnext, hrest, List.cons_append]
  · have hpos : pos + [t].length + passed.length = pos + (t :: passed).length := by
      simp
      omega
    rw [hw, hpos]

/-- One walk after another traces one reader after another. -/
theorem andThen {r : Reading α} {w : Walk α} {read : α → List LocatedToken → Reading β}
    {next : α → Nat → Walk β} (hclosed : isClosed ts = true) (h : Traces ts pos r w)
    (hnext : ∀ value rest pos', r = .done value rest → view ts pos' = rest →
      Traces ts pos' (read value rest) (next value pos')) :
    Traces ts pos (r.andThen read) (w.andThen next) := by
  obtain ⟨passed, hpassed, hrest, rfl⟩ := h
  cases r with
  | failed error rest => exact ⟨passed, hpassed, hrest, rfl⟩
  | done value rest =>
      obtain ⟨passed', hpassed', hrest', hw⟩ :=
        hnext value rest _ rfl (view_add hclosed hrest hpassed)
      rw [view_add hclosed hrest hpassed] at hrest'
      refine ⟨passed ++ passed', ?_, ?_, ?_⟩
      · intro t ht
        rcases List.mem_append.mp ht with ht | ht
        · exact hpassed t ht
        · exact hpassed' t ht
      · rw [hrest, hrest', List.append_assoc]
        rfl
      · rw [List.length_append, ← Nat.add_assoc]
        exact hw

theorem pass {t : LocatedToken} {rest : List LocatedToken} (hclosed : isClosed ts = true)
    (hview : view ts pos = t :: rest) (ht : t.token ≠ .eof) (value : α) :
    Traces ts pos (.done value rest) (done value (advance t pos)) :=
  cons hclosed hview ht fun hnext => stay hnext.symm

theorem fault {t : LocatedToken} {rest : List LocatedToken} (hview : view ts pos = t :: rest)
    (fault : ParseFault) :
    Traces ts pos (faultAt (t :: rest) fault : Reading α) (failed ⟨t.loc, fault⟩ pos) :=
  stay hview.symm

end Traces

section

variable {ts : List LocatedToken} (hclosed : isClosed ts = true)
include hclosed

theorem traces_token {wanted : Token} (hwanted : wanted ≠ .eof) (part : Expectation) (pos : Nat) :
    Traces ts pos (if headToken (view ts pos) = wanted then .done () (view ts pos).tail
      else faultAt (view ts pos) (.missing part)) (token ts wanted part pos) := by
  obtain ⟨t, rest, hview⟩ := exists_view_eq_cons hclosed pos
  rw [token, look_eq hview, hview, headToken, List.tail_cons]
  by_cases ht : t.token = wanted
  · rw [if_pos ht, if_pos ht]
    exact .pass hclosed hview (ht ▸ hwanted) ()
  · rw [if_neg ht, if_neg ht]
    exact .fault hview _

theorem traces_ident (part : Expectation) (pos : Nat) :
    Traces ts pos (expectIdent part (view ts pos)) (ident ts part pos) := by
  obtain ⟨⟨token, loc⟩, rest, hview⟩ := exists_view_eq_cons hclosed pos
  rw [ident, look_eq hview, hview]
  cases token with
  | ident name => exact .pass hclosed hview Token.noConfusion name
  | _ => exact .fault hview _

/-! ### Expressions -/

/-- An expression is walked over as `readExpr` reads it, if there are two steps for each token and
one more. -/
def TracesExpr (ts : List LocatedToken) (steps : Nat) : Prop :=
  ∀ pos, 2 * (view ts pos).length + 1 ≤ steps →
    Traces ts pos (readExpr (view ts pos)) (expr ts steps pos)

def TracesTail (ts : List LocatedToken) (steps : Nat) : Prop :=
  ∀ (least : Int) (left : Expr) (pos : Nat), 2 * (view ts pos).length ≤ steps →
    Traces ts pos (readTail least left (view ts pos)) (tail ts steps least left pos)

def TracesOperand (ts : List LocatedToken) (steps : Nat) : Prop :=
  ∀ pos, 2 * (view ts pos).length ≤ steps →
    Traces ts pos (readOperand (view ts pos)) (operand ts steps pos)

variable {steps : Nat}

theorem tracesExpr_succ (hoperand : TracesOperand ts steps) (htail : TracesTail ts steps) :
    TracesExpr ts (steps + 1) := by
  intro pos hsteps
  rw [expr, readExpr_eq]
  refine (hoperand pos (by omega)).andThen hclosed fun left rest pos' hread hview => ?_
  have hlength := length_lt_of_readOperand hread
  subst hview
  exact htail 0 left pos' (by omega)

theorem tracesTail_succ (hoperand : TracesOperand ts steps) (htail : TracesTail ts steps) :
    TracesTail ts (steps + 1) := by
  intro least left pos hsteps
  obtain ⟨t, rest, hview⟩ := exists_view_eq_cons hclosed pos
  rw [tail, look_eq hview, readTail_eq, hview]
  have hsame : operatorFrom? least (t :: rest) = operatorFrom? least [t] := rfl
  rw [hsame]
  cases hop : operatorFrom? least [t] with
  | none => exact .stay hview.symm
  | some op =>
      have ht : t.token ≠ .eof := by
        intro heof
        rw [operatorFrom?, headToken, heof] at hop
        cases hop
      refine .cons hclosed hview ht fun hnext => ?_
      rw [hview, List.length_cons, ← hnext] at hsteps
      simp only [List.tail_cons, headLoc]
      rw [← hnext]
      refine (hoperand _ (by omega)).andThen hclosed fun right rest' pos' hread hview' => ?_
      have hlength := length_lt_of_readOperand hread
      obtain ⟨t', rest'', hview''⟩ := exists_view_eq_cons hclosed pos'
      have hsame' : tighterFollows op (t' :: rest'') = tighterFollows op [t'] := rfl
      subst hview'
      rw [look_eq hview'', ← hsame', ← hview'']
      by_cases htighter : tighterFollows op (view ts pos') = true
      · rw [if_pos htighter, if_pos htighter]
        refine (htail _ _ pos' (by omega)).andThen hclosed fun right' rest3 pos3 hread3 hview3 => ?_
        have hlength3 := length_le_of_readTail hread3
        subst hview3
        exact htail _ _ pos3 (by omega)
      · rw [if_neg htighter, if_neg htighter]
        exact htail _ _ pos' (by omega)

theorem tracesOperand_succ (hexpr : TracesExpr ts steps) : TracesOperand ts (steps + 1) := by
  intro pos hsteps
  obtain ⟨⟨token, loc⟩, rest, hview⟩ := exists_view_eq_cons hclosed pos
  rw [hview, List.length_cons] at hsteps
  rw [operand, look_eq hview, readOperand_eq, hview]
  cases token with
  | ident name => exact .pass hclosed hview Token.noConfusion (Expr.var name)
  | number value => exact .pass hclosed hview Token.noConfusion (Expr.num value)
  | symbol mark =>
      cases mark with
      | openParen =>
          refine .cons hclosed hview Token.noConfusion fun hnext => ?_
          simp only [headToken, List.tail_cons]
          rw [← hnext] at hsteps ⊢
          refine (hexpr _ (by omega)).andThen hclosed fun e rest' pos' _ hview' => ?_
          subst hview'
          refine (traces_token hclosed Token.noConfusion _ pos').andThen hclosed
            fun _ rest'' pos'' _ hview'' => ?_
          exact .stay hview''.symm
      | _ => exact .fault hview _
  | keyword word =>
      cases word with
      | returnWord =>
          refine .cons hclosed hview Token.noConfusion fun hnext => ?_
          simp only [headToken, headLoc, List.tail_cons]
          rw [← hnext] at hsteps ⊢
          refine (hexpr _ (by omega)).andThen hclosed fun e rest' pos' _ hview' => ?_
          subst hview'
          obtain ⟨t', rest'', hview''⟩ := exists_view_eq_cons hclosed pos'
          rw [look_eq hview'', hview'', skipSymbol, headToken, List.tail_cons]
          by_cases hsemicolon : t'.token = .symbol .semicolon
          · rw [if_pos hsemicolon, if_pos hsemicolon]
            exact .pass hclosed hview'' (by rw [hsemicolon]; exact Token.noConfusion) _
          · rw [if_neg hsemicolon, if_neg hsemicolon]
            exact .stay hview''.symm
      | _ => exact .fault hview _
  | _ => exact .fault hview _

/-- There is always a token to see, so too few steps are none at all. -/
theorem traces_steps (steps : Nat) :
    TracesExpr ts steps ∧ TracesTail ts steps ∧ TracesOperand ts steps := by
  induction steps with
  | zero =>
      have hpos := length_view_pos hclosed
      refine ⟨fun pos hsteps => ?_, fun _ _ pos hsteps => ?_, fun pos hsteps => ?_⟩
      · omega
      · have := hpos pos
        omega
      · have := hpos pos
        omega
  | succ steps ih =>
      obtain ⟨hexpr, htail, hoperand⟩ := ih
      exact ⟨tracesExpr_succ hclosed hoperand htail, tracesTail_succ hclosed hoperand htail,
        tracesOperand_succ hclosed hexpr⟩

/-! ### Functions -/

omit hclosed in
theorem readNames_ident {t : LocatedToken} {name : String} (ht : t.token = .ident name)
    (before : List String) (rest : List LocatedToken) :
    readNames before (t :: rest) =
      if before.contains name then .failed ⟨t.loc, .duplicateParam name⟩ rest
      else if headToken rest = .symbol .comma then
        if headToken rest.tail = .symbol .closeParen then .done (before ++ [name]) rest.tail
        else readNames (before ++ [name]) rest.tail
      else .done (before ++ [name]) rest := by
  rw [readNames_eq]
  simp only [headToken, ht]
  rfl

theorem traces_names (steps : Nat) : ∀ (before : List String) (pos : Nat),
    (view ts pos).length ≤ steps →
    Traces ts pos (readNames before (view ts pos)) (names ts steps before pos) := by
  induction steps with
  | zero =>
      intro before pos hsteps
      exact absurd (length_view_pos hclosed pos) (Nat.not_lt_of_le hsteps)
  | succ steps ih =>
      intro before pos hsteps
      obtain ⟨t, rest, hview⟩ := exists_view_eq_cons hclosed pos
      rw [names, look_eq hview, ident, look_eq hview, hview]
      rw [hview, List.length_cons] at hsteps
      cases ht : t.token with
      | ident name =>
          rw [readNames_ident ht]
          refine .cons hclosed hview (by rw [ht]; exact Token.noConfusion) fun hnext => ?_
          simp only [andThen]
          by_cases hmem : before.contains name = true
          · rw [if_pos hmem, if_pos hmem]
            exact .stay hnext.symm
          rw [if_neg hmem, if_neg hmem]
          obtain ⟨t', rest', hview'⟩ := exists_view_eq_cons hclosed (advance t pos)
          have hrest : rest = t' :: rest' := hnext.symm.trans hview'
          subst hrest
          rw [look_eq hview']
          by_cases hcomma : t'.token = .symbol .comma
          · rw [if_pos (show headToken (t' :: rest') = _ from hcomma), if_pos hcomma,
              List.tail_cons]
            refine .cons hclosed hview' (by rw [hcomma]; exact Token.noConfusion) fun hnext' => ?_
            obtain ⟨t'', rest'', hview''⟩ :=
              exists_view_eq_cons hclosed (advance t' (advance t pos))
            have hrest' : rest' = t'' :: rest'' := hnext'.symm.trans hview''
            rw [look_eq hview'']
            by_cases hclose : t''.token = .symbol .closeParen
            · rw [if_pos hclose, if_pos (by rw [hrest']; exact hclose)]
              exact .stay hnext'.symm
            · rw [if_neg hclose, if_neg (by rw [hrest']; exact hclose), ← hnext']
              rw [List.length_cons, ← hnext'] at hsteps
              exact ih _ _ (by omega)
          · rw [if_neg (show headToken (t' :: rest') ≠ _ from hcomma), if_neg hcomma]
            exact .stay hview'.symm
      | _ =>
          rw [readNames_eq]
          simp only [headToken, ht]
          exact .fault hview _

theorem traces_params {steps : Nat} (pos : Nat) (hsteps : (view ts pos).length ≤ steps) :
    Traces ts pos (readParams (view ts pos)) (params ts steps pos) := by
  obtain ⟨t, rest, hview⟩ := exists_view_eq_cons hclosed pos
  have hhead : headToken (view ts pos) = t.token := by
    rw [hview]
    rfl
  rw [params, look_eq hview, readParams, hhead]
  by_cases hclose : t.token = .symbol .closeParen
  · rw [if_pos hclose, if_pos hclose]
    exact .stay rfl
  · rw [if_neg hclose, if_neg hclose]
    exact traces_names hclosed steps [] pos hsteps

/-- The depth is never below zero, since the walk stops at a brace that would bring it there. -/
theorem traces_dead (steps : Nat) : ∀ depth pos : Nat, (view ts pos).length ≤ steps →
    Traces ts pos (.done () (skipDead depth (view ts pos))) (dead ts steps depth pos) := by
  induction steps with
  | zero =>
      intro depth pos hsteps
      exact absurd (length_view_pos hclosed pos) (Nat.not_lt_of_le hsteps)
  | succ steps ih =>
      intro depth pos hsteps
      obtain ⟨⟨token, loc⟩, rest, hview⟩ := exists_view_eq_cons hclosed pos
      rw [hview, List.length_cons] at hsteps
      rw [dead, look_eq hview, hview]
      have hnext : ∀ depth' : Nat, token ≠ .eof →
          Traces ts pos (.done () (skipDead depth' rest))
            (dead ts steps depth' (advance ⟨token, loc⟩ pos)) := by
        intro depth' ht
        refine .cons hclosed hview ht fun hnext => ?_
        rw [← hnext] at hsteps ⊢
        exact ih depth' _ (by omega)
      split
      · rename_i ht
        cases ht
        exact .stay hview.symm
      · rename_i ht
        cases ht
        exact hnext (depth + 1) Token.noConfusion
      · rename_i ht
        cases ht
        cases depth with
        | zero => exact .stay hview.symm
        | succ depth =>
            have hdepth : ((depth + 1 : Nat) : Int) - 1 = depth := by omega
            rw [if_neg (by omega), if_neg (by omega), hdepth]
            exact hnext depth Token.noConfusion
      · rename_i heof hopen hclose
        rw [skipDead_token hopen hclose heof]
        exact hnext depth heof

theorem traces_statements (steps : Nat) : ∀ pos : Nat, 2 * (view ts pos).length + 2 ≤ steps →
    Traces ts pos (readStatements (view ts pos)) (statements ts steps pos) := by
  induction steps with
  | zero =>
      intro pos hsteps
      omega
  | succ steps ih =>
      intro pos hsteps
      obtain ⟨t, rest, hview⟩ := exists_view_eq_cons hclosed pos
      have hsame : bodyEnds (view ts pos) = bodyEnds [t] := by
        rw [hview]
        rfl
      rw [statements, look_eq hview, readStatements_eq, hsame]
      by_cases hends : bodyEnds [t] = true
      · rw [if_pos hends, if_pos hends]
        exact .stay rfl
      · rw [if_neg hends, if_neg hends]
        refine ((traces_steps hclosed steps).1 pos (by omega)).andThen hclosed
          fun e rest' pos' hread hview' => ?_
        have hlength := length_lt_of_readExpr hread
        subst hview'
        by_cases hret : e.isReturn = true
        · rw [if_pos hret, if_pos hret]
          show Traces ts pos' ((Reading.done () (skipDead 0 (view ts pos'))).andThen
            fun _ rest => .done [e] rest) _
          refine (traces_dead hclosed steps 0 pos' (by omega)).andThen hclosed
            fun _ rest'' pos'' _ hview'' => ?_
          exact .stay hview''.symm
        · rw [if_neg hret, if_neg hret]
          refine (traces_token hclosed Token.noConfusion _ pos').andThen hclosed
            fun _ rest'' pos'' hsemicolon hview'' => ?_
          have hlength' := length_lt_of_expectSymbol hsemicolon
          subst hview''
          refine (ih pos'' (by omega)).andThen hclosed fun es rest3 pos3 _ hview3 => ?_
          exact .stay hview3.symm

theorem traces_function {steps : Nat} (hsteps : 2 * ts.length + 2 ≤ steps) (pos : Nat) :
    Traces ts pos (readFunction (view ts pos)) (function ts steps pos) := by
  obtain ⟨t, rest, hview⟩ := exists_view_eq_cons hclosed pos
  have hloc : headLoc (view ts pos) = t.loc := by
    rw [hview]
    rfl
  have hlength : ∀ pos, 2 * (view ts pos).length + 2 ≤ steps := by
    intro pos
    have hle := length_view_le ts pos
    omega
  rw [function, look_eq hview, readFunction, hloc]
  refine (traces_token hclosed Token.noConfusion _ pos).andThen hclosed fun _ _ pos _ h => ?_
  subst h
  refine (traces_ident hclosed _ pos).andThen hclosed fun name _ pos _ h => ?_
  subst h
  refine (traces_token hclosed Token.noConfusion _ pos).andThen hclosed fun _ _ pos _ h => ?_
  subst h
  refine (traces_params hclosed pos (by have := hlength pos; omega)).andThen hclosed
    fun names _ pos _ h => ?_
  subst h
  refine (traces_token hclosed Token.noConfusion _ pos).andThen hclosed fun _ _ pos _ h => ?_
  subst h
  refine (traces_token hclosed Token.noConfusion _ pos).andThen hclosed fun _ _ pos _ h => ?_
  subst h
  obtain ⟨body, rest', hbody⟩ := exists_view_eq_cons hclosed pos
  have hbodyLoc : headLoc (view ts pos) = body.loc := by
    rw [hbody]
    rfl
  rw [look_eq hbody, hbodyLoc]
  refine (traces_statements hclosed steps pos (hlength pos)).andThen hclosed
    fun stmts _ pos _ h => ?_
  subst h
  refine (traces_token hclosed Token.noConfusion _ pos).andThen hclosed fun _ _ pos _ h => ?_
  exact .stay h.symm

end

/-- The walk that ends as a cursor does. -/
def ofCursor : Except ParseError α × Cursor → Walk α
  | (.ok value, c) => done value c.pos
  | (.error error, c) => failed error c.pos

theorem ofCursor_result (r : Reading α) (c : Cursor) :
    ofCursor (r.result, c) = ofReading c.pos r := by
  cases r <;> rfl

/-- A walk over an expression that succeeds has passed a token. -/
theorem lt_of_expr {ts : List LocatedToken} (hclosed : isClosed ts = true) {steps pos pos' : Nat}
    {e : Expr} (hsteps : 2 * ts.length + 1 ≤ steps) (h : expr ts steps pos = done e pos') :
    pos < pos' := by
  have hview := length_view_le ts pos
  obtain ⟨passed, -, hpassed, hwalk⟩ := (traces_steps hclosed steps).1 pos (by omega)
  rw [h] at hwalk
  cases hread : readExpr (view ts pos) with
  | failed error rest =>
      rw [hread] at hwalk
      cases hwalk
  | done e' rest =>
      have hlength := length_lt_of_readExpr hread
      rw [hread] at hwalk hpassed
      cases hwalk
      rw [hpassed, List.length_append] at hlength
      have hrest : (Reading.done e rest).rest.length = rest.length := rfl
      omega

end Walk

namespace Cursor

variable {c : Cursor}

/-- The tokens that a cursor sees in a list that ends in `eof`. -/
theorem ahead_eq_view (h : isClosed c.tokens = true) : c.ahead = Walk.view c.tokens c.pos := by
  rw [ahead, beyond, if_pos h, List.append_nil]
  rfl

/-- **Reading a function ends, goes forward and stays in the list.**  From any position in a list
that ends in `eof`, also from one past the end, a walk by positions comes to what the cursor
gives, if it has two steps for each token and two more: so it looks up no token outside of
the list, counts no braces below zero and comes to an end.  The tokens stay, the position
does not go back, and it does not pass an `eof`.  A walk over an expression that succeeds
passes a token.  And what is read, and how far the position moves, is the same for a cursor
of its own on the tokens that are seen. -/
theorem readFunction_walks (h : isClosed c.tokens = true) :
    (∀ steps, 2 * c.tokens.length + 2 ≤ steps →
      Walk.function c.tokens steps c.pos = Walk.ofCursor c.readFunction) ∧
    c.readFunction.2.tokens = c.tokens ∧ c.pos ≤ c.readFunction.2.pos ∧
    (∀ i t, min c.pos (c.tokens.length - 1) ≤ i → c.tokens[i]? = some t → t.token = .eof →
      min c.pos (c.tokens.length - 1) + (c.readFunction.2.pos - c.pos) ≤ i) ∧
    (∀ steps pos e pos', 2 * c.tokens.length + 1 ≤ steps →
      Walk.expr c.tokens steps pos = .done e pos' → pos < pos') ∧
    (ofTokens (c.tokens.drop (min c.pos (c.tokens.length - 1)))).readFunction =
      (c.readFunction.1, ⟨c.tokens.drop (min c.pos (c.tokens.length - 1)),
        c.readFunction.2.pos - c.pos⟩) := by
  obtain ⟨passed, hpassed, hview, -⟩ := Walk.traces_function h (Nat.le_refl _) c.pos
  have hcount : (Walk.view c.tokens c.pos).length -
      (TallyLang.readFunction (Walk.view c.tokens c.pos)).rest.length = passed.length := by
    have hlength := congrArg List.length hview
    rw [List.length_append] at hlength
    omega
  have hread : c.readFunction = ((TallyLang.readFunction (Walk.view c.tokens c.pos)).result,
      ⟨c.tokens, c.pos + passed.length⟩) := by
    rw [readFunction, ahead_eq_view h, ← hcount]
    rfl
  rw [hread]
  refine ⟨fun steps hsteps => ?_, rfl, Nat.le_add_right _ _, fun i t hi ht heof => ?_,
    fun steps pos e pos' => Walk.lt_of_expr h, ?_⟩
  · obtain ⟨passed', -, hview', hwalk⟩ := Walk.traces_function h hsteps c.pos
    rw [hwalk, Walk.ofCursor_result, List.append_cancel_right (hview'.symm.trans hview)]
  · show _ + (c.pos + passed.length - c.pos) ≤ i
    rw [Nat.add_sub_cancel_left]
    refine Nat.le_of_not_lt fun hlt => hpassed t ?_ heof
    -- the token would be one of those that were passed
    have hindex : min c.pos (c.tokens.length - 1) + (i - min c.pos (c.tokens.length - 1)) = i := by
      omega
    have hseen : (Walk.view c.tokens c.pos)[i - min c.pos (c.tokens.length - 1)]? = some t := by
      rw [Walk.view, List.getElem?_drop, hindex, ht]
    rw [hview, List.getElem?_append_left (by omega)] at hseen
    exact List.mem_of_getElem? hseen
  · show (ofTokens (Walk.view c.tokens c.pos)).readFunction =
      (_, ⟨Walk.view c.tokens c.pos, c.pos + passed.length - c.pos⟩)
    have hclosed : isClosed (Walk.view c.tokens c.pos) = true := by
      rw [isClosed, decide_eq_true_eq]
      exact Walk.getLast?_view h c.pos
    rw [readFunction_ofTokens hclosed, hcount, Nat.add_sub_cancel_left]

/-- `func f() {` and `}`, with an end of the input between them. -/
private def interrupted : List LocatedToken :=
  [⟨.keyword .funcWord, ⟨1, 1⟩⟩, ⟨.ident "f", ⟨1, 6⟩⟩, ⟨.symbol .openParen, ⟨1, 7⟩⟩,
    ⟨.symbol .closeParen, ⟨1, 8⟩⟩, ⟨.symbol .openBrace, ⟨1, 10⟩⟩, ⟨.eof, ⟨1, 11⟩⟩,
    ⟨.symbol .closeBrace, ⟨1, 12⟩⟩, ⟨.eof, ⟨1, 13⟩⟩]

/-- The walk stops at the first end, and from a position past the list it does not move. -/
theorem readFunction_walks_interrupted :
    isClosed interrupted = true ∧
    Walk.function interrupted 18 0 = .failed ⟨⟨1, 11⟩, .missing .closeBody⟩ 5 ∧
    Walk.function interrupted 18 40 = .failed ⟨⟨1, 13⟩, .missing .funcWord⟩ 40 ∧
    interrupted[5]? = some ⟨.eof, ⟨1, 11⟩⟩ ∧
    0 + ((readFunction ⟨interrupted, 0⟩).2.pos - 0) ≤ 5 ∧
    Walk.expr interrupted 17 1 = .done (.var "f") 2 ∧ 1 < 2 := by
  have hclosed : isClosed interrupted = true := rfl
  obtain ⟨hwalk, -, -, heof, hexpr, -⟩ := readFunction_walks (c := ⟨interrupted, 0⟩) hclosed
  obtain ⟨hpast, -⟩ := readFunction_walks (c := ⟨interrupted, 40⟩) hclosed
  have hvariable : Walk.expr interrupted 17 1 = .done (.var "f") 2 := rfl
  refine ⟨hclosed, ?_, ?_, rfl, heof 5 _ (by decide) rfl rfl, hvariable,
    hexpr 17 1 _ 2 (by decide) hvariable⟩
  · rw [hwalk 18 (by decide)]
    with_unfolding_all rfl
  · rw [hpast 18 (by decide)]
    with_unfolding_all rfl

end Cursor

end TallyLang
