/-
Reading a function one token at a time.

The readers call each other, and what has to come after the part being read is kept
by their calls.  Here it is kept in a state, and every token takes one state to the
next, finishes the function, or stops with a fault.  `run_eq_readFunction` says that
this accepts and refuses the same lists of tokens, with the same error and the same
tokens left.

Two things are easy to see from the states that are hard to see from the calls: a
fault depends on no token after the one it is found at, and what can still follow.

Precedences do not matter here.  They decide which tree is built, but not whether
one is built, so the state only remembers which parentheses and returns are open.
It also remembers whether an expression is one return as a whole, because a statement
that is one needs no semicolon and ends the body.
-/
import TallyLang.Proofs.Grammar.Functions

namespace TallyLang

/-! ### States and steps -/

/-- A parenthesis or a return that has been opened.  `first` says that it stands first in the
expression that it belongs to. -/
inductive Frame where
  | paren (first : Bool)
  | ret (first : Bool)
deriving DecidableEq, Repr

/-- What has been read of a function. -/
inductive State where
  | funcWord
  | functionName
  | openParams
  /-- A further parameter or the end of the list, after the parameters `names`. -/
  | param (names : List String)
  | afterParam (names : List String)
  | openBody
  | statement
  /-- An operand has to come; `first` says that its expression begins with it. -/
  | operand (first : Bool) (frames : List Frame)
  /-- An operand has been read; `whole` says that its expression is one return so far. -/
  | operator (whole : Bool) (frames : List Frame)
  | dead (depth : Nat)
deriving DecidableEq, Repr

/-- What a token does.  A fault stops at its token, or right after it. -/
inductive Step where
  | moved (s : State)
  | finished
  | stopped (fault : ParseFault)
  | stoppedAfter (fault : ParseFault)
deriving DecidableEq, Repr

namespace State

/-- The step for a token that has to be the given one. -/
def expectStep (wanted : Token) (next : State) (part : Expectation) (t : Token) : Step :=
  if t = wanted then .moved next else .stopped (.missing part)

/-- The step for a parameter after the parameters `names`. -/
def nameStep (names : List String) : Token → Step
  | .ident name =>
    if names.contains name then .stoppedAfter (.duplicateParam name)
    else .moved (afterParam (names ++ [name]))
  | _ => .stopped (.missing .paramName)

/-- The step for a token after a return statement, with `depth` braces open. -/
def deadStep (depth : Nat) : Token → Step
  | .eof => .stopped (.missing .closeBody)
  | .symbol .openBrace => .moved (dead (depth + 1))
  | .symbol .closeBrace =>
    match depth with
    | 0 => .finished
    | depth + 1 => .moved (dead depth)
  | _ => .moved (dead depth)

/-- The step for the first token of an operand. -/
def operandStep (first : Bool) (frames : List Frame) : Token → Step
  | .ident _ => .moved (operator false frames)
  | .number _ => .moved (operator false frames)
  | .symbol .openParen => .moved (operand true (.paren first :: frames))
  | .keyword .returnWord => .moved (operand true (.ret first :: frames))
  | t => .stopped (.noOperand t)

/-- The step for a token that ends an expression.  A return takes a semicolon, and any other token
ends it together with the expression around it. -/
def endStep (t : Token) : Bool → List Frame → Step
  | whole, [] =>
    if whole then deadStep 0 t else expectStep (.symbol .semicolon) statement .semicolon t
  | whole, .paren first :: frames =>
    expectStep (.symbol .closeParen) (operator (first && whole) frames) .closeParen t
  | _, .ret first :: frames =>
    if t = .symbol .semicolon then .moved (operator first frames) else endStep t first frames

/-- The step for a token. -/
def step : State → Token → Step
  | funcWord, t => expectStep (.keyword .funcWord) functionName .funcWord t
  | functionName, .ident _ => .moved openParams
  | functionName, _ => .stopped (.missing .functionName)
  | openParams, t => expectStep (.symbol .openParen) (param []) .openParams t
  | param names, t => if t = .symbol .closeParen then .moved openBody else nameStep names t
  | afterParam names, t =>
    if t = .symbol .comma then .moved (param names)
    else expectStep (.symbol .closeParen) openBody .closeParams t
  | openBody, t => expectStep (.symbol .openBrace) statement .openBody t
  | statement, t =>
    if t = .symbol .closeBrace then .finished
    else if t = .eof then .stopped (.missing .closeBody)
    else operandStep true [] t
  | operand first frames, t => operandStep first frames t
  | operator whole frames, t =>
    if t.isOperator then .moved (operand false frames) else endStep t whole frames
  | dead depth, t => deadStep depth t

/-- Reads from a state on, until the function is finished or a token stops it. -/
def run : State → List LocatedToken → Reading Unit
  | s, [] =>
    match s.step .eof with
    | .stopped fault => faultAt [] fault
    | _ => .done () []
  | s, t :: ts =>
    match s.step t.token with
    | .moved s' => run s' ts
    | .finished => .done () ts
    | .stopped fault => faultAt (t :: ts) fault
    | .stoppedAfter fault => .failed ⟨t.loc, fault⟩ ts

theorem endStep_eof : ∀ (frames : List Frame) (whole : Bool),
    ∃ fault, endStep .eof whole frames = .stopped fault := by
  intro frames
  induction frames with
  | nil =>
      intro whole
      cases whole
      · exact ⟨_, rfl⟩
      · exact ⟨_, rfl⟩
  | cons frame frames ih =>
      intro whole
      cases frame with
      | paren first => exact ⟨_, rfl⟩
      | ret first => exact ih first

/-- No state passes the end of the input. -/
theorem step_eof (s : State) : ∃ fault, s.step .eof = .stopped fault := by
  cases s with
  | operator whole frames => exact endStep_eof frames whole
  | _ => exact ⟨_, rfl⟩

/-- One token, also where the list is at its end. -/
theorem run_eq (s : State) (ts : List LocatedToken) :
    s.run ts =
      match s.step (headToken ts) with
      | .moved s' => s'.run ts.tail
      | .finished => .done () ts.tail
      | .stopped fault => faultAt ts fault
      | .stoppedAfter fault => .failed ⟨headLoc ts, fault⟩ ts.tail := by
  cases ts with
  | nil =>
      obtain ⟨fault, hfault⟩ := s.step_eof
      simp only [run, headToken, hfault]
  | cons t ts => rfl

theorem run_of_moved {s s' : State} {ts : List LocatedToken}
    (h : s.step (headToken ts) = .moved s') : s.run ts = s'.run ts.tail := by
  rw [run_eq, h]

/-- States with the same step do the same. -/
theorem run_congr {s s' : State} {ts : List LocatedToken}
    (h : s.step (headToken ts) = s'.step (headToken ts)) : s.run ts = s'.run ts := by
  rw [run_eq, h, ← run_eq]

/-- Passing a token that has to come, as a reader does it. -/
theorem run_of_expectStep {s s' : State} {wanted : Token} {part : Expectation}
    {ts : List LocatedToken}
    (h : s.step (headToken ts) = expectStep wanted s' part (headToken ts)) :
    s.run ts = (if headToken ts = wanted then Reading.done () ts.tail
      else faultAt ts (.missing part)).andThen fun _ rest => s'.run rest := by
  rw [run_eq, h, expectStep]
  by_cases hhead : headToken ts = wanted
  · simp only [if_pos hhead, Reading.andThen_done]
  · simp only [if_neg hhead, andThen_faultAt]

/-! ### Expressions -/

/-- An operand is passed as `readOperand` passes it, with whatever is open around it. -/
def FollowsOperand (ts : List LocatedToken) : Prop :=
  ∀ (first : Bool) (frames : List Frame),
    (operand first frames).run ts = (readOperand ts).andThen fun e rest =>
      (operator (first && e.isReturn) frames).run rest

theorem run_operator_of_isOperator {whole : Bool} {frames : List Frame} {ts : List LocatedToken}
    (h : (headToken ts).isOperator = true) :
    (operator whole frames).run ts = (operand false frames).run ts.tail := by
  refine run_of_moved ?_
  simp [step, h]

theorem step_operator_of_not {whole : Bool} {frames : List Frame} {t : Token}
    (h : t.isOperator = false) : (operator whole frames).step t = endStep t whole frames := by
  simp [step, h]

/-- The loop takes operators and operands in turn.  How tightly they bind is of no importance: what
one turn leaves, the turn around it takes. -/
theorem run_operator_eq {ts : List LocatedToken}
    (hoperand : ∀ ts' : List LocatedToken, ts'.length < ts.length → FollowsOperand ts') :
    ∀ (first : Bool) (frames : List Frame) (least : Int) (left : Expr),
      (operator (first && left.isReturn) frames).run ts =
        (readTail least left ts).andThen fun e rest =>
          (operator (first && e.isReturn) frames).run rest := by
  induction hn : ts.length using Nat.strongRecOn generalizing ts with
  | _ n ih =>
      intro first frames least left
      cases hop : operatorFrom? least ts with
      | none =>
          rw [readTail_of_none left hop]
          rfl
      | some op =>
          have hlt := length_tail_lt_of_operator hop
          have hhead : (headToken ts).isOperator = true := by
            rw [isOperator_eq, (operatorFrom?_eq_some.mp hop).1]
            rfl
          rw [run_operator_of_isOperator hhead, hoperand ts.tail hlt, readTail_of_some left hop,
            readLayer]
          cases hright : readOperand ts.tail with
          | failed error rest => rfl
          | done right rest =>
              have hrest := length_lt_of_readOperand hright
              have hshorter : ∀ ts' : List LocatedToken, ts'.length < rest.length →
                  FollowsOperand ts' := fun ts' hts' => hoperand ts' (by omega)
              simp only [Reading.andThen]
              rw [ih rest.length (by omega) hshorter rfl false frames (op.precedence + 1) right]
              cases htail : readTail (op.precedence + 1) right rest with
              | failed error rest' => rfl
              | done right' rest' =>
                  have hrest' := length_le_of_readTail htail
                  have hbin : (false && right'.isReturn) =
                      (first && (Expr.bin op left right' (headLoc ts)).isReturn) := by
                    simp [Expr.isReturn]
                  simp only [Reading.andThen]
                  rw [hbin]
                  exact ih rest'.length (by omega) (fun ts' hts' => hoperand ts' (by omega)) rfl first
                    frames least _

/-- An expression is passed as `readExpr` passes it. -/
theorem run_operand_eq_readExpr {ts : List LocatedToken} (hoperand : FollowsOperand ts)
    (hshorter : ∀ ts' : List LocatedToken, ts'.length < ts.length → FollowsOperand ts')
    (frames : List Frame) :
    (operand true frames).run ts = (readExpr ts).andThen fun e rest =>
      (operator e.isReturn frames).run rest := by
  rw [hoperand, readExpr_eq]
  cases hleft : readOperand ts with
  | failed error rest => rfl
  | done left rest =>
      have hrest := length_lt_of_readOperand hleft
      exact run_operator_eq (fun ts' hts' => hshorter ts' (by omega)) true frames 0 left

theorem isOperator_of_readExpr {ts rest : List LocatedToken} {e : Expr}
    (h : readExpr ts = .done e rest) : (headToken rest).isOperator = false := by
  obtain ⟨_, _, _, hnext⟩ := readExpr_eq_done_iff.mp h
  exact hnext

/-- After an expression in parentheses comes the closing one. -/
theorem run_operator_paren {whole first : Bool} {frames : List Frame} {ts : List LocatedToken}
    (h : (headToken ts).isOperator = false) :
    (operator whole (.paren first :: frames)).run ts =
      (expectSymbol .closeParen .closeParen ts).andThen fun _ rest =>
        (operator (first && whole) frames).run rest := by
  rw [run_of_expectStep (step_operator_of_not h)]
  unfold expectSymbol
  by_cases hclose : headToken ts = .symbol .closeParen
  · simp only [if_pos hclose, Reading.andThen]
  · simp only [if_neg hclose, Reading.andThen, faultAt]

/-- A return passes a semicolon, and without one it ends with the expression around it. -/
theorem run_operator_ret {whole first : Bool} {frames : List Frame} {ts : List LocatedToken}
    (h : (headToken ts).isOperator = false) :
    (operator whole (.ret first :: frames)).run ts =
      (operator first frames).run (skipSymbol .semicolon ts) := by
  unfold skipSymbol
  by_cases hsemi : headToken ts = .symbol .semicolon
  · rw [if_pos hsemi]
    refine run_of_moved ?_
    rw [step_operator_of_not h, endStep, if_pos hsemi]
  · rw [if_neg hsemi]
    refine run_congr ?_
    rw [step_operator_of_not h, step_operator_of_not h, endStep, if_neg hsemi]

theorem followsOperand (ts : List LocatedToken) : FollowsOperand ts := by
  induction hn : ts.length using Nat.strongRecOn generalizing ts with
  | _ n ih =>
      intro first frames
      have hshorter : ∀ ts' : List LocatedToken, ts'.length < ts.length → FollowsOperand ts' :=
        fun ts' hts' => ih ts'.length (by omega) ts' rfl
      have hinner : ts.tail.length < ts.length → ∀ frames' : List Frame,
          (operand true frames').run ts.tail = (readExpr ts.tail).andThen fun e rest =>
            (operator e.isReturn frames').run rest := fun hlt frames' =>
        run_operand_eq_readExpr (hshorter ts.tail hlt)
          (fun ts' hts' => hshorter ts' (by omega)) frames'
      rw [readOperand_eq]
      split
      · rename_i name hhead
        have hstep : (operand first frames).step (headToken ts) = .moved (operator false frames) := by
          rw [hhead]
          rfl
        simp [run_of_moved hstep, Expr.isReturn]
      · rename_i value hhead
        have hstep : (operand first frames).step (headToken ts) = .moved (operator false frames) := by
          rw [hhead]
          rfl
        simp [run_of_moved hstep, Expr.isReturn]
      · rename_i hhead
        have hstep : (operand first frames).step (headToken ts) =
            .moved (operand true (.paren first :: frames)) := by
          rw [hhead]
          rfl
        rw [run_of_moved hstep, hinner (length_tail_lt_of_head hhead Token.noConfusion)]
        cases hexpr : readExpr ts.tail with
        | failed error rest => rfl
        | done e rest =>
            simp only [Reading.andThen_done, Reading.andThen_assoc]
            exact run_operator_paren (isOperator_of_readExpr hexpr)
      · rename_i hhead
        have hstep : (operand first frames).step (headToken ts) =
            .moved (operand true (.ret first :: frames)) := by
          rw [hhead]
          rfl
        rw [run_of_moved hstep, hinner (length_tail_lt_of_head hhead Token.noConfusion)]
        cases hexpr : readExpr ts.tail with
        | failed error rest => rfl
        | done e rest =>
            simp only [Reading.andThen_done, Expr.isReturn, Bool.and_true]
            exact run_operator_ret (isOperator_of_readExpr hexpr)
      · rename_i hident hnumber hparen hreturn
        have hstep : (operand first frames).step (headToken ts) =
            .stopped (.noOperand (headToken ts)) := by
          show operandStep first frames (headToken ts) = _
          unfold operandStep
          split
          · rename_i hhead
            exact absurd hhead (hident _)
          · rename_i hhead
            exact absurd hhead (hnumber _)
          · rename_i hhead
            exact absurd hhead hparen
          · rename_i hhead
            exact absurd hhead hreturn
          · rfl
        rw [run_eq, hstep]
        rfl

theorem run_operand_eq (ts : List LocatedToken) (frames : List Frame) :
    (operand true frames).run ts = (readExpr ts).andThen fun e rest =>
      (operator e.isReturn frames).run rest :=
  run_operand_eq_readExpr (followsOperand ts) (fun ts' _ => followsOperand ts') frames

/-! ### The body -/

theorem deadStep_token {t : Token} (hopen : t ≠ .symbol .openBrace)
    (hclose : t ≠ .symbol .closeBrace) (heof : t ≠ .eof) (depth : Nat) :
    deadStep depth t = .moved (dead depth) := by
  unfold deadStep
  split
  · exact absurd rfl heof
  · exact absurd rfl hopen
  · exact absurd rfl hclose
  · rfl

theorem run_dead_eq (ts : List LocatedToken) : ∀ depth : Nat,
    (dead depth).run ts = expectSymbol .closeBrace .closeBody (skipDead depth ts) := by
  induction ts with
  | nil =>
      intro depth
      rfl
  | cons t ts ih =>
      intro depth
      obtain ⟨token, loc⟩ := t
      by_cases heof : token = .eof
      · subst heof
        rfl
      by_cases hopen : token = .symbol .openBrace
      · subst hopen
        exact ih (depth + 1)
      by_cases hclose : token = .symbol .closeBrace
      · subst hclose
        cases depth with
        | zero => rfl
        | succ depth => exact ih depth
      · have hstep : (dead depth).step token = .moved (dead depth) :=
          deadStep_token hopen hclose heof depth
        rw [run_of_moved hstep, skipDead_token hopen hclose heof]
        exact ih depth

theorem run_statement_eq (ts : List LocatedToken) :
    statement.run ts = (readStatements ts).andThen fun _ rest =>
      expectSymbol .closeBrace .closeBody rest := by
  induction hn : ts.length using Nat.strongRecOn generalizing ts with
  | _ n ih =>
      rw [readStatements_eq]
      by_cases hends : bodyEnds ts = true
      · rw [if_pos hends, run_eq]
        simp only [bodyEnds, Bool.or_eq_true, decide_eq_true_eq] at hends
        rcases hends with hclose | heof
        · simp [hclose, step, Reading.andThen, expectSymbol]
        · simp [heof, step, Reading.andThen, expectSymbol]
      · rw [if_neg hends]
        have hsame : statement.run ts = (operand true []).run ts := by
          refine run_congr ?_
          simp only [bodyEnds, Bool.or_eq_true, decide_eq_true_eq, not_or] at hends
          simp only [step, if_neg hends.1, if_neg hends.2]
        rw [hsame, run_operand_eq]
        cases hexpr : readExpr ts with
        | failed error rest => rfl
        | done e rest =>
            have hnext := isOperator_of_readExpr hexpr
            have hlt := length_lt_of_readExpr hexpr
            simp only [Reading.andThen_done]
            by_cases hret : e.isReturn = true
            · have hdead : (operator true []).run rest = (dead 0).run rest :=
                run_congr (step_operator_of_not hnext)
              rw [if_pos hret, hret, hdead, run_dead_eq, Reading.andThen_done]
            · rw [if_neg hret, Bool.eq_false_iff.mpr hret,
                run_of_expectStep (step_operator_of_not hnext)]
              unfold expectSymbol
              by_cases hsemi : headToken rest = .symbol .semicolon
              · have hrest := length_tail_lt_of_head hsemi Token.noConfusion
                simp only [if_pos hsemi, Reading.andThen_done, Reading.andThen_assoc]
                exact ih rest.tail.length (by omega) rest.tail rfl
              · simp only [if_neg hsemi, andThen_faultAt]

/-! ### Parameters -/

/-- The rest of the list of parameters, its end and all that follows. -/
theorem run_param_eq (ts : List LocatedToken) : ∀ names : List String,
    (param names).run ts =
      (if headToken ts = .symbol .closeParen then .done names ts else readNames names ts).andThen
        fun _ rest => (expectSymbol .closeParen .closeParams rest).andThen fun _ rest' =>
          openBody.run rest' := by
  induction hn : ts.length using Nat.strongRecOn generalizing ts with
  | _ n ih =>
      intro names
      by_cases hclose : headToken ts = .symbol .closeParen
      · have hstep : (param names).step (headToken ts) = .moved openBody := if_pos hclose
        rw [if_pos hclose, run_of_moved hstep]
        simp [Reading.andThen, expectSymbol, hclose]
      · have hstep : (param names).step (headToken ts) = nameStep names (headToken ts) :=
          if_neg hclose
        rw [if_neg hclose, readNames_eq, run_eq, hstep]
        cases hhead : headToken ts with
        | ident name =>
            have hlt := length_tail_lt_of_head hhead Token.noConfusion
            simp only [nameStep]
            by_cases hmem : names.contains name = true
            · simp only [if_pos hmem, Reading.andThen]
            · simp only [if_neg hmem]
              by_cases hcomma : headToken ts.tail = .symbol .comma
              · have hnext : (afterParam (names ++ [name])).step (headToken ts.tail) =
                    .moved (param (names ++ [name])) := if_pos hcomma
                have hlt' := length_tail_lt_of_head hcomma Token.noConfusion
                rw [if_pos hcomma, run_of_moved hnext,
                  ih ts.tail.tail.length (by omega) ts.tail.tail rfl]
              · have hnext : (afterParam (names ++ [name])).step (headToken ts.tail) =
                    expectStep (.symbol .closeParen) openBody .closeParams (headToken ts.tail) :=
                  if_neg hcomma
                rw [if_neg hcomma, run_of_expectStep hnext]
                rfl
        | _ => rfl

/-! ### The function -/

/-- Reading token by token accepts what `readFunction` accepts, and stops with the same error at the
same place. -/
theorem run_eq_readFunction (ts : List LocatedToken) :
    funcWord.run ts = (readFunction ts).andThen fun _ rest => .done () rest := by
  have hname : ∀ ts : List LocatedToken, functionName.run ts =
      (expectIdent .functionName ts).andThen fun _ rest => openParams.run rest := by
    intro ts
    rw [run_eq, expectIdent]
    cases headToken ts <;> rfl
  have hbody : ∀ ts : List LocatedToken, openBody.run ts =
      (expectSymbol .openBrace .openBody ts).andThen fun _ rest => statement.run rest :=
    fun ts => run_of_expectStep rfl
  have hparams : ∀ ts : List LocatedToken, openParams.run ts =
      (expectSymbol .openParen .openParams ts).andThen fun _ rest => (param []).run rest :=
    fun ts => run_of_expectStep rfl
  have hfunc : funcWord.run ts =
      (expectKeyword .funcWord .funcWord ts).andThen fun _ rest => functionName.run rest :=
    run_of_expectStep rfl
  simp only [hfunc, hname, hparams, run_param_eq, hbody, run_statement_eq, readFunction,
    readParams, Reading.andThen_assoc, Reading.andThen_done, Reading.andThen_done_unit]

end State

theorem readFunction_eq_failed_iff {ts rest : List LocatedToken} {e : ParseError} :
    readFunction ts = .failed e rest ↔ State.funcWord.run ts = .failed e rest := by
  rw [State.run_eq_readFunction]
  cases readFunction ts with
  | done f rest' => simp
  | failed error rest' => simp

/-- Whether reading came to an end without a fault. -/
def Reading.isDone {α : Type} : Reading α → Bool
  | done _ _ => true
  | failed _ _ => false

theorem exists_parse_eq_ok_iff {ts : List LocatedToken} :
    (∃ f, parse ts = .ok f) ↔ (State.funcWord.run (closed ts)).isDone = true := by
  rw [State.run_eq_readFunction, parse]
  cases readFunction (closed ts) with
  | done f rest => simp [Reading.result, Reading.isDone]
  | failed error rest => simp [Reading.result, Reading.isDone]

end TallyLang
