/-
The plain grammar of functions, and which of its words are read.

This is the grammar as one writes it down: an operand may be a return, a return may
end in a semicolon, an expression statement ends in one, and a body is any sequence of
statements.  Its trees show what was written, so each has just one text, while a text
may have several trees: nothing says which return a semicolon belongs to, nor
how far a return reaches.

The reader has to decide.  It gives a semicolon to the innermost return that is
open, and an operator to the return before it.  This can take away the semicolon that an
expression statement needs: `1 + return 2;` is a statement of the plain grammar,
but it is read as `1 + (return 2;)` with nothing to end it.  `parse_isOk_iff_readable`
says that nothing else can go wrong.
-/
import TallyLang.Proofs.Grammar.Stepwise

namespace TallyLang

namespace Plain

/-! ### The trees and their tokens -/

/-- The mark `t`, where one has been put. -/
def optional (t : Token) (loc? : Option Location) : List LocatedToken :=
  loc?.toList.map fun loc => ⟨t, loc⟩

/-- An expression in a layer. -/
inductive Phrase : Layer → Type where
  | number (value : Binary64) (loc : Location) : Phrase .primary
  | name (text : String) (loc : Location) : Phrase .primary
  | paren (loc : Location) (inner : Phrase .comparison) (loc' : Location) : Phrase .primary
  | ret (loc : Location) (value : Phrase .comparison) (semicolon? : Option Location) :
      Phrase .primary
  | lift {layer : Layer} (operand : Phrase layer.tighter) : Phrase layer
  | binary {layer : Layer} (symbol : Symbol) (op : Operator)
      (written : (symbol, op) ∈ layer.operators) (loc : Location) (left : Phrase layer)
      (right : Phrase layer.tighter) : Phrase layer

namespace Phrase

/-- The text of an expression. -/
def tokens {layer : Layer} : Phrase layer → List LocatedToken
  | number value loc => [⟨.number value, loc⟩]
  | name text loc => [⟨.ident text, loc⟩]
  | paren loc inner loc' =>
    ⟨.symbol .openParen, loc⟩ :: (inner.tokens ++ [⟨.symbol .closeParen, loc'⟩])
  | ret loc value semicolon? =>
    ⟨.keyword .returnWord, loc⟩ :: (value.tokens ++ optional (.symbol .semicolon) semicolon?)
  | lift operand => operand.tokens
  | binary symbol _ _ loc left right => left.tokens ++ ⟨.symbol symbol, loc⟩ :: right.tokens

/-- How many returns outside of parentheses have no semicolon of their own. -/
def openReturns {layer : Layer} : Phrase layer → Nat
  | number _ _ => 0
  | name _ _ => 0
  | paren _ _ _ => 0
  | ret _ value none => value.openReturns + 1
  | ret _ value (some _) => value.openReturns
  | lift operand => operand.openReturns
  | binary _ _ _ _ left right => left.openReturns + right.openReturns

/-- Whether the expression is read as one return.  An operator goes to a return before it that is
still open. -/
def isReturn {layer : Layer} : Phrase layer → Bool
  | number _ _ => false
  | name _ _ => false
  | paren _ inner _ => inner.isReturn
  | ret _ _ _ => true
  | lift operand => operand.isReturn
  | binary _ _ _ _ left _ => left.isReturn && decide (left.openReturns ≠ 0)

end Phrase

/-- A statement. -/
inductive Statement where
  | ret (loc : Location) (value : Phrase .comparison) (semicolon? : Option Location)
  | expr (e : Phrase .comparison) (loc : Location)

/-- The text of a statement. -/
def Statement.tokens : Statement → List LocatedToken
  | ret loc value semicolon? => (Phrase.ret loc value semicolon?).tokens
  | expr e loc => e.tokens ++ [⟨.symbol .semicolon, loc⟩]

/-- One or more names with commas between them, and possibly one after them. -/
structure Names where
  first : String × Location
  /-- Each further name comes after a comma. -/
  more : List (Location × String × Location)
  trailing? : Option Location

namespace Names

/-- The names alone. -/
def names (ps : Names) : List String := ps.first.1 :: ps.more.map fun p => p.2.1

/-- The text of the names. -/
def tokens (ps : Names) : List LocatedToken :=
  ⟨.ident ps.first.1, ps.first.2⟩ ::
    (ps.more.flatMap (fun p => [⟨.symbol .comma, p.1⟩, ⟨.ident p.2.1, p.2.2⟩]) ++
      optional (.symbol .comma) ps.trailing?)

end Names

/-- A function, with the places of its fixed words and marks. -/
structure Program where
  funcLoc : Location
  name : String × Location
  openLoc : Location
  params? : Option Names
  closeLoc : Location
  braceLoc : Location
  body : List Statement
  endLoc : Location

namespace Program

/-- The names of the parameters. -/
def params (p : Program) : List String := (p.params?.map Names.names).getD []

/-- The text of a function. -/
def tokens (p : Program) : List LocatedToken :=
  ⟨.keyword .funcWord, p.funcLoc⟩ :: ⟨.ident p.name.1, p.name.2⟩ ::
    ⟨.symbol .openParen, p.openLoc⟩ :: ((p.params?.map Names.tokens).getD [] ++
      ⟨.symbol .closeParen, p.closeLoc⟩ :: ⟨.symbol .openBrace, p.braceLoc⟩ ::
        (p.body.flatMap Statement.tokens ++ [⟨.symbol .closeBrace, p.endLoc⟩]))

end Program

/-- Whether the reader gets through the statements.  It looks at none after one that is a return, and
before that every expression statement has to keep its semicolon. -/
def readable : List Statement → Bool
  | [] => true
  | .ret _ _ _ :: _ => true
  | .expr e _ :: rest => e.isReturn || (e.openReturns = 0 && readable rest)

/-! ### Passing an expression -/

/-- Whether the expression is one return when the returns that are open in it end.  They end from
the last to the first, and `firsts` says which of them began their expression. -/
def settled : Bool → List Bool → Bool
  | whole, [] => whole
  | _, first :: firsts => settled first firsts

theorem settled_append (firsts firsts' : List Bool) : ∀ whole : Bool,
    settled whole (firsts ++ firsts') = settled (settled whole firsts) firsts' := by
  induction firsts with
  | nil =>
      intro whole
      rfl
  | cons first firsts ih =>
      intro whole
      exact ih first

/-- Any token but a semicolon ends the returns that are open. -/
theorem endStep_rets {t : Token} (ht : t ≠ .symbol .semicolon) (frames : List Frame)
    (firsts : List Bool) : ∀ whole : Bool,
    State.endStep t whole (firsts.map .ret ++ frames) =
      State.endStep t (settled whole firsts) frames := by
  induction firsts with
  | nil =>
      intro whole
      rfl
  | cons first firsts ih =>
      intro whole
      rw [List.map_cons, List.cons_append, State.endStep, if_neg ht, ih]
      rfl

/-- A semicolon ends the return opened last. -/
theorem run_semicolon (whole first : Bool) (firsts : List Bool) (frames : List Frame)
    (loc : Location) (rest : List LocatedToken) :
    (State.operator whole ((first :: firsts).map .ret ++ frames)).run
        (⟨.symbol .semicolon, loc⟩ :: rest) =
      (State.operator first (firsts.map .ret ++ frames)).run rest := rfl

theorem run_operator_symbol {layer : Layer} {symbol : Symbol} {op : Operator}
    (h : (symbol, op) ∈ layer.operators) (whole : Bool) (frames : List Frame) (loc : Location)
    (rest : List LocatedToken) :
    (State.operator whole frames).run (⟨.symbol symbol, loc⟩ :: rest) =
      (State.operand false frames).run rest := by
  refine State.run_operator_of_isOperator ?_
  rw [isOperator_eq]
  show (Operator.ofToken? (.symbol symbol)).isSome = true
  rw [(ofToken?_of_mem h).1]
  rfl

/-- The expression is passed, and the returns that it left open stay open. -/
def Passes {layer : Layer} (p : Phrase layer) : Prop :=
  ∀ (first : Bool) (frames : List Frame), ∃ (whole : Bool) (firsts : List Bool),
    firsts.length = p.openReturns ∧ settled whole firsts = (first && p.isReturn) ∧
    ∀ rest : List LocatedToken, (State.operand first frames).run (p.tokens ++ rest) =
      (State.operator whole (firsts.map .ret ++ frames)).run rest

/-- A closing parenthesis ends all returns that are open inside. -/
theorem passes_paren {inner : Phrase .comparison} (h : Passes inner) (loc loc' : Location) :
    Passes (.paren loc inner loc') := by
  intro first frames
  obtain ⟨whole, firsts, -, hsettled, hrun⟩ := h true (.paren first :: frames)
  refine ⟨first && inner.isReturn, [], rfl, rfl, fun rest => ?_⟩
  have hstep : (State.operator whole (firsts.map .ret ++ .paren first :: frames)).step
      (.symbol .closeParen) = .moved (.operator (first && inner.isReturn) frames) := by
    rw [State.step_operator_of_not rfl, endStep_rets (by simp), hsettled, Bool.true_and]
    rfl
  calc (State.operand first frames).run ((Phrase.paren loc inner loc').tokens ++ rest)
      = (State.operand true (.paren first :: frames)).run
          (inner.tokens ++ ⟨.symbol .closeParen, loc'⟩ :: rest) := by
        simp [Phrase.tokens, State.run, State.step, State.operandStep]
    _ = _ := hrun _
    _ = (State.operator (first && inner.isReturn) frames).run rest := State.run_of_moved hstep

/-- A semicolon after a return goes to the last return that is open, which need not be this one. -/
theorem passes_ret {value : Phrase .comparison} (h : Passes value) (loc : Location)
    (semicolon? : Option Location) : Passes (.ret loc value semicolon?) := by
  intro first frames
  obtain ⟨whole, firsts, hlength, -, hrun⟩ := h true (.ret first :: frames)
  have hopen : ∀ rest : List LocatedToken,
      (State.operand first frames).run ((Phrase.ret loc value semicolon?).tokens ++ rest) =
        (State.operator whole ((firsts ++ [first]).map .ret ++ frames)).run
          (optional (.symbol .semicolon) semicolon? ++ rest) := by
    intro rest
    rw [List.map_append, List.append_assoc, List.map_singleton, List.singleton_append, ← hrun]
    simp [Phrase.tokens, State.run, State.step, State.operandStep]
  have hsettled : settled whole (firsts ++ [first]) = first := by
    rw [settled_append]
    rfl
  cases semicolon? with
  | none =>
      refine ⟨whole, firsts ++ [first], by simp [Phrase.openReturns, hlength], ?_, hopen⟩
      simp [hsettled, Phrase.isReturn]
  | some loc' =>
      cases hfirsts : firsts ++ [first] with
      | nil => simp at hfirsts
      | cons last others =>
          have hothers : others.length = firsts.length := by
            have := congrArg List.length hfirsts
            simp at this
            omega
          rw [hfirsts] at hopen hsettled
          refine ⟨last, others, by rw [hothers, hlength]; rfl, ?_, fun rest => ?_⟩
          · rw [Phrase.isReturn, Bool.and_true]
            exact hsettled
          · rw [hopen]
            exact run_semicolon whole last others frames loc' rest

/-- The returns that the left operand has left open take the operator. -/
theorem passes_binary {layer : Layer} {symbol : Symbol} {op : Operator}
    (written : (symbol, op) ∈ layer.operators) (loc : Location) {left : Phrase layer}
    {right : Phrase layer.tighter} (hleft : Passes left) (hright : Passes right) :
    Passes (.binary symbol op written loc left right) := by
  intro first frames
  obtain ⟨whole, firsts, hlength, hsettled, hrun⟩ := hleft first frames
  obtain ⟨whole', firsts', hlength', hsettled', hrun'⟩ :=
    hright false (firsts.map .ret ++ frames)
  refine ⟨whole', firsts' ++ firsts, ?_, ?_, fun rest => ?_⟩
  · simp [Phrase.openReturns, hlength, hlength']
    omega
  · rw [settled_append, hsettled', Phrase.isReturn, ← hlength]
    cases firsts with
    | nil => simp [settled]
    | cons f fs => simpa [settled] using hsettled
  · calc (State.operand first frames).run
          ((Phrase.binary symbol op written loc left right).tokens ++ rest)
        = (State.operand first frames).run
            (left.tokens ++ ⟨.symbol symbol, loc⟩ :: (right.tokens ++ rest)) := by
          simp [Phrase.tokens]
      _ = (State.operator whole (firsts.map .ret ++ frames)).run
            (⟨.symbol symbol, loc⟩ :: (right.tokens ++ rest)) := hrun _
      _ = (State.operand false (firsts.map .ret ++ frames)).run (right.tokens ++ rest) :=
          run_operator_symbol written _ _ _ _
      _ = _ := hrun' _
      _ = (State.operator whole' ((firsts' ++ firsts).map .ret ++ frames)).run rest := by
          rw [List.map_append, List.append_assoc]

theorem run_phrase {layer : Layer} (p : Phrase layer) : Passes p := by
  induction p with
  | number value loc =>
      intro first frames
      refine ⟨false, [], rfl, by simp [settled, Phrase.isReturn], fun rest => ?_⟩
      simp [Phrase.tokens, State.run, State.step, State.operandStep]
  | name text loc =>
      intro first frames
      refine ⟨false, [], rfl, by simp [settled, Phrase.isReturn], fun rest => ?_⟩
      simp [Phrase.tokens, State.run, State.step, State.operandStep]
  | paren loc inner loc' ih => exact passes_paren ih loc loc'
  | ret loc value semicolon? ih => exact passes_ret ih loc semicolon?
  | lift operand ih => exact ih
  | binary symbol op written loc left right ihleft ihright =>
      exact passes_binary written loc ihleft ihright

/-! ### Passing the body -/

/-- A token that an operand can begin with. -/
def opensOperand : Token → Bool
  | .ident _ | .number _ | .symbol .openParen | .keyword .returnWord => true
  | _ => false

theorem Phrase.opensOperand_head {layer : Layer} (p : Phrase layer) :
    ∀ rest : List LocatedToken, opensOperand (headToken (p.tokens ++ rest)) = true := by
  induction p with
  | lift operand ih => exact ih
  | binary symbol op written loc left right ihleft ihright =>
      intro rest
      rw [Phrase.tokens, List.append_assoc]
      exact ihleft _
  | _ =>
      intro rest
      rw [Phrase.tokens]
      rfl

theorem isInline_of_mem_operators {layer : Layer} {symbol : Symbol} {op : Operator}
    (h : (symbol, op) ∈ layer.operators) : (Token.symbol symbol).isInline = true := by
  cases layer <;> simp [Layer.operators] at h
  · simp [Token.isInline, h]
  · rcases h with h | h <;> simp [Token.isInline, h]
  · rcases h with h | h <;> simp [Token.isInline, h]

/-- There are no braces in an expression. -/
theorem Phrase.isInline_of_mem {layer : Layer} (p : Phrase layer) :
    ∀ t ∈ p.tokens, t.token.isInline = true := by
  induction p with
  | number value loc =>
      intro t ht
      rw [List.mem_singleton.mp ht]
      rfl
  | name text loc =>
      intro t ht
      rw [List.mem_singleton.mp ht]
      rfl
  | paren loc inner loc' ih =>
      intro t ht
      simp only [Phrase.tokens, List.mem_cons, List.mem_append, List.not_mem_nil, or_false] at ht
      rcases ht with rfl | ht | rfl
      · rfl
      · exact ih t ht
      · rfl
  | ret loc value semicolon? ih =>
      intro t ht
      simp only [Phrase.tokens, List.mem_cons, List.mem_append] at ht
      rcases ht with rfl | ht | ht
      · rfl
      · exact ih t ht
      · obtain ⟨loc', -, rfl⟩ := List.mem_map.mp ht
        rfl
  | lift operand ih => exact ih
  | binary symbol op written loc left right ihleft ihright =>
      intro t ht
      simp only [Phrase.tokens, List.mem_cons, List.mem_append] at ht
      rcases ht with ht | rfl | ht
      · exact ihleft t ht
      · exact isInline_of_mem_operators written
      · exact ihright t ht

theorem Statement.isInline_of_mem (s : Statement) : ∀ t ∈ s.tokens, t.token.isInline = true := by
  cases s with
  | ret loc value semicolon? => exact Phrase.isInline_of_mem _
  | expr e loc =>
      intro t ht
      simp only [Statement.tokens, List.mem_append, List.mem_singleton] at ht
      rcases ht with ht | rfl
      · exact e.isInline_of_mem t ht
      · rfl

/-- After a return nothing is looked at but braces. -/
theorem run_dead_append {word : List LocatedToken} (h : ∀ t ∈ word, t.token.isInline = true)
    (rest : List LocatedToken) : (State.dead 0).run (word ++ rest) = (State.dead 0).run rest := by
  rw [State.run_dead_eq, State.run_dead_eq, (balanced_of_isInline h).skipDead_append]

/-- The tokens of a body from some statement on. -/
def bodyTokens (stmts : List Statement) (loc : Location) (rest : List LocatedToken) :
    List LocatedToken :=
  stmts.flatMap Statement.tokens ++ ⟨.symbol .closeBrace, loc⟩ :: rest

/-- A body goes on with an operand, or it ends. -/
theorem head_bodyTokens (stmts : List Statement) (loc : Location) (rest : List LocatedToken) :
    (headToken (bodyTokens stmts loc rest)).isOperator = false ∧
      headToken (bodyTokens stmts loc rest) ≠ .symbol .semicolon := by
  have hopens : ∀ t : Token, opensOperand t = true →
      t.isOperator = false ∧ t ≠ .symbol .semicolon := by
    intro t ht
    unfold opensOperand at ht
    split at ht
    · simp [Token.isOperator]
    · simp [Token.isOperator]
    · simp [Token.isOperator]
    · simp [Token.isOperator]
    · cases ht
  cases stmts with
  | nil => exact ⟨rfl, by simp [bodyTokens, headToken]⟩
  | cons s stmts =>
      rw [bodyTokens, List.flatMap_cons, List.append_assoc]
      cases s with
      | ret loc value semicolon? => exact hopens _ (Phrase.opensOperand_head _ _)
      | expr e loc =>
          rw [Statement.tokens, List.append_assoc]
          exact hopens _ (e.opensOperand_head _)

/-- Where a statement ends and the next one begins, the returns that are open end. -/
theorem run_rets_bodyTokens (whole : Bool) (firsts : List Bool) (stmts : List Statement)
    (loc : Location) (rest : List LocatedToken) :
    (State.operator whole (firsts.map .ret ++ [])).run (bodyTokens stmts loc rest) =
      if settled whole firsts then (State.dead 0).run (bodyTokens stmts loc rest)
      else faultAt (bodyTokens stmts loc rest) (.missing .semicolon) := by
  obtain ⟨hoperator, hsemi⟩ := head_bodyTokens stmts loc rest
  have hstep : (State.operator whole (firsts.map .ret ++ [])).step
      (headToken (bodyTokens stmts loc rest)) =
        State.endStep (headToken (bodyTokens stmts loc rest)) (settled whole firsts) [] := by
    rw [State.step_operator_of_not hoperator, endStep_rets hsemi]
  by_cases hsettled : settled whole firsts = true
  · rw [if_pos hsettled]
    refine State.run_congr ?_
    rw [hstep, State.endStep, if_pos hsettled]
    rfl
  · rw [if_neg hsettled, State.run_eq, hstep, State.endStep, if_neg hsettled, State.expectStep,
      if_neg hsemi]

theorem run_statement_of_opensOperand {ts : List LocatedToken}
    (h : opensOperand (headToken ts) = true) :
    State.statement.run ts = (State.operand true []).run ts := by
  refine State.run_congr ?_
  have hclose : headToken ts ≠ .symbol .closeBrace := by
    intro hhead
    rw [hhead] at h
    cases h
  have heof : headToken ts ≠ .eof := by
    intro hhead
    rw [hhead] at h
    cases h
  simp only [State.step, if_neg hclose, if_neg heof]

/-- A return statement ends the reading of the body. -/
theorem run_retStatement (loc' : Location) (value : Phrase .comparison)
    (semicolon? : Option Location) (stmts : List Statement) (loc : Location)
    (rest : List LocatedToken) :
    State.statement.run ((Phrase.ret loc' value semicolon?).tokens ++ bodyTokens stmts loc rest) =
      (State.dead 0).run (bodyTokens stmts loc rest) := by
  obtain ⟨whole, firsts, -, hsettled, hrun⟩ :=
    run_phrase (Phrase.ret loc' value semicolon?) true []
  have hwhole : settled whole firsts = true := hsettled
  rw [run_statement_of_opensOperand (Phrase.opensOperand_head _ _), hrun, run_rets_bodyTokens,
    if_pos hwhole]

/-- An expression statement may be a return; else it keeps its semicolon only if it has closed its
returns. -/
theorem run_exprStatement (e : Phrase .comparison) (loc' : Location) (stmts : List Statement)
    (loc : Location) (rest : List LocatedToken) :
    State.statement.run (e.tokens ++ ⟨.symbol .semicolon, loc'⟩ :: bodyTokens stmts loc rest) =
      if e.isReturn then (State.dead 0).run (bodyTokens stmts loc rest)
      else if e.openReturns = 0 then State.statement.run (bodyTokens stmts loc rest)
      else faultAt (bodyTokens stmts loc rest) (.missing .semicolon) := by
  obtain ⟨whole, firsts, hlength, hsettled, hrun⟩ := run_phrase e true []
  rw [Bool.true_and] at hsettled
  rw [run_statement_of_opensOperand (e.opensOperand_head _), hrun, ← hlength, ← hsettled]
  cases firsts with
  | nil =>
      cases whole with
      | false => rfl
      | true => rfl
  | cons first firsts =>
      rw [run_semicolon, run_rets_bodyTokens]
      by_cases hwhole : settled first firsts = true
      · simp [settled, hwhole]
      · simp [settled, hwhole]

/-- The statements are read exactly if they are readable. -/
theorem isDone_run_bodyTokens (stmts : List Statement) (loc : Location)
    (rest : List LocatedToken) :
    (State.statement.run (bodyTokens stmts loc rest)).isDone = readable stmts := by
  have hdead : ∀ stmts : List Statement,
      (State.dead 0).run (bodyTokens stmts loc rest) = .done () rest := by
    intro stmts
    refine run_dead_append ?_ _
    intro t ht
    obtain ⟨s, -, hs⟩ := List.mem_flatMap.mp ht
    exact s.isInline_of_mem t hs
  induction stmts with
  | nil => rfl
  | cons s stmts ih =>
      have hcons : bodyTokens (s :: stmts) loc rest = s.tokens ++ bodyTokens stmts loc rest := by
        simp [bodyTokens]
      rw [hcons]
      cases s with
      | ret loc' value semicolon? =>
          rw [Statement.tokens, run_retStatement, hdead]
          rfl
      | expr e loc' =>
          rw [Statement.tokens, List.append_assoc, List.singleton_append, run_exprStatement, readable]
          by_cases hreturn : e.isReturn = true
          · simp [hreturn, hdead, Reading.isDone]
          · by_cases hopen : e.openReturns = 0
            · simp [hreturn, hopen, ih]
            · simp [hreturn, hopen, faultAt, Reading.isDone]

/-! ### Passing the parameters -/

theorem run_names (rest : List LocatedToken) (closeLoc : Location) (trailing? : Option Location)
    (more : List (Location × String × Location)) : ∀ seen : List String,
    (seen ++ more.map fun p => p.2.1).Nodup →
    (State.afterParam seen).run
        (more.flatMap (fun p => [⟨.symbol .comma, p.1⟩, ⟨.ident p.2.1, p.2.2⟩]) ++
          (optional (.symbol .comma) trailing? ++ ⟨.symbol .closeParen, closeLoc⟩ :: rest)) =
      State.openBody.run rest := by
  induction more with
  | nil =>
      intro seen _
      cases trailing? with
      | none => rfl
      | some loc => rfl
  | cons p more ih =>
      intro seen hnodup
      obtain ⟨commaLoc, name, nameLoc⟩ := p
      rw [List.map_cons] at hnodup
      have hnew : name ∉ seen := by
        intro hmem
        exact (List.nodup_append.mp hnodup).2.2 name hmem name List.mem_cons_self rfl
      have hnames := ih (seen ++ [name]) (by simpa using hnodup)
      rw [← hnames]
      simp [State.run, State.step, State.nameStep, hnew]

theorem Names.run_tokens (ps : Names) (hnodup : ps.names.Nodup) (closeLoc : Location)
    (rest : List LocatedToken) :
    (State.param []).run (ps.tokens ++ ⟨.symbol .closeParen, closeLoc⟩ :: rest) =
      State.openBody.run rest := by
  rw [Names.tokens, List.cons_append, List.append_assoc]
  exact run_names rest closeLoc ps.trailing? ps.more [ps.first.1] hnodup

/-! ### Functions -/

theorem Program.run_tokens (p : Program) (hnodup : p.params.Nodup) (rest : List LocatedToken) :
    State.funcWord.run (p.tokens ++ rest) =
      State.statement.run (bodyTokens p.body p.endLoc rest) := by
  have hparams : (State.param []).run ((p.params?.map Names.tokens).getD [] ++
      ⟨.symbol .closeParen, p.closeLoc⟩ :: ⟨.symbol .openBrace, p.braceLoc⟩ ::
        bodyTokens p.body p.endLoc rest) = State.statement.run (bodyTokens p.body p.endLoc rest) := by
    unfold Program.params at hnodup
    cases hps : p.params? with
    | none => rfl
    | some ps =>
        rw [hps] at hnodup
        exact ps.run_tokens hnodup _ _
  rw [← hparams]
  simp [Program.tokens, bodyTokens, State.run, State.step, State.expectStep]

/-- **Which words of the plain grammar are read.**  A function with distinct parameters is read
exactly if no expression statement loses its semicolon to a return inside of it, up to the first
statement that is a return. -/
theorem parse_isOk_iff_readable (p : Program) (hnodup : p.params.Nodup) (loc : Location) :
    (∃ f, parse (p.tokens ++ [⟨.eof, loc⟩]) = .ok f) ↔ readable p.body = true := by
  rw [exists_parse_eq_ok_iff, closed_of_isClosed (isClosed_append_eof p.tokens loc),
    p.run_tokens hnodup, isDone_run_bodyTokens]

/-- `func f() { 1 + return 2; }`, whose statement is read as `1 + (return 2;)`. -/
private def strandedReturn : Program where
  funcLoc := ⟨1, 1⟩
  name := ("f", ⟨1, 6⟩)
  openLoc := ⟨1, 7⟩
  params? := none
  closeLoc := ⟨1, 8⟩
  braceLoc := ⟨1, 10⟩
  body := [.expr (.lift (.binary .plus .add (by decide) ⟨1, 14⟩
    (.lift (.lift (.number ⟨0x3ff0000000000000⟩ ⟨1, 12⟩)))
    (.lift (.ret ⟨1, 16⟩ (.lift (.lift (.lift (.number ⟨0x4000000000000000⟩ ⟨1, 23⟩)))) none))))
    ⟨1, 24⟩]
  endLoc := ⟨1, 26⟩

theorem parse_isOk_iff_readable_stranded :
    strandedReturn.params.Nodup ∧
      ¬ ∃ f, parse (strandedReturn.tokens ++ [⟨.eof, ⟨1, 27⟩⟩]) = .ok f := by
  have hnodup : strandedReturn.params.Nodup := List.nodup_nil
  refine ⟨hnodup, ?_⟩
  rw [parse_isOk_iff_readable strandedReturn hnodup]
  decide

end Plain

end TallyLang
