/-
Reading an expression by precedence climbing.

`readExpr` reads an operand and then whatever operators follow it; `readTail`
continues a finished left operand with all operators that bind at least as tightly
as a given precedence; `readOperand` reads a name, a literal, a parenthesised
expression or a `return`.

The three call each other on ever fewer tokens.  To make that visible to the
recursion they are first written as `exprWithin`, `tailWithin` and
`operandWithin`, whose results carry the bound; the public readers drop it, and
the equations `readExpr_eq`, `readTail_eq` and `readOperand_eq` are all that later
arguments need.
-/
import TallyLang.Expr.Basic
import TallyLang.Reading

namespace TallyLang

/-! ### The readers with their bounds -/

/-- A result whose success leaves fewer than `n` tokens. -/
abbrev ReadingBelow (n : Nat) := { r : Reading Expr // r.LeavesBelow n }

/-- Whether an operator follows that binds more tightly than `op`. -/
def tighterFollows (op : Operator) (ts : List LocatedToken) : Bool :=
  match Operator.ofToken? (headToken ts) with
  | some next => decide (op.precedence < next.precedence)
  | none => false

/-- The operator that comes first, if it binds at least as tightly as `least`. -/
def operatorFrom? (least : Int) (ts : List LocatedToken) : Option Operator :=
  (Operator.ofToken? (headToken ts)).filter (fun op => decide (least ≤ op.precedence))

theorem length_tail_lt_of_operator {least : Int} {ts : List LocatedToken} {op : Operator}
    (h : operatorFrom? least ts = some op) : ts.tail.length < ts.length := by
  refine length_tail_lt fun he => ?_
  rw [operatorFrom?, he] at h
  cases h

theorem length_tail_lt_of_head {ts : List LocatedToken} {t : Token}
    (h : headToken ts = t) (ht : t ≠ .eof) : ts.tail.length < ts.length :=
  length_tail_lt (h ▸ ht)

mutual

/-- The bounded form of `readExpr`. -/
def exprWithin (ts : List LocatedToken) : ReadingBelow ts.length :=
  match operandWithin ts with
  | ⟨.failed error rest, _⟩ => ⟨.failed error rest, .failed⟩
  | ⟨.done left rest, h⟩ => tailWithin ts.length 0 left rest h.lt
termination_by 2 * ts.length + 1
decreasing_by
  · omega
  · have := h.lt
    omega

/-- The bounded form of `readTail`. -/
def tailWithin (n : Nat) (least : Int) (left : Expr) (ts : List LocatedToken)
    (hn : ts.length < n) : ReadingBelow n :=
  match hop : operatorFrom? least ts with
  | none => ⟨.done left ts, .done hn⟩
  | some op =>
    match operandWithin ts.tail with
    | ⟨.failed error rest, _⟩ => ⟨.failed error rest, .failed⟩
    | ⟨.done right rest, h⟩ =>
      if tighterFollows op rest then
        match tailWithin ts.tail.length (op.precedence + 1) right rest h.lt with
        | ⟨.failed error rest', _⟩ => ⟨.failed error rest', .failed⟩
        | ⟨.done right' rest', h'⟩ =>
          tailWithin n least (.bin op left right' (headLoc ts)) rest'
            (Nat.lt_trans h'.lt (Nat.lt_trans (length_tail_lt_of_operator hop) hn))
      else
        tailWithin n least (.bin op left right (headLoc ts)) rest
          (Nat.lt_trans h.lt (Nat.lt_trans (length_tail_lt_of_operator hop) hn))
termination_by 2 * ts.length
decreasing_by
  all_goals have ht := length_tail_lt_of_operator hop
  · omega
  · have := h.lt
    omega
  · have := h'.lt
    omega
  · have := h.lt
    omega

/-- The bounded form of `readOperand`. -/
def operandWithin (ts : List LocatedToken) : ReadingBelow ts.length :=
  match hhead : headToken ts with
  | .ident name => ⟨.done (.var name) ts.tail, .done (length_tail_lt_of_head hhead nofun)⟩
  | .number value => ⟨.done (.num value) ts.tail, .done (length_tail_lt_of_head hhead nofun)⟩
  | .symbol .openParen =>
    match exprWithin ts.tail with
    | ⟨.failed error rest, _⟩ => ⟨.failed error rest, .failed⟩
    | ⟨.done e rest, h⟩ =>
      match hclose : expectSymbol .closeParen .closeParen rest with
      | .failed error rest' => ⟨.failed error rest', .failed⟩
      | .done () rest' =>
        ⟨.done e rest', .done (Nat.lt_trans (length_lt_of_expectSymbol hclose)
          (Nat.lt_trans h.lt (length_tail_lt_of_head hhead nofun)))⟩
  | .keyword .returnWord =>
    match exprWithin ts.tail with
    | ⟨.failed error rest, _⟩ => ⟨.failed error rest, .failed⟩
    | ⟨.done e rest, h⟩ =>
      ⟨.done (.ret e (headLoc ts)) (skipSymbol .semicolon rest),
        .done (Nat.lt_of_le_of_lt (length_skipSymbol_le _ _)
          (Nat.lt_trans h.lt (length_tail_lt_of_head hhead nofun)))⟩
  | found => ⟨faultAt ts (.noOperand found), .failed⟩
termination_by 2 * ts.length
decreasing_by
  all_goals
    have := length_tail_lt_of_head hhead nofun
    omega

end

/-! ### The readers -/

/-- Reads an expression. -/
def readExpr (ts : List LocatedToken) : Reading Expr := (exprWithin ts).val

/-- Continues `left` with the operators that bind at least as tightly as `least`. -/
def readTail (least : Int) (left : Expr) (ts : List LocatedToken) : Reading Expr :=
  (tailWithin (ts.length + 1) least left ts (Nat.lt_succ_self _)).val

/-- Reads an operand: a name, a literal, a parenthesised expression or a `return`. -/
def readOperand (ts : List LocatedToken) : Reading Expr := (operandWithin ts).val

/-! ### What the readers do -/

private theorem tailWithin_val_congr (k : Nat) :
    ∀ (ts : List LocatedToken), ts.length = k → ∀ (n n' : Nat) (least : Int) (left : Expr)
      (hn : ts.length < n) (hn' : ts.length < n'),
      (tailWithin n least left ts hn).val = (tailWithin n' least left ts hn').val := by
  induction k using Nat.strongRecOn with
  | _ k ih =>
      intro ts hk n n' least left hn hn'
      rw [tailWithin, tailWithin.eq_def n']
      split
      · rfl
      · rename_i op hop
        have ht := length_tail_lt_of_operator hop
        split
        · rfl
        · rename_i right rest h _
          have hr := h.lt
          split
          · split
            · rfl
            · rename_i right' rest' h' _
              have hr' := h'.lt
              exact ih _ (by omega) rest' rfl _ _ _ _ _ _
          · exact ih _ (by omega) rest rfl _ _ _ _ _ _

/-- The bound given to `tailWithin` does not influence what it reads. -/
theorem tailWithin_val (n : Nat) (least : Int) (left : Expr) (ts : List LocatedToken)
    (hn : ts.length < n) : (tailWithin n least left ts hn).val = readTail least left ts :=
  tailWithin_val_congr _ ts rfl _ _ _ _ _ _

/-- An expression is an operand and whatever operators follow it. -/
theorem readExpr_eq (ts : List LocatedToken) :
    readExpr ts = (readOperand ts).andThen (readTail 0) := by
  rw [readExpr, exprWithin, readOperand]
  split
  · rename_i heq
    rw [heq]
    rfl
  · rename_i heq
    rw [tailWithin_val, heq]
    rfl

/-- The loop of precedence climbing: an operator that binds tightly enough takes the next
operand, after that operand has taken what binds more tightly than the operator. -/
theorem readTail_eq (least : Int) (left : Expr) (ts : List LocatedToken) :
    readTail least left ts =
      match operatorFrom? least ts with
      | none => .done left ts
      | some op =>
        (readOperand ts.tail).andThen fun right rest =>
          if tighterFollows op rest then
            (readTail (op.precedence + 1) right rest).andThen fun right' rest' =>
              readTail least (.bin op left right' (headLoc ts)) rest'
          else readTail least (.bin op left right (headLoc ts)) rest := by
  rw [readTail, tailWithin]
  split
  · rename_i hop
    simp only [hop]
  · rename_i op hop
    simp only [hop, readOperand]
    split
    · rename_i heq
      rw [heq]
      rfl
    · rename_i right rest h heq
      rw [heq]
      simp only [Reading.andThen]
      split
      · rw [← tailWithin_val _ _ _ _ h.lt]
        split
        · rename_i heq'
          rw [heq']
        · rename_i right' rest' h' heq'
          rw [heq', tailWithin_val]
      · rw [tailWithin_val]

/-- An operand by its first token. -/
theorem readOperand_eq (ts : List LocatedToken) :
    readOperand ts =
      match headToken ts with
      | .ident name => .done (.var name) ts.tail
      | .number value => .done (.num value) ts.tail
      | .symbol .openParen =>
        (readExpr ts.tail).andThen fun e rest =>
          (expectSymbol .closeParen .closeParen rest).andThen fun _ rest' => .done e rest'
      | .keyword .returnWord =>
        (readExpr ts.tail).andThen fun e rest =>
          .done (.ret e (headLoc ts)) (skipSymbol .semicolon rest)
      | found => faultAt ts (.noOperand found) := by
  rw [readOperand, operandWithin]
  split
  · rename_i hhead
    simp only [hhead]
  · rename_i hhead
    simp only [hhead]
  · rename_i hhead
    simp only [hhead, readExpr]
    split
    · rename_i heq
      rw [heq]
      rfl
    · rename_i heq
      rw [heq]
      simp only [Reading.andThen]
      split
      · rename_i hclose
        rw [hclose]
      · rename_i hclose
        simp only [hclose]
  · rename_i hhead
    simp only [hhead, readExpr]
    split
    · rename_i heq
      rw [heq]
      rfl
    · rename_i heq
      rw [heq]
      rfl
  · rename_i hident hnumber hparen hreturn
    split
    · rename_i hhead
      exact absurd hhead (hident _)
    · rename_i hhead
      exact absurd hhead (hnumber _)
    · rename_i hhead
      exact absurd hhead hparen
    · rename_i hhead
      exact absurd hhead hreturn
    · rfl

theorem readExpr_leavesBelow (ts : List LocatedToken) : (readExpr ts).LeavesBelow ts.length :=
  (exprWithin ts).property

/-- A successful reading of an expression passes at least one token. -/
theorem length_lt_of_readExpr {ts rest : List LocatedToken} {e : Expr}
    (h : readExpr ts = .done e rest) : rest.length < ts.length := by
  have hb := readExpr_leavesBelow ts
  rw [h] at hb
  exact hb.lt

theorem length_lt_of_readOperand {ts rest : List LocatedToken} {e : Expr}
    (h : readOperand ts = .done e rest) : rest.length < ts.length := by
  have hbelow := (operandWithin ts).property
  rw [show (operandWithin ts).val = .done e rest from h] at hbelow
  exact hbelow.lt

theorem length_le_of_readTail {least : Int} {left e : Expr} {ts rest : List LocatedToken}
    (h : readTail least left ts = .done e rest) : rest.length ≤ ts.length := by
  have hbelow := (tailWithin (ts.length + 1) least left ts (Nat.lt_succ_self _)).property
  rw [show (tailWithin (ts.length + 1) least left ts _).val = .done e rest from h] at hbelow
  exact Nat.le_of_lt_succ hbelow.lt

end TallyLang
