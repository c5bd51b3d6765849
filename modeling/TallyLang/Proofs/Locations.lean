/-
Locations do not influence what is read.

`unplaced` forgets the locations of a list of tokens, of a tree, of a function and of
an error, by putting everything at the start of a source.  Every reader commutes with
it: reading tokens without their locations gives what reading them gives, without the
locations.  The readers only ever look at the first token, never at where it stands,
and hand locations on to the trees and errors that they build.
-/
import TallyLang.Compiler
import TallyLang.Proofs.Grammar.Expressions

namespace TallyLang

namespace Expr

mutual

/-- The tree without its locations. -/
def unplaced : Expr → Expr
  | .num value => .num value
  | .var name => .var name
  | .bin op left right _ => .bin op (unplaced left) (unplaced right) .start
  | .ret value _ => .ret (unplaced value) .start
  | .block stmts _ => .block (unplacedList stmts) .start

/-- The trees without their locations. -/
def unplacedList : List Expr → List Expr
  | [] => []
  | e :: es => unplaced e :: unplacedList es

end

theorem isReturn_unplaced (e : Expr) : e.unplaced.isReturn = e.isReturn := by
  cases e <;> simp [unplaced, isReturn]

end Expr

/-- The function without its locations. -/
def Function.unplaced (f : Function) : Function :=
  { f with body := Expr.unplacedList f.body, bodyLoc := .start, loc := .start }

/-- The error without its location. -/
def ParseError.unplaced (error : ParseError) : ParseError := { error with loc := .start }

/-- The tokens, all at the start of a source. -/
def atStart (tokens : List Token) : List LocatedToken := tokens.map fun t => ⟨t, .start⟩

@[simp] theorem atStart_nil : atStart [] = [] := rfl

@[simp] theorem atStart_cons (t : Token) (tokens : List Token) :
    atStart (t :: tokens) = ⟨t, .start⟩ :: atStart tokens := rfl

@[simp] theorem atStart_append (xs ys : List Token) :
    atStart (xs ++ ys) = atStart xs ++ atStart ys := List.map_append

/-- The tokens without their locations. -/
def unplacedTokens (ts : List LocatedToken) : List LocatedToken :=
  atStart (ts.map LocatedToken.token)

section Tokens

variable (ts : List LocatedToken)

@[simp] theorem headToken_unplacedTokens : headToken (unplacedTokens ts) = headToken ts := by
  cases ts <;> rfl

@[simp] theorem headLoc_unplacedTokens : headLoc (unplacedTokens ts) = .start := by
  cases ts <;> rfl

@[simp] theorem tail_unplacedTokens : (unplacedTokens ts).tail = unplacedTokens ts.tail := by
  cases ts <;> rfl

end Tokens

/-! ### Readings -/

namespace Reading

variable {α β : Type}

/-- What came of reading, without the locations; `f` forgets those of the value. -/
def unplaced (f : α → α) : Reading α → Reading α
  | done value rest => done (f value) (unplacedTokens rest)
  | failed error rest => failed error.unplaced (unplacedTokens rest)

/-- Readings in sequence forget their locations if each of them does. -/
theorem andThen_unplaced {f : α → α} {g : β → β} {r r' : Reading α}
    {next next' : α → List LocatedToken → Reading β} (hr : r' = r.unplaced f)
    (hnext : ∀ a rest, r = .done a rest → next' (f a) (unplacedTokens rest) = (next a rest).unplaced g) :
    r'.andThen next' = (r.andThen next).unplaced g := by
  subst hr
  cases r with
  | done a rest => exact hnext a rest rfl
  | failed error rest => rfl

end Reading

theorem faultAt_unplaced {α : Type} (f : α → α) (ts : List LocatedToken) (fault : ParseFault) :
    faultAt (unplacedTokens ts) fault = (faultAt ts fault : Reading α).unplaced f := by
  simp [faultAt, Reading.unplaced, ParseError.unplaced]

theorem expectSymbol_unplaced (s : Symbol) (part : Expectation) (ts : List LocatedToken) :
    expectSymbol s part (unplacedTokens ts) = (expectSymbol s part ts).unplaced id := by
  unfold expectSymbol
  rw [headToken_unplacedTokens, tail_unplacedTokens, faultAt_unplaced id]
  split <;> rfl

theorem expectKeyword_unplaced (k : Keyword) (part : Expectation) (ts : List LocatedToken) :
    expectKeyword k part (unplacedTokens ts) = (expectKeyword k part ts).unplaced id := by
  unfold expectKeyword
  rw [headToken_unplacedTokens, tail_unplacedTokens, faultAt_unplaced id]
  split <;> rfl

theorem expectIdent_unplaced (part : Expectation) (ts : List LocatedToken) :
    expectIdent part (unplacedTokens ts) = (expectIdent part ts).unplaced id := by
  unfold expectIdent
  rw [headToken_unplacedTokens, tail_unplacedTokens, faultAt_unplaced id]
  split <;> rfl

theorem skipSymbol_unplaced (s : Symbol) (ts : List LocatedToken) :
    skipSymbol s (unplacedTokens ts) = unplacedTokens (skipSymbol s ts) := by
  unfold skipSymbol
  rw [headToken_unplacedTokens, tail_unplacedTokens]
  split <;> rfl

/-! ### Expressions -/

/-- Reading an operand from these tokens forgets locations. -/
def OperandUnplaced (ts : List LocatedToken) : Prop :=
  readOperand (unplacedTokens ts) = (readOperand ts).unplaced Expr.unplaced

/-- The loop forgets locations if the operands do. -/
theorem readTail_unplaced_of {ts : List LocatedToken}
    (hoperand : ∀ ts' : List LocatedToken, ts'.length < ts.length → OperandUnplaced ts') :
    ∀ (least : Int) (left : Expr), readTail least left.unplaced (unplacedTokens ts) =
      (readTail least left ts).unplaced Expr.unplaced := by
  induction hn : ts.length using Nat.strongRecOn generalizing ts with
  | _ n ih =>
      subst hn
      intro least left
      have hfrom : operatorFrom? least (unplacedTokens ts) = operatorFrom? least ts := by
        simp [operatorFrom?]
      cases hop : operatorFrom? least ts with
      | none =>
          rw [readTail_of_none _ (hfrom.trans hop), readTail_of_none _ hop]
          rfl
      | some op =>
          have htail := length_tail_lt_of_operator hop
          have hshorter : ∀ ts' : List LocatedToken, ts'.length < ts.length →
              ∀ (least : Int) (left : Expr), readTail least left.unplaced (unplacedTokens ts') =
                (readTail least left ts').unplaced Expr.unplaced := fun ts' hts' =>
            ih ts'.length hts' (fun ts'' hts'' => hoperand ts'' (by omega)) rfl
          have hlayer : readLayer (op.precedence + 1) (unplacedTokens ts.tail) =
              (readLayer (op.precedence + 1) ts.tail).unplaced Expr.unplaced := by
            refine Reading.andThen_unplaced (hoperand _ htail) fun right rest hright => ?_
            have hrest := length_lt_of_readOperand hright
            exact hshorter rest (by omega) _ right
          rw [readTail_of_some _ (hfrom.trans hop), readTail_of_some _ hop, tail_unplacedTokens,
            headLoc_unplacedTokens]
          refine Reading.andThen_unplaced hlayer fun right rest hright => ?_
          obtain ⟨first, mid, hfirst, hright⟩ := Reading.andThen_eq_done.mp hright
          have hmid := length_lt_of_readOperand hfirst
          have hrest := length_le_of_readTail hright
          exact hshorter rest (by omega) least (.bin op left right (headLoc ts))

theorem operandUnplaced (ts : List LocatedToken) : OperandUnplaced ts := by
  induction hn : ts.length using Nat.strongRecOn generalizing ts with
  | _ n ih =>
      subst hn
      have hexpr : headToken ts ≠ .eof →
          readExpr (unplacedTokens ts.tail) = (readExpr ts.tail).unplaced Expr.unplaced := by
        intro hhead
        have htail := length_tail_lt hhead
        rw [readExpr_eq, readExpr_eq]
        refine Reading.andThen_unplaced (ih _ htail ts.tail rfl) ?_
        intro left rest hleft
        have hrest := length_lt_of_readOperand hleft
        exact readTail_unplaced_of (fun ts' hts' => ih ts'.length (by omega) ts' rfl) 0 left
      unfold OperandUnplaced
      rw [readOperand_eq, readOperand_eq, headToken_unplacedTokens, tail_unplacedTokens,
        headLoc_unplacedTokens]
      split
      · rfl
      · rfl
      · rename_i hhead
        refine Reading.andThen_unplaced (hexpr (by rw [hhead]; exact Token.noConfusion)) ?_
        intro e rest _
        refine Reading.andThen_unplaced (expectSymbol_unplaced _ _ _) ?_
        intro _ rest' _
        rfl
      · rename_i hhead
        refine Reading.andThen_unplaced (hexpr (by rw [hhead]; exact Token.noConfusion)) ?_
        intro e rest _
        rw [skipSymbol_unplaced]
        rfl
      · exact faultAt_unplaced _ _ _

theorem readExpr_unplaced (ts : List LocatedToken) :
    readExpr (unplacedTokens ts) = (readExpr ts).unplaced Expr.unplaced := by
  rw [readExpr_eq, readExpr_eq]
  refine Reading.andThen_unplaced (operandUnplaced ts) ?_
  intro left rest _
  exact readTail_unplaced_of (fun ts' _ => operandUnplaced ts') 0 left

/-! ### Functions -/

theorem readNames_unplaced (names : List String) (ts : List LocatedToken) :
    readNames names (unplacedTokens ts) = (readNames names ts).unplaced id := by
  induction hn : ts.length using Nat.strongRecOn generalizing names ts with
  | _ n ih =>
      subst hn
      rw [readNames_eq, readNames_eq, headToken_unplacedTokens]
      split
      · rename_i name hhead
        have hlt := length_tail_tail_lt_of_ident hhead
        simp only [tail_unplacedTokens, headToken_unplacedTokens, headLoc_unplacedTokens]
        rw [ih _ hlt _ _ rfl]
        split
        · rfl
        · split
          · split <;> rfl
          · rfl
      · exact faultAt_unplaced _ _ _

theorem readParams_unplaced (ts : List LocatedToken) :
    readParams (unplacedTokens ts) = (readParams ts).unplaced id := by
  unfold readParams
  rw [headToken_unplacedTokens, readNames_unplaced]
  split <;> rfl

theorem skipDead_unplaced (ts : List LocatedToken) : ∀ depth : Nat,
    skipDead depth (unplacedTokens ts) = unplacedTokens (skipDead depth ts) := by
  induction ts with
  | nil =>
      intro depth
      rfl
  | cons t ts ih =>
      intro depth
      show skipDead depth (⟨t.token, .start⟩ :: unplacedTokens ts) = _
      rw [skipDead.eq_def, skipDead.eq_def depth (t :: ts)]
      dsimp only
      split
      · rfl
      · exact ih _
      · split
        · rfl
        · exact ih _
      · exact ih _

theorem readStatements_unplaced (ts : List LocatedToken) :
    readStatements (unplacedTokens ts) = (readStatements ts).unplaced Expr.unplacedList := by
  induction hn : ts.length using Nat.strongRecOn generalizing ts with
  | _ n ih =>
      subst hn
      have hends : bodyEnds (unplacedTokens ts) = bodyEnds ts := by
        simp [bodyEnds]
      rw [readStatements_eq, readStatements_eq, hends]
      split
      · rfl
      · refine Reading.andThen_unplaced (readExpr_unplaced ts) ?_
        intro e rest he
        have hrest := length_lt_of_readExpr he
        rw [Expr.isReturn_unplaced, skipDead_unplaced]
        split
        · rfl
        · refine Reading.andThen_unplaced (expectSymbol_unplaced _ _ rest) ?_
          intro _ rest' hsemi
          have hrest' := length_lt_of_expectSymbol hsemi
          refine Reading.andThen_unplaced (ih rest'.length (by omega) rest' rfl) ?_
          intro es rest'' _
          rfl

/-- **Reading forgets locations.** -/
theorem readFunction_unplaced (ts : List LocatedToken) :
    readFunction (unplacedTokens ts) = (readFunction ts).unplaced Function.unplaced := by
  unfold readFunction
  refine Reading.andThen_unplaced (expectKeyword_unplaced _ _ ts) fun _ rest _ => ?_
  refine Reading.andThen_unplaced (expectIdent_unplaced _ rest) fun name rest _ => ?_
  refine Reading.andThen_unplaced (expectSymbol_unplaced _ _ rest) fun _ rest _ => ?_
  refine Reading.andThen_unplaced (readParams_unplaced rest) fun params rest _ => ?_
  refine Reading.andThen_unplaced (expectSymbol_unplaced _ _ rest) fun _ rest _ => ?_
  refine Reading.andThen_unplaced (expectSymbol_unplaced _ _ rest) fun _ body _ => ?_
  refine Reading.andThen_unplaced (readStatements_unplaced body) fun stmts rest _ => ?_
  refine Reading.andThen_unplaced (expectSymbol_unplaced _ _ rest) fun _ rest _ => ?_
  rw [headLoc_unplacedTokens, headLoc_unplacedTokens]
  rfl

end TallyLang
