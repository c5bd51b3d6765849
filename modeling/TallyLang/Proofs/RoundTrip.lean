/-
Reading the written form of a function.

The written form of a function is always a source that can be checked, but what is
read from it need not be the function.  A return takes everything that it can as its
value.  So where a return is the left operand of an operator, which can only be read
from a source that closes it by a semicolon or by parentheses, the written form has
the return take the operator too.  And an infinite number is written like a variable.

`Expr.reread` and `Function.reread` are what the written forms are read as.  They
differ from the originals exactly at such nodes, which is what `check_text_eq_iff` says.
-/
import TallyLang.Proofs.Locations
import TallyLang.Proofs.WrittenForm
import TallyLang.Proofs.Grammar.Functions

namespace TallyLang

namespace Expr

/-! ### What is read again -/

/-- What the written form of an expression is read as, if `k` is what the tokens after it make of
an operand in front of them.  A return takes them into its value. -/
def rereadWith (k : Expr → Expr) : Expr → Expr
  | .num value => k (if value.isInfinite then .var "inf" else .num value)
  | .var name => k (.var name)
  | .bin op left right _ => k (rereadWith (fun a => .bin op a (rereadWith id right) .start) left)
  | .ret value _ => .ret (rereadWith k value) .start
  | .block stmts loc => k (.block stmts loc)

/-- What the written form of an expression is read as, if nothing after it belongs to it. -/
def reread (e : Expr) : Expr := rereadWith id e

/-- What the lines of a block are read as.  After a return they are passed over. -/
def rereadLines : List Expr → List Expr
  | [] => []
  | e :: es => if e.reread.isReturn then [e.reread] else e.reread :: rereadLines es

theorem rereadWith_of_not_isReturn {e : Expr} (h : e.isReturn = false) (k : Expr → Expr) :
    e.rereadWith k = k e.reread := by
  cases e with
  | ret value loc => cases h
  | _ => rfl

/-! ### Reading expressions -/

/-- The tokens make `k a` of an operand `a` in front of them and leave `rest`, where at most one
semicolon stands before something that is no operator. -/
structure Continues (ts : List LocatedToken) (k : Expr → Expr) (rest : List LocatedToken) :
    Prop where
  readTail : ∀ a, readTail 0 a ts = .done (k a) rest
  noOperator : (headToken (skipSymbol .semicolon rest)).isOperator = false
  noSemicolon : headToken (skipSymbol .semicolon rest) ≠ .symbol .semicolon

theorem skipSymbol_of_ne {s : Symbol} {ts : List LocatedToken} (h : headToken ts ≠ .symbol s) :
    skipSymbol s ts = ts := if_neg h

/-- A return passes the semicolon that its value has left. -/
theorem Continues.readExpr_eq {ts rest word : List LocatedToken} {k : Expr → Expr} {e : Expr}
    (h : Continues ts k rest)
    (hoperand : readOperand (word ++ ts) =
      if e.isReturn then .done (e.rereadWith k) (skipSymbol .semicolon rest)
      else .done e.reread ts) :
    readExpr (word ++ ts) =
      .done (e.rereadWith k) (if e.isReturn then skipSymbol .semicolon rest else rest) := by
  rw [TallyLang.readExpr_eq, hoperand]
  by_cases hret : e.isReturn = true
  · rw [if_pos hret, if_pos hret, Reading.andThen_done, readTail_of_isOperator _ h.noOperator]
  · rw [if_neg hret, if_neg hret, Reading.andThen_done, h.readTail,
      rereadWith_of_not_isReturn (Bool.not_eq_true _ ▸ hret)]

/-- At a closing parenthesis nothing goes on. -/
theorem continues_closeParen {ts : List LocatedToken} (h : headToken ts = .symbol .closeParen) :
    Continues ts id ts := by
  have hskip : skipSymbol .semicolon ts = ts := skipSymbol_of_ne (by rw [h]; decide)
  refine ⟨fun a => readTail_of_isOperator a (by rw [h]; rfl), ?_, ?_⟩
  · rw [hskip, h]
    rfl
  · rw [hskip, h]
    decide

theorem operatorFrom?_token {op : Operator} (h : op.isSupported = true)
    (rest : List LocatedToken) : operatorFrom? 0 (⟨op.token, .start⟩ :: rest) = some op := by
  cases op with
  | unsupported c => cases h
  | _ => rfl

/-- An operator and its right operand go on with the left operand. -/
theorem continues_operator {op : Operator} (hop : op.isSupported = true) {right : Expr}
    {ts rest : List LocatedToken} (hrest : headToken rest = .symbol .closeParen)
    (hright : readLayer (op.precedence + 1) ts = .done right rest) :
    Continues (⟨op.token, .start⟩ :: ts) (fun a => .bin op a right .start) rest := by
  obtain ⟨hend, hoperator, hsemicolon⟩ := continues_closeParen hrest
  refine ⟨fun a => ?_, hoperator, hsemicolon⟩
  rw [readTail_of_some a (operatorFrom?_token hop _), List.tail_cons, hright, Reading.andThen_done]
  exact hend _

/-- The written form of an expression is read as an operand. -/
theorem readOperand_written {e : Expr} (h : e.Writable) :
    ∀ {ts rest : List LocatedToken} {k : Expr → Expr}, Continues ts k rest →
      readOperand (atStart e.written ++ ts) =
        if e.isReturn then .done (e.rereadWith k) (skipSymbol .semicolon rest)
        else .done e.reread ts := by
  induction h with
  | @num value hvalue =>
      intro ts rest k hk
      by_cases hinfinite : value.isInfinite = true
      · simp [readOperand_eq, written, Binary64.writtenToken, hinfinite, headToken, isReturn, reread,
          rereadWith]
      · simp [readOperand_eq, written, Binary64.writtenToken, hinfinite, headToken, isReturn, reread,
          rereadWith]
  | var hname =>
      intro ts rest k hk
      rw [readOperand_eq]
      rfl
  | @bin op left right loc hop _ _ ihleft ihright =>
      intro ts rest k hk
      obtain ⟨close, hclose, hhead, hexpect⟩ : ∃ close, close = atStart [.symbol .closeParen] ++ ts ∧
          headToken close = .symbol .closeParen ∧
          expectSymbol .closeParen .closeParen close = .done () ts := ⟨_, rfl, rfl, rfl⟩
      have hskip : skipSymbol .semicolon close = close := skipSymbol_of_ne (by rw [hhead]; decide)
      have hright : readLayer (op.precedence + 1) (atStart right.written ++ close) =
          .done right.reread close := by
        rw [readLayer, ihright (continues_closeParen hhead), hskip, ← reread, ite_self,
          Reading.andThen_done]
        exact readTail_of_isOperator _ (by rw [hhead]; rfl)
      have hleft := continues_operator hop hhead hright
      have htokens : atStart (Expr.bin op left right loc).written ++ ts =
          ⟨.symbol .openParen, .start⟩ :: (atStart left.written ++ ⟨op.token, .start⟩ ::
            (atStart right.written ++ close)) := by
        simp [written, hclose]
      rw [htokens, readOperand_eq]
      show (readExpr (atStart left.written ++ _)).andThen _ = _
      rw [hleft.readExpr_eq (ihleft hleft), hskip, ite_self, Reading.andThen_done, hexpect]
      rfl
  | @ret value loc _ ih =>
      intro ts rest k hk
      -- however many returns there are, only one semicolon is there to be passed
      have hskip : skipSymbol .semicolon (if value.isReturn then skipSymbol .semicolon rest else rest) =
          skipSymbol .semicolon rest := by
        split
        · exact skipSymbol_of_ne hk.noSemicolon
        · rfl
      have htokens : atStart (Expr.ret value loc).written ++ ts =
          ⟨.keyword .returnWord, .start⟩ :: (atStart value.written ++ ts) := by
        simp [written]
      rw [htokens, readOperand_eq]
      show (readExpr (atStart value.written ++ ts)).andThen _ = _
      rw [hk.readExpr_eq (ih hk), Reading.andThen_done, hskip]
      rfl

theorem readExpr_written {e : Expr} (h : e.Writable) {ts rest : List LocatedToken}
    {k : Expr → Expr} (hk : Continues ts k rest) :
    readExpr (atStart e.written ++ ts) =
      .done (e.rereadWith k) (if e.isReturn then skipSymbol .semicolon rest else rest) :=
  hk.readExpr_eq (readOperand_written h hk)

/-! ### Reading lines -/

/-- There are no braces in an expression. -/
theorem isInline_of_mem_written {e : Expr} (h : e.Writable) :
    ∀ t ∈ e.written, t.isInline = true := by
  induction h with
  | @num value _ =>
      intro t ht
      rw [List.mem_singleton.mp ht]
      unfold Binary64.writtenToken
      split <;> rfl
  | var _ =>
      intro t ht
      rw [List.mem_singleton.mp ht]
      rfl
  | @bin op left right loc _ _ _ ihleft ihright =>
      intro t ht
      simp only [written, List.mem_cons, List.mem_append, List.not_mem_nil, or_false] at ht
      rcases ht with rfl | ht | rfl | ht | rfl
      · rfl
      · exact ihleft t ht
      · cases op <;> rfl
      · exact ihright t ht
      · rfl
  | ret _ ih =>
      intro t ht
      rcases List.mem_cons.mp ht with rfl | ht
      · rfl
      · exact ih t ht

theorem isInline_of_mem_writtenLines {es : List Expr} (h : ∀ e ∈ es, e.Writable) :
    ∀ t ∈ writtenLines es, t.isInline = true := by
  induction es with
  | nil =>
      intro t ht
      cases ht
  | cons e es ih =>
      intro t ht
      simp only [writtenLines, List.mem_append, List.mem_cons] at ht
      rcases ht with ht | rfl | ht
      · exact isInline_of_mem_written (h e List.mem_cons_self) t ht
      · rfl
      · exact ih (fun e' he' => h e' (List.mem_cons_of_mem e he')) t ht

theorem balanced_writtenLines {es : List Expr} (h : ∀ e ∈ es, e.Writable) :
    Balanced (atStart (writtenLines es)) := by
  refine balanced_of_isInline fun t ht => ?_
  obtain ⟨token, htoken, rfl⟩ := List.mem_map.mp ht
  exact isInline_of_mem_writtenLines h token htoken

/-- Lines begin with neither an operator nor a semicolon. -/
theorem headToken_writtenLines {es : List Expr} (h : ∀ e ∈ es, e.Writable)
    {rest : List LocatedToken} (hrest : headToken rest = .symbol .closeBrace) :
    (headToken (atStart (writtenLines es) ++ rest)).isOperator = false ∧
      headToken (atStart (writtenLines es) ++ rest) ≠ .symbol .semicolon := by
  cases es with
  | nil =>
      show (headToken rest).isOperator = false ∧ headToken rest ≠ .symbol .semicolon
      rw [hrest]
      decide
  | cons e es =>
      cases h e List.mem_cons_self with
      | @num value _ =>
          unfold writtenLines written Binary64.writtenToken
          split <;> exact ⟨rfl, Token.noConfusion⟩
      | var _ => exact ⟨rfl, Token.noConfusion⟩
      | bin _ _ _ =>
          have hparen : Token.symbol .openParen ≠ .symbol .semicolon := by decide
          exact ⟨rfl, hparen⟩
      | ret _ => exact ⟨rfl, Token.noConfusion⟩

/-- Behind a semicolon the next line begins. -/
theorem continues_semicolon {ts : List LocatedToken} (hoperator : (headToken ts).isOperator = false)
    (hsemicolon : headToken ts ≠ .symbol .semicolon) :
    Continues (⟨.symbol .semicolon, .start⟩ :: ts) id (⟨.symbol .semicolon, .start⟩ :: ts) :=
  ⟨fun a => readTail_of_isOperator a rfl, hoperator, hsemicolon⟩

theorem isReturn_rereadWith {e : Expr} (h : e.isReturn = true) (k : Expr → Expr) :
    (e.rereadWith k).isReturn = true := by
  cases e with
  | ret value loc => rfl
  | _ => cases h

/-- The lines of a block are read up to the brace that closes it. -/
theorem readStatements_writtenLines {es : List Expr} (h : ∀ e ∈ es, e.Writable)
    {rest : List LocatedToken} (hrest : headToken rest = .symbol .closeBrace) :
    readStatements (atStart (writtenLines es) ++ rest) = .done (rereadLines es) rest := by
  induction es with
  | nil =>
      have hends : bodyEnds rest = true := by
        rw [bodyEnds, hrest]
        rfl
      show readStatements rest = _
      rw [readStatements_eq, if_pos hends]
      rfl
  | cons e es ih =>
      have hes : ∀ e' ∈ es, e'.Writable := fun e' he' => h e' (List.mem_cons_of_mem e he')
      obtain ⟨hoperator, hsemicolon⟩ := headToken_writtenLines hes hrest
      have hexpr := readExpr_written (h e List.mem_cons_self)
        (continues_semicolon hoperator hsemicolon)
      have hends := bodyEnds_of_readExpr hexpr
      have hdead : skipDead 0 (atStart (writtenLines es) ++ rest) = rest := by
        obtain ⟨loc, after, rfl⟩ := exists_cons_of_headToken hrest Token.noConfusion
        rw [(balanced_writtenLines hes).skipDead_append]
        rfl
      have htokens : atStart (writtenLines (e :: es)) ++ rest = atStart e.written ++
          ⟨.symbol .semicolon, .start⟩ :: (atStart (writtenLines es) ++ rest) := by
        simp [writtenLines]
      rw [htokens, readStatements_eq, hends, hexpr, Reading.andThen_done, ← reread, rereadLines]
      rw [if_neg Bool.false_ne_true]
      by_cases hret : e.reread.isReturn = true
      · rw [if_pos hret, if_pos hret]
        -- the semicolon was passed by the return, or is passed over with the rest
        have hskip : skipDead 0 (if e.isReturn then atStart (writtenLines es) ++ rest
            else ⟨.symbol .semicolon, .start⟩ :: (atStart (writtenLines es) ++ rest)) = rest := by
          split
          · exact hdead
          · exact hdead
        exact congrArg _ hskip
      · have hret' : ¬ e.isReturn = true := fun hret' => hret (isReturn_rereadWith hret' id)
        rw [if_neg hret, if_neg hret, if_neg hret']
        show (readStatements (atStart (writtenLines es) ++ rest)).andThen _ = _
        rw [ih hes]
        rfl

end Expr

/-! ### Reading functions -/

namespace Function

/-- What the written form of a function is read as. -/
def reread (f : Function) : Function :=
  { f with body := Expr.rereadLines f.body, bodyLoc := .start, loc := .start }

theorem derivesNames_writtenNames (ps : List String) : ∀ p : String,
    DerivesNames (atStart (writtenNames (p :: ps))) (p :: ps) := by
  induction ps with
  | nil =>
      intro p
      exact .single
  | cons q ps ih =>
      intro p
      exact .cons (ih q)

theorem derivesParams_writtenNames {ps : List String} (h : ps.Nodup) :
    DerivesParams (atStart (writtenNames ps)) ps := by
  cases ps with
  | nil => exact .nil
  | cons p ps => exact .names (derivesNames_writtenNames ps p) h

/-- The written form of a function is read to its end. -/
theorem readFunction_written {f : Function} (h : f.Writable) :
    readFunction (atStart (f.written ++ [.eof])) = .done f.reread (atStart [.eof]) := by
  have hbody : readStatements (atStart (Expr.writtenLines f.body) ++
      atStart [.symbol .closeBrace, .eof]) = .done (Expr.rereadLines f.body) _ :=
    Expr.readStatements_writtenLines h.body rfl
  have hparams : readParams (atStart (writtenNames f.params) ++ ⟨.symbol .closeParen, .start⟩ ::
      ⟨.symbol .openBrace, .start⟩ :: (atStart (Expr.writtenLines f.body) ++
        atStart [.symbol .closeBrace, .eof])) = .done f.params _ :=
    (derivesParams_writtenNames h.distinct).readParams_eq_done rfl
  have hloc : headLoc (atStart (Expr.writtenLines f.body) ++ atStart [.symbol .closeBrace, .eof]) =
      .start := by
    cases Expr.writtenLines f.body <;> rfl
  have htokens : atStart (f.written ++ [.eof]) = ⟨.keyword .funcWord, .start⟩ ::
      ⟨.ident f.name, .start⟩ :: ⟨.symbol .openParen, .start⟩ :: (atStart (writtenNames f.params) ++
        ⟨.symbol .closeParen, .start⟩ :: ⟨.symbol .openBrace, .start⟩ ::
          (atStart (Expr.writtenLines f.body) ++ atStart [.symbol .closeBrace, .eof])) := by
    simp [written]
  rw [htokens]
  show (readParams (atStart (writtenNames f.params) ++ _)).andThen _ = _
  rw [hparams]
  show (readStatements (atStart (Expr.writtenLines f.body) ++ _)).andThen _ = _
  rw [hbody]
  show Reading.done (⟨_, _, _, headLoc (atStart (Expr.writtenLines f.body) ++ _), _⟩ : Function) _ = _
  rw [hloc]
  rfl

/-- The written form of a function can be checked. -/
theorem check_text {f : Function} (h : f.Writable) :
    ∃ g, check f.text = .ok g ∧ g.unplaced = f.reread := by
  have htokens : (tokensOf f.text).map LocatedToken.token = f.written ++ [.eof] := by
    rw [map_token_tokensOf, lexed_written h]
  have hclosed : isClosed (tokensOf f.text) = true := by
    rw [isClosed, ← List.getLast?_map, htokens]
    simp
  have hread := readFunction_unplaced (tokensOf f.text)
  rw [unplacedTokens, htokens, readFunction_written h] at hread
  rw [check, parse, closed_of_isClosed hclosed]
  cases hresult : readFunction (tokensOf f.text) with
  | failed error rest =>
      rw [hresult] at hread
      cases hread
  | done g rest =>
      rw [hresult] at hread
      injection hread with hvalue
      exact ⟨g, rfl, hvalue.symm⟩

end Function

/-! ### What comes back -/

namespace Expr

/-- A node that the written form keeps: not an operator with a return on its left, and not an
infinite number. -/
def isKept : Expr → Bool
  | .num value => !value.isInfinite
  | .bin _ left _ _ => !left.isReturn
  | _ => true

/-- What is read as a return and was none has changed. -/
theorem ne_unplaced_of_isReturn {e e' : Expr} (h : e.isReturn = false)
    (h' : e'.isReturn = true) : e' ≠ e.unplaced := by
  rintro rfl
  rw [isReturn_unplaced, h] at h'
  cases h'

/-- An expression comes back exactly if all of its nodes are kept. -/
theorem reread_eq_iff {e : Expr} (h : e.Writable) :
    e.reread = e.unplaced ↔ ∀ n ∈ e.nodes, n.isKept = true := by
  induction h with
  | @num value _ =>
      by_cases hinfinite : value.isInfinite = true <;>
        simp [reread, rereadWith, unplaced, nodes, isKept, hinfinite]
  | var _ => simp [reread, rereadWith, unplaced, nodes, isKept]
  | @bin op left right loc _ _ _ ihleft ihright =>
      by_cases hret : left.isReturn = true
      · -- the return has taken the operator
        have htaken : (Expr.bin op left right loc).reread ≠ (Expr.bin op left right loc).unplaced :=
          ne_unplaced_of_isReturn rfl (isReturn_rereadWith hret _)
        simp [htaken, nodes, isKept, hret]
      · rw [Bool.not_eq_true] at hret
        have hreread : (Expr.bin op left right loc).reread =
            .bin op left.reread right.reread .start := rereadWith_of_not_isReturn hret _
        rw [hreread, unplaced, bin.injEq, ihleft, ihright]
        simp [nodes, isKept, hret, or_imp, forall_and]
  | @ret value loc _ ih =>
      have hreread : (Expr.ret value loc).reread = .ret value.reread .start := rfl
      rw [hreread, unplaced, ret.injEq, ih]
      simp [nodes, isKept]

theorem rereadLines_eq_iff {es : List Expr} (h : ∀ e ∈ es, e.Writable)
    (hlast : ∀ e ∈ es.dropLast, e.isReturn = false) :
    rereadLines es = unplacedList es ↔ ∀ n ∈ nodesOf es, n.isKept = true := by
  induction es with
  | nil => simp [rereadLines, unplacedList, nodesOf]
  | cons e es ih =>
      have hiff := reread_eq_iff (h e List.mem_cons_self)
      have hnodes : (∀ n ∈ nodesOf (e :: es), n.isKept = true) ↔
          e.reread = e.unplaced ∧ ∀ n ∈ nodesOf es, n.isKept = true := by
        rw [hiff]
        simp [nodesOf, or_imp, forall_and]
      rw [hnodes, rereadLines, unplacedList]
      by_cases hret : e.isReturn = true
      · have hnil : es = [] := by
          cases es with
          | nil => rfl
          | cons e' es =>
              have hfirst := hlast e List.mem_cons_self
              rw [hret] at hfirst
              cases hfirst
        have hret' : e.reread.isReturn = true := isReturn_rereadWith hret id
        rw [if_pos hret', hnil]
        simp [unplacedList, nodesOf]
      · rw [Bool.not_eq_true] at hret
        by_cases hret' : e.reread.isReturn = true
        · rw [if_pos hret']
          simp [ne_unplaced_of_isReturn hret hret']
        · have hrest : ∀ e' ∈ es.dropLast, e'.isReturn = false := by
            intro e' he'
            refine hlast e' ?_
            cases es with
            | nil => cases he'
            | cons e'' es => exact List.mem_cons_of_mem e he'
          rw [if_neg hret', List.cons.injEq,
            ih (fun e' he' => h e' (List.mem_cons_of_mem e he')) hrest]

end Expr

/-- **Reading the written form.**  The written form of a function that was read from a source can
be checked, and it gives the function back, up to locations, exactly if no operator has a return
on its left and no number is infinite. -/
theorem check_text_eq_iff {source : String} {f : Function} (h : check source = .ok f) :
    ∃ g, check f.text = .ok g ∧
      (g.unplaced = f.unplaced ↔ ∀ n ∈ Expr.nodesOf f.body, n.isKept = true) := by
  have hwritable := writable_of_check h
  obtain ⟨g, hcheck, hg⟩ := Function.check_text hwritable
  refine ⟨g, hcheck, ?_⟩
  rw [hg, ← Expr.rereadLines_eq_iff hwritable.body hwritable.returnLast]
  simp [Function.reread, Function.unplaced]

/-- `func f(x) { return x; + x; }`, where the return is closed before the operator. -/
private def closedReturn : Function :=
  ⟨"f", ["x"], [.bin .add (.ret (.var "x") ⟨1, 13⟩) (.var "x") ⟨1, 23⟩], ⟨1, 13⟩, .start⟩

theorem check_text_eq_iff_closedReturn :
    check "func f(x) \x7b return x; + x; \x7d" = .ok closedReturn ∧
      ∃ g, check closedReturn.text = .ok g ∧ g.unplaced ≠ closedReturn.unplaced := by
  have hcheck : check "func f(x) \x7b return x; + x; \x7d" = .ok closedReturn := by
    with_unfolding_all rfl
  obtain ⟨g, hg, hiff⟩ := check_text_eq_iff hcheck
  refine ⟨hcheck, g, hg, fun heq => ?_⟩
  have hkept := hiff.mp heq _ List.mem_cons_self
  cases hkept

end TallyLang
