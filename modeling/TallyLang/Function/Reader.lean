/-
Reading a function.

A function is read token by token without going back, and the first fault ends the
reading.  After a `return` statement nothing else of the body can run, so it is
passed over with an eye on its braces only, up to the brace that closes the body.
-/
import TallyLang.Function
import TallyLang.Expr.Reader

namespace TallyLang

/-! ### Parameters -/

theorem length_tail_tail_lt_of_ident {ts : List LocatedToken} {name : String}
    (h : headToken ts = .ident name) : ts.tail.tail.length < ts.length := by
  refine Nat.lt_of_le_of_lt ?_ (length_tail_lt_of_head h Token.noConfusion)
  simp

/-- Reads the names after `names`, at least one of them.  The list may end in a comma. -/
def readNames (names : List String) (ts : List LocatedToken) : Reading (List String) :=
  match _h : headToken ts with
  | .ident name =>
    if names.contains name then .failed ⟨headLoc ts, .duplicateParam name⟩ ts.tail
    else if headToken ts.tail = .symbol .comma then
      if headToken ts.tail.tail = .symbol .closeParen then .done (names ++ [name]) ts.tail.tail
      else readNames (names ++ [name]) ts.tail.tail
    else .done (names ++ [name]) ts.tail
  | _ => faultAt ts (.missing .paramName)
termination_by ts.length
decreasing_by exact length_tail_tail_lt_of_ident _h

/-- The names one after the other, by the first token and what follows it. -/
theorem readNames_eq (names : List String) (ts : List LocatedToken) :
    readNames names ts =
      match headToken ts with
      | .ident name =>
        if names.contains name then .failed ⟨headLoc ts, .duplicateParam name⟩ ts.tail
        else if headToken ts.tail = .symbol .comma then
          if headToken ts.tail.tail = .symbol .closeParen then .done (names ++ [name]) ts.tail.tail
          else readNames (names ++ [name]) ts.tail.tail
        else .done (names ++ [name]) ts.tail
      | _ => faultAt ts (.missing .paramName) := by
  rw [readNames]
  split
  · rename_i h
    simp only [h]
  · rename_i h
    split
    · rename_i name hname
      exact absurd hname (h name)
    · rfl

/-- Reads the parameters up to the closing parenthesis, which it does not pass. -/
def readParams (ts : List LocatedToken) : Reading (List String) :=
  if headToken ts = .symbol .closeParen then .done [] ts else readNames [] ts

/-! ### The body -/

/-- Passes over tokens up to the brace that closes `depth` open blocks and one more, or to the
end of the input. -/
def skipDead (depth : Nat) : List LocatedToken → List LocatedToken
  | [] => []
  | t :: ts =>
    match t.token with
    | .eof => t :: ts
    | .symbol .openBrace => skipDead (depth + 1) ts
    | .symbol .closeBrace =>
      match depth with
      | 0 => t :: ts
      | depth + 1 => skipDead depth ts
    | _ => skipDead depth ts

/-- Whether the statements of a body end here. -/
def bodyEnds (ts : List LocatedToken) : Bool :=
  headToken ts = .symbol .closeBrace || headToken ts = .eof

/-- Reads the statements of a body up to the closing brace, which it does not pass. -/
def readStatements (ts : List LocatedToken) : Reading (List Expr) :=
  if bodyEnds ts then .done [] ts
  else
    match _he : readExpr ts with
    | .failed error rest => .failed error rest
    | .done e rest =>
      if e.isReturn then .done [e] (skipDead 0 rest)
      else
        match _hs : expectSymbol .semicolon .semicolon rest with
        | .failed error rest' => .failed error rest'
        | .done _ rest' =>
          (readStatements rest').andThen fun es rest'' => .done (e :: es) rest''
termination_by ts.length
decreasing_by exact Nat.lt_trans (length_lt_of_expectSymbol _hs) (length_lt_of_readExpr _he)

/-- The statements one after the other: a `return` is the last, any other needs its semicolon. -/
theorem readStatements_eq (ts : List LocatedToken) :
    readStatements ts =
      if bodyEnds ts then .done [] ts
      else
        (readExpr ts).andThen fun e rest =>
          if e.isReturn then .done [e] (skipDead 0 rest)
          else
            (expectSymbol .semicolon .semicolon rest).andThen fun _ rest' =>
              (readStatements rest').andThen fun es rest'' => .done (e :: es) rest'' := by
  rw [readStatements]
  by_cases hends : bodyEnds ts
  · rw [if_pos hends, if_pos hends]
  · rw [if_neg hends, if_neg hends]
    split
    · rename_i he
      rw [he]
      rfl
    · rename_i e rest he
      rw [he]
      simp only [Reading.andThen]
      by_cases hret : e.isReturn
      · rw [if_pos hret, if_pos hret]
      · rw [if_neg hret, if_neg hret]
        split
        · rename_i hs
          rw [hs]
        · rename_i hs
          rw [hs]

/-! ### The function -/

/-- Reads a function.  What follows its closing brace is not looked at. -/
def readFunction (ts : List LocatedToken) : Reading Function :=
  (expectKeyword .funcWord .funcWord ts).andThen fun _ rest =>
  (expectIdent .functionName rest).andThen fun name rest =>
  (expectSymbol .openParen .openParams rest).andThen fun _ rest =>
  (readParams rest).andThen fun params rest =>
  (expectSymbol .closeParen .closeParams rest).andThen fun _ rest =>
  (expectSymbol .openBrace .openBody rest).andThen fun _ body =>
  (readStatements body).andThen fun stmts rest =>
  (expectSymbol .closeBrace .closeBody rest).andThen fun _ rest =>
    .done ⟨name, params, stmts, headLoc body, headLoc ts⟩ rest

end TallyLang
