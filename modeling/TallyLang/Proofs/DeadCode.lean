/-
What follows a return is dropped, unless it goes on with the return.

After a return statement only braces are looked at, so a run of tokens whose braces match
can be put there and the function stays the same.  There is one way in which such a run is
not dead at all.  The semicolon of a return belongs to the return, and a return is an
operand, so an operator behind the semicolon takes the return as its left operand.  And
if the return stands in others that are still open, they take the semicolons that come
next, one each, and an operator behind any of these goes on as well.  `goesOn` says this
of a run, and `parse_append_dead_iff` that nothing else can happen.

The number of open returns is one that the state after the tokens knows.  So the
derivation of an expression is followed together with the state it leads to
(`LeavesOpen`).  That a run which goes on really changes the function is seen from the
number of operators: the tree would have one more.
-/
import TallyLang.Proofs.Scope
import TallyLang.Proofs.Successive
import TallyLang.Proofs.Grammar.Plain

namespace TallyLang

open Plain (settled settled_append endStep_rets)

/-! ### Braces that match -/

/-- How often a mark stands in a run of tokens. -/
def countSymbol (s : Symbol) (ts : List LocatedToken) : Nat :=
  ts.countP fun t => t.token = .symbol s

theorem countSymbol_cons_self (s : Symbol) (loc : Location) (ts : List LocatedToken) :
    countSymbol s (⟨.symbol s, loc⟩ :: ts) = countSymbol s ts + 1 := by
  simp [countSymbol]

theorem countSymbol_cons_of_ne {s : Symbol} {t : LocatedToken} (h : t.token ≠ .symbol s)
    (ts : List LocatedToken) : countSymbol s (t :: ts) = countSymbol s ts := by
  simp [countSymbol, h]

/-- The braces of a run match: the run holds no end of the input, no start of it closes more braces
than it opens, and all of it closes as many as it opens. -/
structure BracesMatch (ts : List LocatedToken) : Prop where
  noEof : ∀ t ∈ ts, t.token ≠ .eof
  starts : ∀ front, front <+: ts → countSymbol .closeBrace front ≤ countSymbol .openBrace front
  total : countSymbol .closeBrace ts = countSymbol .openBrace ts

/-- Passing over a run that never closes more braces than are open. -/
theorem skipDead_append {ts : List LocatedToken} : ∀ {depth : Nat}, (∀ t ∈ ts, t.token ≠ .eof) →
    (∀ front, front <+: ts →
      countSymbol .closeBrace front ≤ depth + countSymbol .openBrace front) →
    ∀ rest, skipDead depth (ts ++ rest) =
      skipDead (depth + countSymbol .openBrace ts - countSymbol .closeBrace ts) rest := by
  induction ts with
  | nil =>
      intro depth _ _ rest
      rfl
  | cons t ts ih =>
      intro depth heof hstarts rest
      have heof' : ∀ u ∈ ts, u.token ≠ .eof := fun u hu => heof u (List.mem_cons_of_mem t hu)
      have hstart : ∀ front, front <+: ts → countSymbol .closeBrace (t :: front) ≤
          depth + countSymbol .openBrace (t :: front) :=
        fun front hfront => hstarts (t :: front) (List.cons_prefix_cons.mpr ⟨rfl, hfront⟩)
      obtain ⟨token, loc⟩ := t
      by_cases hopen : token = .symbol .openBrace
      · subst hopen
        have hnext : ∀ front, front <+: ts → countSymbol .closeBrace front ≤
            depth + 1 + countSymbol .openBrace front := by
          intro front hfront
          have hle := hstart front hfront
          rw [countSymbol_cons_self, countSymbol_cons_of_ne (by simp)] at hle
          omega
        rw [countSymbol_cons_self, countSymbol_cons_of_ne (by simp)]
        show skipDead (depth + 1) (ts ++ rest) = _
        rw [ih heof' hnext]
        congr 1
        omega
      by_cases hclose : token = .symbol .closeBrace
      · subst hclose
        have hdepth := hstart [] (List.nil_prefix)
        rw [countSymbol_cons_self, countSymbol_cons_of_ne (by simp)] at hdepth
        obtain ⟨outer, rfl⟩ : ∃ outer, depth = outer + 1 :=
          ⟨depth - 1, by simp [countSymbol] at hdepth; omega⟩
        have hnext : ∀ front, front <+: ts → countSymbol .closeBrace front ≤
            outer + countSymbol .openBrace front := by
          intro front hfront
          have hle := hstart front hfront
          rw [countSymbol_cons_self, countSymbol_cons_of_ne (by simp)] at hle
          omega
        rw [countSymbol_cons_self, countSymbol_cons_of_ne (by simp)]
        show skipDead outer (ts ++ rest) = _
        rw [ih heof' hnext]
        congr 1
        omega
      · have hnext : ∀ front, front <+: ts → countSymbol .closeBrace front ≤
            depth + countSymbol .openBrace front := by
          intro front hfront
          have hle := hstart front hfront
          rw [countSymbol_cons_of_ne hclose, countSymbol_cons_of_ne hopen] at hle
          exact hle
        rw [countSymbol_cons_of_ne hopen, countSymbol_cons_of_ne hclose, List.cons_append,
          skipDead_token hopen hclose (heof _ List.mem_cons_self)]
        exact ih heof' hnext rest

theorem BracesMatch.balanced {dead : List LocatedToken} (h : BracesMatch dead) :
    Balanced dead := by
  have hskip : skipDead 0 (dead ++ [⟨.symbol .closeBrace, .start⟩]) =
      [⟨.symbol .closeBrace, .start⟩] := by
    have hstarts : ∀ front, front <+: dead →
        countSymbol .closeBrace front ≤ 0 + countSymbol .openBrace front := by
      intro front hfront
      rw [Nat.zero_add]
      exact h.starts front hfront
    rw [skipDead_append h.noEof hstarts, h.total, Nat.add_sub_cancel]
    rfl
  obtain ⟨dead', happend, hbalanced⟩ := closes_of_skipDead hskip
  rw [List.append_cancel_right happend]
  exact hbalanced

/-! ### Returns that are open -/

/-- Whether the tokens after an expression with `n` returns open in it go on with the expression:
an operator does, and so does one behind semicolons that the open returns take. -/
def resumes : Nat → List LocatedToken → Bool
  | _, [] => false
  | 0, t :: _ => t.token.isOperator
  | n + 1, t :: ts => t.token.isOperator || (t.token = .symbol .semicolon && resumes n ts)

def Frame.isReturn : Frame → Bool
  | ret _ => true
  | paren _ => false

namespace State

/-- Whether the tokens go on with the expression that has been read.  Of the returns that are open
around it, semicolons reach those behind the last parenthesis. -/
def goesOn : State → List LocatedToken → Bool
  | operator _ frames, ts => resumes (frames.takeWhile Frame.isReturn).length ts
  | _, _ => false

theorem after?_append {xs : List LocatedToken} : ∀ {s s' : State}, s.after? xs = some s' →
    ∀ ys : List LocatedToken, s.after? (xs ++ ys) = s'.after? ys := by
  induction xs with
  | nil =>
      intro s s' h ys
      cases h
      rfl
  | cons t xs ih =>
      intro s s' h ys
      rw [after?] at h
      cases hstep : s.step t.token with
      | moved next =>
          rw [hstep] at h
          rw [List.cons_append, after?, hstep]
          exact ih h ys
      | _ =>
          rw [hstep] at h
          cases h

theorem after?_cons {s s' : State} {t : LocatedToken} (h : s.step t.token = .moved s')
    (ts : List LocatedToken) : s.after? (t :: ts) = s'.after? ts := by
  rw [after?, h]

end State

open State (operand operator statement after?_append after?_cons)

theorem isOperator_of_mem {layer : Layer} {symbol : Symbol} {op : Operator}
    (h : (symbol, op) ∈ layer.operators) : (Token.symbol symbol).isOperator = true := by
  rw [isOperator_eq, (ofToken?_of_mem h).1]
  rfl

/-- The expression `e` that the word derives has `n` returns open at its end.  So it may take up to
`n` semicolons more, and what comes next matters only where it takes fewer; and read token
by token the word leads to a state with these returns open. -/
structure LeavesOpen (n : Nat) (layer : Layer) (word : List LocatedToken) (e : Expr) : Prop where
  derives : ∀ (marks : List LocatedToken) (next : Token),
    (∀ t ∈ marks, t.token = .symbol .semicolon) → marks.length ≤ n →
    (marks.length < n → next.isOperator = false ∧ next ≠ .symbol .semicolon) →
    Derives layer (word ++ marks) next e
  passes : ∀ (first : Bool) (frames : List Frame), ∃ (whole : Bool) (firsts : List Bool),
    firsts.length = n ∧ settled whole firsts = (first && e.isReturn) ∧
    (operand first frames).after? word = some (operator whole (firsts.map .ret ++ frames))

namespace LeavesOpen

variable {n : Nat} {layer : Layer} {word : List LocatedToken} {e : Expr}

/-- An expression that leaves no return open, by its derivations. -/
theorem ofClosed (hderives : ∀ next, Derives layer word next e)
    (hpasses : ∀ (first : Bool) (frames : List Frame),
      (operand first frames).after? word = some (operator (first && e.isReturn) frames)) :
    LeavesOpen 0 layer word e := by
  refine ⟨fun marks next _ hlength _ => ?_,
    fun first frames => ⟨_, [], rfl, rfl, hpasses first frames⟩⟩
  rw [List.length_eq_zero_iff.mp (Nat.le_zero.mp hlength), List.append_nil]
  exact hderives next

/-- A semicolon ends the return opened last. -/
theorem semicolon (h : LeavesOpen (n + 1) layer word e) (loc : Location) :
    LeavesOpen n layer (word ++ [⟨.symbol .semicolon, loc⟩]) e := by
  refine ⟨fun marks next hmarks hlength hnext => ?_, fun first frames => ?_⟩
  · rw [List.append_assoc]
    refine h.derives _ next ?_ ?_ ?_
    · intro t ht
      rcases List.mem_cons.mp ht with rfl | ht
      · rfl
      · exact hmarks t ht
    · simp
      exact hlength
    · simp
      exact hnext
  · obtain ⟨whole, firsts, hlength, hsettled, hafter⟩ := h.passes first frames
    cases firsts with
    | nil => cases hlength
    | cons last firsts =>
        refine ⟨last, firsts, Nat.succ.inj hlength, hsettled, ?_⟩
        rw [after?_append hafter]
        rfl

theorem number {value : Binary64} {loc : Location} :
    LeavesOpen 0 .primary [⟨.number value, loc⟩] (.num value) := by
  refine ofClosed (fun next => .number) fun first frames => ?_
  show _ = some (operator (first && false) frames)
  rw [Bool.and_false]
  rfl

theorem name {name : String} {loc : Location} :
    LeavesOpen 0 .primary [⟨.ident name, loc⟩] (.var name) := by
  refine ofClosed (fun next => .name) fun first frames => ?_
  show _ = some (operator (first && false) frames)
  rw [Bool.and_false]
  rfl

/-- A closing parenthesis ends all returns that are open behind the opening one. -/
theorem paren {loc loc' : Location} (hinner : Derives .comparison word (.symbol .closeParen) e)
    (h : LeavesOpen n .comparison word e) :
    LeavesOpen 0 .primary
      (⟨.symbol .openParen, loc⟩ :: (word ++ [⟨.symbol .closeParen, loc'⟩])) e := by
  refine ofClosed (fun next => .paren hinner) fun first frames => ?_
  obtain ⟨whole, firsts, -, hsettled, hafter⟩ := h.passes true (.paren first :: frames)
  have hstep : (operator whole (firsts.map .ret ++ .paren first :: frames)).step
      (.symbol .closeParen) = .moved (operator (first && e.isReturn) frames) := by
    rw [State.step_operator_of_not rfl, endStep_rets (by simp), hsettled, Bool.true_and]
    rfl
  have hopen : (operand first frames).step (.symbol .openParen) =
      .moved (operand true (.paren first :: frames)) := rfl
  rw [after?_cons hopen, after?_append hafter, after?_cons hstep]
  rfl

/-- A return takes the semicolon if no other is open in it. -/
theorem returnClosed {loc loc' : Location}
    (hinner : Derives .comparison word (.symbol .semicolon) e)
    (h : LeavesOpen 0 .comparison word e) :
    LeavesOpen 0 .primary
      (⟨.keyword .returnWord, loc⟩ :: (word ++ [⟨.symbol .semicolon, loc'⟩])) (.ret e loc) := by
  refine ofClosed (fun next => .returnClosed hinner) fun first frames => ?_
  obtain ⟨whole, firsts, hlength, -, hafter⟩ := h.passes true (.ret first :: frames)
  rw [List.length_eq_zero_iff.mp hlength] at hafter
  have hopen : (operand first frames).step (.keyword .returnWord) =
      .moved (operand true (.ret first :: frames)) := rfl
  rw [after?_cons hopen, after?_append hafter, Expr.isReturn, Bool.and_true]
  rfl

/-- A return without a semicolon is one more that is open. -/
theorem returnOpen {loc : Location} (h : LeavesOpen n .comparison word e) :
    LeavesOpen (n + 1) .primary (⟨.keyword .returnWord, loc⟩ :: word) (.ret e loc) := by
  refine ⟨fun marks next hmarks hlength hnext => ?_, fun first frames => ?_⟩
  · by_cases hfew : marks.length ≤ n
    · obtain ⟨hoperator, hsemicolon⟩ := hnext (by omega)
      have hinner := h.derives marks next hmarks hfew fun _ => ⟨hoperator, hsemicolon⟩
      exact .returnOpen hinner hoperator hsemicolon
    · -- the last of the semicolons is that of this return
      have hne : marks ≠ [] := by
        intro hnil
        rw [hnil] at hfew
        exact hfew (Nat.zero_le n)
      have hsplit := List.dropLast_append_getLast hne
      have hlast := hmarks _ (List.getLast_mem hne)
      have hinner := h.derives marks.dropLast (.symbol .semicolon)
        (fun t ht => hmarks t (List.dropLast_subset marks ht))
        (by rw [List.length_dropLast]; omega) (by rw [List.length_dropLast]; omega)
      have hclosed : Derives .primary (⟨.keyword .returnWord, loc⟩ :: (word ++ marks.dropLast ++
          [⟨.symbol .semicolon, (marks.getLast hne).loc⟩])) next (.ret e loc) :=
        .returnClosed hinner
      rw [← hlast, List.append_assoc, hsplit] at hclosed
      exact hclosed
  · obtain ⟨whole, firsts, hlength, -, hafter⟩ := h.passes true (.ret first :: frames)
    refine ⟨whole, firsts ++ [first], by simp [hlength], ?_, ?_⟩
    · rw [settled_append, Expr.isReturn, Bool.and_true]
      rfl
    · have hopen : (operand first frames).step (.keyword .returnWord) =
          .moved (operand true (.ret first :: frames)) := rfl
      rw [after?_cons hopen, hafter, List.map_append, List.append_assoc]
      rfl

theorem lift (h : LeavesOpen n layer.tighter word e) : LeavesOpen n layer word e :=
  ⟨fun marks next hmarks hlength hnext => .lift (h.derives marks next hmarks hlength hnext),
    h.passes⟩

/-- What is open after an operator is what its right operand leaves open. -/
theorem binary {symbol : Symbol} {op : Operator} {loc : Location}
    {left right : List LocatedToken} {a b : Expr} (written : (symbol, op) ∈ layer.operators)
    (hfirst : Derives layer left (.symbol symbol) a) (hleft : LeavesOpen 0 layer left a)
    (hright : LeavesOpen n layer.tighter right b) :
    LeavesOpen n layer (left ++ ⟨.symbol symbol, loc⟩ :: right) (.bin op a b loc) := by
  refine ⟨fun marks next hmarks hlength hnext => ?_, fun first frames => ?_⟩
  · rw [List.append_assoc]
    exact .binary written hfirst (hright.derives marks next hmarks hlength hnext)
  · obtain ⟨whole, firsts, hlength, -, hafter⟩ := hleft.passes first frames
    rw [List.length_eq_zero_iff.mp hlength] at hafter
    obtain ⟨whole', firsts', hlength', hsettled', hafter'⟩ := hright.passes false frames
    refine ⟨whole', firsts', hlength', ?_, ?_⟩
    · rw [hsettled', Bool.false_and]
      exact (Bool.and_false first).symm
    · have hstep : (operator whole frames).step (.symbol symbol) =
          .moved (operand false frames) := by
        simp [State.step, isOperator_of_mem written]
      rw [after?_append hafter]
      show (operator whole frames).after? _ = _
      rw [after?_cons hstep, hafter']

end LeavesOpen

/-- Every derived expression has some returns open at its end, and if there are any, what comes next
is neither an operator nor a semicolon. -/
theorem Derives.leavesOpen {layer : Layer} {word : List LocatedToken} {next : Token} {e : Expr}
    (h : Derives layer word next e) :
    ∃ n, LeavesOpen n layer word e ∧
      (n ≠ 0 → next.isOperator = false ∧ next ≠ .symbol .semicolon) := by
  induction h with
  | number => exact ⟨0, .number, fun h => absurd rfl h⟩
  | name => exact ⟨0, .name, fun h => absurd rfl h⟩
  | paren hinner ih =>
      obtain ⟨n, hn, -⟩ := ih
      exact ⟨0, .paren hinner hn, fun h => absurd rfl h⟩
  | returnClosed hinner ih =>
      obtain ⟨n, hn, hnext⟩ := ih
      have hzero : n = 0 := by
        by_cases hpos : n = 0
        · exact hpos
        · exact absurd rfl (hnext hpos).2
      exact ⟨0, .returnClosed hinner (hzero ▸ hn), fun h => absurd rfl h⟩
  | returnOpen hinner longest unclosed ih =>
      obtain ⟨n, hn, -⟩ := ih
      exact ⟨n + 1, .returnOpen hn, fun _ => ⟨longest, unclosed⟩⟩
  | lift _ ih =>
      obtain ⟨n, hn, hnext⟩ := ih
      exact ⟨n, .lift hn, hnext⟩
  | binary written hfirst _ ihleft ihright =>
      obtain ⟨m, hm, hsymbol⟩ := ihleft
      obtain ⟨n, hn, hnext⟩ := ihright
      have hzero : m = 0 := by
        by_cases hpos : m = 0
        · exact hpos
        · have hoperator := (hsymbol hpos).1
          rw [isOperator_of_mem written] at hoperator
          cases hoperator
      exact ⟨n, .binary written hfirst (hzero ▸ hm) hn, hnext⟩

/-! ### Expressions that go on -/

/-- There is one operator in the tree for each one in the text. -/
theorem Derives.countP_isOperator {layer : Layer} {word : List LocatedToken} {next : Token}
    {e : Expr} (h : Derives layer word next e) :
    word.countP (fun t => t.token.isOperator) = e.operators.length := by
  induction h with
  | number => rfl
  | name => rfl
  | paren _ ih =>
      rw [List.countP_cons_of_neg Bool.false_ne_true, List.countP_append, ih]
      rfl
  | returnClosed _ ih =>
      rw [List.countP_cons_of_neg Bool.false_ne_true, List.countP_append, ih]
      rfl
  | returnOpen _ _ _ ih =>
      rw [List.countP_cons_of_neg Bool.false_ne_true, ih]
      rfl
  | lift _ ih => exact ih
  | @binary layer symbol op loc left right next a b written _ _ ihleft ihright =>
      simp [Expr.operators, isOperator_of_mem written, ihleft, ihright]

/-- An expression is not read as the same one when an operator follows it. -/
theorem Derives.readExpr_ne_done {word : List LocatedToken} {next : Token} {e : Expr}
    (h : Derives .comparison word next e) (hnext : next.isOperator = false) {t : LocatedToken}
    (ht : t.token.isOperator = true) (rest mid : List LocatedToken) :
    readExpr (word ++ t :: rest) ≠ .done e mid := by
  intro hread
  obtain ⟨word', hsplit, hderives, hmid⟩ := readExpr_eq_done_iff.mp hread
  have hoperator : mid ≠ t :: rest := by
    intro hmid'
    rw [hmid', show headToken (t :: rest) = t.token from rfl, ht] at hmid
    cases hmid
  rcases List.append_eq_append_iff.mp hsplit with ⟨more, hword', htail⟩ | ⟨more, hword, htail⟩
  · cases more with
    | nil => exact hoperator htail.symm
    | cons u more =>
        -- the operator has been read too, so the tree has one more
        obtain ⟨rfl, -⟩ := List.cons.inj htail
        have hcount := hderives.countP_isOperator
        rw [hword', List.countP_append, List.countP_cons, if_pos ht,
          ← h.countP_isOperator] at hcount
        omega
  · cases more with
    | nil => exact hoperator htail
    | cons u more =>
        -- a shorter word has been read, and would have been without the operator as well
        subst htail hword
        have hwhole : readExpr (word' ++ u :: more ++ [⟨next, .start⟩]) =
            .done e [⟨next, .start⟩] := h.readExpr_eq_done hnext
        have hshorter : Derives .comparison word'
            (headToken (u :: (more ++ [⟨next, .start⟩]))) e := hderives
        have hpart := hshorter.readExpr_eq_done hmid
        rw [List.append_assoc, List.cons_append, hpart] at hwhole
        have hlength := congrArg List.length (Reading.done.inj hwhole).2
        simp at hlength

namespace LeavesOpen

variable {n : Nat} {word dead : List LocatedToken} {e : Expr}

/-- A return statement that ends right after the word, in front of what is dropped. -/
theorem final (h : LeavesOpen n .comparison word e) (hret : e.isReturn = true)
    (hdead : Balanced dead) {next : Token}
    (follows : next = (dead.head?.map LocatedToken.token).getD (.symbol .closeBrace))
    (hoperator : next.isOperator = false) (hsemicolon : n ≠ 0 → next ≠ .symbol .semicolon) :
    DerivesBody (word ++ dead) [e] := by
  have hderives := h.derives [] next (by simp) (Nat.zero_le n)
    fun hpos => ⟨hoperator, hsemicolon (Nat.ne_of_gt hpos)⟩
  rw [List.append_nil] at hderives
  exact .final hderives hret hoperator hdead follows

/-- What does not go on with a return statement is dropped, up to semicolons that the statement
takes. -/
theorem derivesBody (h : LeavesOpen n .comparison word e) (hret : e.isReturn = true)
    (hdead : Balanced dead) (hresumes : resumes n dead = false) :
    DerivesBody (word ++ dead) [e] := by
  induction n generalizing word dead with
  | zero =>
      refine h.final hret hdead rfl ?_ fun hpos => absurd rfl hpos
      cases dead with
      | nil => rfl
      | cons t dead => exact hresumes
  | succ n ih =>
      cases dead with
      | nil => exact h.final hret hdead rfl rfl fun _ => by simp
      | cons t dead =>
          obtain ⟨token, loc⟩ := t
          rw [resumes, Bool.or_eq_false_iff] at hresumes
          by_cases hsemicolon : token = .symbol .semicolon
          · subst hsemicolon
            have hdead' : Balanced dead := by
              cases hdead with
              | token _ _ _ hdead => exact hdead
            have hbody := ih (h.semicolon loc) hdead' (by simpa using hresumes.2)
            rw [List.append_assoc] at hbody
            exact hbody
          · exact h.final hret hdead rfl hresumes.1 fun _ => hsemicolon

/-- What goes on with an expression changes it. -/
theorem readExpr_ne_done (h : LeavesOpen n .comparison word e) (hresumes : resumes n dead = true)
    (rest mid : List LocatedToken) : readExpr (word ++ (dead ++ rest)) ≠ .done e mid := by
  have htaken : ∀ {n : Nat} {word : List LocatedToken}, LeavesOpen n .comparison word e →
      ∀ t : LocatedToken, t.token.isOperator = true → ∀ more,
        readExpr (word ++ t :: more) ≠ .done e mid := by
    intro n word h t ht more
    have hderives := h.derives [] (.symbol .closeBrace) (by simp) (Nat.zero_le n)
      fun _ => ⟨rfl, by simp⟩
    rw [List.append_nil] at hderives
    exact hderives.readExpr_ne_done rfl ht more mid
  induction n generalizing word dead with
  | zero =>
      cases dead with
      | nil => cases hresumes
      | cons t dead => exact htaken h t hresumes (dead ++ rest)
  | succ n ih =>
      cases dead with
      | nil => cases hresumes
      | cons t dead =>
          obtain ⟨token, loc⟩ := t
          rw [resumes, Bool.or_eq_true, Bool.and_eq_true, decide_eq_true_eq] at hresumes
          rcases hresumes with hoperator | ⟨hsemicolon, hresumes⟩
          · exact htaken h ⟨token, loc⟩ hoperator (dead ++ rest)
          · subst hsemicolon
            have hlater := ih (h.semicolon loc) hresumes
            rw [List.append_assoc] at hlater
            exact hlater

end LeavesOpen

/-! ### The body -/

namespace State

/-- A statement begins as an expression does. -/
theorem after?_statement {word : List LocatedToken} {whole : Bool} {frames : List Frame}
    (h : (operand true []).after? word = some (operator whole frames)) :
    statement.after? word = some (operator whole frames) := by
  cases word with
  | nil => cases h
  | cons t word =>
      rw [after?] at h ⊢
      have hsame : statement.step t.token = (operand true []).step t.token := by
        by_cases hclose : t.token = .symbol .closeBrace
        · rw [hclose] at h
          cases h
        by_cases heof : t.token = .eof
        · rw [heof] at h
          cases h
        · simp only [step, if_neg hclose, if_neg heof]
      rw [hsame]
      exact h

theorem exists_dead_of_deadStep {depth : Nat} {t : Token} {s : State}
    (h : deadStep depth t = .moved s) : ∃ depth', s = dead depth' := by
  unfold deadStep at h
  split at h
  · cases h
  · cases h
    exact ⟨_, rfl⟩
  · split at h
    · cases h
    · cases h
      exact ⟨_, rfl⟩
  · cases h
    exact ⟨_, rfl⟩

/-- What comes after a return statement stays after it. -/
theorem exists_dead_of_after? {ts : List LocatedToken} : ∀ {depth : Nat} {s : State},
    (dead depth).after? ts = some s → ∃ depth', s = dead depth' := by
  induction ts with
  | nil =>
      intro depth s h
      cases h
      exact ⟨depth, rfl⟩
  | cons t ts ih =>
      intro depth s h
      rw [after?] at h
      cases hstep : (dead depth).step t.token with
      | moved s' =>
          rw [hstep] at h
          obtain ⟨depth', rfl⟩ := exists_dead_of_deadStep hstep
          exact ih h
      | _ =>
          rw [hstep] at h
          cases h

end State

namespace LeavesOpen

variable {n : Nat} {word : List LocatedToken} {e : Expr}

/-- At the end of a statement it is the expression just read that may be gone on with. -/
theorem goesOn_eq (h : LeavesOpen n .comparison word e) (dead : List LocatedToken) :
    (statement.after? word).any (State.goesOn · dead) = resumes n dead := by
  obtain ⟨whole, firsts, hlength, -, hafter⟩ := h.passes true []
  have hframes : ((firsts.map Frame.ret ++ []).takeWhile Frame.isReturn).length = n := by
    have hreturns : ∀ frame ∈ firsts.map Frame.ret, frame.isReturn = true := by
      intro frame hframe
      obtain ⟨first, -, rfl⟩ := List.mem_map.mp hframe
      rfl
    rw [List.takeWhile_append_of_pos hreturns]
    simp [hlength]
  rw [State.after?_statement hafter, Option.any_some, State.goesOn, hframes]

/-- Behind a return statement nothing is gone on with. -/
theorem goesOn_dead (h : LeavesOpen n .comparison word e) (hret : e.isReturn = true)
    {t : LocatedToken} (hoperator : t.token.isOperator = false)
    (hsemicolon : n ≠ 0 → t.token ≠ .symbol .semicolon) (ts dead : List LocatedToken) :
    (statement.after? (word ++ t :: ts)).any (State.goesOn · dead) = false := by
  obtain ⟨whole, firsts, hlength, hsettled, hafter⟩ := h.passes true []
  have hwhole : settled whole firsts = true := hsettled.trans hret
  have hstep : (operator whole (firsts.map .ret ++ [])).step t.token =
      State.deadStep 0 t.token := by
    rw [State.step_operator_of_not hoperator]
    cases firsts with
    | nil =>
        have hwhole' : whole = true := hwhole
        rw [hwhole']
        rfl
    | cons first firsts =>
        rw [endStep_rets (hsemicolon (by rw [← hlength]; exact Nat.succ_ne_zero _)), hwhole]
        rfl
  rw [after?_append (State.after?_statement hafter), State.after?, hstep]
  cases hdead : State.deadStep 0 t.token with
  | moved s =>
      obtain ⟨depth, rfl⟩ := State.exists_dead_of_deadStep hdead
      cases hs : (State.dead depth).after? ts with
      | none => simp only [hs, Option.any_none]
      | some s =>
          obtain ⟨depth', rfl⟩ := State.exists_dead_of_after? hs
          simp only [hs, Option.any_some, State.goesOn]
  | _ => rfl

end LeavesOpen

/-- The first statement is read first. -/
theorem readExpr_of_readStatements {ts rest : List LocatedToken} {e : Expr} {es : List Expr}
    (h : readStatements ts = .done (e :: es) rest) : ∃ mid, readExpr ts = .done e mid := by
  rw [readStatements_eq] at h
  by_cases hends : bodyEnds ts = true
  · rw [if_pos hends] at h
    cases h
  · rw [if_neg hends] at h
    obtain ⟨e', mid, hexpr, h⟩ := Reading.andThen_eq_done.mp h
    by_cases hret : e'.isReturn = true
    · rw [if_pos hret] at h
      cases h
      exact ⟨mid, hexpr⟩
    · rw [if_neg hret] at h
      obtain ⟨_, _, _, h⟩ := Reading.andThen_eq_done.mp h
      obtain ⟨_, _, _, h⟩ := Reading.andThen_eq_done.mp h
      cases h
      exact ⟨mid, hexpr⟩

/-- A statement that is no return is read, and the rest of the body after it. -/
theorem readStatements_statement {word : List LocatedToken} {e : Expr}
    (h : Derives .comparison word (.symbol .semicolon) e) (hret : e.isReturn = false)
    (loc : Location) (rest : List LocatedToken) :
    readStatements (word ++ ⟨.symbol .semicolon, loc⟩ :: rest) =
      (readStatements rest).andThen fun es rest' => .done (e :: es) rest' := by
  have hexpr : readExpr (word ++ ⟨.symbol .semicolon, loc⟩ :: rest) =
      .done e (⟨.symbol .semicolon, loc⟩ :: rest) := h.readExpr_eq_done rfl
  rw [readStatements_eq, bodyEnds_of_readExpr hexpr, hexpr]
  simp [hret, expectSymbol, headToken]

/-- Where the statement ends in a semicolon, a new one begins. -/
theorem after?_statement_semicolon {word : List LocatedToken} {e : Expr}
    (h : Derives .comparison word (.symbol .semicolon) e) (hret : e.isReturn = false)
    (loc : Location) (rest : List LocatedToken) :
    statement.after? (word ++ ⟨.symbol .semicolon, loc⟩ :: rest) = statement.after? rest := by
  obtain ⟨n, hopen, hnext⟩ := h.leavesOpen
  obtain ⟨whole, firsts, hlength, hsettled, hafter⟩ := hopen.passes true []
  have hfirsts : firsts = [] := by
    by_cases hzero : n = 0
    · exact List.length_eq_zero_iff.mp (hlength.trans hzero)
    · exact absurd rfl (hnext hzero).2
  subst hfirsts
  have hwhole : whole = false := hsettled.trans hret
  rw [after?_append (State.after?_statement hafter), hwhole]
  rfl

/-- The statements of a body with tokens behind a return that is the last of them.  If the tokens go
on with the return, other statements are read, and if not, the same. -/
theorem DerivesBody.append_dead {body : List LocatedToken} {es : List Expr}
    (h : DerivesBody body es) (hlast : es.getLast?.any Expr.isReturn = true)
    {dead : List LocatedToken} (hdead : Balanced dead) (rest : List LocatedToken)
    (hrest : headToken rest = .symbol .closeBrace) :
    ((State.statement.after? body).any (State.goesOn · dead) = false →
      readStatements (body ++ (dead ++ rest)) = .done es rest) ∧
    ((State.statement.after? body).any (State.goesOn · dead) = true →
      ∀ mid, readStatements (body ++ (dead ++ rest)) ≠ .done es mid) := by
  induction h with
  | nil => cases hlast
  | @statement word after loc e es expr other _ ih =>
      have hlast' : es.getLast?.any Expr.isReturn = true := by
        cases es with
        | nil =>
            rw [List.getLast?_singleton, Option.any_some, other] at hlast
            cases hlast
        | cons e' es => exact hlast
      obtain ⟨hsame, hother⟩ := ih hlast'
      rw [List.append_assoc, List.cons_append, after?_statement_semicolon expr other,
        readStatements_statement expr other]
      refine ⟨fun hdrops => by rw [hsame hdrops]; rfl, fun hgoes mid hread => ?_⟩
      obtain ⟨es', mid', hread, heq⟩ := Reading.andThen_eq_done.mp hread
      cases heq
      exact hother hgoes mid hread
  | @final word dead' next e expr last longest balanced follows =>
      obtain ⟨n, hopen, hnext⟩ := expr.leavesOpen
      cases dead' with
      | nil =>
          rw [List.append_nil, hopen.goesOn_eq]
          refine ⟨fun hdrops => ?_, fun hgoes mid hread => ?_⟩
          · have hbody := hopen.derivesBody last hdead hdrops
            rw [← List.append_assoc]
            exact hbody.readStatements_eq_done hrest
          · obtain ⟨mid', hexpr⟩ := readExpr_of_readStatements hread
            exact hopen.readExpr_ne_done hgoes rest mid' hexpr
      | cons t dead' =>
          subst follows
          rw [hopen.goesOn_dead last longest fun hpos => (hnext hpos).2]
          refine ⟨fun _ => ?_, fun h => by cases h⟩
          have hbody : DerivesBody (word ++ (t :: dead' ++ dead)) [e] :=
            .final expr last longest (balanced.append hdead) rfl
          have hread := hbody.readStatements_eq_done hrest
          rw [List.append_assoc, List.append_assoc] at hread
          rw [List.append_assoc]
          exact hread

/-! ### The function -/

/-- After the parameters comes the body. -/
theorem DerivesNames.after? {word : List LocatedToken} {ps : List String}
    (h : DerivesNames word ps) : ∀ {names : List String}, (names ++ ps).Nodup →
    ∀ (loc : Location) (rest : List LocatedToken),
      (State.param names).after? (word ++ ⟨.symbol .closeParen, loc⟩ :: rest) =
        State.openBody.after? rest := by
  have hname : ∀ {names ps : List String} {p : String}, (names ++ p :: ps).Nodup →
      (State.param names).step (.ident p) = .moved (.afterParam (names ++ [p])) := by
    intro names ps p hnodup
    have hnew : ¬ names.contains p = true := by
      intro hmem
      rw [List.contains_iff_mem] at hmem
      exact (List.nodup_append.mp hnodup).2.2 p hmem p List.mem_cons_self rfl
    simp only [State.step, State.nameStep, if_neg hnew, reduceCtorEq, if_false]
  induction h with
  | single =>
      intro names hnodup loc rest
      rw [List.cons_append, after?_cons (hname hnodup)]
      rfl
  | trailing =>
      intro names hnodup loc rest
      rw [List.cons_append, after?_cons (hname hnodup)]
      rfl
  | @cons p _ _ word ps _ ih =>
      intro names hnodup loc rest
      have hnodup' : (names ++ [p] ++ ps).Nodup := by rwa [List.append_assoc]
      rw [List.cons_append, after?_cons (hname hnodup)]
      exact ih hnodup' loc rest

theorem DerivesParams.after? {word : List LocatedToken} {ps : List String}
    (h : DerivesParams word ps) (loc : Location) (rest : List LocatedToken) :
    (State.param []).after? (word ++ ⟨.symbol .closeParen, loc⟩ :: rest) =
      State.openBody.after? rest := by
  cases h with
  | nil => rfl
  | names hnames hdistinct =>
      have hnodup : ([] ++ ps).Nodup := hdistinct
      exact hnames.after? hnodup loc rest

/-- The body is read after what stands in front of it. -/
theorem DerivesParams.readFunction_eq {params : List LocatedToken} {ps : List String}
    (h : DerivesParams params ps) (name : String)
    (funcLoc nameLoc openLoc closeLoc braceLoc : Location) (body : List LocatedToken) :
    readFunction (⟨.keyword .funcWord, funcLoc⟩ :: ⟨.ident name, nameLoc⟩ ::
        ⟨.symbol .openParen, openLoc⟩ :: (params ++ ⟨.symbol .closeParen, closeLoc⟩ ::
          ⟨.symbol .openBrace, braceLoc⟩ :: body)) =
      (readStatements body).andThen fun es mid =>
        (expectSymbol .closeBrace .closeBody mid).andThen fun _ rest =>
          .done ⟨name, ps, es, headLoc body, funcLoc⟩ rest := by
  show (readParams (params ++ _)).andThen _ = _
  rw [h.readParams_eq_done rfl]
  rfl

theorem DerivesBody.ne_nil {body : List LocatedToken} {es : List Expr} (h : DerivesBody body es)
    (hes : es ≠ []) : body ≠ [] := by
  rintro rfl
  have hread : readStatements ([] ++ [⟨.symbol .closeBrace, .start⟩]) = _ :=
    h.readStatements_eq_done rfl
  rw [readStatements_eq] at hread
  exact hes (Reading.done.inj hread).1.symm

/-- Whether the tokens go on with an expression at the end of the tokens before them. -/
def goesOn (front dead : List LocatedToken) : Bool :=
  (State.funcWord.after? front).any (State.goesOn · dead)

/-- Tokens in front of the brace that closes a function whose last statement is a return: the same
function is read exactly if they do not go on with the return. -/
theorem DerivesFunction.append_dead_iff {front dead : List LocatedToken} {f : Function}
    {closeLoc : Location} (h : DerivesFunction (front ++ [⟨.symbol .closeBrace, closeLoc⟩]) f)
    (hlast : f.body.getLast?.any Expr.isReturn = true) (hdead : Balanced dead) (loc : Location)
    (rest : List LocatedToken) :
    (readFunction (front ++ (dead ++ ⟨.symbol .closeBrace, loc⟩ :: rest))).result = .ok f ↔
      goesOn front dead = false := by
  generalize hword : front ++ [⟨.symbol .closeBrace, closeLoc⟩] = word at h
  obtain ⟨hparams, hbody⟩ := h
  rename_i name params body ps es funcLoc nameLoc openLoc paramsLoc braceLoc endLoc
  have hsplit : front ++ [⟨.symbol .closeBrace, closeLoc⟩] =
      (⟨.keyword .funcWord, funcLoc⟩ :: ⟨.ident name, nameLoc⟩ :: ⟨.symbol .openParen, openLoc⟩ ::
        (params ++ ⟨.symbol .closeParen, paramsLoc⟩ :: ⟨.symbol .openBrace, braceLoc⟩ :: body)) ++
        [⟨.symbol .closeBrace, endLoc⟩] := by
    simpa using hword
  obtain ⟨rfl, -⟩ := List.append_inj' hsplit rfl
  have hgoes : goesOn (⟨.keyword .funcWord, funcLoc⟩ :: ⟨.ident name, nameLoc⟩ ::
      ⟨.symbol .openParen, openLoc⟩ :: (params ++ ⟨.symbol .closeParen, paramsLoc⟩ ::
        ⟨.symbol .openBrace, braceLoc⟩ :: body)) dead =
      (State.statement.after? body).any (State.goesOn · dead) := by
    show ((State.param []).after? (params ++ _ :: _)).any _ = _
    rw [hparams.after?]
    rfl
  obtain ⟨hsame, hother⟩ :=
    hbody.append_dead hlast hdead (⟨.symbol .closeBrace, loc⟩ :: rest) rfl
  simp only [List.cons_append, List.append_assoc]
  rw [hgoes, hparams.readFunction_eq]
  constructor
  · intro hresult
    refine Bool.eq_false_iff.mpr fun hresumed => ?_
    obtain ⟨es', mid, hread, hdone⟩ :=
      Reading.andThen_eq_done.mp (Reading.eq_done_of_result hresult)
    obtain ⟨_, _, _, hdone⟩ := Reading.andThen_eq_done.mp hdone
    have hes : es' = es := congrArg Function.body (Reading.done.inj hdone).1
    exact hother hresumed mid (hes ▸ hread)
  · intro hdrops
    have hloc : headLoc (body ++ (dead ++ ⟨.symbol .closeBrace, loc⟩ :: rest)) =
        headLoc (body ++ [⟨.symbol .closeBrace, endLoc⟩]) := by
      cases body with
      | nil =>
          refine absurd rfl (hbody.ne_nil fun hnil => ?_)
          subst hnil
          cases hlast
      | cons t body => rfl
    rw [hsame hdrops, hloc]
    rfl

/-- No state is reached behind the end of a function. -/
theorem DerivesFunction.after?_eq_none {word : List LocatedToken} {f : Function}
    (h : DerivesFunction word f) (more : List LocatedToken) :
    State.funcWord.after? (word ++ more) = none := by
  cases hafter : State.funcWord.after? (word ++ more) with
  | none => rfl
  | some s =>
      have hrun := State.run_append hafter []
      rw [List.append_nil, State.run_eq_readFunction, h.readFunction_eq_done] at hrun
      obtain ⟨fault, hfault⟩ := s.step_eof
      rw [State.run, hfault] at hrun
      cases hrun

/-- A function ends in a brace. -/
theorem DerivesFunction.ne_append_eof {word : List LocatedToken} {f : Function}
    (h : DerivesFunction word f) (front : List LocatedToken) (loc : Location) :
    word ≠ front ++ [⟨.eof, loc⟩] := by
  obtain ⟨_, _⟩ := h
  rename_i name params body _ _ funcLoc nameLoc openLoc closeLoc braceLoc endLoc _ _
  intro hword
  have hsplit : (⟨.keyword .funcWord, funcLoc⟩ :: ⟨.ident name, nameLoc⟩ ::
      ⟨.symbol .openParen, openLoc⟩ :: (params ++ ⟨.symbol .closeParen, closeLoc⟩ ::
        ⟨.symbol .openBrace, braceLoc⟩ :: body)) ++ [⟨.symbol .closeBrace, endLoc⟩] =
      front ++ [⟨.eof, loc⟩] := by
    simpa using hword
  cases (List.append_inj' hsplit rfl).2

theorem readFunction_append_dead_iff {front dead : List LocatedToken} {f : Function}
    {closeLoc eofLoc : Location}
    (h : (readFunction (front ++ [⟨.symbol .closeBrace, closeLoc⟩, ⟨.eof, eofLoc⟩])).result = .ok f)
    (hlast : f.body.getLast?.any Expr.isReturn = true) (hdead : Balanced dead) (loc : Location)
    (rest : List LocatedToken) :
    (readFunction (front ++ (dead ++ ⟨.symbol .closeBrace, loc⟩ :: rest))).result = .ok f ↔
      goesOn front dead = false := by
  obtain ⟨word, hsplit, hword⟩ := derivesFunction_of_readFunction (Reading.eq_done_of_result h)
  have hinside : ∀ more, front = word ++ more →
      ((readFunction (front ++ (dead ++ ⟨.symbol .closeBrace, loc⟩ :: rest))).result = .ok f ↔
        goesOn front dead = false) := by
    -- the function has ended before, and no state goes on
    intro more hfront
    rw [hfront, List.append_assoc, hword.readFunction_eq_done, goesOn, hword.after?_eq_none]
    exact ⟨fun _ => rfl, fun _ => rfl⟩
  rcases List.append_eq_append_iff.mp hsplit with ⟨more, hmore, htail⟩ | ⟨more, hmore, -⟩
  · cases more with
    | nil =>
        rw [List.append_nil] at hmore
        exact hinside [] (by rw [hmore, List.append_nil])
    | cons brace more =>
        obtain ⟨rfl, hrest⟩ := List.cons.inj htail
        cases more with
        | nil =>
            rw [hmore] at hword
            exact hword.append_dead_iff hlast hdead loc rest
        | cons eof more =>
            obtain ⟨rfl, hnil⟩ := List.cons.inj hrest
            obtain ⟨rfl, -⟩ := List.append_eq_nil_iff.mp hnil.symm
            refine absurd ?_
              (hword.ne_append_eof (front ++ [⟨.symbol .closeBrace, closeLoc⟩]) eofLoc)
            rw [hmore, List.append_assoc]
            rfl
  · exact hinside more hmore

/-- **Tokens behind a return are dropped unless they go on with it.**  Let a function end in a
return statement with its semicolon, and put tokens whose braces match behind the semicolon.
The same function is read exactly if they do not go on with the return: they do not begin with
an operator, nor with one behind semicolons of which there are no more than returns still
open. -/
theorem parse_append_dead_iff {pre e dead : List LocatedToken} {value : Expr} {f : Function}
    {loc semicolonLoc closeLoc eofLoc closeLoc' eofLoc' : Location}
    (h : parse (pre ++ ⟨.keyword .returnWord, loc⟩ :: (e ++ [⟨.symbol .semicolon, semicolonLoc⟩,
      ⟨.symbol .closeBrace, closeLoc⟩, ⟨.eof, eofLoc⟩])) = .ok f)
    (hlast : f.body.getLast? = some (.ret value loc)) (hdead : BracesMatch dead) :
    parse (pre ++ ⟨.keyword .returnWord, loc⟩ :: (e ++ ⟨.symbol .semicolon, semicolonLoc⟩ ::
        (dead ++ [⟨.symbol .closeBrace, closeLoc'⟩, ⟨.eof, eofLoc'⟩]))) = .ok f ↔
      goesOn (pre ++ ⟨.keyword .returnWord, loc⟩ :: (e ++ [⟨.symbol .semicolon, semicolonLoc⟩]))
        dead = false := by
  generalize hfront : pre ++ ⟨.keyword .returnWord, loc⟩ ::
    (e ++ [⟨.symbol .semicolon, semicolonLoc⟩]) = front
  have hread : (readFunction (front ++
      [⟨.symbol .closeBrace, closeLoc⟩, ⟨.eof, eofLoc⟩])).result = .ok f := by
    have htokens : pre ++ ⟨.keyword .returnWord, loc⟩ :: (e ++ [⟨.symbol .semicolon, semicolonLoc⟩,
        ⟨.symbol .closeBrace, closeLoc⟩, ⟨.eof, eofLoc⟩]) =
        front ++ [⟨.symbol .closeBrace, closeLoc⟩] ++ [⟨.eof, eofLoc⟩] := by
      simp [← hfront]
    rw [htokens, parse, closed_of_isClosed (isClosed_append_eof _ eofLoc), List.append_assoc] at h
    exact h
  have htokens : pre ++ ⟨.keyword .returnWord, loc⟩ :: (e ++ ⟨.symbol .semicolon, semicolonLoc⟩ ::
      (dead ++ [⟨.symbol .closeBrace, closeLoc'⟩, ⟨.eof, eofLoc'⟩])) =
      front ++ (dead ++ [⟨.symbol .closeBrace, closeLoc'⟩]) ++ [⟨.eof, eofLoc'⟩] := by
    simp [← hfront]
  rw [htokens, parse, closed_of_isClosed (isClosed_append_eof _ eofLoc'), List.append_assoc,
    List.append_assoc]
  exact readFunction_append_dead_iff hread (by rw [hlast]; rfl) hdead.balanced closeLoc'
    [⟨.eof, eofLoc'⟩]

/-- `func f() {` -/
private def opening : List LocatedToken :=
  [⟨.keyword .funcWord, ⟨1, 1⟩⟩, ⟨.ident "f", ⟨1, 6⟩⟩, ⟨.symbol .openParen, ⟨1, 7⟩⟩,
    ⟨.symbol .closeParen, ⟨1, 8⟩⟩, ⟨.symbol .openBrace, ⟨1, 10⟩⟩]

/-- `return 0`, of which the semicolon behind it closes just this return. -/
private def innerReturn : List LocatedToken :=
  [⟨.keyword .returnWord, ⟨1, 19⟩⟩, ⟨.number ⟨0⟩, ⟨1, 26⟩⟩]

/-- `; { ) } ; <` is dropped behind `return return 0;`, and `; < {}` is not. -/
theorem parse_append_dead_iff_nested :
    ∃ f, parse (opening ++ ⟨.keyword .returnWord, ⟨1, 12⟩⟩ :: (innerReturn ++
        ⟨.symbol .semicolon, ⟨1, 27⟩⟩ :: ([⟨.symbol .semicolon, ⟨2, 1⟩⟩,
          ⟨.symbol .openBrace, ⟨2, 2⟩⟩, ⟨.symbol .closeParen, ⟨2, 3⟩⟩,
          ⟨.symbol .closeBrace, ⟨2, 4⟩⟩, ⟨.symbol .semicolon, ⟨2, 5⟩⟩, ⟨.symbol .less, ⟨2, 6⟩⟩] ++
          [⟨.symbol .closeBrace, ⟨3, 1⟩⟩, ⟨.eof, ⟨3, 2⟩⟩]))) = .ok f ∧
      parse (opening ++ ⟨.keyword .returnWord, ⟨1, 12⟩⟩ :: (innerReturn ++
        ⟨.symbol .semicolon, ⟨1, 27⟩⟩ :: ([⟨.symbol .semicolon, ⟨2, 1⟩⟩, ⟨.symbol .less, ⟨2, 2⟩⟩,
          ⟨.symbol .openBrace, ⟨2, 3⟩⟩, ⟨.symbol .closeBrace, ⟨2, 4⟩⟩] ++
          [⟨.symbol .closeBrace, ⟨3, 1⟩⟩, ⟨.eof, ⟨3, 2⟩⟩]))) ≠ .ok f := by
  have hparse : parse (opening ++ ⟨.keyword .returnWord, ⟨1, 12⟩⟩ :: (innerReturn ++
      [⟨.symbol .semicolon, ⟨1, 27⟩⟩, ⟨.symbol .closeBrace, ⟨3, 1⟩⟩, ⟨.eof, ⟨3, 2⟩⟩])) =
      .ok ⟨"f", [], [.ret (.ret (.num ⟨0⟩) ⟨1, 19⟩) ⟨1, 12⟩], ⟨1, 12⟩, ⟨1, 1⟩⟩ := by
    with_unfolding_all rfl
  have hmatch : ∀ dead : List LocatedToken, (∀ t ∈ dead, t.token ≠ .eof) →
      (∀ n < dead.length + 1, countSymbol .closeBrace (dead.take n) ≤
        countSymbol .openBrace (dead.take n)) →
      countSymbol .closeBrace dead = countSymbol .openBrace dead → BracesMatch dead := by
    intro dead hnoEof hstarts htotal
    refine ⟨hnoEof, fun front hfront => ?_, htotal⟩
    rw [List.prefix_iff_eq_take.mp hfront]
    exact hstarts front.length (Nat.lt_succ_of_le hfront.length_le)
  refine ⟨_, (parse_append_dead_iff hparse rfl (hmatch _ (by decide) (by decide) rfl)).mpr rfl, ?_⟩
  intro hsame
  have hgoes := (parse_append_dead_iff hparse rfl (hmatch _ (by decide) (by decide) rfl)).mp hsame
  cases hgoes

end TallyLang
