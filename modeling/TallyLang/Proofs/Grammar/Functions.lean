/-
Functions are read by their grammar.

A reader of a part of a function succeeds exactly if the tokens that it passes are
derived as that part.  For the tokens after a return statement the two sides are
unlike each other: the reader counts braces, while the grammar says how a balanced
run is put together.  `closes_of_skipDead` is the link, with as many closing braces
to come as the counter says.
-/
import TallyLang.Cursor
import TallyLang.Proofs.Grammar.Expressions

namespace TallyLang

/-! ### Dead code -/

theorem headToken_append (xs rest : List LocatedToken) :
    headToken (xs ++ rest) = (xs.head?.map LocatedToken.token).getD (headToken rest) := by
  cases xs <;> rfl

theorem Balanced.append {xs ys : List LocatedToken} (hx : Balanced xs) (hy : Balanced ys) :
    Balanced (xs ++ ys) := by
  induction hx with
  | nil => exact hy
  | token hopen hclose heof _ ih => exact .token hopen hclose heof ih
  | braces hinner _ _ ih =>
      rw [List.cons_append, List.append_assoc, List.cons_append]
      exact .braces hinner ih

/-- Whether the token is neither a brace nor the end of the input. -/
def Token.isInline (t : Token) : Bool :=
  t ≠ .symbol .openBrace && t ≠ .symbol .closeBrace && t ≠ .eof

theorem balanced_of_isInline {word : List LocatedToken}
    (h : ∀ t ∈ word, t.token.isInline = true) : Balanced word := by
  induction word with
  | nil => exact .nil
  | cons t word ih =>
      have ht := h t List.mem_cons_self
      simp only [Token.isInline, Bool.and_eq_true, decide_eq_true_eq] at ht
      exact .token ht.1.1 ht.1.2 ht.2 (ih fun u hu => h u (List.mem_cons_of_mem t hu))

theorem skipDead_token {t : LocatedToken} (hopen : t.token ≠ .symbol .openBrace)
    (hclose : t.token ≠ .symbol .closeBrace) (heof : t.token ≠ .eof) (depth : Nat)
    (rest : List LocatedToken) : skipDead depth (t :: rest) = skipDead depth rest := by
  rw [skipDead.eq_def depth (t :: rest)]
  dsimp only
  split
  · rename_i h
    exact absurd h heof
  · rename_i h
    exact absurd h hopen
  · rename_i h
    exact absurd h hclose
  · rfl

/-- A balanced run is passed over as a whole. -/
theorem Balanced.skipDead_append {dead : List LocatedToken} (h : Balanced dead) :
    ∀ (depth : Nat) (rest : List LocatedToken),
      skipDead depth (dead ++ rest) = skipDead depth rest := by
  induction h with
  | nil =>
      intro depth rest
      rfl
  | token hopen hclose heof _ ih =>
      intro depth rest
      rw [List.cons_append, skipDead_token hopen hclose heof, ih]
  | @braces inner after loc loc' _ _ ihinner ihafter =>
      intro depth rest
      rw [List.cons_append, List.append_assoc, List.cons_append]
      show skipDead (depth + 1) (inner ++ ⟨.symbol .closeBrace, loc'⟩ :: (after ++ rest)) = _
      rw [ihinner]
      show skipDead depth (after ++ rest) = _
      rw [ihafter]

/-- A run that closes `depth` braces opened before it. -/
def Closes : Nat → List LocatedToken → Prop
  | 0, word => Balanced word
  | depth + 1, word => ∃ inner loc rest,
      word = inner ++ ⟨.symbol .closeBrace, loc⟩ :: rest ∧ Balanced inner ∧ Closes depth rest

theorem Closes.append {depth : Nat} {xs ys : List LocatedToken} (hx : Balanced xs)
    (hy : Closes depth ys) : Closes depth (xs ++ ys) := by
  cases depth with
  | zero => exact hx.append hy
  | succ depth =>
      obtain ⟨inner, loc, rest, rfl, hinner, hrest⟩ := hy
      refine ⟨xs ++ inner, loc, rest, ?_, hx.append hinner, hrest⟩
      rw [List.append_assoc]

/-- What is passed over before a closing brace closes all the braces that were counted. -/
theorem closes_of_skipDead {ts : List LocatedToken} : ∀ {depth : Nat} {loc : Location}
    {rest : List LocatedToken}, skipDead depth ts = ⟨.symbol .closeBrace, loc⟩ :: rest →
    ∃ dead, ts = dead ++ ⟨.symbol .closeBrace, loc⟩ :: rest ∧ Closes depth dead := by
  induction ts with
  | nil =>
      intro depth loc rest h
      cases h
  | cons t ts ih =>
      intro depth loc rest h
      obtain ⟨token, tokenLoc⟩ := t
      by_cases heof : token = .eof
      · subst heof
        cases h
      by_cases hopen : token = .symbol .openBrace
      · subst hopen
        obtain ⟨dead, rfl, inner, loc', after, rfl, hinner, hafter⟩ := ih h
        refine ⟨⟨.symbol .openBrace, tokenLoc⟩ :: (inner ++ ⟨.symbol .closeBrace, loc'⟩ :: after),
          rfl, ?_⟩
        have hblock : Balanced (⟨.symbol .openBrace, tokenLoc⟩ ::
            (inner ++ [⟨.symbol .closeBrace, loc'⟩])) := .braces hinner .nil
        have hcloses := hafter.append hblock
        rw [List.cons_append, List.append_assoc, List.singleton_append] at hcloses
        exact hcloses
      by_cases hclose : token = .symbol .closeBrace
      · subst hclose
        cases depth with
        | zero =>
            cases h
            exact ⟨[], rfl, .nil⟩
        | succ depth =>
            obtain ⟨dead, rfl, hdead⟩ := ih h
            exact ⟨⟨.symbol .closeBrace, tokenLoc⟩ :: dead, rfl, [], tokenLoc, dead, rfl, .nil, hdead⟩
      · rw [skipDead_token hopen hclose heof] at h
        obtain ⟨dead, rfl, hdead⟩ := ih h
        have hsingle : Balanced [⟨token, tokenLoc⟩] := .token hopen hclose heof .nil
        exact ⟨⟨token, tokenLoc⟩ :: dead, rfl, hdead.append hsingle⟩

/-! ### The body -/

/-- No expression begins where the body ends. -/
theorem bodyEnds_of_readExpr {ts rest : List LocatedToken} {e : Expr}
    (h : readExpr ts = .done e rest) : bodyEnds ts = false := by
  by_cases hends : bodyEnds ts = true
  · exfalso
    obtain ⟨e', mid, hoperand, _⟩ := Reading.andThen_eq_done.mp ((readExpr_eq ts).symm.trans h)
    rw [readOperand_eq] at hoperand
    unfold bodyEnds at hends
    rw [Bool.or_eq_true, decide_eq_true_eq, decide_eq_true_eq] at hends
    rcases hends with hbrace | heof
    · rw [hbrace] at hoperand
      cases hoperand
    · rw [heof] at hoperand
      cases hoperand
  · exact Bool.eq_false_iff.mpr hends

/-- A derived body is read up to the brace that closes it. -/
theorem DerivesBody.readStatements_eq_done {body : List LocatedToken} {es : List Expr}
    (h : DerivesBody body es) : ∀ {rest : List LocatedToken},
    headToken rest = .symbol .closeBrace → readStatements (body ++ rest) = .done es rest := by
  induction h with
  | nil =>
      intro rest hrest
      have hends : bodyEnds rest = true := by
        rw [bodyEnds, hrest]
        rfl
      rw [List.nil_append, readStatements_eq, if_pos hends]
  | @statement word after loc e es expr other _ ih =>
      intro rest hrest
      have hexpr : readExpr (word ++ ⟨.symbol .semicolon, loc⟩ :: (after ++ rest)) =
          .done e (⟨.symbol .semicolon, loc⟩ :: (after ++ rest)) := expr.readExpr_eq_done rfl
      rw [List.append_assoc, List.cons_append, readStatements_eq,
        if_neg (by rw [bodyEnds_of_readExpr hexpr]; exact Bool.noConfusion), hexpr]
      simp only [Reading.andThen]
      rw [if_neg (by rw [other]; exact Bool.noConfusion), expectSymbol_eq_done.mpr ⟨loc, rfl⟩]
      simp only [ih hrest]
  | @final word dead next e expr last longest balanced follows =>
      intro rest hrest
      have hnext : headToken (dead ++ rest) = next := by
        rw [headToken_append, hrest, follows]
      have hexpr : readExpr (word ++ (dead ++ rest)) = .done e (dead ++ rest) :=
        Derives.readExpr_eq_done (hnext ▸ expr) (hnext ▸ longest)
      obtain ⟨loc, after, rfl⟩ := exists_cons_of_headToken hrest Token.noConfusion
      rw [List.append_assoc, readStatements_eq,
        if_neg (by rw [bodyEnds_of_readExpr hexpr]; exact Bool.noConfusion), hexpr]
      simp only [Reading.andThen]
      rw [if_pos last, balanced.skipDead_append]
      rfl

/-- What is read before a closing brace is derived as a body. -/
theorem derivesBody_of_readStatements (n : Nat) : ∀ {ts : List LocatedToken} {es : List Expr}
    {loc : Location} {rest : List LocatedToken}, ts.length = n →
    readStatements ts = .done es (⟨.symbol .closeBrace, loc⟩ :: rest) →
    ∃ body, ts = body ++ ⟨.symbol .closeBrace, loc⟩ :: rest ∧ DerivesBody body es := by
  induction n using Nat.strongRecOn with
  | _ n ih =>
      intro ts es loc rest hn h
      rw [readStatements_eq] at h
      by_cases hends : bodyEnds ts = true
      · rw [if_pos hends] at h
        cases h
        exact ⟨[], rfl, .nil⟩
      · rw [if_neg hends] at h
        obtain ⟨e, mid, hexpr, h⟩ := Reading.andThen_eq_done.mp h
        have hlength := length_lt_of_readExpr hexpr
        obtain ⟨word, heq, hderives, hnext⟩ := readExpr_eq_done_iff.mp hexpr
        by_cases hret : e.isReturn = true
        · rw [if_pos hret] at h
          injection h with hes hrest
          obtain ⟨dead, rfl, hdead⟩ := closes_of_skipDead hrest
          subst hes
          refine ⟨word ++ dead, ?_, .final hderives hret hnext hdead ?_⟩
          · rw [heq, List.append_assoc]
          · exact headToken_append dead _
        · rw [if_neg hret] at h
          obtain ⟨_, mid', hsemi, h⟩ := Reading.andThen_eq_done.mp h
          obtain ⟨es', mid'', hes, h⟩ := Reading.andThen_eq_done.mp h
          cases h
          obtain ⟨loc', rfl⟩ := expectSymbol_eq_done.mp hsemi
          rw [List.length_cons] at hlength
          obtain ⟨body, rfl, hbody⟩ := ih mid'.length (by omega) rfl hes
          refine ⟨word ++ ⟨.symbol .semicolon, loc'⟩ :: body, ?_,
            .statement hderives (Bool.eq_false_iff.mpr hret) hbody⟩
          rw [heq, List.append_assoc, List.cons_append]

/-! ### Parameters -/

theorem DerivesNames.exists_ident {word : List LocatedToken} {ps : List String}
    (h : DerivesNames word ps) : ∃ p loc tail, word = ⟨.ident p, loc⟩ :: tail := by
  cases h with
  | single => exact ⟨_, _, _, rfl⟩
  | trailing => exact ⟨_, _, _, rfl⟩
  | cons _ => exact ⟨_, _, _, rfl⟩

/-- Derived names that are new are read up to the closing parenthesis. -/
theorem DerivesNames.readNames_eq_done {word : List LocatedToken} {ps : List String}
    (h : DerivesNames word ps) : ∀ {names : List String} {rest : List LocatedToken},
    headToken rest = .symbol .closeParen → (names ++ ps).Nodup →
    readNames names (word ++ rest) = .done (names ++ ps) rest := by
  have hnew : ∀ {names ps : List String} {p : String}, (names ++ p :: ps).Nodup →
      ¬ names.contains p = true := by
    intro names ps p hnodup hmem
    rw [List.contains_iff_mem] at hmem
    exact (List.nodup_append.mp hnodup).2.2 p hmem p List.mem_cons_self rfl
  induction h with
  | @single p loc =>
      intro names rest hrest hnodup
      rw [readNames_eq]
      show (if names.contains p then _ else if headToken rest = _ then _ else _) = _
      rw [if_neg (hnew hnodup), if_neg (by rw [hrest]; decide)]
      rfl
  | @trailing p loc loc' =>
      intro names rest hrest hnodup
      rw [readNames_eq]
      show (if names.contains p then _ else if Token.symbol .comma = _ then
        if headToken rest = _ then _ else _ else _) = _
      rw [if_neg (hnew hnodup), if_pos rfl, if_pos hrest]
      rfl
  | @cons p loc loc' word ps hrest ih =>
      intro names rest hclose hnodup
      obtain ⟨q, qLoc, tail, hword⟩ := hrest.exists_ident
      have hident : headToken (word ++ rest) ≠ .symbol .closeParen := by
        rw [hword]
        exact Token.noConfusion
      rw [readNames_eq]
      show (if names.contains p then _ else if Token.symbol .comma = _ then
        if headToken (word ++ rest) = _ then _ else readNames _ (word ++ rest) else _) = _
      rw [if_neg (hnew hnodup), if_pos rfl, if_neg hident]
      have hnames : readNames (names ++ [p]) (word ++ rest) = .done (names ++ [p] ++ ps) rest :=
        ih hclose (by rwa [List.append_assoc])
      rw [List.append_assoc] at hnames
      exact hnames

/-- What is read is new names that are derived. -/
theorem derivesNames_of_readNames (n : Nat) : ∀ {ts : List LocatedToken} {names ps : List String}
    {rest : List LocatedToken}, ts.length = n → names.Nodup →
    readNames names ts = .done ps rest →
    ∃ word qs, ts = word ++ rest ∧ ps = names ++ qs ∧ DerivesNames word qs ∧ ps.Nodup := by
  induction n using Nat.strongRecOn with
  | _ n ih =>
      intro ts names ps rest hn hnodup h
      rw [readNames_eq] at h
      split at h
      · rename_i p hhead
        obtain ⟨loc, tail, rfl⟩ := exists_cons_of_headToken hhead Token.noConfusion
        by_cases hmem : names.contains p = true
        · rw [if_pos hmem] at h
          cases h
        rw [if_neg hmem] at h
        have hnodup' : (names ++ [p]).Nodup := by
          rw [List.contains_iff_mem] at hmem
          exact List.nodup_append.mpr ⟨hnodup, by simp, by
            intro a ha b hb
            rw [List.mem_singleton.mp hb]
            exact fun hab => hmem (hab ▸ ha)⟩
        by_cases hcomma : headToken tail = .symbol .comma
        · obtain ⟨loc', tail, rfl⟩ := exists_cons_of_headToken hcomma Token.noConfusion
          rw [List.tail_cons, if_pos hcomma] at h
          by_cases hclose : headToken tail = .symbol .closeParen
          · rw [List.tail_cons, if_pos hclose] at h
            cases h
            exact ⟨[⟨.ident p, loc⟩, ⟨.symbol .comma, loc'⟩], [p], rfl, rfl, .trailing, hnodup'⟩
          · rw [List.tail_cons, if_neg hclose] at h
            simp only [List.length_cons] at hn
            obtain ⟨word, qs, rfl, rfl, hword, hps⟩ := ih tail.length (by omega) rfl hnodup' h
            refine ⟨⟨.ident p, loc⟩ :: ⟨.symbol .comma, loc'⟩ :: word, p :: qs, rfl, ?_, .cons hword,
              hps⟩
            rw [List.append_assoc, List.singleton_append]
        · rw [List.tail_cons, if_neg hcomma] at h
          cases h
          exact ⟨[⟨.ident p, loc⟩], [p], rfl, rfl, .single, hnodup'⟩
      · cases h

theorem DerivesParams.readParams_eq_done {word rest : List LocatedToken} {ps : List String}
    (h : DerivesParams word ps) (hrest : headToken rest = .symbol .closeParen) :
    readParams (word ++ rest) = .done ps rest := by
  cases h with
  | nil => exact if_pos hrest
  | names hnames hdistinct =>
      obtain ⟨p, loc, tail, hword⟩ := hnames.exists_ident
      have hident : headToken (word ++ rest) ≠ .symbol .closeParen := by
        rw [hword]
        exact Token.noConfusion
      have hread : readNames [] (word ++ rest) = .done ([] ++ ps) rest :=
        hnames.readNames_eq_done hrest hdistinct
      rw [readParams, if_neg hident, hread, List.nil_append]

theorem derivesParams_of_readParams {ts rest : List LocatedToken} {ps : List String}
    (h : readParams ts = .done ps rest) : ∃ word, ts = word ++ rest ∧ DerivesParams word ps := by
  unfold readParams at h
  by_cases hclose : headToken ts = .symbol .closeParen
  · rw [if_pos hclose] at h
    cases h
    exact ⟨[], rfl, .nil⟩
  · rw [if_neg hclose] at h
    obtain ⟨word, qs, heq, rfl, hword, hdistinct⟩ :=
      derivesNames_of_readNames ts.length rfl List.nodup_nil h
    exact ⟨word, heq, .names hword hdistinct⟩

/-! ### The function -/

theorem headLoc_append_cons (xs : List LocatedToken) (t : LocatedToken)
    (rest : List LocatedToken) : headLoc (xs ++ t :: rest) = headLoc (xs ++ [t]) := by
  cases xs <;> rfl

/-- A derived function is read, whatever follows it. -/
theorem DerivesFunction.readFunction_eq_done {word : List LocatedToken} {f : Function}
    (h : DerivesFunction word f) (rest : List LocatedToken) :
    readFunction (word ++ rest) = .done f rest := by
  obtain ⟨hparams, hbody⟩ := h
  rename_i name params body ps es loc nameLoc openLoc closeLoc braceLoc endLoc
  have hes : readStatements (body ++ ⟨.symbol .closeBrace, endLoc⟩ :: rest) =
      .done es (⟨.symbol .closeBrace, endLoc⟩ :: rest) := hbody.readStatements_eq_done rfl
  have hps : readParams (params ++ ⟨.symbol .closeParen, closeLoc⟩ ::
      ⟨.symbol .openBrace, braceLoc⟩ :: (body ++ ⟨.symbol .closeBrace, endLoc⟩ :: rest)) =
      .done ps (⟨.symbol .closeParen, closeLoc⟩ ::
        ⟨.symbol .openBrace, braceLoc⟩ :: (body ++ ⟨.symbol .closeBrace, endLoc⟩ :: rest)) :=
    hparams.readParams_eq_done rfl
  simp only [List.cons_append, List.append_assoc, List.nil_append]
  show (readParams (params ++ _)).andThen _ = _
  rw [hps]
  show (readStatements (body ++ _)).andThen _ = _
  rw [hes, ← headLoc_append_cons]
  rfl

/-- What is read as a function is derived as one. -/
theorem derivesFunction_of_readFunction {ts rest : List LocatedToken} {f : Function}
    (h : readFunction ts = .done f rest) : ∃ word, ts = word ++ rest ∧ DerivesFunction word f := by
  obtain ⟨_, mid, hfunc, h⟩ := Reading.andThen_eq_done.mp h
  obtain ⟨loc, rfl⟩ := expectKeyword_eq_done.mp hfunc
  obtain ⟨name, mid, hname, h⟩ := Reading.andThen_eq_done.mp h
  obtain ⟨nameLoc, rfl⟩ := expectIdent_eq_done.mp hname
  obtain ⟨_, mid, hopen, h⟩ := Reading.andThen_eq_done.mp h
  obtain ⟨openLoc, rfl⟩ := expectSymbol_eq_done.mp hopen
  obtain ⟨ps, mid, hps, h⟩ := Reading.andThen_eq_done.mp h
  obtain ⟨params, rfl, hparams⟩ := derivesParams_of_readParams hps
  obtain ⟨_, mid, hclose, h⟩ := Reading.andThen_eq_done.mp h
  obtain ⟨closeLoc, rfl⟩ := expectSymbol_eq_done.mp hclose
  obtain ⟨_, mid, hbrace, h⟩ := Reading.andThen_eq_done.mp h
  obtain ⟨braceLoc, rfl⟩ := expectSymbol_eq_done.mp hbrace
  obtain ⟨es, mid', hes, h⟩ := Reading.andThen_eq_done.mp h
  obtain ⟨_, rest', hend, h⟩ := Reading.andThen_eq_done.mp h
  cases h
  obtain ⟨endLoc, rfl⟩ := expectSymbol_eq_done.mp hend
  obtain ⟨body, rfl, hbody⟩ := derivesBody_of_readStatements mid.length rfl hes
  rw [headLoc_append_cons]
  refine ⟨⟨.keyword .funcWord, loc⟩ :: ⟨.ident name, nameLoc⟩ :: ⟨.symbol .openParen, openLoc⟩ ::
    (params ++ ⟨.symbol .closeParen, closeLoc⟩ :: ⟨.symbol .openBrace, braceLoc⟩ ::
      (body ++ [⟨.symbol .closeBrace, endLoc⟩])), ?_, .mk hparams hbody⟩
  simp only [List.cons_append, List.append_assoc, List.nil_append]

/-- The parser accepts exactly the lists of tokens that begin with a word of the grammar, and gives
the tree that the grammar derives. -/
theorem parse_eq_ok_iff (ts : List LocatedToken) (loc : Location) (f : Function) :
    parse (ts ++ [⟨.eof, loc⟩]) = .ok f ↔
      ∃ word rest, ts ++ [⟨.eof, loc⟩] = word ++ rest ∧ DerivesFunction word f := by
  have hclosed : closed (ts ++ [⟨.eof, loc⟩]) = ts ++ [⟨.eof, loc⟩] := by
    have hlast : isClosed (ts ++ [⟨.eof, loc⟩]) = true := by
      simp [isClosed]
    rw [closed, if_pos hlast]
  rw [parse, hclosed]
  constructor
  · intro h
    cases hread : readFunction (ts ++ [⟨.eof, loc⟩]) with
    | failed error rest =>
        rw [hread] at h
        cases h
    | done g rest =>
        rw [hread] at h
        cases h
        obtain ⟨word, heq, hderives⟩ := derivesFunction_of_readFunction hread
        exact ⟨word, rest, heq, hderives⟩
  · rintro ⟨word, rest, heq, hderives⟩
    rw [heq, hderives.readFunction_eq_done rest]
    rfl

end TallyLang
