/-
Expressions are read by their grammar.

Both directions go through `readLayer`, which reads an operand and then the
operators that bind at least as tightly as a given precedence: `readExpr` is its
loosest case, and the right operand of an operator is read by it as well.

That a derived word is read is shown by induction on the derivation.  The statement
says that reading the word in front of anything leads to the loop `readTail` with
the derived tree as its left operand, so the cases fit together like the turns of the
loop.

That what is read is derived is shown by induction on the number of tokens.  While
the loop runs, its left operand is derived in some layer, and the invariant is that
no operator of a tighter layer comes next; hence the left operand can be taken
as one of the operator that does come.
-/
import TallyLang.Expr.Reader
import TallyLang.Proofs.Grammar

namespace TallyLang

/-! ### Layers and precedences -/

/-- The precedence of the operators of a layer; primaries are tighter than any operator. -/
def Layer.precedence : Layer → Int
  | comparison => 10
  | sum => 20
  | product => 40
  | primary => 41

/-- The layer of an operator. -/
def Operator.layer : Operator → Layer
  | add | sub => .sum
  | mul | div => .product
  | less | unsupported _ => .comparison

theorem isOperator_eq (t : Token) : t.isOperator = (Operator.ofToken? t).isSome := by
  cases t with
  | symbol mark => cases mark <;> rfl
  | _ => rfl

theorem ofToken?_eq_none {t : Token} (h : t.isOperator = false) : Operator.ofToken? t = none := by
  rw [isOperator_eq, Option.isSome_eq_false_iff, Option.isNone_iff_eq_none] at h
  exact h

/-- An operator of a layer is read from its symbol and has the precedence of the layer. -/
theorem ofToken?_of_mem {layer : Layer} {symbol : Symbol} {op : Operator}
    (h : (symbol, op) ∈ layer.operators) :
    Operator.ofToken? (.symbol symbol) = some op ∧ op.precedence = layer.precedence ∧
      layer ≠ .primary := by
  cases layer with
  | comparison =>
      cases List.mem_singleton.mp h
      exact ⟨rfl, rfl, Layer.noConfusion⟩
  | sum =>
      simp only [Layer.operators, List.mem_cons, Prod.mk.injEq, List.not_mem_nil, or_false] at h
      rcases h with ⟨rfl, rfl⟩ | ⟨rfl, rfl⟩ <;> exact ⟨rfl, rfl, Layer.noConfusion⟩
  | product =>
      simp only [Layer.operators, List.mem_cons, Prod.mk.injEq, List.not_mem_nil, or_false] at h
      rcases h with ⟨rfl, rfl⟩ | ⟨rfl, rfl⟩ <;> exact ⟨rfl, rfl, Layer.noConfusion⟩
  | primary => cases h

/-- An operator that is read from a token is one of its layer. -/
theorem mem_operators_of_ofToken? {t : Token} {op : Operator} (h : Operator.ofToken? t = some op) :
    ∃ symbol, t = .symbol symbol ∧ (symbol, op) ∈ op.layer.operators := by
  cases t with
  | symbol mark =>
      cases mark <;> cases h <;> exact ⟨_, rfl, by decide⟩
  | _ => cases h

theorem precedence_layer {t : Token} {op : Operator} (h : Operator.ofToken? t = some op) :
    op.precedence = op.layer.precedence := by
  obtain ⟨symbol, rfl, hmem⟩ := mem_operators_of_ofToken? h
  exact (ofToken?_of_mem hmem).2.1

theorem precedence_lt_tighter {layer : Layer} (h : layer ≠ .primary) :
    layer.precedence < layer.tighter.precedence := by
  cases layer with
  | primary => exact absurd rfl h
  | _ => decide

theorem precedence_le_tighter (layer : Layer) : layer.precedence ≤ layer.tighter.precedence := by
  cases layer <;> decide

/-- What is derived in a layer is derived in every looser one. -/
theorem Derives.loosen {word : List LocatedToken} {next : Token} {e : Expr} {tight loose : Layer}
    (h : Derives tight word next e) (hle : loose.precedence ≤ tight.precedence) :
    Derives loose word next e := by
  have hproduct : Derives .primary word next e → Derives .product word next e := fun h => .lift h
  have hsum : Derives .product word next e → Derives .sum word next e := fun h => .lift h
  have hcomparison : Derives .sum word next e → Derives .comparison word next e := fun h => .lift h
  cases tight with
  | comparison =>
      cases loose with
      | comparison => exact h
      | _ => exact absurd hle (by decide)
  | sum =>
      cases loose with
      | comparison => exact hcomparison h
      | sum => exact h
      | _ => exact absurd hle (by decide)
  | product =>
      cases loose with
      | comparison => exact hcomparison (hsum h)
      | sum => exact hsum h
      | product => exact h
      | primary => exact absurd hle (by decide)
  | primary =>
      cases loose with
      | comparison => exact hcomparison (hsum (hproduct h))
      | sum => exact hsum (hproduct h)
      | product => exact hproduct h
      | primary => exact h

/-! ### Inverting the readers -/

theorem Reading.andThen_eq_done {α β : Type} {r : Reading α}
    {next : α → List LocatedToken → Reading β} {b : β} {rest : List LocatedToken} :
    r.andThen next = .done b rest ↔ ∃ a mid, r = .done a mid ∧ next a mid = .done b rest := by
  cases r with
  | done a mid =>
      constructor
      · intro h
        exact ⟨a, mid, rfl, h⟩
      · rintro ⟨_, _, heq, h⟩
        cases heq
        exact h
  | failed error mid =>
      constructor
      · intro h
        cases h
      · rintro ⟨_, _, heq, _⟩
        cases heq

/-- A token other than the end of the input is really there. -/
theorem exists_cons_of_headToken {ts : List LocatedToken} {t : Token} (h : headToken ts = t)
    (ht : t ≠ .eof) : ∃ loc rest, ts = ⟨t, loc⟩ :: rest := by
  cases ts with
  | nil => exact absurd h.symm ht
  | cons first rest =>
      subst h
      exact ⟨first.loc, rest, rfl⟩

/-- Passing a token succeeds exactly if it comes first. -/
theorem expectToken_eq_done {t : Token} (ht : t ≠ .eof) {fault : ParseFault}
    {ts rest : List LocatedToken} :
    (if headToken ts = t then .done () ts.tail else faultAt ts fault) = Reading.done () rest ↔
      ∃ loc, ts = ⟨t, loc⟩ :: rest := by
  constructor
  · intro h
    by_cases hhead : headToken ts = t
    · rw [if_pos hhead] at h
      cases h
      obtain ⟨loc, rest, rfl⟩ := exists_cons_of_headToken hhead ht
      exact ⟨loc, rfl⟩
    · rw [if_neg hhead] at h
      cases h
  · rintro ⟨loc, rfl⟩
    exact if_pos rfl

theorem expectSymbol_eq_done {s : Symbol} {part : Expectation} {ts rest : List LocatedToken} :
    expectSymbol s part ts = .done () rest ↔ ∃ loc, ts = ⟨.symbol s, loc⟩ :: rest :=
  expectToken_eq_done Token.noConfusion

theorem expectKeyword_eq_done {k : Keyword} {part : Expectation} {ts rest : List LocatedToken} :
    expectKeyword k part ts = .done () rest ↔ ∃ loc, ts = ⟨.keyword k, loc⟩ :: rest :=
  expectToken_eq_done Token.noConfusion

theorem expectIdent_eq_done {part : Expectation} {name : String} {ts rest : List LocatedToken} :
    expectIdent part ts = .done name rest ↔ ∃ loc, ts = ⟨.ident name, loc⟩ :: rest := by
  constructor
  · intro h
    unfold expectIdent at h
    split at h
    · rename_i hhead
      cases h
      obtain ⟨loc, rest, rfl⟩ := exists_cons_of_headToken hhead Token.noConfusion
      exact ⟨loc, rfl⟩
    · cases h
  · rintro ⟨loc, rfl⟩
    rfl

/-! ### The loop of precedence climbing -/

/-- Reads an operand and the operators after it that bind at least as tightly as `least`. -/
def readLayer (least : Int) (ts : List LocatedToken) : Reading Expr :=
  (readOperand ts).andThen (readTail least)

theorem readExpr_eq_readLayer (ts : List LocatedToken) : readExpr ts = readLayer 0 ts :=
  readExpr_eq ts

theorem operatorFrom?_eq_some {least : Int} {ts : List LocatedToken} {op : Operator} :
    operatorFrom? least ts = some op ↔
      Operator.ofToken? (headToken ts) = some op ∧ least ≤ op.precedence := by
  rw [operatorFrom?, Option.filter_eq_some_iff, decide_eq_true_eq]

theorem operatorFrom?_eq_none {least : Int} {ts : List LocatedToken} :
    operatorFrom? least ts = none ↔
      ∀ op, Operator.ofToken? (headToken ts) = some op → op.precedence < least := by
  rw [operatorFrom?, Option.filter_eq_none_iff]
  constructor
  · intro h op hop
    have hle := h op hop
    rw [decide_eq_true_eq] at hle
    omega
  · intro h op hop
    have hlt := h op hop
    rw [decide_eq_true_eq]
    omega

theorem readTail_of_none {least : Int} {ts : List LocatedToken} (left : Expr)
    (h : operatorFrom? least ts = none) : readTail least left ts = .done left ts := by
  rw [readTail_eq, h]

/-- The right operand of an operator is read as a layer.  The look ahead for a tighter operator only
spares a loop that would end at once. -/
theorem readTail_of_some {least : Int} {ts : List LocatedToken} {op : Operator} (left : Expr)
    (h : operatorFrom? least ts = some op) :
    readTail least left ts = (readLayer (op.precedence + 1) ts.tail).andThen fun right rest =>
      readTail least (.bin op left right (headLoc ts)) rest := by
  rw [readTail_eq, h, readLayer]
  cases readOperand ts.tail with
  | failed error rest => rfl
  | done right rest =>
      simp only [Reading.andThen]
      by_cases htighter : tighterFollows op rest = true
      · rw [if_pos htighter]
      · rw [if_neg htighter]
        have hnone : operatorFrom? (op.precedence + 1) rest = none := by
          rw [operatorFrom?_eq_none]
          intro op' hop'
          rw [tighterFollows, hop', decide_eq_true_eq] at htighter
          omega
        rw [readTail_of_none right hnone]

/-! ### What is derived is read -/

/-- The token is not an operator that binds more tightly than the layer. -/
def NoTighter (layer : Layer) (t : Token) : Prop :=
  ∀ op, Operator.ofToken? t = some op → op.precedence ≤ layer.precedence

theorem noTighter_of_isOperator {t : Token} (h : t.isOperator = false) (layer : Layer) :
    NoTighter layer t := by
  intro op hop
  rw [ofToken?_eq_none h] at hop
  cases hop

/-- At a token that is no operator the loop ends. -/
theorem readTail_of_isOperator {least : Int} {ts : List LocatedToken} (left : Expr)
    (h : (headToken ts).isOperator = false) : readTail least left ts = .done left ts := by
  refine readTail_of_none left ?_
  rw [operatorFrom?_eq_none]
  intro op hop
  rw [ofToken?_eq_none h] at hop
  cases hop

theorem readExpr_of_readLayer {word rest : List LocatedToken} {e : Expr}
    (h : readLayer 0 (word ++ rest) = readTail 0 e rest)
    (hnext : (headToken rest).isOperator = false) : readExpr (word ++ rest) = .done e rest := by
  rw [readExpr_eq_readLayer, h, readTail_of_isOperator e hnext]

/-- Reading a derived word leads to the loop with the derived tree as its left operand. -/
theorem Derives.readLayer_eq {layer : Layer} {word : List LocatedToken} {next : Token} {e : Expr}
    (h : Derives layer word next e) :
    ∀ (rest : List LocatedToken) (least : Int), headToken rest = next →
      least ≤ layer.precedence → NoTighter layer next →
      readLayer least (word ++ rest) = readTail least e rest := by
  induction h with
  | number =>
      intro rest least _ _ _
      rw [readLayer, readOperand_eq]
      rfl
  | name =>
      intro rest least _ _ _
      rw [readLayer, readOperand_eq]
      rfl
  | @paren word e loc loc' next _ ih =>
      intro rest least _ _ _
      have hexpr := readExpr_of_readLayer (ih (⟨.symbol .closeParen, loc'⟩ :: rest) 0 rfl
        (by decide) (noTighter_of_isOperator rfl _)) rfl
      have hoperand : readOperand (⟨.symbol .openParen, loc⟩ ::
          (word ++ ⟨.symbol .closeParen, loc'⟩ :: rest)) = .done e rest := by
        rw [readOperand_eq]
        show (readExpr (word ++ ⟨.symbol .closeParen, loc'⟩ :: rest)).andThen _ = _
        rw [hexpr]
        rfl
      rw [List.cons_append, List.append_assoc, List.singleton_append, readLayer, hoperand]
      rfl
  | @returnClosed word e loc loc' next _ ih =>
      intro rest least _ _ _
      have hexpr := readExpr_of_readLayer (ih (⟨.symbol .semicolon, loc'⟩ :: rest) 0 rfl
        (by decide) (noTighter_of_isOperator rfl _)) rfl
      have hoperand : readOperand (⟨.keyword .returnWord, loc⟩ ::
          (word ++ ⟨.symbol .semicolon, loc'⟩ :: rest)) = .done (.ret e loc) rest := by
        rw [readOperand_eq]
        show (readExpr (word ++ ⟨.symbol .semicolon, loc'⟩ :: rest)).andThen _ = _
        rw [hexpr]
        rfl
      rw [List.cons_append, List.append_assoc, List.singleton_append, readLayer, hoperand]
      rfl
  | @returnOpen word e loc next _ longest unclosed ih =>
      intro rest least hnext _ _
      have hexpr := readExpr_of_readLayer (ih rest 0 hnext (by decide)
        (noTighter_of_isOperator longest _)) (hnext ▸ longest)
      have hoperand : readOperand (⟨.keyword .returnWord, loc⟩ :: (word ++ rest)) =
          .done (.ret e loc) rest := by
        have hskip : skipSymbol .semicolon rest = rest := if_neg (hnext ▸ unclosed)
        rw [readOperand_eq]
        show (readExpr (word ++ rest)).andThen _ = _
        rw [hexpr, Reading.andThen, hskip]
        rfl
      rw [List.cons_append, readLayer, hoperand]
      rfl
  | @lift layer word next e _ ih =>
      intro rest least hnext hleast htighter
      have hle := precedence_le_tighter layer
      refine ih rest least hnext (by omega) ?_
      intro op hop
      have := htighter op hop
      omega
  | @binary layer symbol op loc left right next a b written _ _ ihleft ihright =>
      intro rest least hnext hleast htighter
      obtain ⟨hsymbol, hprecedence, hprimary⟩ := ofToken?_of_mem written
      have hlt := precedence_lt_tighter hprimary
      -- the left operand brings the loop to the operator
      have hleft := ihleft (⟨.symbol symbol, loc⟩ :: (right ++ rest)) least rfl hleast (by
        intro op' hop'
        rw [hsymbol] at hop'
        cases hop'
        omega)
      -- the right operand ends there, since nothing tighter comes next
      have hright := ihright rest (op.precedence + 1) hnext (by omega) (by
        intro op' hop'
        have := htighter op' hop'
        omega)
      have hnone : operatorFrom? (op.precedence + 1) rest = none := by
        rw [operatorFrom?_eq_none, hnext]
        intro op' hop'
        have := htighter op' hop'
        omega
      have hsome : operatorFrom? least (⟨.symbol symbol, loc⟩ :: (right ++ rest)) = some op := by
        rw [operatorFrom?_eq_some]
        exact ⟨hsymbol, by omega⟩
      rw [readTail_of_none b hnone] at hright
      rw [List.append_assoc, List.cons_append, hleft, readTail_of_some a hsome, List.tail_cons,
        hright]
      rfl

/-- A derived expression that no operator follows is read. -/
theorem Derives.readExpr_eq_done {word rest : List LocatedToken} {e : Expr}
    (h : Derives .comparison word (headToken rest) e)
    (hnext : (headToken rest).isOperator = false) : readExpr (word ++ rest) = .done e rest := by
  exact readExpr_of_readLayer (h.readLayer_eq rest 0 rfl (by decide)
    (noTighter_of_isOperator hnext _)) hnext

/-! ### What is read is derived -/

/-- `least` lets in only operators of the layer and of the tighter ones. -/
def Admits (least : Int) (layer : Layer) : Prop :=
  ∀ layer' : Layer, least ≤ layer'.precedence → layer.precedence ≤ layer'.precedence

theorem admits_zero : Admits 0 .comparison := by
  intro layer' _
  cases layer' <;> decide

/-- No precedence lies between a layer and the next tighter one. -/
theorem admits_tighter (layer : Layer) : Admits (layer.precedence + 1) layer.tighter := by
  intro layer' hle
  cases layer <;> cases layer' <;> first | exact absurd hle (by decide) | decide

theorem isOperator_of_operatorFrom? {ts : List LocatedToken} (h : operatorFrom? 0 ts = none) :
    (headToken ts).isOperator = false := by
  rw [isOperator_eq]
  cases hop : Operator.ofToken? (headToken ts) with
  | none => rfl
  | some op =>
      have hneg := operatorFrom?_eq_none.mp h op hop
      have hprecedence := precedence_layer hop
      have hlayer : 0 < op.layer.precedence := by cases op.layer <;> decide
      omega

/-- Whatever `readLayer` reads from the tokens is derived from those that it passes, and no operator
is left that it should have taken. -/
def Sound (ts : List LocatedToken) : Prop :=
  ∀ (least : Int) (layer : Layer) (e : Expr) (rest : List LocatedToken), Admits least layer →
    readLayer least ts = .done e rest →
    ∃ word, ts = word ++ rest ∧ Derives layer word (headToken rest) e ∧
      operatorFrom? least rest = none

theorem Sound.readExpr {ts rest : List LocatedToken} {e : Expr} (hsound : Sound ts)
    (h : TallyLang.readExpr ts = .done e rest) :
    ∃ word, ts = word ++ rest ∧ Derives .comparison word (headToken rest) e ∧
      (headToken rest).isOperator = false := by
  rw [readExpr_eq_readLayer] at h
  obtain ⟨word, heq, hderives, hnone⟩ := hsound 0 .comparison e rest admits_zero h
  exact ⟨word, heq, hderives, isOperator_of_operatorFrom? hnone⟩

theorem derives_of_readOperand {ts rest : List LocatedToken} {e : Expr}
    (hsound : ∀ ts' : List LocatedToken, ts'.length < ts.length → Sound ts')
    (h : readOperand ts = .done e rest) :
    ∃ word, ts = word ++ rest ∧ Derives .primary word (headToken rest) e := by
  rw [readOperand_eq] at h
  split at h
  · rename_i name hhead
    cases h
    obtain ⟨loc, rest, rfl⟩ := exists_cons_of_headToken hhead Token.noConfusion
    exact ⟨[⟨.ident name, loc⟩], rfl, .name⟩
  · rename_i value hhead
    cases h
    obtain ⟨loc, rest, rfl⟩ := exists_cons_of_headToken hhead Token.noConfusion
    exact ⟨[⟨.number value, loc⟩], rfl, .number⟩
  · rename_i hhead
    obtain ⟨loc, tail, rfl⟩ := exists_cons_of_headToken hhead Token.noConfusion
    obtain ⟨a, mid, hexpr, h⟩ := Reading.andThen_eq_done.mp h
    obtain ⟨_, mid', hclose, h⟩ := Reading.andThen_eq_done.mp h
    cases h
    obtain ⟨loc', rfl⟩ := expectSymbol_eq_done.mp hclose
    obtain ⟨word, heq, hderives, _⟩ := (hsound tail (by simp)).readExpr hexpr
    refine ⟨⟨.symbol .openParen, loc⟩ :: (word ++ [⟨.symbol .closeParen, loc'⟩]), ?_, .paren hderives⟩
    rw [heq, List.cons_append, List.append_assoc, List.singleton_append]
  · rename_i hhead
    obtain ⟨loc, tail, rfl⟩ := exists_cons_of_headToken hhead Token.noConfusion
    obtain ⟨a, mid, hexpr, h⟩ := Reading.andThen_eq_done.mp h
    cases h
    obtain ⟨word, heq, hderives, hnext⟩ := (hsound tail (by simp)).readExpr hexpr
    by_cases hsemi : headToken mid = .symbol .semicolon
    · obtain ⟨loc', mid, rfl⟩ := exists_cons_of_headToken hsemi Token.noConfusion
      have hskip : skipSymbol .semicolon (⟨.symbol .semicolon, loc'⟩ :: mid) = mid := if_pos rfl
      refine ⟨⟨.keyword .returnWord, loc⟩ :: (word ++ [⟨.symbol .semicolon, loc'⟩]), ?_,
        .returnClosed hderives⟩
      rw [hskip, heq, List.cons_append, List.append_assoc, List.singleton_append]
    · have hskip : skipSymbol .semicolon mid = mid := if_neg hsemi
      rw [hskip]
      refine ⟨⟨.keyword .returnWord, loc⟩ :: word, ?_, .returnOpen hderives hnext hsemi⟩
      rw [heq, List.cons_append]
  · cases h

/-- The loop goes on with a left operand that is derived in some layer, as long as no operator that
binds more tightly than this layer comes next. -/
theorem derives_of_readTail {least : Int} {layer : Layer} (hadmits : Admits least layer)
    (n : Nat) : ∀ (ts : List LocatedToken), ts.length = n →
      (∀ ts' : List LocatedToken, ts'.length < ts.length → Sound ts') →
      ∀ (tight : Layer) (word : List LocatedToken) (left e : Expr) (rest : List LocatedToken),
      Derives tight word (headToken ts) left → layer.precedence ≤ tight.precedence →
      (∀ op, operatorFrom? least ts = some op → op.precedence ≤ tight.precedence) →
      readTail least left ts = .done e rest →
      ∃ more, ts = more ++ rest ∧ Derives layer (word ++ more) (headToken rest) e ∧
        operatorFrom? least rest = none := by
  induction n using Nat.strongRecOn with
  | _ n ih =>
      intro ts hn hsound tight word left e rest hleft htight hnext h
      cases hop : operatorFrom? least ts with
      | none =>
          rw [readTail_of_none left hop] at h
          cases h
          refine ⟨[], rfl, ?_, hop⟩
          rw [List.append_nil]
          exact hleft.loosen htight
      | some op =>
          obtain ⟨htoken, hleast⟩ := operatorFrom?_eq_some.mp hop
          obtain ⟨symbol, hsymbol, hmem⟩ := mem_operators_of_ofToken? htoken
          have hprecedence := precedence_layer htoken
          have hfloor := hadmits op.layer (by omega)
          have hadmits' := admits_tighter op.layer
          rw [← hprecedence] at hadmits'
          have hcap := hnext op hop
          rw [readTail_of_some left hop] at h
          obtain ⟨right, mid, hright, h⟩ := Reading.andThen_eq_done.mp h
          obtain ⟨loc, tail, rfl⟩ := exists_cons_of_headToken hsymbol Token.noConfusion
          obtain ⟨word', heq, hderives, hnone⟩ := hsound tail (by simp) _ _ _ _ hadmits' hright
          subst heq
          have hlength : mid.length < (⟨.symbol symbol, loc⟩ :: (word' ++ mid) :
              List LocatedToken).length := by
            simp only [List.length_cons, List.length_append]
            omega
          have hbin : Derives op.layer (word ++ ⟨.symbol symbol, loc⟩ :: word') (headToken mid)
              (.bin op left right loc) :=
            .binary hmem (hleft.loosen (by omega)) hderives
          obtain ⟨more, heq, hmore, hend⟩ := ih mid.length (by omega) mid rfl
            (fun ts' hts' => hsound ts' (Nat.lt_trans hts' hlength)) op.layer _ _ e rest hbin
            (by omega) (by
              -- what comes next binds no more tightly than the operator just taken
              intro op' hop'
              obtain ⟨htoken', _⟩ := operatorFrom?_eq_some.mp hop'
              have := operatorFrom?_eq_none.mp hnone op' htoken'
              omega) h
          refine ⟨⟨.symbol symbol, loc⟩ :: (word' ++ more), ?_, ?_, hend⟩
          · rw [heq, List.cons_append, List.append_assoc]
          · rw [List.append_assoc, List.cons_append] at hmore
            exact hmore

theorem sound (ts : List LocatedToken) : Sound ts := by
  induction hn : ts.length using Nat.strongRecOn generalizing ts with
  | _ n ih =>
      subst hn
      intro least layer e rest hadmits h
      obtain ⟨left, mid, hoperand, htail⟩ := Reading.andThen_eq_done.mp h
      have hshorter : ∀ ts' : List LocatedToken, ts'.length < ts.length → Sound ts' :=
        fun ts' hts' => ih ts'.length hts' ts' rfl
      obtain ⟨word, rfl, hderives⟩ := derives_of_readOperand hshorter hoperand
      have hprimary : ∀ layer : Layer, layer.precedence ≤ Layer.primary.precedence := by
        intro layer
        cases layer <;> decide
      obtain ⟨more, rfl, hmore, hend⟩ := derives_of_readTail hadmits mid.length mid rfl
        (fun ts' hts' => hshorter ts' (by rw [List.length_append]; omega)) .primary word left e rest
        hderives (hprimary layer) (by
          intro op hop
          rw [precedence_layer (operatorFrom?_eq_some.mp hop).1]
          exact hprimary op.layer) htail
      refine ⟨word ++ more, ?_, hmore, hend⟩
      rw [List.append_assoc]

/-- An expression is read exactly if it is derived and no operator follows it. -/
theorem readExpr_eq_done_iff {ts rest : List LocatedToken} {e : Expr} :
    readExpr ts = .done e rest ↔
      ∃ word, ts = word ++ rest ∧ Derives .comparison word (headToken rest) e ∧
        (headToken rest).isOperator = false := by
  constructor
  · exact (sound ts).readExpr
  · rintro ⟨word, rfl, hderives, hnext⟩
    exact hderives.readExpr_eq_done hnext

end TallyLang
