/-
Precedence climbing reads what a reader with one loop for each layer reads.

`readLevel` is that reader.  It has a level for each layer of the grammar: a comparison
is sums joined by `<`, a sum is products joined by `+` or `-`, a product is primaries
joined by `*` or `/`, and each level is a loop that associates to the left.  Nowhere are
two operators compared.  Primaries are read by the rule `primaryWithin`, which precedence
climbing follows as well; only the expressions inside are read by another reader.

Two facts about climbing carry the argument.  It may take the tighter operators first and
then go on with the looser ones (`readTail_andThen`), and what it leaves does not begin
with an operator that it should have taken (`operatorFrom?_of_readTail`).  So the loop of
a layer, begun where nothing tighter comes next, takes the same turns as climbing does
(`readChain_eq_readTail`), and the loops from the tightest to the loosest make up one run
of climbing.
-/
import TallyLang.Proofs.Grammar.Expressions

namespace TallyLang

/-! ### Reading level by level -/

theorem Reading.LeavesBelow.mono {α : Type} {m n : Nat} {r : Reading α} (h : r.LeavesBelow m)
    (hmn : m ≤ n) : r.LeavesBelow n := by
  cases r with
  | done value rest => exact .done (Nat.lt_of_lt_of_le h.lt hmn)
  | failed error rest => exact .failed

namespace ReadingBelow

/-- The same result with a larger bound. -/
def weaken {m n : Nat} (r : ReadingBelow m) (hmn : m ≤ n) : ReadingBelow n :=
  ⟨r.val, r.property.mono hmn⟩

/-- The first token alone, read as an expression. -/
def first {ts : List LocatedToken} (e : Expr) (h : ts.tail.length < ts.length) :
    ReadingBelow ts.length :=
  ⟨.done e ts.tail, .done h⟩

/-- A fault at the first token. -/
def fault (ts : List LocatedToken) (fault : ParseFault) : ReadingBelow ts.length :=
  ⟨faultAt ts fault, .failed⟩

/-- Goes on after a success, with fewer tokens. -/
def andThen {m n : Nat} (r : ReadingBelow m)
    (next : (e : Expr) → (rest : List LocatedToken) → rest.length < m → ReadingBelow n) :
    ReadingBelow n :=
  match r with
  | ⟨.done e rest, h⟩ => next e rest h.lt
  | ⟨.failed error rest, _⟩ => ⟨.failed error rest, .failed⟩

theorem val_andThen {m n : Nat} (r : ReadingBelow m)
    {next : (e : Expr) → (rest : List LocatedToken) → rest.length < m → ReadingBelow n}
    {next' : Expr → List LocatedToken → Reading Expr}
    (h : ∀ e rest hlt, (next e rest hlt).val = next' e rest) :
    (r.andThen next).val = r.val.andThen next' := by
  obtain ⟨reading, hbelow⟩ := r
  cases reading with
  | done e rest => exact h e rest hbelow.lt
  | failed error rest => rfl

end ReadingBelow

theorem leavesBelow_closeParen {rest : List LocatedToken} {n : Nat} (e : Expr)
    (h : rest.length < n) :
    ((expectSymbol .closeParen .closeParen rest).andThen fun _ rest' =>
      .done e rest').LeavesBelow n := by
  cases hclose : expectSymbol .closeParen .closeParen rest with
  | done _ rest' => exact .done (Nat.lt_trans (length_lt_of_expectSymbol hclose) h)
  | failed error rest' => exact .failed

/-- The rule for a primary, where the expressions inside it are read by `expr`. -/
def primaryWithin (ts : List LocatedToken)
    (expr : (us : List LocatedToken) → us.length < ts.length → ReadingBelow us.length) :
    ReadingBelow ts.length :=
  match hhead : headToken ts with
  | .number value => .first (.num value) (length_tail_lt_of_head hhead Token.noConfusion)
  | .ident name => .first (.var name) (length_tail_lt_of_head hhead Token.noConfusion)
  | .keyword .returnWord =>
    have htail := length_tail_lt_of_head hhead Token.noConfusion
    (expr ts.tail htail).andThen fun e rest h =>
      ⟨.done (.ret e (headLoc ts)) (skipSymbol .semicolon rest),
        .done (Nat.lt_of_le_of_lt (length_skipSymbol_le _ _) (Nat.lt_trans h htail))⟩
  | .symbol .openParen =>
    have htail := length_tail_lt_of_head hhead Token.noConfusion
    (expr ts.tail htail).andThen fun e _ h => ⟨_, leavesBelow_closeParen e (Nat.lt_trans h htail)⟩
  | found => .fault ts (.noOperand found)

namespace Layer

/-- How many layers are tighter. -/
def height : Layer → Nat
  | comparison => 3
  | sum => 2
  | product => 1
  | primary => 0

theorem height_tighter_lt {layer : Layer} (h : layer ≠ .primary) :
    layer.tighter.height < layer.height := by
  cases layer with
  | primary => exact absurd rfl h
  | _ => decide

/-- The operator of the layer that comes first, if one does. -/
def operatorAt? (layer : Layer) (ts : List LocatedToken) : Option Operator :=
  match headToken ts with
  | .symbol s => layer.operators.lookup s
  | _ => none

/-- The operators of a layer are those of its precedence. -/
theorem operatorAt?_eq_filter (layer : Layer) (ts : List LocatedToken) :
    layer.operatorAt? ts = (Operator.ofToken? (headToken ts)).filter
      (fun op => decide (op.precedence = layer.precedence)) := by
  unfold operatorAt?
  cases headToken ts with
  | symbol mark => cases mark <;> cases layer <;> rfl
  | _ => rfl

theorem operatorAt?_eq_some {layer : Layer} {ts : List LocatedToken} {op : Operator} :
    layer.operatorAt? ts = some op ↔
      Operator.ofToken? (headToken ts) = some op ∧ op.precedence = layer.precedence := by
  rw [operatorAt?_eq_filter, Option.filter_eq_some_iff, decide_eq_true_eq]

theorem length_tail_lt_of_operatorAt? {layer : Layer} {ts : List LocatedToken} {op : Operator}
    (h : layer.operatorAt? ts = some op) : ts.tail.length < ts.length := by
  refine length_tail_lt fun heof => ?_
  rw [operatorAt?, heof] at h
  cases h

end Layer

mutual

/-- The bounded form of `readLevel`. -/
def levelWithin (layer : Layer) (ts : List LocatedToken) : ReadingBelow ts.length :=
  if _hprimary : layer = .primary then primaryWithin ts fun us _ => levelWithin .comparison us
  else
    (levelWithin layer.tighter ts).andThen fun left rest h => (chainWithin layer left rest).weaken h
termination_by 5 * ts.length + layer.height
decreasing_by
  · simp only [Layer.height]
    omega
  · have := Layer.height_tighter_lt _hprimary
    omega
  · omega

/-- The bounded form of `readChain`. -/
def chainWithin (layer : Layer) (left : Expr) (ts : List LocatedToken) :
    ReadingBelow (ts.length + 1) :=
  match hop : layer.operatorAt? ts with
  | none => ⟨.done left ts, .done (Nat.lt_succ_self _)⟩
  | some op =>
    (levelWithin layer.tighter ts.tail).andThen fun right rest h =>
      (chainWithin layer (.bin op left right (headLoc ts)) rest).weaken
        (Nat.succ_le_succ (Nat.le_of_lt (Nat.lt_trans h (Layer.length_tail_lt_of_operatorAt? hop))))
termination_by 5 * ts.length
decreasing_by
  all_goals have htail := Layer.length_tail_lt_of_operatorAt? hop
  · have : layer.tighter.height ≤ 3 := by cases layer <;> decide
    omega
  · omega

end

/-- Reads an expression of a layer: operands of the next tighter one, joined by its operators. -/
def readLevel (layer : Layer) (ts : List LocatedToken) : Reading Expr := (levelWithin layer ts).val

/-- The loop of a layer, which continues `left` with the operators of the layer. -/
def readChain (layer : Layer) (left : Expr) (ts : List LocatedToken) : Reading Expr :=
  (chainWithin layer left ts).val

/-- Continues `left` by the loops of a layer and of the tighter ones, the tightest first. -/
def continueLayer (layer : Layer) (left : Expr) (ts : List LocatedToken) : Reading Expr :=
  match layer with
  | .comparison =>
    ((readChain .product left ts).andThen (readChain .sum)).andThen (readChain .comparison)
  | .sum => (readChain .product left ts).andThen (readChain .sum)
  | .product => readChain .product left ts
  | .primary => .done left ts

theorem readLevel_primary (ts : List LocatedToken) :
    readLevel .primary ts = (primaryWithin ts fun us _ => levelWithin .comparison us).val := by
  rw [readLevel, levelWithin, dif_pos rfl]

theorem readLevel_eq {layer : Layer} (h : layer ≠ .primary) (ts : List LocatedToken) :
    readLevel layer ts = (readLevel layer.tighter ts).andThen (readChain layer) := by
  rw [readLevel, levelWithin, dif_neg h]
  exact ReadingBelow.val_andThen _ fun left rest _ => rfl

theorem readChain_of_none {layer : Layer} {ts : List LocatedToken} (left : Expr)
    (h : layer.operatorAt? ts = none) : readChain layer left ts = .done left ts := by
  rw [readChain, chainWithin]
  split
  · rfl
  · rename_i hop
    rw [h] at hop
    cases hop

theorem readChain_of_some {layer : Layer} {ts : List LocatedToken} {op : Operator} (left : Expr)
    (h : layer.operatorAt? ts = some op) :
    readChain layer left ts = (readLevel layer.tighter ts.tail).andThen fun right rest =>
      readChain layer (.bin op left right (headLoc ts)) rest := by
  rw [readChain, chainWithin]
  split
  · rename_i hop
    rw [h] at hop
    cases hop
  · rename_i hop
    obtain rfl := Option.some.inj (h.symm.trans hop)
    exact ReadingBelow.val_andThen _ fun right rest _ => rfl

/-- A level is a primary, continued by the loops up to the level. -/
theorem readLevel_eq_continueLayer (layer : Layer) (ts : List LocatedToken) :
    readLevel layer ts = (readLevel .primary ts).andThen (continueLayer layer) := by
  have hproduct : readLevel .product ts = (readLevel .primary ts).andThen (readChain .product) :=
    readLevel_eq Layer.noConfusion ts
  have hsum : readLevel .sum ts = (readLevel .primary ts).andThen (continueLayer .sum) := by
    rw [readLevel_eq Layer.noConfusion, Layer.tighter, hproduct, Reading.andThen_assoc]
    rfl
  cases layer with
  | comparison =>
      rw [readLevel_eq Layer.noConfusion, Layer.tighter, hsum, Reading.andThen_assoc]
      rfl
  | sum => exact hsum
  | product => exact hproduct
  | primary => cases readLevel .primary ts <;> rfl

/-- With the reader of climbing inside, the rule for a primary reads what climbing reads as an
operand. -/
theorem primaryWithin_eq_readOperand {ts : List LocatedToken}
    {expr : (us : List LocatedToken) → us.length < ts.length → ReadingBelow us.length}
    (h : ∀ us hlt, (expr us hlt).val = readExpr us) :
    (primaryWithin ts expr).val = readOperand ts := by
  rw [readOperand_eq]
  unfold primaryWithin
  split
  · rename_i hhead
    simp only [hhead, ReadingBelow.first]
  · rename_i hhead
    simp only [hhead, ReadingBelow.first]
  · rename_i hhead
    simp only [hhead, ← h ts.tail (length_tail_lt_of_head hhead Token.noConfusion)]
    exact ReadingBelow.val_andThen _ fun e rest _ => rfl
  · rename_i hhead
    simp only [hhead, ← h ts.tail (length_tail_lt_of_head hhead Token.noConfusion)]
    exact ReadingBelow.val_andThen _ fun e rest _ => rfl
  · rename_i hnumber hident hreturn hparen
    split
    · rename_i hhead
      exact absurd hhead (hident _)
    · rename_i hhead
      exact absurd hhead (hnumber _)
    · rename_i hhead
      exact absurd hhead hparen
    · rename_i hhead
      exact absurd hhead hreturn
    · rfl

/-! ### Climbing in two runs -/

theorem Reading.andThen_congr {α β : Type} {r : Reading α}
    {next next' : α → List LocatedToken → Reading β}
    (h : ∀ a rest, r = .done a rest → next a rest = next' a rest) :
    r.andThen next = r.andThen next' := by
  cases r with
  | done a rest => exact h a rest rfl
  | failed error rest => rfl

theorem length_lt_of_readLayer {least : Int} {ts rest : List LocatedToken} {e : Expr}
    (h : readLayer least ts = .done e rest) : rest.length < ts.length := by
  obtain ⟨left, mid, hleft, htail⟩ := Reading.andThen_eq_done.mp h
  exact Nat.lt_of_le_of_lt (length_le_of_readTail htail) (length_lt_of_readOperand hleft)

/-- Climbing may take the tighter operators first and then go on with the others. -/
theorem readTail_andThen {least more : Int} (hle : least ≤ more) (ts : List LocatedToken) :
    ∀ left : Expr,
      (readTail more left ts).andThen (readTail least) = readTail least left ts := by
  induction hn : ts.length using Nat.strongRecOn generalizing ts with
  | _ n ih =>
      subst hn
      intro left
      cases hop : operatorFrom? more ts with
      | none =>
          rw [readTail_of_none left hop]
          rfl
      | some op =>
          obtain ⟨htoken, hmore⟩ := operatorFrom?_eq_some.mp hop
          have hleast : operatorFrom? least ts = some op :=
            operatorFrom?_eq_some.mpr ⟨htoken, Int.le_trans hle hmore⟩
          have htail := length_tail_lt_of_operator hop
          rw [readTail_of_some left hop, readTail_of_some left hleast, Reading.andThen_assoc]
          refine Reading.andThen_congr fun right rest hright => ?_
          have hrest := length_lt_of_readLayer hright
          exact ih rest.length (by omega) rest rfl _

/-- What climbing leaves does not begin with an operator that it should have taken. -/
theorem operatorFrom?_of_readTail {least : Int} (ts : List LocatedToken) :
    ∀ {left e : Expr} {rest : List LocatedToken}, readTail least left ts = .done e rest →
      operatorFrom? least rest = none := by
  induction hn : ts.length using Nat.strongRecOn generalizing ts with
  | _ n ih =>
      subst hn
      intro left e rest h
      cases hop : operatorFrom? least ts with
      | none =>
          rw [readTail_of_none left hop] at h
          cases h
          exact hop
      | some op =>
          have htail := length_tail_lt_of_operator hop
          rw [readTail_of_some left hop] at h
          obtain ⟨right, mid, hright, h⟩ := Reading.andThen_eq_done.mp h
          have hmid := length_lt_of_readLayer hright
          exact ih mid.length (by omega) mid rfl h

/-- Bounds that let in the same operators make no difference. -/
theorem readTail_congr {least least' : Int}
    (h : ∀ ts, operatorFrom? least ts = operatorFrom? least' ts) (ts : List LocatedToken) :
    ∀ left : Expr, readTail least left ts = readTail least' left ts := by
  induction hn : ts.length using Nat.strongRecOn generalizing ts with
  | _ n ih =>
      subst hn
      intro left
      cases hop : operatorFrom? least ts with
      | none => rw [readTail_of_none left hop, readTail_of_none left ((h ts).symm.trans hop)]
      | some op =>
          have htail := length_tail_lt_of_operator hop
          rw [readTail_of_some left hop, readTail_of_some left ((h ts).symm.trans hop)]
          refine Reading.andThen_congr fun right rest hright => ?_
          have hrest := length_lt_of_readLayer hright
          exact ih rest.length (by omega) rest rfl _

/-- The loosest layer whose operators bind at least as tightly as `least`. -/
def Layer.ofLeast (least : Int) : Layer :=
  if least ≤ comparison.precedence then comparison
  else if least ≤ sum.precedence then sum
  else if least ≤ product.precedence then product
  else primary

/-- Every operator that can be written binds less tightly than a primary holds together. -/
theorem precedence_lt_primary {t : Token} {op : Operator} (h : Operator.ofToken? t = some op) :
    op.precedence < Layer.primary.precedence := by
  obtain ⟨symbol, _, hmem⟩ := mem_operators_of_ofToken? h
  obtain ⟨_, hprecedence, hlayer⟩ := ofToken?_of_mem hmem
  rw [hprecedence]
  cases hop : op.layer with
  | primary => exact absurd hop hlayer
  | _ => decide

theorem operatorFrom?_ofLeast (least : Int) (ts : List LocatedToken) :
    operatorFrom? least ts = operatorFrom? (Layer.ofLeast least).precedence ts := by
  refine Option.ext fun op => ?_
  rw [operatorFrom?_eq_some, operatorFrom?_eq_some]
  refine and_congr_right fun htoken => ?_
  have hprimary := precedence_lt_primary htoken
  rw [precedence_layer htoken] at hprimary ⊢
  generalize op.layer = layer at hprimary ⊢
  cases layer <;> grind [Layer.ofLeast, Layer.precedence]

/-- Climbing depends on the layer only that the bound lets in. -/
theorem readTail_ofLeast (least : Int) (left : Expr) (ts : List LocatedToken) :
    readTail least left ts = readTail (Layer.ofLeast least).precedence left ts :=
  readTail_congr (operatorFrom?_ofLeast least) ts left

theorem readLayer_ofLeast (least : Int) (ts : List LocatedToken) :
    readLayer least ts = readLayer (Layer.ofLeast least).precedence ts :=
  Reading.andThen_congr fun left rest _ => readTail_ofLeast least left rest

theorem ofLeast_succ (layer : Layer) : Layer.ofLeast (layer.precedence + 1) = layer.tighter := by
  cases layer <;> rfl

/-! ### The loops are the turns of climbing -/

/-- Both readers agree on the tokens, in every layer. -/
def LevelsAgree (ts : List LocatedToken) : Prop :=
  ∀ layer : Layer, readLevel layer ts = readLayer layer.precedence ts

/-- The loop of a layer takes the turns of climbing, if nothing tighter comes next. -/
theorem readChain_eq_readTail {layer : Layer} {ts : List LocatedToken}
    (hagree : ∀ us : List LocatedToken, us.length < ts.length → LevelsAgree us) :
    ∀ left : Expr, operatorFrom? layer.tighter.precedence ts = none →
      readChain layer left ts = readTail layer.precedence left ts := by
  induction hn : ts.length using Nat.strongRecOn generalizing ts with
  | _ n ih =>
      subst hn
      intro left hnone
      cases hop : layer.operatorAt? ts with
      | none =>
          have hlower : operatorFrom? layer.precedence ts = none := by
            refine operatorFrom?_eq_none.mpr fun op htoken => ?_
            have hlt := operatorFrom?_eq_none.mp hnone op htoken
            have hne : op.precedence ≠ layer.precedence := by
              intro heq
              rw [Layer.operatorAt?_eq_some.mpr ⟨htoken, heq⟩] at hop
              cases hop
            -- no precedence lies between the layer and the next tighter one
            have hgap := admits_tighter layer op.layer
            rw [← precedence_layer htoken] at hgap
            omega
          rw [readChain_of_none left hop, readTail_of_none left hlower]
      | some op =>
          obtain ⟨htoken, hprecedence⟩ := Layer.operatorAt?_eq_some.mp hop
          have hsome : operatorFrom? layer.precedence ts = some op :=
            operatorFrom?_eq_some.mpr ⟨htoken, Int.le_of_eq hprecedence.symm⟩
          have htail := length_tail_lt_of_operator hsome
          have hright : readLevel layer.tighter ts.tail = readLayer (op.precedence + 1) ts.tail := by
            rw [hagree _ htail, readLayer_ofLeast (op.precedence + 1), hprecedence, ofLeast_succ]
          rw [readChain_of_some left hop, readTail_of_some left hsome, ← hright]
          refine Reading.andThen_congr fun right rest hrest => ?_
          rw [hagree _ htail] at hrest
          obtain ⟨_, mid, _, hmid⟩ := Reading.andThen_eq_done.mp hrest
          have hlength := length_lt_of_readLayer hrest
          exact ih rest.length (by omega) (fun us hus => hagree us (by omega)) rfl _
            (operatorFrom?_of_readTail mid hmid)

theorem readTail_primary (left : Expr) (ts : List LocatedToken) :
    readTail Layer.primary.precedence left ts = .done left ts := by
  refine readTail_of_none left (operatorFrom?_eq_none.mpr fun op htoken => ?_)
  exact precedence_lt_primary htoken

/-- The loops from the tightest to that of a layer make up one run of climbing. -/
theorem continueLayer_eq_readTail {ts : List LocatedToken}
    (hagree : ∀ us : List LocatedToken, us.length < ts.length → LevelsAgree us) (layer : Layer)
    (left : Expr) : continueLayer layer left ts = readTail layer.precedence left ts := by
  -- the loop of a layer goes on where climbing in the next tighter one ends
  have hstep : ∀ layer : Layer,
      (readTail layer.tighter.precedence left ts).andThen (readChain layer) =
        readTail layer.precedence left ts := by
    intro layer
    rw [← readTail_andThen (precedence_le_tighter layer) ts left]
    refine Reading.andThen_congr fun e rest htail => ?_
    have hrest := length_le_of_readTail htail
    exact readChain_eq_readTail (fun us hus => hagree us (by omega)) e
      (operatorFrom?_of_readTail ts htail)
  have hproduct : readChain .product left ts = readTail Layer.product.precedence left ts := by
    rw [← hstep .product, Layer.tighter, readTail_primary]
    rfl
  have hsum : continueLayer .sum left ts = readTail Layer.sum.precedence left ts := by
    rw [← hstep .sum, Layer.tighter, ← hproduct]
    rfl
  cases layer with
  | comparison =>
      rw [← hstep .comparison, Layer.tighter, ← hsum]
      rfl
  | sum => exact hsum
  | product => exact hproduct
  | primary => exact (readTail_primary left ts).symm

theorem levelsAgree (ts : List LocatedToken) : LevelsAgree ts := by
  induction hn : ts.length using Nat.strongRecOn generalizing ts with
  | _ n ih =>
      subst hn
      intro layer
      have hprimary : readLevel .primary ts = readOperand ts := by
        rw [readLevel_primary]
        refine primaryWithin_eq_readOperand fun us hus => ?_
        show readLevel .comparison us = readExpr us
        rw [ih us.length hus us rfl .comparison, readExpr_eq_readLayer, readLayer_ofLeast 0]
        rfl
      rw [readLevel_eq_continueLayer, hprimary]
      refine Reading.andThen_congr fun left rest hleft => ?_
      have hrest := length_lt_of_readOperand hleft
      exact continueLayer_eq_readTail (fun us hus => ih us.length (by omega) us rfl) layer left

/-- **Precedence climbing is reading layer by layer.**  From any tokens both give the same tree or the
same error and leave the same tokens.  Climbing with a finished left operand continues it by the
loops of the layers that its bound lets in: all three with the bound 0 of a whole expression, those
of sums and products with the bound 11 of what `<` takes on its right, and that of products with the
bound 21 of what `+` and `-` take. -/
theorem climbing_eq_layered (ts : List LocatedToken) (left : Expr) :
    readExpr ts = readLevel .comparison ts ∧
    readTail 0 left ts = continueLayer .comparison left ts ∧
    readTail 11 left ts = continueLayer .sum left ts ∧
    readTail 21 left ts = continueLayer .product left ts ∧
    ∀ least : Int, readTail least left ts = continueLayer (.ofLeast least) left ts := by
  have htail : ∀ least : Int,
      readTail least left ts = continueLayer (.ofLeast least) left ts := by
    intro least
    rw [continueLayer_eq_readTail (fun us _ => levelsAgree us), ← readTail_ofLeast]
  refine ⟨?_, htail 0, htail 11, htail 21, htail⟩
  rw [levelsAgree ts .comparison, readExpr_eq_readLayer, readLayer_ofLeast 0]
  rfl

end TallyLang
