/-
The written form of a function determines it.

Reading the written form again does not always give the function back, because a return
takes what follows it into its value.  The written form itself loses nothing.  An operator
always comes with its own parentheses, so where they open an operator is meant, where the
word `return` stands a return is meant, and either way the first token says what the node
is and how many operands follow.  No written form is a proper beginning of another
(`written_append_inj`), and so no two trees are written alike, whatever returns they nest.

Numbers come back from their digits, except infinite ones: `inf` is also a name.
-/
import TallyLang.Proofs.RoundTrip

namespace TallyLang

namespace Expr

/-- No literal in the tree is infinite. -/
def FiniteLiterals (e : Expr) : Prop := ∀ x, .num x ∈ e.nodes → x.isInfinite = false

theorem FiniteLiterals.left {op : Operator} {left right : Expr} {loc : Location}
    (h : (Expr.bin op left right loc).FiniteLiterals) : left.FiniteLiterals := by
  intro x hx
  exact h x (by simp [nodes, hx])

theorem FiniteLiterals.right {op : Operator} {left right : Expr} {loc : Location}
    (h : (Expr.bin op left right loc).FiniteLiterals) : right.FiniteLiterals := by
  intro x hx
  exact h x (by simp [nodes, hx])

theorem FiniteLiterals.value {value : Expr} {loc : Location}
    (h : (Expr.ret value loc).FiniteLiterals) : value.FiniteLiterals := by
  intro x hx
  exact h x (by simp [nodes, hx])

theorem mem_nodesOf {e n : Expr} {es : List Expr} (he : e ∈ es) (hn : n ∈ e.nodes) :
    n ∈ nodesOf es := by
  induction es with
  | nil => cases he
  | cons d es ih =>
      rw [nodesOf]
      rcases List.mem_cons.mp he with rfl | he
      · exact List.mem_append_left _ hn
      · exact List.mem_append_right _ (ih he)

mutual

theorem text_unplaced : ∀ e : Expr, e.unplaced.text = e.text
  | .num _ => rfl
  | .var _ => rfl
  | .bin _ left right _ => by rw [unplaced, text, text, text_unplaced left, text_unplaced right]
  | .ret value _ => by rw [unplaced, text, text, text_unplaced value]
  | .block [] _ => rfl
  | .block (e :: es) _ => by
      rw [unplaced, text, text, lines_unplacedList (e :: es)]
      rfl

theorem lines_unplacedList : ∀ es : List Expr, lines (unplacedList es) = lines es
  | [] => rfl
  | e :: es => by rw [unplacedList, lines, lines, text_unplaced e, lines_unplacedList es]

end

/-! ### Expressions -/

theorem FiniteLiterals.written_num {x : Binary64} (h : (Expr.num x).FiniteLiterals) :
    (Expr.num x).written = [.number x] := by
  rw [written, Binary64.writtenToken, h x List.mem_cons_self]
  rfl

theorem operator_eq_of_token {op op' : Operator} (h : op.isSupported = true)
    (h' : op'.isSupported = true) (heq : op.token = op'.token) : op = op' := by
  cases op <;> cases op' <;> simp_all [Operator.token, Operator.isSupported]

/-- A written form is the beginning of a list of tokens in at most one way. -/
theorem written_append_inj {e : Expr} (h : e.Writable) : ∀ {e' : Expr} {rest rest' : List Token},
    e'.Writable → e.FiniteLiterals → e'.FiniteLiterals → e.written ++ rest = e'.written ++ rest' →
      e.unplaced = e'.unplaced ∧ rest = rest' := by
  induction h with
  | @num x _ =>
      intro e' rest rest' h' hfinite hfinite' heq
      rw [hfinite.written_num] at heq
      cases h' with
      | num _ =>
          rw [hfinite'.written_num] at heq
          cases heq
          exact ⟨rfl, rfl⟩
      | _ =>
          rw [written] at heq
          cases heq
  | @var name _ =>
      intro e' rest rest' h' hfinite hfinite' heq
      rw [written] at heq
      cases h' with
      | num _ =>
          rw [hfinite'.written_num] at heq
          cases heq
      | var _ =>
          rw [written] at heq
          cases heq
          exact ⟨rfl, rfl⟩
      | _ =>
          rw [written] at heq
          cases heq
  | @bin op left right loc hop _ _ ihleft ihright =>
      intro e' rest rest' h' hfinite hfinite' heq
      cases h' with
      | num _ =>
          rw [hfinite'.written_num, written] at heq
          cases heq
      | @bin op' left' right' loc' hop' hleft' hright' =>
          -- the left operands end together, so the operators and then the right operands do too
          simp only [written, List.cons_append, List.append_assoc, List.cons.injEq, true_and] at heq
          obtain ⟨hleft, htail⟩ := ihleft hleft' hfinite.left hfinite'.left heq
          obtain ⟨htoken, htail⟩ := List.cons.inj htail
          obtain ⟨hright, htail⟩ := ihright hright' hfinite.right hfinite'.right htail
          rw [unplaced, unplaced, operator_eq_of_token hop hop' htoken, hleft, hright]
          exact ⟨rfl, (List.cons.inj htail).2⟩
      | _ =>
          simp only [written] at heq
          cases heq
  | @ret value loc _ ih =>
      intro e' rest rest' h' hfinite hfinite' heq
      cases h' with
      | num _ =>
          rw [hfinite'.written_num, written] at heq
          cases heq
      | ret hvalue' =>
          simp only [written, List.cons_append, List.cons.injEq, true_and] at heq
          obtain ⟨hvalue, htail⟩ := ih hvalue' hfinite.value hfinite'.value heq
          rw [unplaced, unplaced, hvalue]
          exact ⟨rfl, htail⟩
      | _ =>
          simp only [written] at heq
          cases heq

/-! ### Statements -/

theorem written_ne_nil (e : Expr) : e.written ≠ [] := by
  cases e <;> simp [written]

/-- No expression begins with the brace that ends a body. -/
theorem written_append_ne {e : Expr} (h : e.Writable) (rest rest' : List Token) :
    e.written ++ rest ≠ .symbol .closeBrace :: rest' := by
  intro heq
  cases hwritten : e.written with
  | nil => exact e.written_ne_nil hwritten
  | cons t ts =>
      have hinline := isInline_of_mem_written h t (by rw [hwritten]; exact List.mem_cons_self)
      rw [hwritten, List.cons_append, List.cons.injEq] at heq
      rw [heq.1] at hinline
      cases hinline

theorem writtenLines_append_inj {es : List Expr} : ∀ {es' : List Expr} {rest rest' : List Token},
    (∀ e ∈ es, e.Writable ∧ e.FiniteLiterals) → (∀ e ∈ es', e.Writable ∧ e.FiniteLiterals) →
      writtenLines es ++ .symbol .closeBrace :: rest =
        writtenLines es' ++ .symbol .closeBrace :: rest' →
      unplacedList es = unplacedList es' := by
  induction es with
  | nil =>
      intro es' rest rest' _ h' heq
      cases es' with
      | nil => rfl
      | cons e' es' =>
          rw [writtenLines, writtenLines, List.nil_append, List.append_assoc] at heq
          exact absurd heq.symm (written_append_ne (h' e' List.mem_cons_self).1 _ _)
  | cons e es ih =>
      intro es' rest rest' h h' heq
      cases es' with
      | nil =>
          rw [writtenLines, writtenLines, List.nil_append, List.append_assoc] at heq
          exact absurd heq (written_append_ne (h e List.mem_cons_self).1 _ _)
      | cons e' es' =>
          obtain ⟨hwritable, hfinite⟩ := h e List.mem_cons_self
          obtain ⟨hwritable', hfinite'⟩ := h' e' List.mem_cons_self
          rw [writtenLines, writtenLines, List.append_assoc, List.append_assoc] at heq
          obtain ⟨hfirst, htail⟩ := written_append_inj hwritable hwritable' hfinite hfinite' heq
          have hrest := ih (fun d hd => h d (List.mem_cons_of_mem e hd))
            (fun d hd => h' d (List.mem_cons_of_mem e' hd)) (List.cons.inj htail).2
          rw [unplacedList, unplacedList, hfirst, hrest]

end Expr

/-! ### Functions -/

namespace Function

/-- Behind a name stands nothing, or a comma and the other names. -/
theorem exists_writtenNames_cons (p : String) (ps : List String) : ∃ tail,
    writtenNames (p :: ps) = .ident p :: tail ∧
      (ps = [] ∧ tail = [] ∨ tail = .symbol .comma :: writtenNames ps) := by
  cases ps with
  | nil => exact ⟨[], rfl, Or.inl ⟨rfl, rfl⟩⟩
  | cons q ps => exact ⟨_, rfl, Or.inr rfl⟩

/-- The names of the parameters end at the parenthesis and not before. -/
theorem writtenNames_append_inj {ps : List String} :
    ∀ {ps' : List String} {rest rest' : List Token},
      writtenNames ps ++ .symbol .closeParen :: rest =
        writtenNames ps' ++ .symbol .closeParen :: rest' → ps = ps' ∧ rest = rest' := by
  induction ps with
  | nil =>
      intro ps' rest rest' heq
      cases ps' with
      | nil => exact ⟨rfl, (List.cons.inj heq).2⟩
      | cons p' ps' =>
          obtain ⟨tail', htail', -⟩ := exists_writtenNames_cons p' ps'
          rw [htail'] at heq
          cases heq
  | cons p ps ih =>
      intro ps' rest rest' heq
      obtain ⟨tail, htail, hcase⟩ := exists_writtenNames_cons p ps
      rw [htail] at heq
      cases ps' with
      | nil => cases heq
      | cons p' ps' =>
          obtain ⟨tail', htail', hcase'⟩ := exists_writtenNames_cons p' ps'
          rw [htail', List.cons_append, List.cons_append, List.cons.injEq, Token.ident.injEq] at heq
          obtain ⟨rfl, heq⟩ := heq
          rcases hcase with ⟨rfl, rfl⟩ | rfl <;> rcases hcase' with ⟨rfl, rfl⟩ | rfl
          · exact ⟨rfl, (List.cons.inj heq).2⟩
          · cases heq
          · cases heq
          · obtain ⟨rfl, hrest⟩ := ih (List.cons.inj heq).2
            exact ⟨rfl, hrest⟩

/-- No literal of the function is infinite. -/
def FiniteLiterals (f : Function) : Prop := ∀ x, .num x ∈ Expr.nodesOf f.body → x.isInfinite = false

theorem FiniteLiterals.of_mem {f : Function} (h : f.FiniteLiterals) :
    ∀ e ∈ f.body, e.FiniteLiterals := by
  intro e he x hx
  exact h x (Expr.mem_nodesOf he hx)

/-- The tokens of the written form determine the function. -/
theorem unplaced_eq_of_written {f g : Function} (hf : f.Writable) (hg : g.Writable)
    (hfinite : f.FiniteLiterals) (hfinite' : g.FiniteLiterals) (h : f.written = g.written) :
    f.unplaced = g.unplaced := by
  simp only [written, List.cons.injEq, Token.ident.injEq, true_and] at h
  obtain ⟨hname, h⟩ := h
  obtain ⟨hparams, h⟩ := writtenNames_append_inj h
  have hbody := Expr.writtenLines_append_inj
    (fun e he => ⟨hf.body e he, hfinite.of_mem e he⟩)
    (fun e he => ⟨hg.body e he, hfinite'.of_mem e he⟩) (List.cons.inj h).2
  simp only [unplaced, hname, hparams, hbody]

/-- Locations are not written. -/
theorem text_unplaced (f : Function) : f.unplaced.text = f.text := by
  have hempty : (Expr.unplacedList f.body).isEmpty = f.body.isEmpty := by
    cases f.body <;> simp [Expr.unplacedList]
  simp only [text, signature, unplaced, Expr.blockText, hempty, Expr.lines_unplacedList]

end Function

/-- **The written form determines the function.**  Two functions that were read from sources and
hold no infinite literal are written alike exactly if they are the same up to locations. -/
theorem text_eq_iff_unplaced_eq {source source' : String} {f g : Function}
    (hf : check source = .ok f) (hg : check source' = .ok g) (hfinite : f.FiniteLiterals)
    (hfinite' : g.FiniteLiterals) : f.text = g.text ↔ f.unplaced = g.unplaced := by
  have hwritable := writable_of_check hf
  have hwritable' := writable_of_check hg
  constructor
  · intro htext
    refine Function.unplaced_eq_of_written hwritable hwritable' hfinite hfinite' ?_
    rw [← Function.lexed_written hwritable, ← Function.lexed_written hwritable', htext]
  · intro hunplaced
    rw [← f.text_unplaced, ← g.text_unplaced, hunplaced]

/-- The number `0.5`. -/
private def half : Binary64 := ⟨0x3fe0000000000000⟩

/-- The tokens of `func f(){`. -/
private def openedBody : List LocatedToken :=
  [⟨.keyword .funcWord, ⟨1, 1⟩⟩, ⟨.ident "f", ⟨1, 6⟩⟩, ⟨.symbol .openParen, ⟨1, 7⟩⟩,
    ⟨.symbol .closeParen, ⟨1, 8⟩⟩, ⟨.symbol .openBrace, ⟨1, 9⟩⟩]

/-- An operator with a return on its left. -/
private def returnInSum : Function :=
  ⟨"f", [], [.bin .add (.ret (.num half) ⟨1, 11⟩) (.num half) ⟨1, 21⟩], ⟨1, 10⟩, .start⟩

/-- A return of the same operator. -/
private def returnOfSum : Function :=
  ⟨"f", [], [.ret (.bin .add (.num half) (.num half) ⟨1, 19⟩) ⟨1, 10⟩], ⟨1, 10⟩, .start⟩

theorem text_eq_iff_unplaced_eq_nested :
    check "func f()\x7b(return .5)+.5;\x7d" = .ok returnInSum ∧
      check "func f()\x7breturn .5+.5;\x7d" = .ok returnOfSum ∧ returnInSum.FiniteLiterals ∧
      returnOfSum.FiniteLiterals ∧ returnInSum.text ≠ returnOfSum.text := by
  have htokens : tokensOf "func f()\x7b(return .5)+.5;\x7d" = openedBody ++
      [⟨.symbol .openParen, ⟨1, 10⟩⟩, ⟨.keyword .returnWord, ⟨1, 11⟩⟩, ⟨.number half, ⟨1, 18⟩⟩,
        ⟨.symbol .closeParen, ⟨1, 20⟩⟩, ⟨.symbol .plus, ⟨1, 21⟩⟩, ⟨.number half, ⟨1, 22⟩⟩,
        ⟨.symbol .semicolon, ⟨1, 24⟩⟩, ⟨.symbol .closeBrace, ⟨1, 25⟩⟩, ⟨.eof, ⟨1, 26⟩⟩] := by
    decide +kernel
  have htokens' : tokensOf "func f()\x7breturn .5+.5;\x7d" = openedBody ++
      [⟨.keyword .returnWord, ⟨1, 10⟩⟩, ⟨.number half, ⟨1, 17⟩⟩, ⟨.symbol .plus, ⟨1, 19⟩⟩,
        ⟨.number half, ⟨1, 20⟩⟩, ⟨.symbol .semicolon, ⟨1, 22⟩⟩, ⟨.symbol .closeBrace, ⟨1, 23⟩⟩,
        ⟨.eof, ⟨1, 24⟩⟩] := by
    decide +kernel
  have hcheck : check "func f()\x7b(return .5)+.5;\x7d" = .ok returnInSum := by
    rw [check, htokens]
    with_unfolding_all rfl
  have hcheck' : check "func f()\x7breturn .5+.5;\x7d" = .ok returnOfSum := by
    rw [check, htokens']
    with_unfolding_all rfl
  have hhalf : half.isInfinite = false := by decide
  have hfinite : returnInSum.FiniteLiterals := by
    intro x hx
    simp [returnInSum, Expr.nodesOf, Expr.nodes] at hx
    rw [hx, hhalf]
  have hfinite' : returnOfSum.FiniteLiterals := by
    intro x hx
    simp [returnOfSum, Expr.nodesOf, Expr.nodes] at hx
    rw [hx, hhalf]
  refine ⟨hcheck, hcheck', hfinite, hfinite', fun htext => ?_⟩
  have heq := (text_eq_iff_unplaced_eq hcheck hcheck' hfinite hfinite').mp htext
  cases congrArg (fun f => f.body.map Expr.isReturn) heq

end TallyLang
