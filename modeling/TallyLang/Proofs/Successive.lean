/-
Functions that stand one after the other are read one after the other.

A definition is a word that a cursor of its own reads up to its last token.  Read at its
place in a longer list it gives the same function, and the cursor stops right behind it,
because it is derived by the grammar, and a derived function is read whatever follows it.
What stands before it is not looked at.

So a cursor on a row of definitions gives their functions in order, one a call, and then
complains about the missing `func` for ever after.
-/
import Mathlib.Data.List.Forall2
import TallyLang.Diagnostic
import TallyLang.Proofs.ViablePrefix

namespace TallyLang

/-- A word that a cursor of its own reads to its end, as the function `f`.  There is no end of the
input inside of it, since that is never passed. -/
def IsDefinition (word : List LocatedToken) (f : Function) : Prop :=
  ∃ loc c, (Cursor.ofTokens (word ++ [⟨.eof, loc⟩])).readFunction = (.ok f, c) ∧
    c.pos = word.length

/-! ### One definition -/

theorem Reading.eq_done_of_result {α : Type} {r : Reading α} {value : α}
    (h : r.result = .ok value) : r = .done value r.rest := by
  cases r with
  | done value' rest => exact congrArg (Reading.done · rest) (Except.ok.inj h)
  | failed error rest => cases h

/-- A definition is derived by the grammar, all of it. -/
theorem IsDefinition.derives {word : List LocatedToken} {f : Function} (h : IsDefinition word f) :
    DerivesFunction word f := by
  obtain ⟨loc, c, hread, hpos⟩ := h
  rw [readFunction_ofTokens (isClosed_append_eof word loc), Prod.mk.injEq] at hread
  obtain ⟨hresult, rfl⟩ := hread
  obtain ⟨word', hsplit, hderives⟩ :=
    derivesFunction_of_readFunction (Reading.eq_done_of_result hresult)
  have hlength := congrArg List.length hsplit
  rw [List.length_append, List.length_append, List.length_singleton] at hlength
  simp only [List.length_append, List.length_singleton] at hpos
  -- the cursor stopped at the end that was added, so nothing of the word is left
  have hsame : word.length = word'.length := by omega
  rw [(List.append_inj hsplit hsame).1]
  exact hderives

/-- No definition is empty. -/
theorem DerivesFunction.length_pos {word : List LocatedToken} {f : Function}
    (h : DerivesFunction word f) : 0 < word.length := by
  obtain ⟨_, _⟩ := h
  exact Nat.zero_lt_succ _

namespace Cursor

/-- What is seen from the start of a word that is not empty. -/
theorem ahead_append {word : List LocatedToken} (h : 0 < word.length)
    (before after : List LocatedToken) :
    ∃ rest, ahead ⟨before ++ (word ++ after), before.length⟩ = word ++ rest := by
  have hmin : min before.length ((before ++ (word ++ after)).length - 1) = before.length := by
    rw [List.length_append, List.length_append]
    omega
  refine ⟨after ++ beyond ⟨before ++ (word ++ after), before.length⟩, ?_⟩
  rw [ahead, hmin, List.drop_left, List.append_assoc]

/-- **A definition is read wherever it stands.**  Neither what is before it nor what follows it
matters, and the cursor stops right behind it. -/
theorem readFunction_at {word : List LocatedToken} {f : Function} (h : DerivesFunction word f)
    (before after : List LocatedToken) :
    readFunction ⟨before ++ (word ++ after), before.length⟩ =
      (.ok f, ⟨before ++ (word ++ after), before.length + word.length⟩) := by
  obtain ⟨rest, hahead⟩ := ahead_append h.length_pos before after
  have hread : TallyLang.readFunction (word ++ rest) = .done f rest := h.readFunction_eq_done rest
  unfold readFunction
  rw [hahead, hread]
  simp [Reading.result, Reading.rest, moveTo]

/-- At the end of the input there is no function, and the cursor stays. -/
theorem readFunction_at_eof (before : List LocatedToken) (loc : Location) :
    readFunction ⟨before ++ [⟨.eof, loc⟩], before.length⟩ =
      (.error ⟨loc, .missing .funcWord⟩, ⟨before ++ [⟨.eof, loc⟩], before.length⟩) := by
  have hmin : min before.length ((before ++ [⟨.eof, loc⟩] : List LocatedToken).length - 1) =
      before.length := by
    rw [List.length_append, List.length_singleton]
    omega
  have hahead : ahead ⟨before ++ [⟨.eof, loc⟩], before.length⟩ = [⟨.eof, loc⟩] := by
    rw [ahead, hmin, List.drop_left, beyond, if_pos (isClosed_append_eof before loc),
      List.append_nil]
  have hread : TallyLang.readFunction [⟨.eof, loc⟩] =
      .failed ⟨loc, .missing .funcWord⟩ [⟨.eof, loc⟩] := rfl
  unfold readFunction
  rw [hahead, hread]
  simp [Reading.result, Reading.rest, moveTo]

/-! ### A row of definitions -/

/-- What `n` calls one after the other give, each with the position after it. -/
def calls : Nat → Cursor → List (Except Diagnostic Function × Nat)
  | 0, _ => []
  | n + 1, c =>
    (c.readFunction.1.mapError ParseError.diagnostic, c.readFunction.2.pos) ::
      calls n c.readFunction.2

/-- The positions behind the words, when the first of them starts at `start`. -/
def ends (start : Nat) : List (List LocatedToken) → List Nat
  | [] => []
  | word :: words => (start + word.length) :: ends (start + word.length) words

theorem calls_at_eof (before : List LocatedToken) (loc : Location) (k : Nat) :
    calls k ⟨before ++ [⟨.eof, loc⟩], before.length⟩ =
      List.replicate k (.error (.parser loc "Expected 'func'"), before.length) := by
  induction k with
  | zero => rfl
  | succ k ih =>
      rw [calls, readFunction_at_eof, ih, List.replicate_succ]
      rfl

/-- The calls from the start of a row of definitions that stands behind other tokens. -/
theorem calls_from {words : List (List LocatedToken)} {fs : List Function}
    (h : List.Forall₂ DerivesFunction words fs) (loc : Location) (k : Nat) :
    ∀ before : List LocatedToken,
      calls (words.length + k) ⟨before ++ (words.flatten ++ [⟨.eof, loc⟩]), before.length⟩ =
        (fs.zip (ends before.length words)).map (fun (f, i) => (.ok f, i)) ++
          List.replicate k (.error (.parser loc "Expected 'func'"), (before ++ words.flatten).length) := by
  induction h with
  | nil =>
      intro before
      rw [List.length_nil, Nat.zero_add, List.flatten_nil, List.nil_append, calls_at_eof,
        List.append_nil]
      rfl
  | @cons word f words fs hword _ ih =>
      intro before
      have hlength : (word :: words).length + k = words.length + k + 1 := by
        rw [List.length_cons]
        omega
      have hrest := ih (before ++ word)
      rw [List.append_assoc, List.length_append] at hrest
      rw [hlength, calls, List.flatten_cons, List.append_assoc, readFunction_at hword, hrest,
        ends, List.zip_cons_cons, List.map_cons, List.cons_append, List.append_assoc]
      rfl

end Cursor

/-- **A row of definitions is read one by one.**  Calls on a cursor at the start of the row give the
functions in order and leave the position behind their words; every further call fails at the end
of the input and leaves the position there.  And a definition is read as the same function in any
list, from the position where it starts. -/
theorem calls_definitions :
    (∀ (words : List (List LocatedToken)) (fs : List Function) (loc : Location) (k : Nat),
      List.Forall₂ IsDefinition words fs →
      (Cursor.ofTokens (words.flatten ++ [⟨.eof, loc⟩])).calls (words.length + k) =
        (fs.zip (Cursor.ends 0 words)).map (fun (f, i) => (.ok f, i)) ++
          List.replicate k (.error (.parser loc "Expected 'func'"), words.flatten.length)) ∧
    ∀ (word : List LocatedToken) (f : Function), IsDefinition word f →
      ∀ before after : List LocatedToken,
        Cursor.readFunction ⟨before ++ (word ++ after), before.length⟩ =
          (.ok f, ⟨before ++ (word ++ after), before.length + word.length⟩) := by
  refine ⟨?_, ?_⟩
  · intro words fs loc k h
    have hderives : List.Forall₂ DerivesFunction words fs := h.imp fun _ _ hword => hword.derives
    have hcalls := Cursor.calls_from hderives loc k []
    rw [Cursor.ofTokens, closed_of_isClosed (isClosed_append_eof words.flatten loc)]
    exact hcalls
  · intro word f h before after
    exact Cursor.readFunction_at h.derives before after

/-- `func f(x) { return x }` on the first line. -/
private def identityWord : List LocatedToken :=
  [⟨.keyword .funcWord, ⟨1, 1⟩⟩, ⟨.ident "f", ⟨1, 6⟩⟩, ⟨.symbol .openParen, ⟨1, 7⟩⟩,
    ⟨.ident "x", ⟨1, 8⟩⟩, ⟨.symbol .closeParen, ⟨1, 9⟩⟩, ⟨.symbol .openBrace, ⟨1, 11⟩⟩,
    ⟨.keyword .returnWord, ⟨1, 13⟩⟩, ⟨.ident "x", ⟨1, 20⟩⟩, ⟨.symbol .closeBrace, ⟨1, 22⟩⟩]

/-- `func g() { }` on the second line. -/
private def emptyWord : List LocatedToken :=
  [⟨.keyword .funcWord, ⟨2, 1⟩⟩, ⟨.ident "g", ⟨2, 6⟩⟩, ⟨.symbol .openParen, ⟨2, 7⟩⟩,
    ⟨.symbol .closeParen, ⟨2, 8⟩⟩, ⟨.symbol .openBrace, ⟨2, 10⟩⟩, ⟨.symbol .closeBrace, ⟨2, 12⟩⟩]

theorem calls_definitions_two :
    ∃ f g, (Cursor.ofTokens (identityWord ++ emptyWord ++ [⟨.eof, ⟨2, 13⟩⟩])).calls 4 =
        [(.ok f, 9), (.ok g, 15), (.error (.parser ⟨2, 13⟩ "Expected 'func'"), 15),
          (.error (.parser ⟨2, 13⟩ "Expected 'func'"), 15)] ∧
      Cursor.readFunction ⟨emptyWord ++ (identityWord ++ emptyWord), 6⟩ =
        (.ok f, ⟨emptyWord ++ (identityWord ++ emptyWord), 15⟩) := by
  have hf : IsDefinition identityWord ⟨"f", ["x"], [.ret (.var "x") ⟨1, 13⟩], ⟨1, 13⟩, ⟨1, 1⟩⟩ := by
    refine ⟨⟨1, 23⟩, ⟨identityWord ++ [⟨.eof, ⟨1, 23⟩⟩], 9⟩, ?_, rfl⟩
    with_unfolding_all rfl
  have hg : IsDefinition emptyWord ⟨"g", [], [], ⟨2, 12⟩, ⟨2, 1⟩⟩ := by
    refine ⟨⟨2, 13⟩, ⟨emptyWord ++ [⟨.eof, ⟨2, 13⟩⟩], 6⟩, ?_, rfl⟩
    with_unfolding_all rfl
  have hcalls := calls_definitions.1 [identityWord, emptyWord] _ ⟨2, 13⟩ 2 (.cons hf (.cons hg .nil))
  exact ⟨_, _, hcalls, calls_definitions.2 identityWord _ hf emptyWord emptyWord⟩

end TallyLang
