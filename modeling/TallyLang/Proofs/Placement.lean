/-
Where things stand does not matter.

Two lists of the same tokens at different places are read alike.  If one is a function, so
is the other, and the two are equal up to locations: that is the commutation of reading
with forgetting locations.  If one has a fault, the other has it at the token with the
same number.  This half is seen from the states, because a state is moved by a token and
not by its location, so both lists are stopped after the same number of tokens.

With the same statement for code, and since what is accepted has code, a source can be
laid out in any way that leaves its tokens alone.
-/
import TallyLang.Proofs.Accepted
import TallyLang.Proofs.IR.Placement
import TallyLang.Proofs.ViablePrefix

namespace TallyLang

/-! ### Lists of the same tokens -/

/-- The same tokens in the same order, wherever they stand. -/
def SameTokens (ts ts' : List LocatedToken) : Prop :=
  ts.map LocatedToken.token = ts'.map LocatedToken.token

instance (ts ts' : List LocatedToken) : Decidable (SameTokens ts ts') :=
  inferInstanceAs (Decidable (_ = _))

theorem SameTokens.isClosed_eq {ts ts' : List LocatedToken} (h : SameTokens ts ts') :
    isClosed ts = isClosed ts' := by
  have hlast : ts.getLast?.map LocatedToken.token = ts'.getLast?.map LocatedToken.token := by
    rw [← List.getLast?_map, ← List.getLast?_map]
    exact congrArg List.getLast? h
  rw [isClosed, isClosed, hlast]

/-- The end of the input is added to both lists or to none. -/
theorem SameTokens.closed {ts ts' : List LocatedToken} (h : SameTokens ts ts') :
    SameTokens (closed ts) (closed ts') := by
  unfold SameTokens TallyLang.closed
  rw [← h.isClosed_eq]
  by_cases hclosed : isClosed ts = true
  · rw [if_pos hclosed, if_pos hclosed]
    exact h
  · rw [if_neg hclosed, if_neg hclosed, List.map_append, List.map_append]
    exact congrArg (· ++ [Token.eof]) h

theorem SameTokens.unplacedTokens_eq {ts ts' : List LocatedToken} (h : SameTokens ts ts') :
    unplacedTokens ts = unplacedTokens ts' :=
  congrArg atStart h

/-- A list of the same tokens is divided at the same place. -/
theorem SameTokens.exists_append {passed after ts' : List LocatedToken} {t : LocatedToken}
    (h : SameTokens (passed ++ t :: after) ts') :
    ∃ passed' t' after', ts' = passed' ++ t' :: after' ∧ SameTokens passed passed' ∧
      t'.token = t.token := by
  unfold SameTokens at h
  rw [List.map_append, List.map_cons] at h
  obtain ⟨passed', rest, rfl, hpassed, hrest⟩ := List.map_eq_append_iff.mp h.symm
  obtain ⟨t', after', rfl, htoken, _⟩ := List.map_eq_cons_iff.mp hrest
  exact ⟨passed', t', after', rfl, hpassed.symm, htoken⟩

namespace State

/-- States are moved by tokens, not by where they stand. -/
theorem after?_of_sameTokens {passed : List LocatedToken} : ∀ {passed' : List LocatedToken},
    SameTokens passed passed' → ∀ s : State, s.after? passed = s.after? passed' := by
  induction passed with
  | nil =>
      intro passed' h s
      rw [List.map_eq_nil_iff.mp (Eq.symm h)]
  | cons t passed ih =>
      intro passed' h s
      obtain ⟨t', rest', rfl, htoken, hrest⟩ := List.map_eq_cons_iff.mp (Eq.symm h)
      rw [after?, after?, htoken]
      cases s.step t.token with
      | moved s' => exact ih hrest.symm s'
      | finished => rfl
      | stopped fault => rfl
      | stoppedAfter fault => rfl

end State

/-! ### Reading them -/

/-- Reading stops with the error, which is about the token with the number `i`. -/
def FaultAt (ts : List LocatedToken) (i : Nat) (e : ParseError) : Prop :=
  ∃ c : Cursor, (Cursor.ofTokens ts).readFunction = (.error e, c) ∧ c.faultIndex e = i ∧
    (closed ts)[i]?.map LocatedToken.loc = some e.loc

/-- The cursor at the start reads what the parser reads. -/
theorem fst_readFunction_ofTokens (ts : List LocatedToken) :
    (Cursor.ofTokens ts).readFunction.1 = parse ts := by
  rw [← ofTokens_closed, readFunction_ofTokens (isClosed_closed ts), parse]

/-- A list that is stopped after `passed` has its fault at the next token. -/
theorem faultAt_of_stopsAt {ts passed after : List LocatedToken} {t : LocatedToken} {s : State}
    {e : ParseError} (hts : closed ts = passed ++ t :: after)
    (hpassed : State.funcWord.after? passed = some s) (hstops : s.StopsAt t e) :
    FaultAt ts passed.length e := by
  have hclosed := isClosed_closed ts
  rw [hts] at hclosed
  have hread := readFunction_stopped hclosed hpassed hstops
  rw [← hts, ofTokens_closed] at hread
  refine ⟨_, hread, ?_, ?_⟩
  · unfold Cursor.faultIndex
    by_cases hdup : e.fault.isDuplicate = true <;> simp [hdup]
  · rw [hts, List.getElem?_append_right (Nat.le_refl _), Nat.sub_self]
    exact congrArg some hstops.1.symm

/-- A list with a fault is stopped somewhere. -/
theorem exists_stopsAt_of_parse {ts : List LocatedToken} {e : ParseError}
    (h : parse ts = .error e) : ∃ passed t after s, closed ts = passed ++ t :: after ∧
      State.funcWord.after? passed = some s ∧ s.StopsAt t e := by
  have hfailed := Reading.eq_failed_of_result h
  exact State.exists_stopsAt (exists_eof_of_isClosed (isClosed_closed ts))
    (readFunction_eq_failed_iff.mp hfailed)

theorem parse_eq_error_of_faultAt {ts : List LocatedToken} {i : Nat} {e : ParseError}
    (h : FaultAt ts i e) : parse ts = .error e := by
  obtain ⟨c, hread, _⟩ := h
  rw [← fst_readFunction_ofTokens, hread]

/-- A fault of one list is a fault of the other, at the token with the same number. -/
theorem exists_faultAt_of_sameTokens {ts ts' : List LocatedToken} {e : ParseError}
    (h : SameTokens ts ts') (herror : parse ts = .error e) :
    ∃ e' i, e'.fault = e.fault ∧ FaultAt ts i e ∧ FaultAt ts' i e' := by
  obtain ⟨passed, t, after, s, hts, hpassed, hstops⟩ := exists_stopsAt_of_parse herror
  have hclosed := h.closed
  rw [hts] at hclosed
  obtain ⟨passed', t', after', hts', hsame, htoken⟩ := hclosed.exists_append
  have hpassed' : State.funcWord.after? passed' = some s := by
    rw [← State.after?_of_sameTokens hsame, hpassed]
  have hstops' : s.StopsAt t' ⟨t'.loc, e.fault⟩ := by
    refine ⟨rfl, ?_⟩
    rw [htoken]
    exact hstops.2
  have hlength : passed.length = passed'.length := by
    have hmaps := congrArg List.length hsame
    rwa [List.length_map, List.length_map] at hmaps
  refine ⟨⟨t'.loc, e.fault⟩, passed.length, rfl, faultAt_of_stopsAt hts hpassed hstops, ?_⟩
  rw [hlength]
  exact faultAt_of_stopsAt hts' hpassed' hstops'

/-- A function that one list writes is, up to locations, the function that the other writes. -/
theorem exists_parse_of_sameTokens {ts ts' : List LocatedToken} {f : Function}
    (h : SameTokens ts ts') (hok : parse ts = .ok f) :
    ∃ f', parse ts' = .ok f' ∧ f.unplaced = f'.unplaced := by
  have hunplaced : (readFunction (closed ts)).unplaced Function.unplaced =
      (readFunction (closed ts')).unplaced Function.unplaced := by
    rw [← readFunction_unplaced, ← readFunction_unplaced, h.closed.unplacedTokens_eq]
  unfold parse at hok ⊢
  cases hread : readFunction (closed ts) with
  | failed error rest =>
      rw [hread] at hok
      cases hok
  | done g rest =>
      rw [hread] at hok hunplaced
      obtain rfl : g = f := Except.ok.inj hok
      cases hread' : readFunction (closed ts') with
      | failed error' rest' =>
          rw [hread'] at hunplaced
          cases hunplaced
      | done f' rest' =>
          rw [hread'] at hunplaced
          exact ⟨f', rfl, (Reading.done.inj hunplaced).1⟩

/-! ### Sources -/

/-- Sources of the same tokens have the same code, or they are refused with the same words. -/
theorem compile_of_sameTokens {source source' : String}
    (h : SameTokens (tokensOf source) (tokensOf source')) :
    (∃ ir, compile source = .ok ir ∧ compile source' = .ok ir) ∨
      ∃ loc loc' message, compile source = .error (.parser loc message) ∧
        compile source' = .error (.parser loc' message) := by
  cases hcheck : check source with
  | ok f =>
      obtain ⟨f', hcheck', hunplaced⟩ := exists_parse_of_sameTokens h hcheck
      refine Or.inl ⟨_, compile_of_check_ok hcheck, ?_⟩
      rw [compile_of_check_ok hcheck', IR.functionLines_of_unplaced hunplaced]
  | error e =>
      obtain ⟨e', i, hfault, _, hfaultAt'⟩ := exists_faultAt_of_sameTokens h hcheck
      have hcheck' : check source' = .error e' := parse_eq_error_of_faultAt hfaultAt'
      refine Or.inr ⟨e.loc, e'.loc, e.fault.message, compile_of_check_error hcheck, ?_⟩
      rw [compile_of_check_error hcheck', ParseError.diagnostic, hfault]

/-- **Where things stand does not matter.**  Lists of the same tokens are read as functions that are
equal up to locations, or have the same fault at the token with the same number.  Functions
that are equal up to locations have the same code, or both stop at the node to which one path
leads.  So sources of the same tokens have the same code, or are refused with the same words. -/
theorem placement_irrelevant :
    (∀ ts ts' : List LocatedToken, SameTokens ts ts' →
      (∃ f f', parse ts = .ok f ∧ parse ts' = .ok f' ∧ f.unplaced = f'.unplaced) ∨
        ∃ e e' i, parse ts = .error e ∧ parse ts' = .error e' ∧ e'.fault = e.fault ∧
          FaultAt ts i e ∧ FaultAt ts' i e') ∧
    (∀ (f f' : Function) (s s' : IR.Emitter), f.unplaced = f'.unplaced →
      (∃ ir, (IR.emitFunction f s).1 = .ok ir ∧ (IR.emitFunction f' s').1 = .ok ir) ∨
        ∃ c loc loc' path left right left' right',
          (IR.emitFunction f s).1 = .error ⟨c, loc, f.name⟩ ∧
          (IR.emitFunction f' s').1 = .error ⟨c, loc', f.name⟩ ∧
          f.node? path = some (.bin (.unsupported c) left right loc) ∧
          f'.node? path = some (.bin (.unsupported c) left' right' loc')) ∧
    ∀ source source' : String, SameTokens (tokensOf source) (tokensOf source') →
      (∃ ir, compile source = .ok ir ∧ compile source' = .ok ir) ∨
        ∃ loc loc' message, compile source = .error (.parser loc message) ∧
          compile source' = .error (.parser loc' message) := by
  refine ⟨?_, ?_, fun source source' h => compile_of_sameTokens h⟩
  · intro ts ts' h
    cases hparse : parse ts with
    | ok f =>
        obtain ⟨f', hparse', hunplaced⟩ := exists_parse_of_sameTokens h hparse
        exact Or.inl ⟨f, f', rfl, hparse', hunplaced⟩
    | error e =>
        obtain ⟨e', i, hfault, hat, hat'⟩ := exists_faultAt_of_sameTokens h hparse
        exact Or.inr ⟨e, e', i, rfl, parse_eq_error_of_faultAt hat', hfault, hat, hat'⟩
  · intro f f' s s' h
    rcases IR.emitFunction_of_unplaced h s s' with hok | ⟨c, loc, loc', herror, herror', hshares⟩
    · exact Or.inl hok
    · obtain ⟨path, left, right, left', right', hnode, hnode'⟩ := hshares
      exact Or.inr ⟨c, loc, loc', path, left, right, left', right', herror, herror', hnode, hnode'⟩

/-- `return x % x` with the operator at a given place, in a function made by hand. -/
private def remainderAt (loc : Location) : Function :=
  ⟨"f", ["x"], [.ret (.bin (.unsupported '%') (.var "x") (.var "x") loc) .start], .start, .start⟩

private theorem emitFunction_remainderAt (loc : Location) :
    (IR.emitFunction (remainderAt loc) .empty).1 = .error ⟨'%', loc, "f"⟩ := by
  rw [IR.emitFunction_result]
  rfl

/-- A repeated parameter on another line, an operator without an instruction at another place,
and a source that is spread over lines. -/
theorem placement_irrelevant_spread :
    (∃ e e' i, e.loc = ⟨1, 11⟩ ∧ FaultAt (tokensOf "func f(a, a) \x7b \x7d") i e ∧
      FaultAt (tokensOf "func f(a,\n\na) \x7b \x7d") i e' ∧ e'.fault = e.fault) ∧
    (∃ path left right left' right',
      (remainderAt ⟨1, 21⟩).node? path = some (.bin (.unsupported '%') left right ⟨1, 21⟩) ∧
        (remainderAt ⟨2, 4⟩).node? path = some (.bin (.unsupported '%') left' right' ⟨2, 4⟩)) ∧
    ∃ ir, compile "func f(x) \x7b return x; \x7d" = .ok ir ∧
      compile "func f( x ) # one\n\x7b\n  return x;\n\x7d\n" = .ok ir := by
  refine ⟨?_, ?_, ?_⟩
  · have hparse : parse (tokensOf "func f(a, a) \x7b \x7d") =
        .error ⟨⟨1, 11⟩, .duplicateParam "a"⟩ := by
      with_unfolding_all rfl
    have hsame : SameTokens (tokensOf "func f(a, a) \x7b \x7d")
        (tokensOf "func f(a,\n\na) \x7b \x7d") := by
      decide +kernel
    rcases placement_irrelevant.1 _ _ hsame with
      ⟨f, _, hok, _⟩ | ⟨e, e', i, herror, _, hfault, hat, hat'⟩
    · rw [hparse] at hok
      cases hok
    · rw [hparse] at herror
      cases herror
      exact ⟨_, e', i, rfl, hat, hat', hfault⟩
  · have hunplaced : (remainderAt ⟨1, 21⟩).unplaced = (remainderAt ⟨2, 4⟩).unplaced := rfl
    rcases placement_irrelevant.2.1 _ _ .empty .empty hunplaced with
      ⟨ir, hok, _⟩ | ⟨c, loc, loc', path, left, right, left', right', herror, herror', hnode, hnode'⟩
    · rw [emitFunction_remainderAt] at hok
      cases hok
    · rw [emitFunction_remainderAt] at herror herror'
      cases herror
      cases herror'
      exact ⟨path, left, right, left', right', hnode, hnode'⟩
  · have hsame : SameTokens (tokensOf "func f(x) \x7b return x; \x7d")
        (tokensOf "func f( x ) # one\n\x7b\n  return x;\n\x7d\n") := by
      decide +kernel
    have hcheck : check "func f(x) \x7b return x; \x7d" = .ok ⟨"f", ["x"],
        [.ret (.var "x") ⟨1, 13⟩], ⟨1, 13⟩, ⟨1, 1⟩⟩ := by
      with_unfolding_all rfl
    rcases placement_irrelevant.2.2 _ _ hsame with hok | ⟨loc, loc', message, herror, _⟩
    · exact hok
    · rw [compile_of_check_ok hcheck] at herror
      cases herror

end TallyLang
