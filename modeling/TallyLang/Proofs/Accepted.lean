/-
A source that is accepted has code.

The emitter can fail in one place only, at an operator that has no instruction, and a
source has no way to write one.  So what is accepted is compiled, and the only errors of
the compiler are those of the parser.

The argument does not go back to the source.  It needs of a function just that it is
writable, and of that only the operators.
-/
import TallyLang.Proofs.IR.Code
import TallyLang.Proofs.Writable

namespace TallyLang

/-! ### Operators of writable functions -/

theorem Expr.Writable.isSupported_of_mem {e : Expr} (h : e.Writable) :
    ∀ op ∈ e.operators, op.isSupported = true := by
  induction h with
  | num _ =>
      intro op hmem
      exact absurd hmem List.not_mem_nil
  | var _ =>
      intro op hmem
      exact absurd hmem List.not_mem_nil
  | bin hop _ _ ihleft ihright =>
      intro op hmem
      rw [Expr.operators, List.mem_append, List.mem_append, List.mem_singleton] at hmem
      rcases hmem with (hmem | hmem) | hmem
      · exact ihleft op hmem
      · exact ihright op hmem
      · rw [hmem]
        exact hop
  | ret _ ih =>
      intro op hmem
      exact ih op hmem

theorem isSupported_of_mem_operatorsOf {es : List Expr} (h : ∀ e ∈ es, e.Writable) :
    ∀ op ∈ Expr.operatorsOf es, op.isSupported = true := by
  induction es with
  | nil =>
      intro op hmem
      exact absurd hmem List.not_mem_nil
  | cons e es ih =>
      intro op hmem
      rw [Expr.operatorsOf, List.mem_append] at hmem
      rcases hmem with hmem | hmem
      · exact (h e List.mem_cons_self).isSupported_of_mem op hmem
      · exact ih (fun e' he' => h e' (List.mem_cons_of_mem e he')) op hmem

/-! ### Code of writable functions -/

/-- A function whose operators all have an instruction has code, and the code is its lines. -/
theorem generate_of_supported {f : Function}
    (h : ∀ op ∈ Expr.operatorsOf f.body, op.isSupported = true) :
    generate f = .ok (IR.textOf (IR.functionLines f)) := by
  rw [generate, IR.emitFunction_result, IR.firstFault?_of_supported h]

theorem Function.Writable.generate_eq {f : Function} (h : f.Writable) :
    generate f = .ok (IR.textOf (IR.functionLines f)) :=
  generate_of_supported (isSupported_of_mem_operatorsOf h.body)

/-- The compiler fails as the parser does. -/
theorem compile_of_check_error {source : String} {e : ParseError} (h : check source = .error e) :
    compile source = .error e.diagnostic := by
  rw [compile, h]

/-- The compiler gives the code of the function that was read. -/
theorem compile_of_check_ok {source : String} {f : Function} (h : check source = .ok f) :
    compile source = .ok (IR.textOf (IR.functionLines f)) := by
  rw [compile, h]
  show (generate f).mapError IR.EmitError.diagnostic = _
  rw [(writable_of_check h).generate_eq]
  rfl

/-- **What is accepted is compiled.**  If a source is refused, the compiler refuses it with the same
parse error.  If it is accepted, its function is writable, and whatever is writable has code; so the
compiler gives that code. -/
theorem compile_of_check (source : String) :
    (∀ e, check source = .error e →
      e.diagnostic = .parser e.loc e.fault.message ∧ compile source = .error e.diagnostic) ∧
    (∀ f, check source = .ok f →
      f.Writable ∧ ∃ ir, generate f = .ok ir ∧ compile source = .ok ir) ∧
    ∀ f : Function, f.Writable → ∃ ir, generate f = .ok ir := by
  refine ⟨?_, ?_, ?_⟩
  · intro e herror
    exact ⟨rfl, compile_of_check_error herror⟩
  · intro f hok
    have hwritable := writable_of_check hok
    exact ⟨hwritable, _, hwritable.generate_eq, compile_of_check_ok hok⟩
  · intro f hwritable
    exact ⟨_, hwritable.generate_eq⟩

/-- A source that is refused, and one that is accepted with a return inside an operand. -/
theorem compile_of_check_both :
    compile "func f(a, a) \x7b \x7d" = .error (.parser ⟨1, 11⟩ "Duplicate parameter 'a'") ∧
      ∃ f ir, check "func f(a) \x7b a + (return .5 < a); \x7d" = .ok f ∧ f.Writable ∧
        compile "func f(a) \x7b a + (return .5 < a); \x7d" = .ok ir := by
  have herror : check "func f(a, a) \x7b \x7d" = .error ⟨⟨1, 11⟩, .duplicateParam "a"⟩ := by
    with_unfolding_all rfl
  have hisOk : (check "func f(a) \x7b a + (return .5 < a); \x7d").isOk = true := by
    decide +kernel
  obtain ⟨hdiagnostic, hrefused⟩ := (compile_of_check _).1 _ herror
  refine ⟨hrefused.trans (congrArg Except.error hdiagnostic), ?_⟩
  cases hok : check "func f(a) \x7b a + (return .5 < a); \x7d" with
  | error e =>
      rw [hok] at hisOk
      exact absurd hisOk Bool.false_ne_true
  | ok f =>
      obtain ⟨hwritable, ir, _, hcompiled⟩ := (compile_of_check _).2.1 f hok
      exact ⟨f, ir, rfl, hwritable, hcompiled⟩

end TallyLang
