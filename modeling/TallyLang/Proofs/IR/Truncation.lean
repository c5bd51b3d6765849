/-
The code of a function is its listing, cut off where it first stops.

A listing stops at a `ret`, or at an operator without an instruction.  Every function has
such an entry, since its listing ends in a `ret`, and the first of them decides: after a
`ret` the code is complete, and whatever stands behind it is dropped, faults included;
at a fault the emission fails, and the text holds what came before.

`live` and `firstFault?` compute both parts, and here they are taken back to the listing
itself.  So nothing is written after a `ret`, nothing before it is missing, a dead
operator never fails and the first live one always does.
-/
import TallyLang.Proofs.IR.Code

namespace TallyLang

namespace IR

/-! ### Where a listing stops -/

/-- The entries begin with the instructions `before`, none of them a `ret`, and then comes `stop`. -/
def BeginsWith (entries : List Entry) (before : List Instr) (stop : Entry) : Prop :=
  (∀ i ∈ before, i.isRet = false) ∧ ∃ after, entries = before.map .instr ++ stop :: after

theorem BeginsWith.cons {entries : List Entry} {before : List Instr} {stop : Entry}
    (h : BeginsWith entries before stop) {i : Instr} (hi : i.isRet = false) :
    BeginsWith (.instr i :: entries) (i :: before) stop := by
  obtain ⟨hbefore, after, rfl⟩ := h
  exact ⟨List.forall_mem_cons.mpr ⟨hi, hbefore⟩, after, rfl⟩

/-- Entries with a `ret` among them stop at one, or at a fault before it. -/
theorem exists_beginsWith {entries : List Entry} {i : Instr} (hmem : .instr i ∈ entries)
    (hret : i.isRet = true) :
    (∃ before value, BeginsWith entries before (.instr (.ret value))) ∨
      ∃ before c loc, BeginsWith entries before (.fault c loc) := by
  induction entries with
  | nil => cases hmem
  | cons entry rest ih =>
      cases entry with
      | fault c loc => exact Or.inr ⟨[], c, loc, by simp, rest, rfl⟩
      | instr j =>
          cases hj : j.isRet with
          | true =>
              cases j with
              | ret value => exact Or.inl ⟨[], value, by simp, rest, rfl⟩
              | _ => cases hj
          | false =>
              have hrest : .instr i ∈ rest := by
                rcases List.mem_cons.mp hmem with heq | hrest
                · cases heq
                  rw [hret] at hj
                  cases hj
                · exact hrest
              rcases ih hrest with ⟨before, value, h⟩ | ⟨before, c, loc, h⟩
              · exact Or.inl ⟨j :: before, value, h.cons hj⟩
              · exact Or.inr ⟨j :: before, c, loc, h.cons hj⟩

/-- Up to the first stop everything is live. -/
theorem live_append_of_not_ret {before : List Instr} (h : ∀ i ∈ before, i.isRet = false)
    (rest : List Entry) :
    live (before.map .instr ++ rest) = before ++ live rest ∧
      firstFault? (before.map .instr ++ rest) = firstFault? rest := by
  induction before with
  | nil => exact ⟨rfl, rfl⟩
  | cons i before ih =>
      obtain ⟨hi, hbefore⟩ := List.forall_mem_cons.mp h
      obtain ⟨hlive, hfault⟩ := ih hbefore
      rw [List.map_cons, List.cons_append, live_cons hi, firstFault?_cons hi, hlive, hfault]
      exact ⟨rfl, rfl⟩

theorem BeginsWith.live_ret {entries : List Entry} {before : List Instr} {value : Operand}
    (h : BeginsWith entries before (.instr (.ret value))) :
    live entries = before ++ [.ret value] ∧ firstFault? entries = none := by
  obtain ⟨hbefore, after, rfl⟩ := h
  exact live_append_of_not_ret hbefore _

theorem BeginsWith.live_fault {entries : List Entry} {before : List Instr} {c : Char}
    {loc : Location} (h : BeginsWith entries before (.fault c loc)) :
    live entries = before ∧ firstFault? entries = some (c, loc) := by
  obtain ⟨hbefore, after, rfl⟩ := h
  obtain ⟨hlive, hfault⟩ := live_append_of_not_ret hbefore (.fault c loc :: after)
  exact ⟨hlive.trans (List.append_nil before), hfault⟩

/-- A fault is not the instruction at the end, so it stands before it. -/
theorem BeginsWith.of_concat {entries : List Entry} {before : List Instr} {c : Char}
    {loc : Location} {i : Instr} (h : BeginsWith (entries ++ [.instr i]) before (.fault c loc)) :
    BeginsWith entries before (.fault c loc) := by
  obtain ⟨hbefore, after, heq⟩ := h
  rcases List.eq_nil_or_concat after with rfl | ⟨rest, entry, rfl⟩
  · cases (List.append_inj' heq rfl).2
  · refine ⟨hbefore, rest, ?_⟩
    rw [List.concat_eq_append, ← List.cons_append, ← List.append_assoc] at heq
    exact (List.append_inj' heq rfl).1

/-! ### What is written -/

/-- The first lines of a function: its header, the label and the slots of its parameters. -/
def openingLines (f : Function) : List String :=
  headerText f :: "entry:" :: (prologue f.params).map bodyLine

theorem emitFunction_of_ret {f : Function} {before : List Instr} {value : Operand}
    (h : BeginsWith (listFunction f) before (.instr (.ret value))) (s : Emitter) :
    (emitFunction f s).1 =
      .ok (textOf (openingLines f ++ (before ++ [Instr.ret value]).map bodyLine ++ ["\x7d"])) := by
  obtain ⟨hlive, hfault⟩ := h.live_ret
  rw [emitFunction_result, hfault, functionLines, hlive]
  simp [openingLines]

theorem emitFunction_of_fault {f : Function} {before : List Instr} {c : Char} {loc : Location}
    (h : BeginsWith (listFunction f) before (.fault c loc)) (s : Emitter) :
    (emitFunction f s).1 = .error ⟨c, loc, f.name⟩ ∧
      (emitFunction f s).2.output = textOf (openingLines f ++ before.map bodyLine) := by
  -- the `ret` at the end is never reached, so all of it happens in the body
  obtain ⟨hlive, hfault⟩ := BeginsWith.live_fault (.of_concat h)
  have hemit : emitFunction f s =
      (.error ⟨c, loc, f.name⟩, before.foldl Emitter.take (s.openFunction f)) := by
    rw [emitFunction, Emit.andThen, emitBlock_openFunction, hfault, hlive]
    rfl
  rw [hemit, Emitter.foldl_take_output, Emitter.openFunction_eq, ← textOf_append]
  exact ⟨rfl, rfl⟩

/-- **The code is the listing, cut off at its first stop.**  Whatever was emitted before and whatever the
function is, one of two things happens.  If the listing comes to a `ret` before any fault, the text is
the opening lines, the listing up to and with that `ret`, and the closing brace.  Otherwise
it comes to a fault before any `ret`; then the emission fails with an error that names the operator,
its location and the function, and has written the opening lines and what stands before the fault. -/
theorem emitFunction_eq_cut (f : Function) (s : Emitter) :
    (∃ before value, BeginsWith (listFunction f) before (.instr (.ret value)) ∧
      (emitFunction f s).1 =
        .ok (textOf (openingLines f ++ (before ++ [Instr.ret value]).map bodyLine ++ ["\x7d"]))) ∨
    ∃ before c loc, BeginsWith (listFunction f) before (.fault c loc) ∧
      (emitFunction f s).1 = .error ⟨c, loc, f.name⟩ ∧
      (emitFunction f s).2.output = textOf (openingLines f ++ before.map bodyLine) := by
  have hmem : .instr (.ret .zero) ∈ listFunction f := by simp [listFunction]
  rcases exists_beginsWith hmem rfl with ⟨before, value, h⟩ | ⟨before, c, loc, h⟩
  · exact Or.inl ⟨before, value, h, emitFunction_of_ret h s⟩
  · exact Or.inr ⟨before, c, loc, h, emitFunction_of_fault h s⟩

end IR

end TallyLang
