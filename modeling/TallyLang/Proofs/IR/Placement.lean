/-
Code does not depend on where its function stands.

The locations in a tree come into play at one point only, where an operator has no
instruction and the error says where it stands.  So two functions that are equal up to
locations have the same code, or neither has any, and then the two errors are about the
same node of the two trees.

A node is named by the path that leads to it.  Listings are compared entry by entry:
instructions are equal, and two faults belong together if some path leads to both.
That relation is kept when a tree is put into a larger one, because the path
only gets longer at its front.
-/
import Mathlib.Data.List.Forall2
import TallyLang.Proofs.IR.Code
import TallyLang.Proofs.Locations

namespace TallyLang

/-! ### Nodes -/

namespace Expr

/-- The trees right below the root. -/
def children : Expr → List Expr
  | .num _ => []
  | .var _ => []
  | .bin _ left right _ => [left, right]
  | .ret value _ => [value]
  | .block stmts _ => stmts

/-- The node that a path leads to, which tells for every step the number of the child. -/
def node? (e : Expr) : List Nat → Option Expr
  | [] => some e
  | i :: path => e.children[i]?.bind fun child => child.node? path

/-- Some path leads to the operator `c` without an instruction in both trees, at `loc` in the one
and at `loc'` in the other. -/
def SharesFault (e e' : Expr) (c : Char) (loc loc' : Location) : Prop :=
  ∃ path left right left' right',
    e.node? path = some (.bin (.unsupported c) left right loc) ∧
      e'.node? path = some (.bin (.unsupported c) left' right' loc')

/-- What two children with the same number share, their parents share. -/
theorem SharesFault.of_child {e e' child child' : Expr} {i : Nat} {c : Char} {loc loc' : Location}
    (h : child.SharesFault child' c loc loc') (hchild : e.children[i]? = some child)
    (hchild' : e'.children[i]? = some child') : e.SharesFault e' c loc loc' := by
  obtain ⟨path, left, right, left', right', hnode, hnode'⟩ := h
  refine ⟨i :: path, left, right, left', right', ?_, ?_⟩
  · rw [node?, hchild]
    exact hnode
  · rw [node?, hchild']
    exact hnode'

end Expr

/-- The node of the body that a path leads to; the first step is the number of the statement. -/
def Function.node? (f : Function) (path : List Nat) : Option Expr :=
  (Expr.block f.body f.bodyLoc).node? path

namespace IR

/-! ### Listings entry by entry -/

/-- The same instruction, or faults with the same operator at places that belong together. -/
inductive Entry.Twin (P : Char → Location → Location → Prop) : Entry → Entry → Prop
  | instr (i : Instr) : Twin P (.instr i) (.instr i)
  | fault {c : Char} {loc loc' : Location} (h : P c loc loc') :
      Twin P (.fault c loc) (.fault c loc')

/-- Listings that are twins entry by entry, with the same value and the same temporaries. -/
structure Listing.Twin (P : Char → Location → Location → Prop) (l l' : Listing) : Prop where
  entries : List.Forall₂ (Entry.Twin P) l.entries l'.entries
  value : l.value = l'.value
  temps : l.temps = l'.temps

section Twins

variable {P Q : Char → Location → Location → Prop}

theorem Listing.Twin.mono {l l' : Listing} (h : l.Twin P l')
    (hPQ : ∀ c loc loc', P c loc loc' → Q c loc loc') : l.Twin Q l' := by
  refine ⟨h.entries.imp ?_, h.value, h.temps⟩
  intro entry entry' htwin
  cases htwin with
  | instr i => exact .instr i
  | fault hP => exact .fault (hPQ _ _ _ hP)

theorem Listing.Twin.andThen {l l' : Listing} {next next' : Operand → Nat → Listing}
    (h : l.Twin P l') (hnext : ∀ a n, (next a n).Twin P (next' a n)) :
    (l.andThen next).Twin P (l'.andThen next') := by
  have hrest := hnext l.value l.temps
  unfold Listing.andThen
  rw [← h.value, ← h.temps]
  exact ⟨List.rel_append h.entries hrest.entries, hrest.value, hrest.temps⟩

/-- A listing of instructions is its own twin. -/
theorem twin_instrs (is : List Instr) (value : Operand) (n : Nat) :
    Listing.Twin P ⟨is.map .instr, value, n⟩ ⟨is.map .instr, value, n⟩ := by
  refine ⟨?_, rfl, rfl⟩
  rw [List.forall₂_same]
  intro entry hentry
  obtain ⟨i, _, rfl⟩ := List.mem_map.mp hentry
  exact .instr i

/-- An operator at two places.  Only where it has no instruction do the places matter. -/
theorem twin_listOperator {op : Operator} {loc loc' : Location} (left right : Operand) (n : Nat)
    (hP : ∀ c, op = .unsupported c → P c loc loc') :
    (listOperator op loc left right n).Twin P (listOperator op loc' left right n) := by
  cases op with
  | less => exact twin_instrs [.less n left right, .widen (n + 1) (.temp n)] (.temp (n + 1)) (n + 2)
  | unsupported c => exact ⟨.cons (.fault (hP c rfl)) .nil, rfl, rfl⟩
  | add => exact twin_instrs [.arith n .fadd left right] (.temp n) (n + 1)
  | sub => exact twin_instrs [.arith n .fsub left right] (.temp n) (n + 1)
  | mul => exact twin_instrs [.arith n .fmul left right] (.temp n) (n + 1)
  | div => exact twin_instrs [.arith n .fdiv left right] (.temp n) (n + 1)

end Twins

/-! ### Trees that are equal up to locations -/

/-- Statements with the same number share the fault. -/
def StatementsShare (es es' : List Expr) (c : Char) (loc loc' : Location) : Prop :=
  ∃ (i : Nat) (e e' : Expr), es[i]? = some e ∧ es'[i]? = some e' ∧ e.SharesFault e' c loc loc'

theorem StatementsShare.cons {e e' : Expr} {es es' : List Expr} {c : Char} {loc loc' : Location}
    (h : StatementsShare es es' c loc loc') : StatementsShare (e :: es) (e' :: es') c loc loc' := by
  obtain ⟨i, s, s', hs, hs', hshares⟩ := h
  exact ⟨i + 1, s, s', hs, hs', hshares⟩

theorem StatementsShare.block {es es' : List Expr} {c : Char} {loc loc' : Location}
    (h : StatementsShare es es' c loc loc') (k k' : Location) :
    (Expr.block es k).SharesFault (.block es' k') c loc loc' := by
  obtain ⟨i, s, s', hs, hs', hshares⟩ := h
  exact hshares.of_child hs hs'

/-- A block is its statements, unless there are none. -/
theorem twin_listBlock_of {P : Char → Location → Location → Prop} {es es' : List Expr}
    (h : Expr.unplacedList es = Expr.unplacedList es')
    (hstatements : ∀ n : Nat, (listStatements es n).Twin P (listStatements es' n)) :
    ∀ n : Nat, (listBlock es n).Twin P (listBlock es' n) := by
  intro n
  cases es with
  | nil =>
      cases es' with
      | nil => exact twin_instrs [.ret .zero] (latest n) n
      | cons e' es' => simp [Expr.unplacedList] at h
  | cons e es =>
      cases es' with
      | nil => simp [Expr.unplacedList] at h
      | cons e' es' => exact hstatements n

mutual

theorem twin_listExpr : ∀ (e e' : Expr), e.unplaced = e'.unplaced → ∀ n : Nat,
    (listExpr e n).Twin (e.SharesFault e') (listExpr e' n)
  | .num value, e', h, n => by
      cases e' with
      | num value' =>
          rw [Expr.unplaced, Expr.unplaced, Expr.num.injEq] at h
          rw [h, listExpr]
          exact twin_instrs [.const n value'] (.temp n) (n + 1)
      | _ => simp [Expr.unplaced] at h
  | .var name, e', h, n => by
      cases e' with
      | var name' =>
          rw [Expr.unplaced, Expr.unplaced, Expr.var.injEq] at h
          rw [h, listExpr]
          exact twin_instrs [.load n name'] (.temp n) (n + 1)
      | _ => simp [Expr.unplaced] at h
  | .bin op left right loc, e', h, n => by
      cases e' with
      | bin op' left' right' loc' =>
          simp only [Expr.unplaced, Expr.bin.injEq, and_true] at h
          obtain ⟨rfl, hleft, hright⟩ := h
          rw [listExpr, listExpr]
          refine ((twin_listExpr left left' hleft n).mono ?_).andThen fun a m => ?_
          · intro c k k' hshares
            exact hshares.of_child (i := 0) rfl rfl
          refine ((twin_listExpr right right' hright m).mono ?_).andThen fun b k => ?_
          · intro c k k' hshares
            exact hshares.of_child (i := 1) rfl rfl
          refine twin_listOperator a b k ?_
          rintro c rfl
          exact ⟨[], left, right, left', right', rfl, rfl⟩
      | _ => simp [Expr.unplaced] at h
  | .ret value loc, e', h, n => by
      cases e' with
      | ret value' loc' =>
          simp only [Expr.unplaced, Expr.ret.injEq, and_true] at h
          rw [listExpr, listExpr]
          refine ((twin_listExpr value value' h n).mono ?_).andThen fun a m => ?_
          · intro c k k' hshares
            exact hshares.of_child (i := 0) rfl rfl
          exact twin_instrs [.ret a] a m
      | _ => simp [Expr.unplaced] at h
  | .block stmts loc, e', h, n => by
      cases e' with
      | block stmts' loc' =>
          simp only [Expr.unplaced, Expr.block.injEq, and_true] at h
          rw [listExpr, listExpr]
          refine (twin_listBlock_of h fun m => twin_listStatements stmts stmts' h m) n |>.mono ?_
          intro c k k' hshares
          exact hshares.block loc loc'
      | _ => simp [Expr.unplaced] at h

theorem twin_listStatements : ∀ (es es' : List Expr),
    Expr.unplacedList es = Expr.unplacedList es' →
    ∀ n : Nat, (listStatements es n).Twin (StatementsShare es es') (listStatements es' n)
  | [], es', h, n => by
      cases es' with
      | nil =>
          rw [listStatements]
          exact twin_instrs [] (latest n) n
      | cons e' es' => simp [Expr.unplacedList] at h
  | e :: es, es', h, n => by
      cases es' with
      | nil => simp [Expr.unplacedList] at h
      | cons e' es' =>
          rw [Expr.unplacedList, Expr.unplacedList, List.cons.injEq] at h
          rw [listStatements, listStatements]
          refine ((twin_listExpr e e' h.1 n).mono ?_).andThen fun _ m => ?_
          · intro c k k' hshares
            exact ⟨0, e, e', rfl, rfl, hshares⟩
          exact (twin_listStatements es es' h.2 m).mono fun c k k' hshares => hshares.cons

end

/-! ### Functions that are equal up to locations -/

theorem live_of_twin {P : Char → Location → Location → Prop} {entries entries' : List Entry}
    (h : List.Forall₂ (Entry.Twin P) entries entries') : live entries = live entries' := by
  induction h with
  | nil => rfl
  | @cons entry entry' rest rest' htwin _ ih =>
      cases htwin with
      | fault hP => rfl
      | instr i =>
          by_cases hret : i.isRet = true
          · rw [live_ret hret, live_ret hret]
          · rw [Bool.not_eq_true] at hret
            rw [live_cons hret, live_cons hret, ih]

/-- Twins have no fault, or their first faults belong together. -/
theorem firstFault?_of_twin {P : Char → Location → Location → Prop} {entries entries' : List Entry}
    (h : List.Forall₂ (Entry.Twin P) entries entries') :
    (firstFault? entries = none ∧ firstFault? entries' = none) ∨
      ∃ c loc loc', firstFault? entries = some (c, loc) ∧ firstFault? entries' = some (c, loc') ∧
        P c loc loc' := by
  induction h with
  | nil => exact Or.inl ⟨rfl, rfl⟩
  | @cons entry entry' rest rest' htwin _ ih =>
      cases htwin with
      | @fault c loc loc' hP => exact Or.inr ⟨c, loc, loc', rfl, rfl, hP⟩
      | instr i =>
          by_cases hret : i.isRet = true
          · exact Or.inl ⟨firstFault?_ret hret rest, firstFault?_ret hret rest'⟩
          · rw [Bool.not_eq_true] at hret
            rw [firstFault?_cons hret, firstFault?_cons hret]
            exact ih

theorem header_of_unplaced {f f' : Function} (h : f.unplaced = f'.unplaced) :
    f.name = f'.name ∧ f.params = f'.params := by
  have hname : f.unplaced.name = f'.unplaced.name := by rw [h]
  have hparams : f.unplaced.params = f'.unplaced.params := by rw [h]
  exact ⟨hname, hparams⟩

theorem twin_listFunction {f f' : Function} (h : f.unplaced = f'.unplaced) :
    List.Forall₂ (Entry.Twin (StatementsShare f.body f'.body)) (listFunction f)
      (listFunction f') := by
  have hbody : Expr.unplacedList f.body = Expr.unplacedList f'.body := by
    show f.unplaced.body = f'.unplaced.body
    rw [h]
  have htwin := twin_listBlock_of hbody (twin_listStatements f.body f'.body hbody) 0
  exact List.rel_append htwin.entries (twin_instrs [.ret .zero] .zero 0).entries

theorem functionLines_of_unplaced {f f' : Function} (h : f.unplaced = f'.unplaced) :
    functionLines f = functionLines f' := by
  obtain ⟨hname, hparams⟩ := header_of_unplaced h
  unfold functionLines headerText
  rw [live_of_twin (twin_listFunction h), hname, hparams]

/-- **Code does not depend on locations.**  Two functions that are equal up to locations have the
same code, or both stop at the same node, whatever was emitted before. -/
theorem emitFunction_of_unplaced {f f' : Function} (h : f.unplaced = f'.unplaced)
    (s s' : Emitter) :
    (∃ ir, (emitFunction f s).1 = .ok ir ∧ (emitFunction f' s').1 = .ok ir) ∨
      ∃ c loc loc', (emitFunction f s).1 = .error ⟨c, loc, f.name⟩ ∧
        (emitFunction f' s').1 = .error ⟨c, loc', f.name⟩ ∧
        (Expr.block f.body f.bodyLoc).SharesFault (.block f'.body f'.bodyLoc) c loc loc' := by
  rw [emitFunction_result, emitFunction_result]
  rcases firstFault?_of_twin (twin_listFunction h) with
    ⟨hnone, hnone'⟩ | ⟨c, loc, loc', hsome, hsome', hshares⟩
  · rw [hnone, hnone', functionLines_of_unplaced h]
    exact Or.inl ⟨_, rfl, rfl⟩
  · rw [hsome, hsome', ← (header_of_unplaced h).1]
    exact Or.inr ⟨c, loc, loc', rfl, rfl, hshares.block _ _⟩

end IR

end TallyLang
