/-
Code computes what its function computes.

The argument is a simulation between evaluating a tree and running its listing.
While the body runs, the slots hold the values of the parameters, and code for
temporaries from `n` on leaves the temporaries below `n` as they were; so the left
operand of an operator is still there when the right one has been computed.  If an
expression has a value, its code runs to its end and the value is in the most
recent temporary.  If it returns, its code ends the whole run, and what follows in
the listing does not matter.  `Simulates` says this of one listing, and
`Simulates.andThen` is the one place where two listings are put together.

Since a run stops at its first `ret`, running the whole listing and running its
live part are the same, and the flag of the emitter need not be thought of again.
-/
import TallyLang.Proofs.IR.Code
import TallyLang.Proofs.IR.Machine

namespace TallyLang

namespace IR

universe u v

variable {V : Type u} {F : Type v}

/-! ### Registers -/

namespace Machine

theorem assign_self (m : Machine V F) (name : String) (c : Content V F) :
    (m.assign name c).registers name = some c := if_pos rfl

theorem assign_of_ne (m : Machine V F) {name name' : String} (c : Content V F)
    (h : name' ≠ name) : (m.assign name c).registers name' = m.registers name' := if_neg h

/-- The slots hold the values of the variables. -/
def Holds (m : Machine V F) (env : String → Option V) : Prop :=
  ∀ x v, env x = some v → m.load? (Instr.slotName x) = some v

/-- Writing to a temporary leaves the slots alone. -/
theorem Holds.assign {m : Machine V F} {env : String → Option V} (h : m.Holds env) (n : Nat)
    (c : Content V F) : (m.assign (Operand.temp n).text c).Holds env := by
  intro x v hx
  have hne := ne_temp_of_point (point_mem_slotName x) n
  rw [← h x v hx, load?, load?, address?, address?, assign_of_ne m c hne]
  rfl

/-- The temporaries below `n` are the same in both machines. -/
def Keeps (n : Nat) (m m' : Machine V F) : Prop :=
  ∀ j, j < n → m'.registers (Operand.temp j).text = m.registers (Operand.temp j).text

theorem Keeps.refl (n : Nat) (m : Machine V F) : Keeps n m m := fun _ _ => rfl

theorem Keeps.trans {n n' : Nat} {m m' m'' : Machine V F} (h : Keeps n m m')
    (h' : Keeps n' m' m'') (hle : n ≤ n') : Keeps n m m'' :=
  fun j hj => (h' j (Nat.lt_of_lt_of_le hj hle)).trans (h j hj)

theorem keeps_assign {n k : Nat} (hle : n ≤ k) (m : Machine V F) (c : Content V F) :
    Keeps n m (m.assign (Operand.temp k).text c) :=
  fun j hj => assign_of_ne m c (temp_ne_temp (by omega))

end Machine

/-! ### Single instructions -/

theorem run_instr {I : Interpretation V F} {i : Instr} {m m' : Machine V F} (htidy : i.Tidy)
    (h : exec I i.words m = some (.next m')) (rest : List String) :
    run I (bodyLine i :: rest) m = run I rest m' := by
  rw [run, bodyLine, Instr.words_line htidy, h]

theorem run_ret (I : Interpretation V F) (a : Operand) (rest : List String) (m : Machine V F) :
    run I (bodyLine (.ret a) :: rest) m = m.number? I a.text := by
  have htidy : (Instr.ret a).Tidy := trivial
  rw [run, bodyLine, Instr.words_line htidy, exec_ret]
  cases m.number? I a.text <;> rfl

/-! ### The simulation -/

/-- The instructions of a listing. -/
def instrsOf : List Entry → List Instr
  | [] => []
  | .instr i :: rest => i :: instrsOf rest
  | .fault _ _ :: rest => instrsOf rest

/-- The lines of a whole listing, whether live or not. -/
def Listing.lines (l : Listing) : List String := (instrsOf l.entries).map bodyLine

theorem instrsOf_append (xs ys : List Entry) :
    instrsOf (xs ++ ys) = instrsOf xs ++ instrsOf ys := by
  induction xs with
  | nil => rfl
  | cons entry rest ih =>
      cases entry with
      | instr i => rw [List.cons_append, instrsOf, ih, instrsOf, List.cons_append]
      | fault c loc => rw [List.cons_append, instrsOf, ih, instrsOf]

theorem Listing.lines_andThen (l : Listing) (next : Operand → Nat → Listing) :
    (l.andThen next).lines = l.lines ++ (next l.value l.temps).lines := by
  rw [lines, andThen, instrsOf_append, List.map_append]
  rfl

/-- Running a listing from the machine `m`, when `n` temporaries have been taken, comes to the
given ending: with a value, the run goes on from a machine that has it in the most recent
temporary, and with a return, the run is over. -/
def Simulates (I : Interpretation V F) (env : String → Option V) (m : Machine V F) (n : Nat)
    (l : Listing) : Option (Ending V) → Prop
  | some (.value v) => ∃ m' j, (∀ rest, run I (l.lines ++ rest) m = run I rest m') ∧
      m'.Holds env ∧ Machine.Keeps n m m' ∧ n ≤ l.temps ∧ l.temps = j + 1 ∧ l.value = .temp j ∧
      m'.registers (Operand.temp j).text = some (.number v)
  | some (.returned v) => ∀ rest, run I (l.lines ++ rest) m = some v
  | none => False

variable {I : Interpretation V F} {env : String → Option V}

/-- One listing after another, where the second is simulated from every machine that the first
can lead to. -/
theorem Simulates.andThen {m : Machine V F} {n : Nat} {l : Listing} {o : Option (Ending V)}
    {next : Operand → Nat → Listing} {k : V → Option (Ending V)} (h : Simulates I env m n l o)
    (hnext : ∀ v m' j, m'.Holds env → Machine.Keeps n m m' → n ≤ l.temps → l.temps = j + 1 →
      l.value = .temp j → m'.registers (Operand.temp j).text = some (.number v) →
      Simulates I env m' l.temps (next l.value l.temps) (k v)) :
    Simulates I env m n (l.andThen next) (Ending.andThen o k) := by
  have hlines : ∀ rest, (l.andThen next).lines ++ rest =
      l.lines ++ ((next l.value l.temps).lines ++ rest) := by
    intro rest
    rw [Listing.lines_andThen, List.append_assoc]
  match o with
  | none => exact h
  | some (.returned v) =>
      intro rest
      rw [hlines]
      exact h _
  | some (.value v) =>
      obtain ⟨m', j, hrun, hholds, hkeeps, hle, htemps, hvalue, hreg⟩ := h
      have hsim := hnext v m' j hholds hkeeps hle htemps hvalue hreg
      show Simulates I env m n (l.andThen next) (k v)
      match k v, hsim with
      | none, hsim => exact hsim
      | some (.returned w), hsim =>
          intro rest
          rw [hlines, hrun]
          exact hsim rest
      | some (.value w), hsim =>
          obtain ⟨m'', j', hrun', hholds', hkeeps', hle', hrest⟩ := hsim
          refine ⟨m'', j', ?_, hholds', hkeeps.trans hkeeps' hle, Nat.le_trans hle hle', hrest⟩
          intro rest
          rw [hlines, hrun, hrun']

/-- An instruction that puts a number in the next temporary. -/
theorem simulates_define {m : Machine V F} {n : Nat} {instr : Nat → Instr} {v : V}
    (hm : m.Holds env) (htidy : (instr n).Tidy)
    (h : exec I (instr n).words m = some (.next (m.assign (Operand.temp n).text (.number v)))) :
    Simulates I env m n (.define instr n) (some (.value v)) := by
  refine ⟨m.assign (Operand.temp n).text (.number v), n, ?_, hm.assign n _,
    Machine.keeps_assign (Nat.le_refl n) m _, Nat.le_succ n, rfl, rfl, m.assign_self _ _⟩
  exact fun rest => run_instr htidy h rest

/-- A comparison gives a flag, and it is made a number at once. -/
theorem simulates_less {m : Machine V F} {n : Nat} {left right : Operand} {x y : V}
    (hm : m.Holds env) (hx : m.number? I left.text = some x) (hy : m.number? I right.text = some y)
    (loc : Location) :
    Simulates I env m n (listOperator .less loc left right n)
      (some (.value (I.uitofp (I.olt x y)))) := by
  let flagged := m.assign (Operand.temp n).text (.flag (I.olt x y))
  have hflag : flagged.flag? (Operand.temp n).text = some (I.olt x y) := by
    rw [Machine.flag?, Machine.assign_self]
  refine ⟨flagged.assign (Operand.temp (n + 1)).text (.number (I.uitofp (I.olt x y))), n + 1, ?_,
    (hm.assign n _).assign (n + 1) _, ?_, Nat.le_add_right n 2, rfl, rfl,
    flagged.assign_self _ _⟩
  · intro rest
    show run I (bodyLine (.less n left right) :: bodyLine (.widen (n + 1) (.temp n)) :: rest) m = _
    rw [run_instr (by trivial) (exec_less n hx hy), run_instr (by trivial) (exec_widen (n + 1) hflag)]
  · exact (Machine.keeps_assign (Nat.le_refl n) m _).trans
      (Machine.keeps_assign (Nat.le_succ n) flagged _) (Nat.le_refl n)

/-- An operator on two temporaries. -/
theorem simulates_listOperator {m : Machine V F} {n : Nat} {left right : Operand} {x y : V}
    {op : Operator} (hop : op.isSupported = true) (hm : m.Holds env)
    (hx : m.number? I left.text = some x) (hy : m.number? I right.text = some y)
    (loc : Location) :
    Simulates I env m n (listOperator op loc left right n)
      ((I.operator? op).map fun f => .value (f x y)) := by
  cases op with
  | less => exact simulates_less hm hx hy loc
  | unsupported c => cases hop
  | add => exact simulates_define hm trivial (exec_arith n .fadd hx hy)
  | sub => exact simulates_define hm trivial (exec_arith n .fsub hx hy)
  | mul => exact simulates_define hm trivial (exec_arith n .fmul hx hy)
  | div => exact simulates_define hm trivial (exec_arith n .fdiv hx hy)

/-- What an expression asks for: its variables are names that have a value, and its operators have
an instruction. -/
structure Ready (env : String → Option V) (names : List String) (operators : List Operator) :
    Prop where
  named : ∀ x ∈ names, isIdentifier x = true
  bound : ∀ x ∈ names, ∃ v, env x = some v
  supported : ∀ op ∈ operators, op.isSupported = true

theorem Ready.mono {xs ys : List String} {os ps : List Operator} (h : Ready env ys ps)
    (hxs : ∀ x ∈ xs, x ∈ ys) (hos : ∀ op ∈ os, op ∈ ps) : Ready env xs os :=
  ⟨fun x hx => h.named x (hxs x hx), fun x hx => h.bound x (hxs x hx),
    fun op hop => h.supported op (hos op hop)⟩

mutual

/-- Running the listing of an expression is evaluating the expression. -/
theorem simulates_listExpr : ∀ (e : Expr) {m : Machine V F} (n : Nat),
    Ready env e.reads e.operators → m.Holds env →
    Simulates I env m n (listExpr e n) (e.eval I env)
  | .num x, m, n, _, hm => simulates_define hm trivial (exec_const I m n x)
  | .var name, m, n, h, hm => by
      have hname := List.mem_singleton.mpr (rfl : name = name)
      obtain ⟨v, hv⟩ := h.bound name hname
      rw [listExpr, Expr.eval, hv]
      exact simulates_define hm (h.named name hname) (exec_load n (hm name v hv))
  | .bin op left right loc, m, n, h, hm => by
      rw [Expr.reads, Expr.operators] at h
      rw [listExpr, Expr.eval]
      refine (simulates_listExpr left n (h.mono (by simp +contextual) (by simp +contextual))
        hm).andThen ?_
      intro a m₁ i hm₁ _ _ htemps₁ hvalue₁ hreg₁
      refine (simulates_listExpr right _ (h.mono (by simp +contextual) (by simp +contextual))
        hm₁).andThen ?_
      intro b m₂ j hm₂ hkeeps _ _ hvalue₂ hreg₂
      -- the code of the right operand has left the temporary of the left one alone
      have hleft : m₂.registers (Operand.temp i).text = some (.number a) :=
        (hkeeps i (by omega)).trans hreg₁
      rw [hvalue₁, hvalue₂]
      exact simulates_listOperator (h.supported op (by simp)) hm₂ (Machine.number?_temp hleft)
        (Machine.number?_temp hreg₂) loc
  | .ret value _, m, n, h, hm => by
      rw [Expr.reads, Expr.operators] at h
      rw [listExpr, Expr.eval]
      refine (simulates_listExpr value n h hm).andThen ?_
      intro a m' j _ _ _ _ hvalue hreg rest
      rw [hvalue]
      exact (run_ret I (.temp j) rest m').trans (Machine.number?_temp hreg)
  | .block stmts _, m, n, h, hm => by
      rw [Expr.reads, Expr.operators] at h
      rw [listExpr, Expr.eval]
      exact simulates_listBlock stmts n h hm

/-- Running the listing of a block is evaluating the block. -/
theorem simulates_listBlock : ∀ (stmts : List Expr) {m : Machine V F} (n : Nat),
    Ready env (Expr.readsOf stmts) (Expr.operatorsOf stmts) → m.Holds env →
    Simulates I env m n (listBlock stmts n) (Expr.evalBlock I env stmts)
  | [], m, n, _, _ => by
      rw [listBlock, Expr.evalBlock]
      intro rest
      exact run_ret I .zero rest m
  | stmt :: rest, m, n, h, hm => by
      rw [Expr.readsOf, Expr.operatorsOf] at h
      rw [listBlock, Expr.evalBlock]
      refine (simulates_listExpr stmt n (h.mono (by simp +contextual) (by simp +contextual))
        hm).andThen ?_
      intro v m' j hm' _ _ htemps _ hreg
      rw [htemps]
      exact simulates_listStatements rest (h.mono (by simp +contextual) (by simp +contextual)) hm'
        hreg

/-- Running the listing of statements is evaluating them after a statement whose value is in the
most recent temporary. -/
theorem simulates_listStatements : ∀ (stmts : List Expr) {m : Machine V F} {j : Nat} {v : V},
    Ready env (Expr.readsOf stmts) (Expr.operatorsOf stmts) → m.Holds env →
    m.registers (Operand.temp j).text = some (.number v) →
    Simulates I env m (j + 1) (listStatements stmts (j + 1)) (Expr.evalAfter I env v stmts)
  | [], m, j, v, _, hm, hreg =>
      ⟨m, j, fun _ => rfl, hm, .refl _ _, Nat.le_refl _, rfl, rfl, hreg⟩
  | stmt :: rest, m, j, v, h, hm, hreg => by
      rw [Expr.readsOf, Expr.operatorsOf] at h
      rw [listStatements, Expr.evalAfter]
      refine (simulates_listExpr stmt (j + 1) (h.mono (by simp +contextual)
        (by simp +contextual)) hm).andThen ?_
      intro w m' i hm' _ _ htemps _ hreg'
      rw [htemps]
      exact simulates_listStatements rest (h.mono (by simp +contextual) (by simp +contextual)) hm'
        hreg'

end

/-! ### The live part -/

/-- What a line leads to does not depend on how the lines after it are given. -/
theorem run_congr {xs ys : List String} (h : ∀ m : Machine V F, run I xs m = run I ys m)
    (line : String) (m : Machine V F) : run I (line :: xs) m = run I (line :: ys) m := by
  rw [run, run]
  split
  · exact h _
  · rfl
  · rfl

/-- No line after the first `ret` matters, so it is enough to keep the live part. -/
theorem run_live (a : Operand) (rest rest' : List String) (entries : List Entry) :
    firstFault? (entries ++ [.instr (.ret a)]) = none → ∀ m : Machine V F,
    run I ((live (entries ++ [.instr (.ret a)])).map bodyLine ++ rest) m =
      run I ((instrsOf entries).map bodyLine ++ bodyLine (.ret a) :: rest') m := by
  induction entries with
  | nil =>
      intro _ m
      exact (run_ret I a rest m).trans (run_ret I a rest' m).symm
  | cons entry entries ih =>
      intro h m
      rw [List.cons_append] at h ⊢
      cases entry with
      | fault c loc => cases h
      | instr i =>
          rw [instrsOf, List.map_cons, List.cons_append]
          by_cases hret : i.isRet = true
          · obtain ⟨b, rfl⟩ : ∃ b, i = .ret b := by
              cases i with
              | ret b => exact ⟨b, rfl⟩
              | _ => cases hret
            exact (run_ret I b rest m).trans (run_ret I b _ m).symm
          · rw [Bool.not_eq_true] at hret
            rw [firstFault?_cons hret] at h
            rw [live_cons hret, List.map_cons, List.cons_append]
            exact run_congr (ih h) (bodyLine i) m

/-! ### Parameters -/

namespace Machine

/-- Makes a slot with a number in it. -/
def allot (m : Machine V F) (name : String) (v : V) : Machine V F :=
  { m with memory := m.memory ++ [some v] }.assign (Instr.slotName name) (.slot m.memory.length)

theorem load?_allot_self (m : Machine V F) (name : String) (v : V) :
    (m.allot name v).load? (Instr.slotName name) = some v := by
  rw [load?, address?, allot, assign_self]
  simp [assign]

/-- A slot keeps its number when another one is made. -/
theorem load?_allot_of_ne {m : Machine V F} {x name : String} {w : V} (v : V) (hne : x ≠ name)
    (h : m.load? (Instr.slotName x) = some w) :
    (m.allot name v).load? (Instr.slotName x) = some w := by
  have hslot : Instr.slotName x ≠ Instr.slotName name := fun heq => hne (slotName_injective heq)
  rw [load?, Option.bind_eq_some_iff] at h
  obtain ⟨address, haddress, h⟩ := h
  rw [Option.bind_eq_some_iff] at h
  obtain ⟨content, hcontent, hw⟩ := h
  have hlt : address < m.memory.length := (List.getElem?_eq_some_iff.mp hcontent).1
  have haddress' : (m.allot name v).address? (Instr.slotName x) = some address := by
    rw [← haddress, address?, address?, allot, assign_of_ne _ _ hslot]
  have hcontent' : (m.allot name v).memory[address]? = some content :=
    (List.getElem?_append_left hlt).trans hcontent
  rw [load?, haddress', Option.bind_some, hcontent', Option.bind_some, hw]

theorem registers_allot {m : Machine V F} {p : String} (hp : isIdentifier p = true)
    (name : String) (v : V) : (m.allot name v).registers ("%" ++ p) = m.registers ("%" ++ p) :=
  assign_of_ne _ _ (register_ne_slotName hp name)

end Machine

/-- The two lines of a parameter make its slot. -/
theorem run_slot_store {m : Machine V F} {p : String} {v : V} (hp : isIdentifier p = true)
    (h : m.registers ("%" ++ p) = some (.number v)) (rest : List String) :
    run I (bodyLine (.slot p) :: bodyLine (.store p) :: rest) m = run I rest (m.allot p v) := by
  let slotted : Machine V F := { m with memory := m.memory ++ [none] }.assign (Instr.slotName p)
    (.slot m.memory.length)
  have hnumber : slotted.number? I ("%" ++ p) = some v := by
    have hhead : ("%" ++ p).toList.head? = some '%' := by
      rw [String.toList_append]
      rfl
    have hreg : slotted.registers ("%" ++ p) = some (.number v) :=
      (Machine.assign_of_ne _ _ (register_ne_slotName hp p)).trans h
    rw [Machine.number?, if_pos hhead, hreg]
  have hmemory : slotted.memory.set m.memory.length (some v) = m.memory ++ [some v] := by
    simp [slotted, Machine.assign]
  have hstored := exec_store hnumber (Machine.assign_self _ _ _)
  rw [hmemory] at hstored
  rw [run_instr (i := .slot p) hp (exec_slot I m p), run_instr (i := .store p) hp hstored]
  rfl

/-- After the lines of the parameters every one of them is in its slot. -/
theorem run_prologue {params : List String} (hid : ∀ p ∈ params, isIdentifier p = true) :
    ∀ m : Machine V F,
    (∀ p ∈ params, ∃ v, env p = some v ∧ m.registers ("%" ++ p) = some (.number v)) →
    ∃ m' : Machine V F,
      (∀ rest, run I ((prologue params).map bodyLine ++ rest) m = run I rest m') ∧
      ∀ x v, env x = some v → (x ∈ params ∨ m.load? (Instr.slotName x) = some v) →
        m'.load? (Instr.slotName x) = some v := by
  induction params with
  | nil =>
      intro m _
      refine ⟨m, fun _ => rfl, ?_⟩
      rintro x v _ (hx | hx)
      · cases hx
      · exact hx
  | cons p params ih =>
      intro m hregs
      have hp := hid p List.mem_cons_self
      obtain ⟨v, hv, hreg⟩ := hregs p List.mem_cons_self
      obtain ⟨m', hrun, hload⟩ := ih (fun q hq => hid q (List.mem_cons_of_mem p hq)) (m.allot p v)
        (by
          intro q hq
          obtain ⟨w, hw, hwreg⟩ := hregs q (List.mem_cons_of_mem p hq)
          refine ⟨w, hw, ?_⟩
          rw [Machine.registers_allot (hid q (List.mem_cons_of_mem p hq)), hwreg])
      refine ⟨m', ?_, ?_⟩
      · intro rest
        rw [← hrun rest, ← run_slot_store hp hreg]
        rfl
      · intro x w hw hx
        refine hload x w hw ?_
        by_cases hxp : x = p
        · subst hxp
          rw [hv] at hw
          cases hw
          exact Or.inr (m.load?_allot_self x v)
        · rcases hx with hx | hx
          · rcases List.mem_cons.mp hx with rfl | hx
            · exact absurd rfl hxp
            · exact Or.inl hx
          · exact Or.inr (Machine.load?_allot_of_ne v hxp hx)

theorem headerParams?_paramWords (params : List String) :
    headerParams? (paramWords params ++ [")", "\x7b"]) = some (params.map ("%" ++ ·)) := by
  induction params with
  | nil => rfl
  | cons p params ih =>
      cases params with
      | nil => rfl
      | cons q qs =>
          have hopen : headerParams? (paramWords (p :: q :: qs) ++ [")", "\x7b"]) =
              (headerParams? (paramWords (q :: qs) ++ [")", "\x7b"])).map (("%" ++ p) :: ·) := by
            cases qs <;> rfl
          rw [hopen, ih]
          rfl

/-- The first line of a function names its parameters. -/
theorem header?_headerText {f : Function} (h : f.Named) :
    header? f.name (headerText f) = some (f.params.map ("%" ++ ·)) := by
  rw [header?, words_headerText h]
  show (if "@" ++ f.name = "@" ++ f.name then _ else _) = _
  rw [if_pos rfl, headerParams?_paramWords]

/-- The register of a parameter holds its argument. -/
theorem registers_start (params : List String) (p : String) : ∀ args : List V,
    (Machine.start (params.map ("%" ++ ·)) args : Machine V F).registers ("%" ++ p) =
      ((params.zip args).lookup p).map .number := by
  intro args
  show (((params.map ("%" ++ ·)).zip args).lookup ("%" ++ p)).map _ = _
  congr 1
  induction params generalizing args with
  | nil => rfl
  | cons q params ih =>
      cases args with
      | nil => rfl
      | cons v args =>
          have hbeq : ("%" ++ p == "%" ++ q) = (p == q) := by
            rw [Bool.eq_iff_iff, beq_iff_eq, beq_iff_eq, ← String.toList_inj,
              String.toList_append, String.toList_append, List.append_cancel_left_eq,
              String.toList_inj]
          rw [List.map_cons, List.zip_cons_cons, List.zip_cons_cons, List.lookup_cons,
            List.lookup_cons, hbeq, ih]

theorem mem_of_lookup_zip {params : List String} {args : List V} {x : String} {v : V}
    (h : (params.zip args).lookup x = some v) : x ∈ params := by
  obtain ⟨before, after, heq, _⟩ := List.lookup_eq_some_iff.mp h
  have hmem : (x, v) ∈ params.zip args := by simp [heq]
  exact (List.of_mem_zip hmem).1

theorem exists_lookup_zip {params : List String} {args : List V} {p : String} (hp : p ∈ params)
    (hargs : args.length = params.length) : ∃ v, (params.zip args).lookup p = some v := by
  cases hlookup : (params.zip args).lookup p with
  | some v => exact ⟨v, rfl⟩
  | none =>
      rw [← List.map_fst_zip (Nat.le_of_eq hargs.symm)] at hp
      obtain ⟨entry, hentry, rfl⟩ := List.mem_map.mp hp
      have hne := List.lookup_eq_none_iff.mp hlookup entry hentry
      simp at hne

/-! ### Whole functions -/

/-- A function that is called with its arguments has what its body asks for. -/
theorem ready_of_scoped {f : Function} (h : f.Scoped) {args : List V}
    (hargs : args.length = f.params.length) :
    Ready (f.environment args) (Expr.readsOf f.body) (Expr.operatorsOf f.body) := by
  refine ⟨fun x hx => h.params x (h.reads x hx), ?_, h.operators⟩
  intro x hx
  exact exists_lookup_zip (h.reads x hx) hargs

/-- Running the body of a function, once the parameters are in their slots, gives its value. -/
theorem run_body {f : Function} (h : f.Scoped) {args : List V}
    (hargs : args.length = f.params.length) {m : Machine V F}
    (hm : m.Holds (f.environment args)) (rest : List String) :
    ∃ v, run I ((live (listFunction f)).map bodyLine ++ rest) m = some v ∧
      f.eval I args = some v := by
  have hfault : firstFault? (listFunction f) = none := firstFault?_of_supported h.operators
  have hsim := simulates_listBlock (I := I) f.body 0 (ready_of_scoped h hargs) hm
  rw [listFunction, run_live .zero rest [] _ hfault m, Function.eval]
  cases hend : Expr.evalBlock I (f.environment args) f.body with
  | none =>
      rw [hend] at hsim
      exact hsim.elim
  | some ending =>
      rw [hend] at hsim
      cases ending with
      | returned v => exact ⟨v, hsim _, rfl⟩
      | value v =>
          obtain ⟨m', j, hrun, _⟩ := hsim
          refine ⟨I.zero, ?_, rfl⟩
          exact (hrun _).trans (run_ret I .zero [] m')

/-- Emitting a function preserves its meaning: from any state of the emitter there is a text, and
calling the function in it returns what the function evaluates to. -/
theorem call_emitFunction {f : Function} (h : f.Scoped) (s : Emitter) (I : Interpretation V F)
    {args : List V} (hargs : args.length = f.params.length) :
    ∃ text, (emitFunction f s).1 = .ok text ∧
      ∃ v, call I text f.name args = some v ∧ f.eval I args = some v := by
  have hresult := emitFunction_result f s
  rw [firstFault?_of_supported h.operators] at hresult
  refine ⟨textOf (functionLines f), hresult, ?_⟩
  let start : Machine V F := .start (f.params.map ("%" ++ ·)) args
  have hregs : ∀ p ∈ f.params, ∃ v, f.environment args p = some v ∧
      start.registers ("%" ++ p) = some (.number v) := by
    intro p hp
    obtain ⟨v, hv⟩ := exists_lookup_zip hp hargs
    exact ⟨v, hv, by rw [registers_start, hv]; rfl⟩
  obtain ⟨m, hprologue, hload⟩ := run_prologue (I := I) h.params start hregs
  have hholds : m.Holds (f.environment args) := by
    intro x v hx
    exact hload x v hx (Or.inl (mem_of_lookup_zip hx))
  obtain ⟨v, hrun, heval⟩ := run_body (I := I) h hargs hholds ["\x7d", ""]
  refine ⟨v, ?_, heval⟩
  have hlength : (f.params.map ("%" ++ ·)).length = args.length := by
    rw [List.length_map, hargs]
  rw [call, linesOf_functionLines h.named]
  show (header? f.name (headerText f)).bind _ = _
  rw [header?_headerText h.named, Option.bind_some, if_pos hlength, hprologue, hrun]

/-- A return deep inside an operand, in a function with a parameter that is written over by the
temporary of the same name. -/
theorem call_emitFunction_shadowed :
    let f : Function := ⟨"f", ["t0", "b"], [.bin .sub (.var "t0") (.block [.var "b",
      .bin .mul (.var "b") (.ret (.bin .sub (.var "t0") (.var "b") .start) .start) .start] .start)
      .start], .start, .start⟩
    let I : Interpretation Int Bool := ⟨fun _ => 0, (· + ·), (· - ·), (· * ·), (· / ·),
      fun a b => a < b, fun b => if b then 1 else 0⟩
    f.Scoped ∧ ∃ text, (emitFunction f .empty).1 = .ok text ∧ call I text "f" [7, 5] = some 2 := by
  intro f I
  have hscoped : f.Scoped := ⟨by decide, by decide, by decide, by decide, by decide⟩
  have hargs : [(7 : Int), 5].length = f.params.length := rfl
  obtain ⟨text, htext, v, hcall, heval⟩ := call_emitFunction hscoped .empty I hargs
  have hvalue : f.eval I [7, 5] = some 2 := rfl
  rw [hvalue] at heval
  rw [← heval] at hcall
  exact ⟨hscoped, text, htext, hcall⟩

end IR

end TallyLang
