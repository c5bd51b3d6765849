/-
Running code from its text.

The machine has registers and a memory.  A register holds a number, the flag that a
comparison gives, or the address of a slot, and writing to it again replaces what
it held.  A slot is a place in the memory, made by `alloca`, empty until something
is stored in it.  A line is taken apart into its words and carried out if they are
those of an instruction; anything else stops the machine without a result.  A `ret`
ends the run with its value.  What the instructions compute is up to an
`Interpretation`.
-/
import TallyLang.Proofs.Evaluation
import TallyLang.Proofs.IR.Words

namespace TallyLang

namespace IR

universe u v

/-- What a register holds. -/
inductive Content (V : Type u) (F : Type v) where
  | number (v : V)
  | flag (b : F)
  | slot (address : Nat)

/-- The registers by name, and the memory by address. -/
structure Machine (V : Type u) (F : Type v) where
  registers : String → Option (Content V F)
  memory : List (Option V)

/-- What a line comes to: the machine goes on, or the function returns. -/
inductive Progress (V : Type u) (F : Type v) where
  | next (m : Machine V F)
  | halt (v : V)

variable {V : Type u} {F : Type v}

namespace Machine

/-- Writes to a register. -/
def assign (m : Machine V F) (name : String) (content : Content V F) : Machine V F :=
  { m with registers := fun r => if r = name then some content else m.registers r }

/-- The number that an operand stands for: what a register holds, or a constant. -/
def number? (I : Interpretation V F) (m : Machine V F) (operand : String) : Option V :=
  if operand.toList.head? = some '%' then
    match m.registers operand with
    | some (.number v) => some v
    | _ => none
  else some (I.constant operand)

/-- The flag that a register holds. -/
def flag? (m : Machine V F) (name : String) : Option F :=
  match m.registers name with
  | some (.flag b) => some b
  | _ => none

/-- The address that a register holds. -/
def address? (m : Machine V F) (name : String) : Option Nat :=
  match m.registers name with
  | some (.slot address) => some address
  | _ => none

/-- The number in the slot that a register points to. -/
def load? (m : Machine V F) (name : String) : Option V :=
  (m.address? name).bind fun address => (m.memory[address]?).bind id

/-- Stores a number in the slot that a register points to. -/
def store? (m : Machine V F) (name : String) (v : V) : Option (Machine V F) :=
  (m.address? name).map fun address => { m with memory := m.memory.set address (some v) }

end Machine

/-- The operation that a mnemonic names. -/
def operation? (I : Interpretation V F) (mnemonic : String) : Option (V → V → V) :=
  match mnemonic with
  | "fadd" => some I.fadd
  | "fsub" => some I.fsub
  | "fmul" => some I.fmul
  | "fdiv" => some I.fdiv
  | _ => none

/-- Carries out what stands to the right of an equals sign: the new content of the register, and
the machine that it is written to. -/
def compute (I : Interpretation V F) (rhs : List String) (m : Machine V F) :
    Option (Content V F × Machine V F) :=
  match rhs with
  | ["alloca", "double"] => some (.slot m.memory.length, { m with memory := m.memory ++ [none] })
  | ["load", "double", ",", "double*", p] => (m.load? p).map fun v => (.number v, m)
  | ["fcmp", "olt", "double", a, ",", b] =>
    (m.number? I a).bind fun x => (m.number? I b).map fun y => (.flag (I.olt x y), m)
  | ["uitofp", "i1", a, "to", "double"] => (m.flag? a).map fun b => (.number (I.uitofp b), m)
  | [mnemonic, "double", a, ",", b] =>
    (operation? I mnemonic).bind fun op =>
    (m.number? I a).bind fun x => (m.number? I b).map fun y => (.number (op x y), m)
  | _ => none

/-- Carries out a line, given by its words. -/
def exec (I : Interpretation V F) (line : List String) (m : Machine V F) :
    Option (Progress V F) :=
  match line with
  | dest :: "=" :: rhs => (compute I rhs m).map fun r => .next (r.2.assign dest r.1)
  | ["store", "double", a, ",", "double*", p] =>
    (m.number? I a).bind fun v => (m.store? p v).map .next
  | ["ret", "double", a] => (m.number? I a).map .halt
  | _ => none

/-- Carries out lines one after the other until a `ret`. -/
def run (I : Interpretation V F) : List String → Machine V F → Option V
  | [], _ => none
  | line :: lines, m =>
    match exec I (words line) m with
    | some (.next m') => run I lines m'
    | some (.halt v) => some v
    | none => none

/-- The parameters in the words after an opening parenthesis. -/
def headerParams? : List String → Option (List String)
  | [")", "\x7b"] => some []
  | ["double", p, ")", "\x7b"] => some [p]
  | "double" :: p :: "," :: rest => (headerParams? rest).map (p :: ·)
  | _ => none

/-- The registers of the parameters in the first line of the function `name`. -/
def header? (name line : String) : Option (List String) :=
  match words line with
  | "define" :: "double" :: global :: "(" :: rest =>
    if global = "@" ++ name then headerParams? rest else none
  | _ => none

/-- A machine whose parameters hold the arguments, and whose memory is empty. -/
def Machine.start (registers : List String) (args : List V) : Machine V F :=
  ⟨fun r => ((registers.zip args).lookup r).map .number, []⟩

/-- Calls the function `name` of a text with one argument for each parameter. -/
def call (I : Interpretation V F) (text name : String) (args : List V) : Option V :=
  match linesOf text with
  | first :: "entry:" :: lines =>
    (header? name first).bind fun registers =>
      if registers.length = args.length then run I lines (.start registers args) else none
  | _ => none

/-! ### What each instruction does -/

namespace Machine

/-- A temporary that holds a number stands for it. -/
theorem number?_temp {I : Interpretation V F} {m : Machine V F} {n : Nat} {v : V}
    (h : m.registers (Operand.temp n).text = some (.number v)) :
    m.number? I (Operand.temp n).text = some v := by
  have hhead : (Operand.temp n).text.toList.head? = some '%' := by
    rw [Operand.text, String.toList_append]
    rfl
  rw [number?, if_pos hhead, h]

theorem number?_constant {I : Interpretation V F} {m : Machine V F} {text : String}
    (h : IsConstant text) : m.number? I text = some (I.constant text) := by
  have hhead : text.toList.head? ≠ some '%' := by
    intro hpercent
    have hmem := List.mem_of_head? hpercent
    exact absurd (h.isConstantChar_of_mem '%' hmem) (by decide)
  rw [number?, if_neg hhead]

end Machine

theorem exec_const (I : Interpretation V F) (m : Machine V F) (n : Nat) (x : Binary64) :
    exec I (Instr.const n x).words m =
      some (.next (m.assign (Operand.temp n).text (.number (I.literal x)))) := by
  have hx : m.number? I x.constantText = some (I.constant x.constantText) :=
    Machine.number?_constant x.isConstant_constantText
  show ((m.number? I "0.0").bind fun a =>
    (m.number? I x.constantText).map fun b => (Content.number (I.fadd a b), m)).map _ = _
  rw [hx]
  rfl

theorem exec_load {I : Interpretation V F} {m : Machine V F} {name : String} {v : V} (n : Nat)
    (h : m.load? (Instr.slotName name) = some v) :
    exec I (Instr.load n name).words m =
      some (.next (m.assign (Operand.temp n).text (.number v))) := by
  show ((m.load? (Instr.slotName name)).map fun v => (Content.number v, m)).map _ = _
  rw [h]
  rfl

/-- The operation of an arithmetic instruction. -/
def arithmetic (I : Interpretation V F) : Arith → V → V → V
  | .fadd => I.fadd
  | .fsub => I.fsub
  | .fmul => I.fmul
  | .fdiv => I.fdiv

theorem exec_arith {I : Interpretation V F} {m : Machine V F} {a b : Operand} {x y : V} (n : Nat)
    (op : Arith) (ha : m.number? I a.text = some x) (hb : m.number? I b.text = some y) :
    exec I (Instr.arith n op a b).words m =
      some (.next (m.assign (Operand.temp n).text (.number (arithmetic I op x y)))) := by
  have hop : operation? I op.text = some (arithmetic I op) := by cases op <;> rfl
  have hrhs : compute I [op.text, "double", a.text, ",", b.text] m =
      some (.number (arithmetic I op x y), m) := by
    have hopen : compute I [op.text, "double", a.text, ",", b.text] m =
        (operation? I op.text).bind fun f => (m.number? I a.text).bind fun x =>
          (m.number? I b.text).map fun y => (.number (f x y), m) := by
      cases op <;> rfl
    rw [hopen, hop, ha, hb]
    rfl
  show (compute I [op.text, "double", a.text, ",", b.text] m).map _ = _
  rw [hrhs]
  rfl

theorem exec_less {I : Interpretation V F} {m : Machine V F} {a b : Operand} {x y : V} (n : Nat)
    (ha : m.number? I a.text = some x) (hb : m.number? I b.text = some y) :
    exec I (Instr.less n a b).words m =
      some (.next (m.assign (Operand.temp n).text (.flag (I.olt x y)))) := by
  show ((m.number? I a.text).bind fun x =>
    (m.number? I b.text).map fun y => (Content.flag (I.olt x y), m)).map _ = _
  rw [ha, hb]
  rfl

theorem exec_widen {I : Interpretation V F} {m : Machine V F} {a : Operand} {flag : F} (n : Nat)
    (h : m.flag? a.text = some flag) :
    exec I (Instr.widen n a).words m =
      some (.next (m.assign (Operand.temp n).text (.number (I.uitofp flag)))) := by
  show ((m.flag? a.text).map fun b => (Content.number (I.uitofp b), m)).map _ = _
  rw [h]
  rfl

theorem exec_ret (I : Interpretation V F) (m : Machine V F) (a : Operand) :
    exec I (Instr.ret a).words m = (m.number? I a.text).map .halt := rfl

theorem exec_slot (I : Interpretation V F) (m : Machine V F) (name : String) :
    exec I (Instr.slot name).words m =
      some (.next ({ m with memory := m.memory ++ [none] }.assign (Instr.slotName name)
        (.slot m.memory.length))) := rfl

theorem exec_store {I : Interpretation V F} {m : Machine V F} {name : String} {v : V} {address : Nat}
    (hv : m.number? I ("%" ++ name) = some v)
    (ha : m.registers (Instr.slotName name) = some (.slot address)) :
    exec I (Instr.store name).words m =
      some (.next { m with memory := m.memory.set address (some v) }) := by
  show ((m.number? I ("%" ++ name)).bind fun v => (m.store? (Instr.slotName name) v).map _) = _
  rw [hv, Option.bind_some, Machine.store?, Machine.address?, ha]
  rfl

end IR

end TallyLang
