/-
The code of a function as one list, with nothing left out.

An emitter keeps a flag that says whether a `ret` has been written, and every step
of an emission asks for it.  The listing of a function is the code that comes out
when nobody asks: the instructions of the tree from left to right, a `ret` for
every `return` and every empty block wherever they stand, and a mark where an
operator has no instruction.  It is defined by plain recursion on the tree, so
that arguments about code can be made there.

What an emission adds to the text is then the part of the listing up to its first
`ret` or mark.  `play` runs a listing on an emitter and stops there, and
`emitExpr_follows` and `emitBlock_follows` say that emitting is playing the listing.
-/
import TallyLang.IR.Emitter

namespace TallyLang

namespace IR

/-! ### Listings -/

/-- An entry of a listing: an instruction, or an operator that has none. -/
inductive Entry where
  | instr (i : Instr)
  | fault (operator : Char) (loc : Location)
deriving DecidableEq, Repr

/-- The most recent temporary when `n` have been taken, or zero if none has. -/
def latest : Nat → Operand
  | 0 => .zero
  | n + 1 => .temp n

/-- The listing of a part of a function: the entries, the value that they compute, and the number
of temporaries taken after them. -/
structure Listing where
  entries : List Entry
  value : Operand
  temps : Nat
deriving DecidableEq, Repr

namespace Listing

/-- A listing followed by one that depends on its value and its number of temporaries. -/
def andThen (l : Listing) (next : Operand → Nat → Listing) : Listing :=
  let l' := next l.value l.temps
  ⟨l.entries ++ l'.entries, l'.value, l'.temps⟩

/-- The listing of one instruction that defines temporary `n`. -/
def define (instr : Nat → Instr) (n : Nat) : Listing := ⟨[.instr (instr n)], .temp n, n + 1⟩

end Listing

/-- The listing of an operator on two values. -/
def listOperator (op : Operator) (loc : Location) (left right : Operand) (n : Nat) : Listing :=
  match op with
  | .add => .define (.arith · .fadd left right) n
  | .sub => .define (.arith · .fsub left right) n
  | .mul => .define (.arith · .fmul left right) n
  | .div => .define (.arith · .fdiv left right) n
  | .less => (Listing.define (.less · left right) n).andThen fun flag => .define (.widen · flag)
  | .unsupported c => ⟨[.fault c loc], left, n⟩

mutual

/-- The listing of an expression when `n` temporaries have been taken. -/
def listExpr : Expr → Nat → Listing
  | .num value, n => .define (.const · value) n
  | .var name, n => .define (.load · name) n
  | .bin op left right loc, n =>
    (listExpr left n).andThen fun a m =>
    (listExpr right m).andThen fun b k => listOperator op loc a b k
  | .ret value _, n => (listExpr value n).andThen fun a m => ⟨[.instr (.ret a)], a, m⟩
  | .block stmts _, n => listBlock stmts n

/-- The listing of a block.  Its value is the most recent temporary. -/
def listBlock : List Expr → Nat → Listing
  | [], n => ⟨[.instr (.ret .zero)], latest n, n⟩
  | stmt :: rest, n => (listExpr stmt n).andThen fun _ m => listStatements rest m

/-- The listing of statements in order. -/
def listStatements : List Expr → Nat → Listing
  | [], n => ⟨[], latest n, n⟩
  | stmt :: rest, n => (listExpr stmt n).andThen fun _ m => listStatements rest m

end

theorem listStatements_value : ∀ (stmts : List Expr) (n : Nat),
    (listStatements stmts n).value = latest (listStatements stmts n).temps
  | [], _ => rfl
  | stmt :: rest, n => by
      rw [listStatements]
      exact listStatements_value rest (listExpr stmt n).temps

/-- The value of a block is its most recent temporary. -/
theorem listBlock_value (stmts : List Expr) (n : Nat) :
    (listBlock stmts n).value = latest (listBlock stmts n).temps := by
  cases stmts with
  | nil => rfl
  | cons stmt rest =>
      rw [listBlock]
      exact listStatements_value rest (listExpr stmt n).temps

/-- The listing of a whole function, which returns zero at its end. -/
def listFunction (f : Function) : List Entry :=
  (listBlock f.body 0).entries ++ [.instr (.ret .zero)]

/-! ### Playing a listing -/

namespace Emitter

/-- Appends an instruction, and takes note of what it defines or ends. -/
def take (s : Emitter) (i : Instr) : Emitter :=
  match i with
  | .slot _ | .store _ => s.write i
  | .ret value => s.finish value
  | _ => { s with temps := s.temps + 1 }.write i

/-- Appends the entries up to the first `ret`, or up to the first operator without an
instruction, which is the error. -/
def play : List Entry → Emitter → Option EmitError × Emitter
  | [], s => (none, s)
  | .instr i :: rest, s => if s.returned then (none, s) else play rest (s.take i)
  | .fault c loc :: _, s => if s.returned then (none, s) else (some ⟨c, loc, s.function⟩, s)

theorem play_of_returned {s : Emitter} (h : s.returned = true) (entries : List Entry) :
    play entries s = (none, s) := by
  cases entries with
  | nil => rfl
  | cons entry rest =>
      cases entry with
      | instr i => rw [play, if_pos h]
      | fault c loc => rw [play, if_pos h]

/-- Playing one list after another stops in the first if there is an error in it. -/
theorem play_append (xs ys : List Entry) :
    ∀ s : Emitter, play (xs ++ ys) s =
      match play xs s with
      | (none, s') => play ys s'
      | (some e, s') => (some e, s') := by
  induction xs with
  | nil => intro s; rfl
  | cons entry rest ih =>
      intro s
      by_cases h : s.returned = true
      · rw [play_of_returned h, play_of_returned h]
        exact (play_of_returned h ys).symm
      · cases entry with
        | instr i =>
            rw [List.cons_append, play, play, if_neg h, if_neg h]
            exact ih (s.take i)
        | fault c loc => rw [List.cons_append, play, play, if_neg h]

end Emitter

/-! ### Emitting is playing -/

namespace Emitter

theorem writeLine_eq (s : Emitter) (line : String) :
    s.writeLine line = { s with output := (s.writeLine line).output } := by
  unfold writeLine
  split <;> rfl

@[simp] theorem write_temps (s : Emitter) (i : Instr) : (s.write i).temps = s.temps := by
  rw [write, writeLine_eq]

@[simp] theorem write_returned (s : Emitter) (i : Instr) :
    (s.write i).returned = s.returned := by
  rw [write, writeLine_eq]

end Emitter

/-- Emitting by `act` from the emitter `s` comes to the same as playing `entries`: it fails where
they hold a fault, and unless they hold a `ret` it gives `value` and leaves `temps` temporaries. -/
def Follows {α : Type} (act : Emit α) (s : Emitter) (entries : List Entry) (temps : Nat)
    (value : α) : Prop :=
  match s.play entries with
  | (some e, s') => act s = (.error e, s')
  | (none, s') =>
    if s'.returned then ∃ a, act s = (.ok a, s') else act s = (.ok value, s') ∧ s'.temps = temps

/-- Emissions that write nothing once a `ret` has been written. -/
def Inert {α : Type} (act : Emit α) : Prop :=
  ∀ s : Emitter, s.returned = true → ∃ a, act s = (.ok a, s)

/-- One emission after another plays one listing after another.  The second must be inert: the
first may have returned, and then the rest of the listing is not played. -/
theorem Follows.andThen {α β : Type} {act : Emit α} {next : α → Emit β} {s : Emitter}
    {entries entries' : List Entry} {temps temps' : Nat} {value : α} {value' : β}
    (h : Follows act s entries temps value) (hinert : ∀ a, Inert (next a))
    (hnext : ∀ s' : Emitter, s'.returned = false → s'.temps = temps →
      Follows (next value) s' entries' temps' value') :
    Follows (act.andThen next) s (entries ++ entries') temps' value' := by
  unfold Follows at h ⊢
  rw [Emitter.play_append]
  rcases hplay : s.play entries with ⟨_ | e, s₁⟩
  · simp only [hplay] at h
    show match s₁.play entries' with
      | (some e, s') => act.andThen next s = (.error e, s')
      | (none, s') =>
        if s'.returned then ∃ a, act.andThen next s = (.ok a, s')
        else act.andThen next s = (.ok value', s') ∧ s'.temps = temps'
    by_cases hret : s₁.returned = true
    · rw [if_pos hret] at h
      obtain ⟨a, hact⟩ := h
      obtain ⟨b, hb⟩ := hinert a s₁ hret
      rw [Emitter.play_of_returned hret]
      simp only [if_pos hret]
      exact ⟨b, by rw [Emit.andThen, hact]; exact hb⟩
    · rw [if_neg hret] at h
      obtain ⟨hact, htemps⟩ := h
      have hboth : act.andThen next s = next value s₁ := by rw [Emit.andThen, hact]
      rw [hboth]
      exact hnext s₁ (by simpa using hret) htemps
  · simp only [hplay] at h
    show act.andThen next s = (.error e, s₁)
    rw [Emit.andThen, h]

/-- An emission that is skipped after a `ret` plays what it plays before one. -/
theorem Follows.unlessReturned {act : Emit Operand} {s : Emitter} {entries : List Entry}
    {temps : Nat} {value : Operand} (hs : s.returned = false)
    (h : Follows act s entries temps value) :
    Follows (unlessReturned act) s entries temps value := by
  have heq : TallyLang.IR.unlessReturned act s = act s := by
    rw [TallyLang.IR.unlessReturned, if_neg (by rw [hs]; exact Bool.noConfusion)]
  unfold Follows at h ⊢
  rw [heq]
  exact h

theorem inert_unlessReturned (act : Emit Operand) : Inert (unlessReturned act) := by
  intro s hs
  exact ⟨s.lastTemp, by rw [unlessReturned, if_pos hs]⟩

theorem inert_andThen {α β : Type} {act : Emit α} {next : α → Emit β} (hact : Inert act)
    (hnext : ∀ a, Inert (next a)) : Inert (act.andThen next) := by
  intro s hs
  obtain ⟨a, ha⟩ := hact s hs
  obtain ⟨b, hb⟩ := hnext a s hs
  exact ⟨b, by rw [Emit.andThen, ha]; exact hb⟩

/-- Every expression is inert, since it asks for the flag first. -/
theorem inert_emitExpr (e : Expr) : Inert (emitExpr e) := by
  cases e <;> exact inert_unlessReturned _

theorem inert_emitStatements : ∀ stmts : List Expr, Inert (emitStatements stmts)
  | [] => fun _ _ => ⟨(), rfl⟩
  | stmt :: rest => by
      rw [emitStatements]
      exact inert_andThen (inert_emitExpr stmt) (fun _ => inert_emitStatements rest)

private theorem follows_of_play {α : Type} {act : Emit α} {s s₁ : Emitter}
    {entries : List Entry} {temps : Nat} {value : α} (hplay : s.play entries = (none, s₁))
    (hact : act s = (.ok value, s₁)) (htemps : s₁.temps = temps) :
    Follows act s entries temps value := by
  unfold Follows
  rw [hplay]
  show if s₁.returned then ∃ a, act s = (.ok a, s₁) else act s = (.ok value, s₁) ∧ s₁.temps = temps
  split
  · exact ⟨value, hact⟩
  · exact ⟨hact, htemps⟩

/-- A definition writes its one instruction and gives the temporary. -/
theorem follows_emitDefinition {instr : Nat → Instr} {s : Emitter} {n : Nat}
    (hs : s.returned = false) (hn : s.temps = n)
    (htake : s.take (instr s.temps) = (s.define instr).2) :
    Follows (emitDefinition instr) s (Listing.define instr n).entries (n + 1) (.temp n) := by
  subst hn
  have hplay : s.play (Listing.define instr s.temps).entries = (none, (s.define instr).2) := by
    simp [Listing.define, Emitter.play, hs, htake]
  exact follows_of_play hplay rfl (Emitter.write_temps _ _)

/-- An operator writes its one or two instructions, or fails if it has none. -/
theorem follows_emitOperator (op : Operator) (loc : Location) (left right : Operand) {s : Emitter}
    {n : Nat} (hs : s.returned = false) (hn : s.temps = n) :
    Follows (emitOperator op loc left right) s (listOperator op loc left right n).entries
      (listOperator op loc left right n).temps (listOperator op loc left right n).value := by
  cases op with
  | add => exact follows_emitDefinition hs hn rfl
  | sub => exact follows_emitDefinition hs hn rfl
  | mul => exact follows_emitDefinition hs hn rfl
  | div => exact follows_emitDefinition hs hn rfl
  | less =>
      subst hn
      have hret : (s.take (.less s.temps left right)).returned = false :=
        (Emitter.write_returned _ _).trans hs
      have htemps : (s.define (.less · left right)).2.temps = s.temps + 1 :=
        Emitter.write_temps _ _
      have hplay : s.play (listOperator .less loc left right s.temps).entries =
          (none, ((s.define (.less · left right)).2.define (.widen · (.temp s.temps))).2) := by
        simp only [listOperator, Listing.andThen, Listing.define, List.cons_append, List.nil_append,
          Emitter.play, hs, hret, Bool.false_eq_true, if_false, ← htemps]
        rfl
      refine follows_of_play hplay rfl ?_
      exact (Emitter.write_temps _ _).trans (congrArg (· + 1) htemps)
  | unsupported c =>
      unfold Follows
      simp only [listOperator, Emitter.play, hs, Bool.false_eq_true, if_false]
      rfl

theorem follows_emitApplied (op : Operator) (loc : Location) (left right : Operand) {s : Emitter}
    {n : Nat} (hs : s.returned = false) (hn : s.temps = n) :
    Follows (emitApplied op loc left right) s (listOperator op loc left right n).entries
      (listOperator op loc left right n).temps (listOperator op loc left right n).value := by
  have heq : emitApplied op loc left right s = emitOperator op loc left right s := by
    rw [emitApplied, if_neg (by rw [hs]; exact Bool.noConfusion)]
  unfold Follows
  rw [heq]
  exact follows_emitOperator op loc left right hs hn

theorem inert_emitApplied (op : Operator) (loc : Location) (left right : Operand) :
    Inert (emitApplied op loc left right) := by
  intro s hs
  exact ⟨left, by rw [emitApplied, if_pos hs]⟩

theorem follows_emitReturned (value : Operand) {s : Emitter} {n : Nat} (hs : s.returned = false)
    (hn : s.temps = n) : Follows (emitReturned value) s [.instr (.ret value)] n value := by
  have hplay : s.play [.instr (.ret value)] = (none, s.finish value) := by
    simp [Emitter.play, hs, Emitter.take]
  refine follows_of_play hplay ?_ ((Emitter.write_temps s _).trans hn)
  rw [emitReturned, if_neg (by rw [hs]; exact Bool.noConfusion)]

theorem inert_emitReturned (value : Operand) : Inert (emitReturned value) := by
  intro s hs
  exact ⟨value, by rw [emitReturned, if_pos hs]⟩

/-- The value of a block is the most recent temporary at its end. -/
theorem follows_emitLatest {s : Emitter} {n : Nat} (hn : s.temps = n) :
    Follows (fun s : Emitter => (.ok s.lastTemp, s)) s [] n (latest n) := by
  refine follows_of_play rfl ?_ hn
  subst hn
  unfold Emitter.lastTemp latest
  split <;> simp_all

mutual

/-- **Emitting an expression is playing its listing.** -/
theorem emitExpr_follows : ∀ (e : Expr) {s : Emitter} {n : Nat}, s.returned = false →
    s.temps = n → Follows (emitExpr e) s (listExpr e n).entries (listExpr e n).temps
      (listExpr e n).value
  | .num value, s, n, hs, hn => by
      rw [emitExpr, listExpr]
      exact .unlessReturned hs (follows_emitDefinition hs hn rfl)
  | .var name, s, n, hs, hn => by
      rw [emitExpr, listExpr]
      exact .unlessReturned hs (follows_emitDefinition hs hn rfl)
  | .bin op left right loc, s, n, hs, hn => by
      rw [emitExpr, listExpr]
      refine .unlessReturned hs ((emitExpr_follows left hs hn).andThen ?_ ?_)
      · intro a
        exact inert_andThen (inert_emitExpr right) (inert_emitApplied op loc a)
      · intro s₁ hs₁ hn₁
        refine (emitExpr_follows right hs₁ hn₁).andThen (inert_emitApplied op loc _) ?_
        intro s₂ hs₂ hn₂
        exact follows_emitApplied op loc _ _ hs₂ hn₂
  | .ret value _, s, n, hs, hn => by
      rw [emitExpr, listExpr]
      refine .unlessReturned hs ((emitExpr_follows value hs hn).andThen inert_emitReturned ?_)
      intro s₁ hs₁ hn₁
      exact follows_emitReturned _ hs₁ hn₁
  | .block stmts _, s, n, hs, hn => by
      rw [emitExpr, listExpr]
      have hblock := (emitBlock_follows stmts hs hn).andThen
        (fun _ s hs => ⟨s.lastTemp, rfl⟩) (fun s₁ _ hn₁ => follows_emitLatest hn₁)
      rw [List.append_nil, ← listBlock_value] at hblock
      exact .unlessReturned hs hblock

/-- **Emitting a block is playing its listing.** -/
theorem emitBlock_follows : ∀ (stmts : List Expr) {s : Emitter} {n : Nat}, s.returned = false →
    s.temps = n → Follows (emitBlock stmts) s (listBlock stmts n).entries (listBlock stmts n).temps ()
  | [], s, n, hs, hn => by
      rw [emitBlock, listBlock]
      have hplay : s.play [.instr (.ret .zero)] = (none, s.finish .zero) := by
        simp [Emitter.play, hs, Emitter.take]
      exact follows_of_play hplay rfl ((Emitter.write_temps s _).trans hn)
  | stmt :: rest, s, n, hs, hn => by
      rw [emitBlock, listBlock]
      refine (emitExpr_follows stmt hs hn).andThen (fun _ => inert_emitStatements rest) ?_
      intro s₁ hs₁ hn₁
      exact emitStatements_follows rest hs₁ hn₁

theorem emitStatements_follows : ∀ (stmts : List Expr) {s : Emitter} {n : Nat},
    s.returned = false → s.temps = n → Follows (emitStatements stmts) s
      (listStatements stmts n).entries (listStatements stmts n).temps ()
  | [], s, n, hs, hn => follows_of_play rfl rfl hn
  | stmt :: rest, s, n, hs, hn => by
      rw [emitStatements, listStatements]
      refine (emitExpr_follows stmt hs hn).andThen (fun _ => inert_emitStatements rest) ?_
      intro s₁ hs₁ hn₁
      exact emitStatements_follows rest hs₁ hn₁

end

end IR

end TallyLang
