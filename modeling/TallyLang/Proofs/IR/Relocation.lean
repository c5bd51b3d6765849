/-
The code of an expression can be moved.

An emitter that has taken some temporaries and stands at some depth writes for an expression
what a fresh one writes, with its own number added to every temporary and its own margin in
front of every line.  Nothing else of the emitter is looked at but the flag, and nothing
else is changed.

The one thing that does not move is the value of a block in front of which no temporary has
been taken, since that is zero and not a temporary.  But a block that comes to its end has
taken one by then, and where it does not come to its end nothing is written any more.  So
listings are compared up to their first stop only, and their values only where there is
none (`Listing.Moves`).

The counts of an emitter are machine words, and here natural numbers.  The two differ where a
count overflows.  An expression adds at most two to it for each of its nodes
(`temps_emitExpr_le`), and a function starts from zero (`emitFunction_counts`), so a tree that
fits in memory has too few nodes for that.
-/
import TallyLang.Proofs.IR.Code

namespace TallyLang

namespace IR

/-! ### Moving instructions -/

/-- The temporary `n` further on; zero is none. -/
def Operand.shift (n : Nat) : Operand → Operand
  | zero => zero
  | temp k => temp (k + n)

namespace Instr

/-- The instruction on temporaries `n` further on.  The names of slots stay. -/
def shift (n : Nat) : Instr → Instr
  | slot name => slot name
  | store name => store name
  | const dest value => const (dest + n) value
  | load dest name => load (dest + n) name
  | arith dest op left right => arith (dest + n) op (left.shift n) (right.shift n)
  | less dest left right => less (dest + n) (left.shift n) (right.shift n)
  | widen dest flag => widen (dest + n) (flag.shift n)
  | ret value => ret (value.shift n)

/-- Whether the instruction defines a temporary. -/
def isDefinition : Instr → Bool
  | slot _ | store _ | ret _ => false
  | _ => true

@[simp] theorem isRet_shift (n : Nat) (i : Instr) : (i.shift n).isRet = i.isRet := by
  cases i <;> rfl

@[simp] theorem isDefinition_shift (n : Nat) (i : Instr) :
    (i.shift n).isDefinition = i.isDefinition := by
  cases i <;> rfl

end Instr

/-! ### Entries that come to their end -/

/-- Neither a `ret` nor a fault stops the entries. -/
def Completes (entries : List Entry) : Prop :=
  firstFault? entries = none ∧ (live entries).any Instr.isRet = false

theorem live_append_of_completes {xs : List Entry} (h : Completes xs) (ys : List Entry) :
    live (xs ++ ys) = live xs ++ live ys ∧ firstFault? (xs ++ ys) = firstFault? ys := by
  have hret : ¬ (live xs).any Instr.isRet = true := by
    rw [h.2]
    exact Bool.noConfusion
  rw [live_append ys h.1, firstFault?_append ys h.1, if_neg hret, if_neg hret]
  exact ⟨rfl, rfl⟩

theorem live_append_of_fault {xs : List Entry} (ys : List Entry) {fault : Char × Location}
    (h : firstFault? xs = some fault) : live (xs ++ ys) = live xs := by
  induction xs with
  | nil => cases h
  | cons entry rest ih =>
      cases entry with
      | fault c loc => rfl
      | instr i =>
          by_cases hret : i.isRet = true
          · rw [List.cons_append, live_ret hret, live_ret hret]
          · have hret' := Bool.eq_false_iff.mpr hret
            rw [firstFault?_cons hret'] at h
            rw [List.cons_append, live_cons hret', live_cons hret', ih h]

/-- What comes after a stop is dropped. -/
theorem live_append_of_not_completes {xs : List Entry} (h : ¬ Completes xs) (ys : List Entry) :
    live (xs ++ ys) = live xs ∧ firstFault? (xs ++ ys) = firstFault? xs := by
  cases hfault : firstFault? xs with
  | some fault => exact ⟨live_append_of_fault ys hfault, firstFault?_append_of_some ys hfault⟩
  | none =>
      have hret : (live xs).any Instr.isRet = true := by
        by_cases hany : (live xs).any Instr.isRet = true
        · exact hany
        · exact absurd ⟨hfault, Bool.eq_false_iff.mpr hany⟩ h
      rw [live_append ys hfault, firstFault?_append ys hfault, if_pos hret, if_pos hret]
      exact ⟨rfl, rfl⟩

theorem completes_append {xs ys : List Entry} :
    Completes (xs ++ ys) ↔ Completes xs ∧ Completes ys := by
  by_cases h : Completes xs
  · obtain ⟨hlive, hfault⟩ := live_append_of_completes h ys
    unfold Completes at h ⊢
    simp [hlive, hfault, h]
  · obtain ⟨hlive, hfault⟩ := live_append_of_not_completes h ys
    have hsame : Completes (xs ++ ys) ↔ Completes xs := by
      unfold Completes
      rw [hlive, hfault]
    simp [hsame, h]

/-! ### Listings that are moved -/

/-- The second listing is the first, moved by `n` temporaries, up to where they stop.  If they do
not stop, the value is the temporary taken last, and its number is at least `low`. -/
structure Listing.Moves (n low : Nat) (l l' : Listing) : Prop where
  live : live l'.entries = (live l.entries).map (Instr.shift n)
  fault : firstFault? l'.entries = firstFault? l.entries
  value : Completes l.entries → ∃ k, low ≤ k ∧ l.value = .temp k ∧ l.temps = k + 1 ∧
    l'.value = .temp (k + n) ∧ l'.temps = k + 1 + n

namespace Listing.Moves

variable {n low low' : Nat} {l l' : Listing}

theorem completes_iff (h : Moves n low l l') : Completes l'.entries ↔ Completes l.entries := by
  have hret : (IR.live l'.entries).any Instr.isRet = (IR.live l.entries).any Instr.isRet := by
    rw [h.live, List.any_map]
    congr 1
    funext i
    exact i.isRet_shift n
  unfold Completes
  rw [h.fault, hret]

theorem lower (h : Moves n low l l') (hlow : low' ≤ low) : Moves n low' l l' := by
  refine ⟨h.live, h.fault, fun hcompletes => ?_⟩
  obtain ⟨k, hk, hvalues⟩ := h.value hcompletes
  exact ⟨k, Nat.le_trans hlow hk, hvalues⟩

/-- One listing after another.  The second starts from the value of the first, or is not reached. -/
theorem andThen {next next' : Operand → Nat → Listing} (h : Moves n low l l')
    (hnext : ∀ k, low ≤ k →
      Moves n low' (next (.temp k) (k + 1)) (next' (.temp (k + n)) (k + 1 + n))) :
    Moves n low' (l.andThen next) (l'.andThen next') := by
  unfold Listing.andThen
  by_cases hcompletes : Completes l.entries
  · obtain ⟨k, hlow, hvalue, htemps, hvalue', htemps'⟩ := h.value hcompletes
    have hrest := hnext k hlow
    rw [hvalue, htemps, hvalue', htemps']
    refine ⟨?_, ?_, ?_⟩
    · rw [(live_append_of_completes hcompletes _).1,
        (live_append_of_completes (h.completes_iff.mpr hcompletes) _).1, h.live, hrest.live,
        List.map_append]
    · rw [(live_append_of_completes hcompletes _).2,
        (live_append_of_completes (h.completes_iff.mpr hcompletes) _).2, hrest.fault]
    · intro hboth
      exact hrest.value (completes_append.mp hboth).2
  · have hcompletes' := mt h.completes_iff.mp hcompletes
    refine ⟨?_, ?_, ?_⟩
    · rw [(live_append_of_not_completes hcompletes _).1,
        (live_append_of_not_completes hcompletes' _).1, h.live]
    · rw [(live_append_of_not_completes hcompletes _).2,
        (live_append_of_not_completes hcompletes' _).2, h.fault]
    · intro hboth
      exact absurd (completes_append.mp hboth).1 hcompletes

/-- One instruction that defines a temporary. -/
theorem define {m : Nat} {instr instr' : Nat → Instr} (hret : (instr m).isRet = false)
    (hshift : instr' (m + n) = (instr m).shift n) :
    Moves n m (.define instr m) (.define instr' (m + n)) := by
  have hret' : (instr' (m + n)).isRet = false := by
    rw [hshift, Instr.isRet_shift, hret]
  refine ⟨?_, ?_, fun _ => ⟨m, Nat.le_refl m, rfl, rfl, rfl, ?_⟩⟩
  · rw [Listing.define, Listing.define, live_cons hret, live_cons hret', hshift]
    rfl
  · rw [Listing.define, Listing.define, firstFault?_cons hret, firstFault?_cons hret']
  · show m + n + 1 = m + 1 + n
    omega

/-- A `ret`, after which nothing is reached. -/
theorem ret {value value' : Operand} (hshift : value' = value.shift n) (result result' : Operand)
    (m m' : Nat) :
    Moves n low ⟨[.instr (.ret value)], result, m⟩ ⟨[.instr (.ret value')], result', m'⟩ := by
  subst hshift
  refine ⟨rfl, rfl, fun hcompletes => ?_⟩
  cases hcompletes.2

end Listing.Moves

open Listing (Moves)

theorem moves_listOperator (n : Nat) (op : Operator) (loc : Location) (a b m : Nat) :
    Moves n m (listOperator op loc (.temp a) (.temp b) m)
      (listOperator op loc (.temp (a + n)) (.temp (b + n)) (m + n)) := by
  unfold listOperator
  cases op with
  | add => exact .define rfl rfl
  | sub => exact .define rfl rfl
  | mul => exact .define rfl rfl
  | div => exact .define rfl rfl
  | less =>
      have hless : Moves n m (.define (.less · (.temp a) (.temp b)) m)
          (.define (.less · (.temp (a + n)) (.temp (b + n))) (m + n)) := .define rfl rfl
      refine hless.andThen fun k hk => ?_
      have hwiden : Moves n (k + 1) (.define (.widen · (.temp k)) (k + 1))
          (.define (.widen · (.temp (k + n))) (k + 1 + n)) := .define rfl rfl
      exact hwiden.lower (by omega)
  | unsupported c =>
      refine ⟨rfl, rfl, fun hcompletes => ?_⟩
      cases hcompletes.1

mutual

/-- The listing of an expression moves with the number of temporaries before it. -/
theorem moves_listExpr (n : Nat) : ∀ (e : Expr) (m : Nat),
    Moves n m (listExpr e m) (listExpr e (m + n))
  | .num value, m => by
      rw [listExpr, listExpr]
      exact .define rfl rfl
  | .var name, m => by
      rw [listExpr, listExpr]
      exact .define rfl rfl
  | .bin op left right loc, m => by
      rw [listExpr, listExpr]
      refine (moves_listExpr n left m).andThen fun a ha => ?_
      refine (moves_listExpr n right (a + 1)).andThen fun b hb => ?_
      exact (moves_listOperator n op loc a b (b + 1)).lower (by omega)
  | .ret value _, m => by
      rw [listExpr, listExpr]
      exact (moves_listExpr n value m).andThen fun a _ => .ret rfl _ _ _ _
  | .block stmts _, m => by
      rw [listExpr, listExpr]
      exact moves_listBlock n stmts m

theorem moves_listBlock (n : Nat) : ∀ (stmts : List Expr) (m : Nat),
    Moves n m (listBlock stmts m) (listBlock stmts (m + n))
  | [], m => .ret rfl _ _ _ _
  | stmt :: rest, m => by
      rw [listBlock, listBlock]
      refine (moves_listExpr n stmt m).andThen fun a ha => ?_
      exact (moves_listStatements n rest a).lower ha

/-- Statements move where a temporary has been taken before them. -/
theorem moves_listStatements (n : Nat) : ∀ (stmts : List Expr) (m : Nat),
    Moves n m (listStatements stmts (m + 1)) (listStatements stmts (m + 1 + n))
  | [], m => by
      have hsucc : m + 1 + n = m + n + 1 := by omega
      refine ⟨rfl, rfl, fun _ => ⟨m, Nat.le_refl m, rfl, rfl, ?_, rfl⟩⟩
      rw [listStatements, hsucc]
      rfl
  | stmt :: rest, m => by
      rw [listStatements, listStatements]
      refine (moves_listExpr n stmt (m + 1)).andThen fun a ha => ?_
      exact (moves_listStatements n rest a).lower (by omega)

end

/-! ### What an emission changes -/

namespace Emitter

theorem take_temps (s : Emitter) (i : Instr) :
    (s.take i).temps = s.temps + if i.isDefinition then 1 else 0 := by
  cases i <;> simp [take, finish, Instr.isDefinition]

theorem take_indent (s : Emitter) (i : Instr) : (s.take i).indent = s.indent := by
  cases i <;> simp [take, finish, write_eq]

theorem foldl_take_temps (is : List Instr) : ∀ s : Emitter,
    (is.foldl take s).temps = s.temps + is.countP Instr.isDefinition := by
  induction is with
  | nil => intro s; rfl
  | cons i is ih =>
      intro s
      rw [List.foldl_cons, ih, take_temps, List.countP_cons]
      omega

theorem foldl_take_indent (is : List Instr) : ∀ s : Emitter,
    (is.foldl take s).indent = s.indent := by
  induction is with
  | nil => intro s; rfl
  | cons i is ih =>
      intro s
      rw [List.foldl_cons, ih, take_indent]

theorem closeFunction_temps (s : Emitter) : s.closeFunction.temps = s.temps := by
  unfold closeFunction
  by_cases h : s.returned = true
  · simp [h, writeRaw]
  · simp [h, writeRaw, write_eq]

theorem foldl_take_function (is : List Instr) : ∀ s : Emitter,
    (is.foldl take s).function = s.function := by
  induction is with
  | nil => intro s; rfl
  | cons i is ih =>
      intro s
      rw [List.foldl_cons, ih, take_function]

end Emitter

/-! ### How many temporaries are taken -/

/-- Whether the entry defines a temporary. -/
def Entry.isDefinition : Entry → Bool
  | instr i => i.isDefinition
  | fault _ _ => false

theorem countP_live_le (entries : List Entry) :
    (live entries).countP Instr.isDefinition ≤ entries.countP Entry.isDefinition := by
  induction entries with
  | nil => exact Nat.le_refl 0
  | cons entry rest ih =>
      cases entry with
      | fault c loc => exact Nat.zero_le _
      | instr i =>
          rw [List.countP_cons]
          cases hret : i.isRet with
          | true =>
              rw [live_ret hret, List.countP_singleton]
              exact Nat.le_add_left _ _
          | false =>
              rw [live_cons hret, List.countP_cons]
              exact Nat.add_le_add_right ih _

theorem countP_listOperator_le (op : Operator) (loc : Location) (left right : Operand) (n : Nat) :
    (listOperator op loc left right n).entries.countP Entry.isDefinition ≤ 2 := by
  refine Nat.le_trans List.countP_le_length ?_
  cases op <;> simp [listOperator, Listing.andThen, Listing.define]

mutual

/-- A node defines two temporaries at most. -/
theorem countP_listExpr_le : ∀ (e : Expr) (n : Nat),
    (listExpr e n).entries.countP Entry.isDefinition ≤ 2 * e.nodes.length
  | .num value, n => by
      simp [listExpr, Listing.define, Entry.isDefinition, Instr.isDefinition, Expr.nodes]
  | .var name, n => by
      simp [listExpr, Listing.define, Entry.isDefinition, Instr.isDefinition, Expr.nodes]
  | .bin op left right loc, n => by
      have hleft := countP_listExpr_le left n
      have hright := countP_listExpr_le right (listExpr left n).temps
      have hop := countP_listOperator_le op loc (listExpr left n).value
        (listExpr right (listExpr left n).temps).value (listExpr right (listExpr left n).temps).temps
      simp only [listExpr, Listing.andThen, List.countP_append, Expr.nodes, List.length_cons,
        List.length_append]
      omega
  | .ret value _, n => by
      have hvalue := countP_listExpr_le value n
      simp only [listExpr, Listing.andThen, List.countP_append, List.countP_singleton,
        Entry.isDefinition, Instr.isDefinition, Expr.nodes, List.length_cons]
      simp only [Bool.false_eq_true, if_false]
      omega
  | .block stmts _, n => by
      have hstmts := countP_listBlock_le stmts n
      rw [listExpr, Expr.nodes, List.length_cons]
      omega

theorem countP_listBlock_le : ∀ (stmts : List Expr) (n : Nat),
    (listBlock stmts n).entries.countP Entry.isDefinition ≤ 2 * (Expr.nodesOf stmts).length
  | [], n => by
      simp [listBlock, Entry.isDefinition, Instr.isDefinition]
  | stmt :: rest, n => by
      have hstmt := countP_listExpr_le stmt n
      have hrest := countP_listStatements_le rest (listExpr stmt n).temps
      simp only [listBlock, Listing.andThen, List.countP_append, Expr.nodesOf, List.length_append]
      omega

theorem countP_listStatements_le : ∀ (stmts : List Expr) (n : Nat),
    (listStatements stmts n).entries.countP Entry.isDefinition ≤ 2 * (Expr.nodesOf stmts).length
  | [], n => by
      simp [listStatements]
  | stmt :: rest, n => by
      have hstmt := countP_listExpr_le stmt n
      have hrest := countP_listStatements_le rest (listExpr stmt n).temps
      simp only [listStatements, Listing.andThen, List.countP_append, Expr.nodesOf,
        List.length_append]
      omega

end

/-- **No count of an emitter runs away.**  Whatever was emitted before, a function takes at most two
temporaries for a node of its body, and its lines are at most one level deep. -/
theorem emitFunction_counts (f : Function) (s : Emitter) :
    (emitFunction f s).2.temps ≤ 2 * (Expr.nodesOf f.body).length ∧ (emitFunction f s).2.indent ≤ 1 := by
  have hbody := emitBlock_openFunction s f
  have htemps : (emitBlock f.body (s.openFunction f)).2.temps ≤ 2 * (Expr.nodesOf f.body).length := by
    rw [hbody, Emitter.foldl_take_temps, Emitter.openFunction_eq, Nat.zero_add]
    exact Nat.le_trans (countP_live_le _) (countP_listBlock_le f.body 0)
  have hindent : (emitBlock f.body (s.openFunction f)).2.indent = 1 := by
    rw [hbody, Emitter.foldl_take_indent, Emitter.openFunction_eq]
  rw [emitFunction, Emit.andThen]
  cases hresult : emitBlock f.body (s.openFunction f) with
  | mk result after =>
      rw [hresult] at htemps hindent
      cases result with
      | error e => exact ⟨htemps, Nat.le_of_eq hindent⟩
      | ok =>
          refine ⟨?_, Nat.zero_le 1⟩
          rw [Emitter.closeFunction_temps]
          exact htemps

/-! ### Expressions -/

/-- The emission of an expression writes the live part of its listing and fails at its first fault.
If there is no stop, it gives the value of the listing and leaves its number of temporaries. -/
theorem emitExpr_eq_live (e : Expr) {s : Emitter} (hs : s.returned = false) :
    (emitExpr e s).2 = (live (listExpr e s.temps).entries).foldl Emitter.take s ∧
    (∀ error, (emitExpr e s).1 = .error error ↔
      (firstFault? (listExpr e s.temps).entries).map
        (fun fault => (⟨fault.1, fault.2, s.function⟩ : EmitError)) = some error) ∧
    (Completes (listExpr e s.temps).entries →
      (emitExpr e s).1 = .ok (listExpr e s.temps).value ∧
        (emitExpr e s).2.temps = (listExpr e s.temps).temps) := by
  have hfollows := emitExpr_follows e hs rfl
  unfold Follows at hfollows
  rw [Emitter.play_eq _ _ hs] at hfollows
  cases hfault : firstFault? (listExpr e s.temps).entries with
  | some fault =>
      simp only [hfault, Option.map_some] at hfollows
      rw [hfollows]
      refine ⟨rfl, fun error => by simp, fun hcompletes => ?_⟩
      rw [hcompletes.1] at hfault
      cases hfault
  | none =>
      simp only [hfault, Option.map_none] at hfollows
      split at hfollows
      · rename_i hret
        obtain ⟨a, ha⟩ := hfollows
        rw [ha]
        refine ⟨rfl, fun error => by simp, fun hcompletes => ?_⟩
        rw [Emitter.foldl_take_returned, hs, hcompletes.2] at hret
        cases hret
      · rw [hfollows.1]
        exact ⟨rfl, fun error => by simp, fun _ => ⟨rfl, hfollows.2⟩⟩

/-- Only a fault or a `ret` stops an emission. -/
theorem completes_of_emitExpr_eq_ok {e : Expr} {s : Emitter} {value : Operand}
    (hs : s.returned = false) (hok : (emitExpr e s).1 = .ok value)
    (hreturned : (emitExpr e s).2.returned = false) :
    Completes (listExpr e s.temps).entries := by
  obtain ⟨hstate, herror, -⟩ := emitExpr_eq_live e hs
  rw [hstate, Emitter.foldl_take_returned, hs, Bool.false_or] at hreturned
  refine ⟨?_, hreturned⟩
  cases hfault : firstFault? (listExpr e s.temps).entries with
  | none => rfl
  | some fault =>
      have hfails := (herror _).mpr (by rw [hfault]; rfl)
      rw [hok] at hfails
      cases hfails

/-- An expression takes at most two temporaries for each of its nodes. -/
theorem temps_emitExpr_le (e : Expr) {s : Emitter} (hs : s.returned = false) :
    (emitExpr e s).2.temps ≤ s.temps + 2 * e.nodes.length := by
  rw [(emitExpr_eq_live e hs).1, Emitter.foldl_take_temps]
  exact Nat.add_le_add_left (Nat.le_trans (countP_live_le _) (countP_listExpr_le e _)) _

/-- The same emitter with nothing written, no temporary taken and no margin. -/
def Emitter.bare (s : Emitter) : Emitter := { s with output := "", indent := 0, temps := 0 }

/-- **The code of an expression can be moved.**  Before a return, an emitter appends the lines that
it would write when bare, with its number of temporaries added to every temporary and its margin in
front of every line.  It takes as many temporaries, at most two for a node, sets the flag alike,
fails alike and keeps the rest of itself, also when it fails.  If it succeeds and there was no return, it has taken a
temporary, and the value is the one taken last.  After a return nothing changes. -/
theorem emitExpr_moved (e : Expr) (s : Emitter) :
    (s.returned = false →
      (emitExpr e s.bare).2.output = textOf ((live (listExpr e 0).entries).map Instr.text) ∧
      (emitExpr e s).2.output = s.output ++
        textOf ((live (listExpr e 0).entries).map fun i => s.margin ++ (i.shift s.temps).text) ∧
      (emitExpr e s).2.temps = s.temps + (emitExpr e s.bare).2.temps ∧
      (emitExpr e s).2.temps ≤ s.temps + 2 * e.nodes.length ∧
      (emitExpr e s).2.returned = (emitExpr e s.bare).2.returned ∧
      (∀ error, (emitExpr e s).1 = .error error ↔ (emitExpr e s.bare).1 = .error error) ∧
      (emitExpr e s).2.indent = s.indent ∧ (emitExpr e s).2.function = s.function ∧
      ∀ value, (emitExpr e s).1 = .ok value → (emitExpr e s).2.returned = false →
        s.temps < (emitExpr e s).2.temps ∧ value = .temp ((emitExpr e s).2.temps - 1)) ∧
    (s.returned = true → (emitExpr e s).2 = s) := by
  refine ⟨fun hs => ?_, fun hs => ?_⟩
  · have hmoves := moves_listExpr s.temps e 0
    rw [Nat.zero_add] at hmoves
    obtain ⟨hstate, herror, hvalue⟩ := emitExpr_eq_live e hs
    obtain ⟨hbare, herrorBare, -⟩ := emitExpr_eq_live e (s := s.bare) hs
    have htemps : (emitExpr e s).2.temps = s.temps + (emitExpr e s.bare).2.temps := by
      rw [hstate, hbare, Emitter.foldl_take_temps, Emitter.foldl_take_temps, hmoves.live,
        List.countP_map]
      simp [Emitter.bare, Function.comp_def]
    refine ⟨?_, ?_, htemps, temps_emitExpr_le e hs, ?_, fun error => ?_, ?_, ?_,
      fun value hok hreturned => ?_⟩
    · rw [hbare, Emitter.foldl_take_output]
      simp [Emitter.bare, Emitter.margin]
    · rw [hstate, Emitter.foldl_take_output, hmoves.live, List.map_map]
      rfl
    · rw [hstate, hbare, Emitter.foldl_take_returned, Emitter.foldl_take_returned, hmoves.live,
        List.any_map]
      simp [Emitter.bare, Function.comp_def]
    · rw [herror, herrorBare, hmoves.fault]
      rfl
    · rw [hstate, Emitter.foldl_take_indent]
    · rw [hstate, Emitter.foldl_take_function]
    · have hcompletes := completes_of_emitExpr_eq_ok hs hok hreturned
      obtain ⟨hresult, hcount⟩ := hvalue hcompletes
      obtain ⟨k, -, -, -, hlast, hnumber⟩ := hmoves.value (hmoves.completes_iff.mp hcompletes)
      rw [hok, hlast] at hresult
      rw [hcount, hnumber, Except.ok.inj hresult]
      refine ⟨by omega, ?_⟩
      congr 1
      omega
  · obtain ⟨a, ha⟩ := inert_emitExpr e s hs
    rw [ha]

/-- An emitter in the middle of a function that has taken five temporaries. -/
private def midway : Emitter := ⟨"entry:\n", 2, 5, false, "f"⟩

/-- `t0 < x`, with the right operand in a block.  The name of the first slot is that of a
temporary. -/
private def slotBelowBlock : Expr :=
  .bin .less (.var "t0") (.block [.var "x"] ⟨1, 6⟩) ⟨1, 4⟩

theorem emitExpr_moved_midway :
    (emitExpr slotBelowBlock midway).2.output = "entry:\n" ++ textOf
        ["    %t5 = load double, double* %t0.addr", "    %t6 = load double, double* %x.addr",
          "    %t7 = fcmp olt double %t5, %t6", "    %t8 = uitofp i1 %t7 to double"] ∧
      (emitExpr slotBelowBlock midway).1 =
        .ok (.temp ((emitExpr slotBelowBlock midway).2.temps - 1)) ∧
      midway.temps < (emitExpr slotBelowBlock midway).2.temps ∧
      (emitExpr slotBelowBlock { midway with returned := true }).2 =
        { midway with returned := true } := by
  obtain ⟨-, houtput, -, -, -, -, -, -, hvalue⟩ := (emitExpr_moved slotBelowBlock midway).1 rfl
  have hok : (emitExpr slotBelowBlock midway).1 = .ok (.temp 8) := rfl
  obtain ⟨htaken, hlast⟩ := hvalue (.temp 8) hok rfl
  refine ⟨houtput, ?_, htaken, (emitExpr_moved slotBelowBlock _).2 rfl⟩
  rw [hok, hlast]

end IR

end TallyLang
