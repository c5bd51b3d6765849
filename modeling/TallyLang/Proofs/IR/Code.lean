/-
The text of a function, line by line.

Of the listing of a function only the live part is written: the instructions up to
the first `ret`, or up to the first operator that has no instruction, which makes
the emission fail.  `emitFunction_result` says what the emission of a function
gives in either case, and in the good one that is a text made of lines: the first
line, the label, two lines for each parameter, the live instructions, and the
closing brace.  Whatever is proved of the code is proved of these lines.
-/
import TallyLang.Proofs.IR.Listing
import TallyLang.Proofs.IR.Words

namespace TallyLang

namespace IR

/-! ### The live part of a listing -/

/-- The instructions up to and including the first `ret`, as far as there is no fault. -/
def live : List Entry → List Instr
  | [] => []
  | .instr (.ret value) :: _ => [.ret value]
  | .instr i :: rest => i :: live rest
  | .fault _ _ :: _ => []

/-- The first operator without an instruction, if it comes before every `ret`. -/
def firstFault? : List Entry → Option (Char × Location)
  | [] => none
  | .instr (.ret _) :: _ => none
  | .instr _ :: rest => firstFault? rest
  | .fault c loc :: _ => some (c, loc)

/-- Whether an instruction ends the function. -/
def Instr.isRet : Instr → Bool
  | .ret _ => true
  | _ => false

theorem live_ret {i : Instr} (h : i.isRet = true) (rest : List Entry) :
    live (.instr i :: rest) = [i] := by
  cases i with
  | ret value => rfl
  | _ => cases h

theorem live_cons {i : Instr} (h : i.isRet = false) (rest : List Entry) :
    live (.instr i :: rest) = i :: live rest := by
  cases i with
  | ret value => cases h
  | _ => rfl

theorem firstFault?_ret {i : Instr} (h : i.isRet = true) (rest : List Entry) :
    firstFault? (.instr i :: rest) = none := by
  cases i with
  | ret value => rfl
  | _ => cases h

theorem firstFault?_cons {i : Instr} (h : i.isRet = false) (rest : List Entry) :
    firstFault? (.instr i :: rest) = firstFault? rest := by
  cases i with
  | ret value => cases h
  | _ => rfl

namespace Emitter

theorem writeLine_function (s : Emitter) (line : String) :
    (s.writeLine line).function = s.function := by
  rw [writeLine_eq]

theorem take_function (s : Emitter) (i : Instr) : (s.take i).function = s.function := by
  cases i <;> exact writeLine_function _ _

theorem take_returned (s : Emitter) (i : Instr) :
    (s.take i).returned = (s.returned || i.isRet) := by
  cases i with
  | ret value => simp [take, finish, Instr.isRet]
  | _ => simp [take, Instr.isRet]

/-- Playing a listing writes its live part and stops at its first fault. -/
theorem play_eq (entries : List Entry) : ∀ s : Emitter, s.returned = false →
    s.play entries =
      ((firstFault? entries).map (fun fault => ⟨fault.1, fault.2, s.function⟩),
        (live entries).foldl take s) := by
  induction entries with
  | nil => intro s _; rfl
  | cons entry rest ih =>
      intro s hs
      have hs' : ¬ s.returned = true := by rw [hs]; exact Bool.noConfusion
      cases entry with
      | fault c loc =>
          rw [play, if_neg hs']
          rfl
      | instr i =>
          rw [play, if_neg hs']
          cases hret : i.isRet with
          | true =>
              rw [live_ret hret, firstFault?_ret hret]
              exact play_of_returned (by rw [take_returned, hret, Bool.or_true]) rest
          | false =>
              rw [live_cons hret, firstFault?_cons hret,
                ih (s.take i) (by rw [take_returned, hs, hret]; rfl), take_function]
              rfl

end Emitter

theorem live_append {xs : List Entry} (ys : List Entry) (h : firstFault? xs = none) :
    live (xs ++ ys) = if (live xs).any Instr.isRet then live xs else live xs ++ live ys := by
  induction xs with
  | nil => rfl
  | cons entry rest ih =>
      cases entry with
      | fault c loc => cases h
      | instr i =>
          rw [List.cons_append]
          cases hret : i.isRet with
          | true =>
              rw [live_ret hret, live_ret hret]
              simp [hret]
          | false =>
              rw [firstFault?_cons hret] at h
              rw [live_cons hret, live_cons hret, ih h, List.any_cons, hret, Bool.false_or]
              split <;> rfl

theorem firstFault?_append {xs : List Entry} (ys : List Entry) (h : firstFault? xs = none) :
    firstFault? (xs ++ ys) = if (live xs).any Instr.isRet then none else firstFault? ys := by
  induction xs with
  | nil => rfl
  | cons entry rest ih =>
      cases entry with
      | fault c loc => cases h
      | instr i =>
          rw [List.cons_append]
          cases hret : i.isRet with
          | true =>
              rw [firstFault?_ret hret, live_ret hret]
              simp [hret]
          | false =>
              rw [firstFault?_cons hret] at h ⊢
              rw [live_cons hret, ih h, List.any_cons, hret, Bool.false_or]

theorem firstFault?_append_of_some {xs : List Entry} (ys : List Entry) {fault : Char × Location}
    (h : firstFault? xs = some fault) : firstFault? (xs ++ ys) = some fault := by
  induction xs with
  | nil => cases h
  | cons entry rest ih =>
      cases entry with
      | fault c loc => exact h
      | instr i =>
          cases hret : i.isRet with
          | true =>
              rw [firstFault?_ret hret] at h
              cases h
          | false =>
              rw [firstFault?_cons hret] at h
              rw [List.cons_append, firstFault?_cons hret]
              exact ih h

/-! ### The lines of a function -/

theorem Instr.text_isEmpty (i : Instr) : i.text.isEmpty = false := by
  cases i <;> simp [text, define, slotName, Operand.text, String.isEmpty_iff, ← Bool.not_eq_true]

namespace Emitter

theorem write_eq (s : Emitter) (i : Instr) :
    s.write i = { s with output := s.output ++ textOf [s.margin ++ i.text] } := by
  rw [write, writeLine, if_neg (by rw [i.text_isEmpty]; exact Bool.noConfusion), writeRaw]
  simp [textOf, String.append_assoc]

theorem take_output (s : Emitter) (i : Instr) :
    (s.take i).output = s.output ++ textOf [s.margin ++ i.text] := by
  cases i <;> simp [take, finish, write_eq] <;> rfl

theorem take_margin (s : Emitter) (i : Instr) : (s.take i).margin = s.margin := by
  cases i <;> simp [take, finish, write_eq, margin]

/-- Instructions are written as lines, all with the same margin. -/
theorem foldl_take_output (is : List Instr) : ∀ s : Emitter,
    (is.foldl take s).output = s.output ++ textOf (is.map fun i => s.margin ++ i.text) := by
  induction is with
  | nil => intro s; simp [textOf]
  | cons i is ih =>
      intro s
      rw [List.foldl_cons, ih, take_output, take_margin, List.map_cons, String.append_assoc,
        ← textOf_append, List.singleton_append]

theorem foldl_take_returned (is : List Instr) : ∀ s : Emitter,
    (is.foldl take s).returned = (s.returned || is.any Instr.isRet) := by
  induction is with
  | nil => intro s; simp
  | cons i is ih =>
      intro s
      rw [List.foldl_cons, ih, take_returned, List.any_cons, Bool.or_assoc]

theorem foldl_take_margin (is : List Instr) : ∀ s : Emitter,
    (is.foldl take s).margin = s.margin := by
  induction is with
  | nil => intro s; rfl
  | cons i is ih =>
      intro s
      rw [List.foldl_cons, ih, take_margin]

end Emitter

/-- The instructions that store the parameters in their slots. -/
def prologue (params : List String) : List Instr := params.flatMap fun p => [.slot p, .store p]

/-- An instruction as a line of the body. -/
def bodyLine (i : Instr) : String := "  " ++ i.text

/-- The lines of a function. -/
def functionLines (f : Function) : List String :=
  headerText f :: "entry:" :: ((prologue f.params ++ live (listFunction f)).map bodyLine ++ ["\x7d"])

namespace Emitter

/-- The slots are written as lines, and nothing else changes. -/
theorem foldl_prologue (params : List String) : ∀ s : Emitter,
    params.foldl (fun s p => (s.write (.slot p)).write (.store p)) s =
      { s with output := s.output ++ textOf ((prologue params).map fun i => s.margin ++ i.text) } := by
  induction params with
  | nil => intro s; simp [prologue, textOf]
  | cons p params ih =>
      intro s
      rw [List.foldl_cons, ih, write_eq (s.write _), write_eq s]
      simp [prologue, textOf, margin, String.append_assoc]

/-- A function starts alike whatever the emitter has emitted before. -/
theorem openFunction_eq (s : Emitter) (f : Function) :
    s.openFunction f =
      ⟨textOf (headerText f :: "entry:" :: (prologue f.params).map bodyLine), 1, 0, false, f.name⟩ := by
  rw [openFunction, foldl_prologue]
  simp only [reset, writeRaw, textOf, String.append_assoc, String.empty_append]
  rfl

theorem closeFunction_output (s : Emitter) :
    s.closeFunction.output = s.output ++
      textOf ((if s.returned then [] else [s.margin ++ (Instr.ret .zero).text]) ++ ["\x7d"]) := by
  unfold closeFunction
  by_cases h : s.returned = true
  · simp [h, writeRaw, textOf, String.append_assoc]
  · simp [h, write_eq, writeRaw, textOf, String.append_assoc]

/-- A function that is closed after its live instructions has the lines of its whole listing. -/
theorem closeFunction_live (s : Emitter) (f : Function)
    (h : firstFault? (listBlock f.body 0).entries = none) :
    ((live (listBlock f.body 0).entries).foldl take (s.openFunction f)).closeFunction.output =
      textOf (functionLines f) := by
  rw [closeFunction_output, foldl_take_output, foldl_take_returned, foldl_take_margin,
    openFunction_eq, functionLines, listFunction, live_append _ h, String.append_assoc,
    ← textOf_append, ← textOf_append, Bool.false_or]
  have hline : (fun i : Instr => margin ⟨textOf (headerText f :: "entry:" ::
      (prologue f.params).map bodyLine), 1, 0, false, f.name⟩ ++ i.text) = bodyLine := rfl
  rw [hline]
  by_cases hret : (live (listBlock f.body 0).entries).any Instr.isRet = true
  · simp [hret]
  · simp [hret, live]
    rfl

end Emitter

/-- The emission of a body writes the live part of its listing, and fails if there is a fault. -/
theorem emitBlock_openFunction (s : Emitter) (f : Function) :
    emitBlock f.body (s.openFunction f) =
      ((firstFault? (listBlock f.body 0).entries).elim (.ok ())
          (fun fault => .error ⟨fault.1, fault.2, f.name⟩),
        (live (listBlock f.body 0).entries).foldl Emitter.take (s.openFunction f)) := by
  have hret : (s.openFunction f).returned = false := by rw [Emitter.openFunction_eq]
  have htemps : (s.openFunction f).temps = 0 := by rw [Emitter.openFunction_eq]
  have hname : (s.openFunction f).function = f.name := by rw [Emitter.openFunction_eq]
  have hfollows := emitBlock_follows f.body hret htemps
  unfold Follows at hfollows
  rw [Emitter.play_eq _ _ hret, hname] at hfollows
  cases hfault : firstFault? (listBlock f.body 0).entries with
  | some fault =>
      simp only [hfault, Option.map_some] at hfollows
      exact hfollows
  | none =>
      simp only [hfault, Option.map_none] at hfollows
      split at hfollows
      · exact hfollows.choose_spec
      · exact hfollows.1

/-- What the emission of a function gives: its lines, or the first fault of its listing. -/
theorem emitFunction_result (f : Function) (s : Emitter) :
    (emitFunction f s).1 =
      match firstFault? (listFunction f) with
      | some (c, loc) => .error ⟨c, loc, f.name⟩
      | none => .ok (textOf (functionLines f)) := by
  rw [emitFunction, Emit.andThen, emitBlock_openFunction, listFunction]
  cases hfault : firstFault? (listBlock f.body 0).entries with
  | some fault => rw [firstFault?_append_of_some _ hfault, Option.elim_some]
  | none =>
      have hnone : firstFault? ((listBlock f.body 0).entries ++ [.instr (.ret .zero)]) = none := by
        rw [firstFault?_append _ hfault]
        split <;> rfl
      rw [hnone, Option.elim_none]
      exact congrArg Except.ok (Emitter.closeFunction_live s f hfault)

/-! ### What the lines hold

The names in the code are the function's own, and where these are identifiers every
line can be read: it ends where its line feed is, and its words are those that were
put in it.
-/

/-- An entry of a body that reads some variables and holds some operators: it makes no slot, it
loads one of the variables, and a fault is at one of the operators. -/
def Entry.ComesFrom (names : List String) (operators : List Operator) : Entry → Prop
  | instr (.slot _) | instr (.store _) => False
  | instr (.load _ name) => name ∈ names
  | instr _ => True
  | fault c _ => .unsupported c ∈ operators

theorem Entry.ComesFrom.mono {xs ys : List String} {os ps : List Operator} {entry : Entry}
    (hxs : ∀ x ∈ xs, x ∈ ys) (hos : ∀ op ∈ os, op ∈ ps) (h : entry.ComesFrom xs os) :
    entry.ComesFrom ys ps := by
  cases entry with
  | fault c loc => exact hos _ h
  | instr i =>
      cases i with
      | load dest name => exact hxs name h
      | slot name => exact h
      | store name => exact h
      | _ => trivial

theorem comesFrom_listOperator (op : Operator) (loc : Location) (left right : Operand) (n : Nat)
    (xs : List String) : ∀ entry ∈ (listOperator op loc left right n).entries,
    entry.ComesFrom xs [op] := by
  intro entry h
  cases op with
  | less =>
      rcases List.mem_cons.mp h with hless | hwiden
      · cases hless
        trivial
      · cases List.mem_singleton.mp hwiden
        trivial
  | unsupported c =>
      cases List.mem_singleton.mp h
      exact List.mem_singleton.mpr rfl
  | _ =>
      cases List.mem_singleton.mp h
      trivial

mutual

theorem comesFrom_listExpr : ∀ (e : Expr) (n : Nat), ∀ entry ∈ (listExpr e n).entries,
    entry.ComesFrom e.reads e.operators
  | .num value, n, entry, h => by
      cases List.mem_singleton.mp h
      trivial
  | .var name, n, entry, h => by
      cases List.mem_singleton.mp h
      exact List.mem_singleton.mpr rfl
  | .bin op left right loc, n, entry, h => by
      rw [listExpr] at h
      rw [Expr.reads, Expr.operators]
      rcases List.mem_append.mp h with hleft | h
      · exact (comesFrom_listExpr left n entry hleft).mono (by simp +contextual)
          (by simp +contextual)
      · rcases List.mem_append.mp h with hright | hop
        · exact (comesFrom_listExpr right _ entry hright).mono (by simp +contextual)
            (by simp +contextual)
        · exact (comesFrom_listOperator op loc _ _ _ _ entry hop).mono (fun _ hx => hx)
            (by simp +contextual)
  | .ret value _, n, entry, h => by
      rw [listExpr] at h
      rw [Expr.reads, Expr.operators]
      rcases List.mem_append.mp h with hvalue | hret
      · exact comesFrom_listExpr value n entry hvalue
      · cases List.mem_singleton.mp hret
        trivial
  | .block stmts _, n, entry, h => by
      rw [listExpr] at h
      rw [Expr.reads, Expr.operators]
      exact comesFrom_listBlock stmts n entry h

theorem comesFrom_listBlock : ∀ (stmts : List Expr) (n : Nat),
    ∀ entry ∈ (listBlock stmts n).entries,
    entry.ComesFrom (Expr.readsOf stmts) (Expr.operatorsOf stmts)
  | [], n, entry, h => by
      rw [listBlock] at h
      cases List.mem_singleton.mp h
      trivial
  | stmt :: rest, n, entry, h => by
      rw [listBlock] at h
      rw [Expr.readsOf, Expr.operatorsOf]
      rcases List.mem_append.mp h with hstmt | hrest
      · exact (comesFrom_listExpr stmt n entry hstmt).mono (by simp +contextual)
          (by simp +contextual)
      · exact (comesFrom_listStatements rest _ entry hrest).mono (by simp +contextual)
          (by simp +contextual)

theorem comesFrom_listStatements : ∀ (stmts : List Expr) (n : Nat),
    ∀ entry ∈ (listStatements stmts n).entries,
    entry.ComesFrom (Expr.readsOf stmts) (Expr.operatorsOf stmts)
  | [], n, entry, h => by
      rw [listStatements] at h
      cases h
  | stmt :: rest, n, entry, h => by
      rw [listStatements] at h
      rw [Expr.readsOf, Expr.operatorsOf]
      rcases List.mem_append.mp h with hstmt | hrest
      · exact (comesFrom_listExpr stmt n entry hstmt).mono (by simp +contextual)
          (by simp +contextual)
      · exact (comesFrom_listStatements rest _ entry hrest).mono (by simp +contextual)
          (by simp +contextual)

end

/-- The listing of a function comes from its own variables and operators. -/
theorem comesFrom_listFunction (f : Function) : ∀ entry ∈ listFunction f,
    entry.ComesFrom (Expr.readsOf f.body) (Expr.operatorsOf f.body) := by
  intro entry h
  rcases List.mem_append.mp h with hbody | hend
  · exact comesFrom_listBlock f.body 0 entry hbody
  · cases List.mem_singleton.mp hend
    trivial

theorem mem_of_mem_live {entries : List Entry} {i : Instr} (h : i ∈ live entries) :
    Entry.instr i ∈ entries := by
  induction entries with
  | nil => cases h
  | cons entry rest ih =>
      cases entry with
      | fault c loc => cases h
      | instr j =>
          cases hret : j.isRet with
          | true =>
              rw [live_ret hret, List.mem_singleton] at h
              rw [h]
              exact List.mem_cons_self
          | false =>
              rw [live_cons hret] at h
              rcases List.mem_cons.mp h with rfl | hrest
              · exact List.mem_cons_self
              · exact List.mem_cons_of_mem _ (ih hrest)

theorem fault_mem_of_firstFault? {entries : List Entry} {c : Char} {loc : Location}
    (h : firstFault? entries = some (c, loc)) : Entry.fault c loc ∈ entries := by
  induction entries with
  | nil => cases h
  | cons entry rest ih =>
      cases entry with
      | fault d loc' =>
          cases h
          exact List.mem_cons_self
      | instr i =>
          cases hret : i.isRet with
          | true =>
              rw [firstFault?_ret hret] at h
              cases h
          | false =>
              rw [firstFault?_cons hret] at h
              exact List.mem_cons_of_mem _ (ih h)

/-- There is no fault in a function whose operators all have an instruction. -/
theorem firstFault?_of_supported {f : Function}
    (h : ∀ op ∈ Expr.operatorsOf f.body, op.isSupported = true) :
    firstFault? (listFunction f) = none := by
  cases hfault : firstFault? (listFunction f) with
  | none => rfl
  | some fault =>
      have hop := comesFrom_listFunction f _ (fault_mem_of_firstFault? hfault)
      cases h _ hop

/-- The instructions of a function with proper names are tidy. -/
theorem tidy_of_named {f : Function} (h : f.Named) :
    ∀ i ∈ prologue f.params ++ live (listFunction f), i.Tidy := by
  intro i hi
  rcases List.mem_append.mp hi with hslot | hlive
  · obtain ⟨p, hp, hi⟩ := List.mem_flatMap.mp hslot
    simp only [List.mem_cons, List.not_mem_nil, or_false] at hi
    rcases hi with rfl | rfl <;> exact h.params p hp
  · have hfrom := comesFrom_listFunction f _ (mem_of_mem_live hlive)
    cases i with
    | slot name => cases hfrom
    | store name => cases hfrom
    | load dest name => exact h.reads name hfrom
    | _ => trivial

/-! ### The first line -/

/-- The words of a list of parameters. -/
def paramWords : List String → List String
  | [] => []
  | [p] => ["double", "%" ++ p]
  | p :: ps => "double" :: ("%" ++ p) :: "," :: paramWords ps

/-- The words of the first line of a function. -/
def headerWords (f : Function) : List String :=
  "define" :: "double" :: ("@" ++ f.name) :: "(" :: (paramWords f.params ++ [")", "\x7b"])

theorem isWord_of_mem_headerWords {f : Function} (h : f.Named) :
    ∀ w ∈ headerWords f, w ∈ marks ∨ IsWord w := by
  have hparams : ∀ params : List String, (∀ p ∈ params, isIdentifier p = true) →
      ∀ w ∈ paramWords params, w ∈ marks ∨ IsWord w := by
    intro params hparams w hw
    induction params with
    | nil => cases hw
    | cons p ps ih =>
        have hp : IsWord ("%" ++ p) := isWord_register (hparams p (by simp))
        cases ps with
        | nil =>
            simp only [paramWords, List.mem_cons, List.not_mem_nil, or_false] at hw
            rcases hw with rfl | rfl
            · exact Or.inr (by decide)
            · exact Or.inr hp
        | cons q qs =>
            simp only [paramWords, List.mem_cons] at hw
            rcases hw with rfl | rfl | rfl | hw
            · exact Or.inr (by decide)
            · exact Or.inr hp
            · exact Or.inl (by decide)
            · exact ih (fun r hr => hparams r (by simp [hr])) hw
  intro w hw
  simp only [headerWords, List.mem_cons, List.mem_append, List.not_mem_nil, or_false] at hw
  rcases hw with rfl | rfl | rfl | rfl | hw | rfl | rfl
  · exact Or.inr (by decide)
  · exact Or.inr (by decide)
  · exact Or.inr (isWord_global h.name)
  · exact Or.inl (by decide)
  · exact hparams f.params h.params w hw
  · exact Or.inl (by decide)
  · exact Or.inr (by decide)

theorem layout_paramWords {params : List String} (h : ∀ p ∈ params, isIdentifier p = true) :
    layout (paramWords params ++ [")", "\x7b"]) =
      ", ".intercalate (params.map ("double %" ++ ·)) ++ ") \x7b" := by
  induction params with
  | nil => rfl
  | cons p ps ih =>
      have hp := (isWord_register (h p (by simp))).ne_marks
      cases ps with
      | nil =>
          apply String.ext
          simp [paramWords, layout, gap, marks, hp]
      | cons q qs =>
          obtain ⟨tail, htail⟩ : ∃ tail, paramWords (q :: qs) ++ [")", "\x7b"] = "double" :: tail := by
            cases qs <;> exact ⟨_, rfl⟩
          have hrest := ih fun r hr => h r (by simp [hr])
          rw [htail] at hrest
          have hwords : paramWords (p :: q :: qs) ++ [")", "\x7b"] =
              "double" :: ("%" ++ p) :: "," :: "double" :: tail := by
            rw [← htail]
            rfl
          rw [hwords, List.map_cons, List.map_cons, String.intercalate_cons_cons, String.append_assoc,
            ← List.map_cons, ← hrest]
          apply String.ext
          simp [layout, gap, marks, hp]

theorem headerText_eq_layout {f : Function} (h : f.Named) :
    headerText f = layout (headerWords f) := by
  have hname := (isWord_global h.name).ne_marks
  have hparams := layout_paramWords h.params
  unfold headerText headerWords
  generalize ", ".intercalate (f.params.map ("double %" ++ ·)) = text at hparams ⊢
  obtain ⟨w, tail, htail⟩ : ∃ w tail, paramWords f.params ++ [")", "\x7b"] = w :: tail := by
    cases paramWords f.params <;> exact ⟨_, _, rfl⟩
  rw [htail] at hparams ⊢
  rw [String.append_assoc, ← hparams]
  apply String.ext
  simp [layout, gap, marks, hname]

/-- The words of the first line are read from it. -/
theorem words_headerText {f : Function} (h : f.Named) : words (headerText f) = headerWords f := by
  rw [headerText_eq_layout h, words_layout _ (isWord_of_mem_headerWords h)]

/-- No line of a function with proper names holds a line feed. -/
theorem newline_not_mem_functionLines {f : Function} (h : f.Named) :
    ∀ line ∈ functionLines f, '\n' ∉ line.toList := by
  intro line hline
  simp only [functionLines, List.mem_cons, List.mem_append, List.not_mem_nil, or_false] at hline
  rcases hline with rfl | rfl | hbody | rfl
  · rw [headerText_eq_layout h]
    exact newline_not_mem_layout _ (isWord_of_mem_headerWords h)
  · decide
  · obtain ⟨i, hi, rfl⟩ := List.mem_map.mp hbody
    exact Instr.newline_not_mem_line (tidy_of_named h i hi)
  · decide

/-- The lines of a function with proper names are read back from its text. -/
theorem linesOf_functionLines {f : Function} (h : f.Named) :
    linesOf (textOf (functionLines f)) = headerText f :: "entry:" ::
      ((prologue f.params).map bodyLine ++
        ((live (listFunction f)).map bodyLine ++ ["\x7d", ""])) := by
  have hlines : functionLines f ++ [""] = headerText f :: "entry:" ::
      ((prologue f.params).map bodyLine ++
        ((live (listFunction f)).map bodyLine ++ ["\x7d", ""])) := by
    simp [functionLines]
  rw [← hlines]
  exact linesOf_textOf _ (newline_not_mem_functionLines h)

end IR

end TallyLang
