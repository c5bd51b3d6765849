/-
The code of a function is straight and well formed.

`Straight` says which lines may stand in a body, one after the other.  It keeps the
temporaries that hold a number and the count of those that have been defined: a line
defines the next one, uses only numbers, and a comparison, whose result is not a
number, is followed at once by its conversion.  A `ret` ends the body, so there is one
and it stands last.

The listing of a function need not be straight as it stands, since dead code in it
may use a value that nothing has computed.  Its live part is.  As in the simulation, an
expression either comes to its end, and then more lines can follow that use its value,
or it returns, and then whatever follows is cut off.
-/
import TallyLang.Proofs.IR.Code
import TallyLang.Proofs.Writable

namespace TallyLang

namespace IR

/-! ### Straight bodies -/

/-- The name of a temporary. -/
def temporary (n : Nat) : String := "%t" ++ toString n

/-- `Straight names numbers n lines`: the lines are a body, or the rest of one after `n`
temporaries have been defined, where `numbers` are those among them that hold a number and `names`
are the variables with a slot. -/
inductive Straight (names : List String) : List Nat → Nat → List String → Prop where
  | retZero {numbers : List Nat} {n : Nat} : Straight names numbers n ["  ret double 0.0"]
  | ret {numbers : List Nat} {n a : Nat} (ha : a ∈ numbers) :
      Straight names numbers n ["  ret double " ++ temporary a]
  | constant {numbers : List Nat} {n : Nat} {text : String} {lines : List String}
      (htext : IsConstant text) (h : Straight names (n :: numbers) (n + 1) lines) :
      Straight names numbers n (("  " ++ temporary n ++ " = fadd double 0.0, " ++ text) :: lines)
  | load {numbers : List Nat} {n : Nat} {x : String} {lines : List String} (hx : x ∈ names)
      (h : Straight names (n :: numbers) (n + 1) lines) :
      Straight names numbers n
        (("  " ++ temporary n ++ " = load double, double* %" ++ x ++ ".addr") :: lines)
  | arith {numbers : List Nat} {n a b : Nat} {mnemonic : String} {lines : List String}
      (hmnemonic : mnemonic ∈ ["fadd", "fsub", "fmul", "fdiv"]) (ha : a ∈ numbers)
      (hb : b ∈ numbers) (h : Straight names (n :: numbers) (n + 1) lines) :
      Straight names numbers n
        (("  " ++ temporary n ++ " = " ++ mnemonic ++ " double " ++ temporary a ++ ", " ++
          temporary b) :: lines)
  | compare {numbers : List Nat} {n a b : Nat} {lines : List String} (ha : a ∈ numbers)
      (hb : b ∈ numbers) (h : Straight names ((n + 1) :: numbers) (n + 2) lines) :
      Straight names numbers n
        (("  " ++ temporary n ++ " = fcmp olt double " ++ temporary a ++ ", " ++ temporary b) ::
          ("  " ++ temporary (n + 1) ++ " = uitofp i1 " ++ temporary n ++ " to double") :: lines)

theorem Straight.mono {xs ys : List String} {numbers : List Nat} {n : Nat} {lines : List String}
    (h : Straight xs numbers n lines) (hsub : ∀ x ∈ xs, x ∈ ys) : Straight ys numbers n lines := by
  induction h with
  | retZero => exact .retZero
  | ret ha => exact .ret ha
  | constant htext _ ih => exact .constant htext ih
  | load hx _ ih => exact .load (hsub _ hx) ih
  | arith hmnemonic ha hb _ ih => exact .arith hmnemonic ha hb ih
  | compare ha hb _ ih => exact .compare ha hb ih

/-! ### Listings -/

/-- The live part of the entries is straight, if they have no fault. -/
def Laid (names : List String) (numbers : List Nat) (n : Nat) (entries : List Entry) : Prop :=
  firstFault? entries = none → Straight names numbers n ((live entries).map bodyLine)

theorem laid_fault {names : List String} {numbers : List Nat} {n : Nat} (c : Char) (loc : Location)
    (rest : List Entry) : Laid names numbers n (.fault c loc :: rest) := by
  intro hfault
  cases hfault

theorem laid_cons {names : List String} {numbers numbers' : List Nat} {n n' : Nat} {i : Instr}
    {rest : List Entry} (hret : i.isRet = false)
    (h : ∀ lines, Straight names numbers' n' lines → Straight names numbers n (bodyLine i :: lines))
    (hrest : Laid names numbers' n' rest) : Laid names numbers n (.instr i :: rest) := by
  intro hfault
  rw [firstFault?_cons hret] at hfault
  rw [live_cons hret, List.map_cons]
  exact h _ (hrest hfault)

/-- What a listing leaves when `n` temporaries have been taken: more entries may follow that use its
value, or it returns and the rest is dead. -/
def Lays (names : List String) (numbers : List Nat) (n : Nat) (l : Listing) : Prop :=
  (∃ numbers' j, (∀ k ∈ numbers, k ∈ numbers') ∧ j ∈ numbers' ∧ l.temps = j + 1 ∧
    l.value = .temp j ∧
    ∀ rest, Laid names numbers' l.temps rest → Laid names numbers n (l.entries ++ rest)) ∨
  ∀ rest, Laid names numbers n (l.entries ++ rest)

/-- One listing after another, where the second is laid out after whatever the first leaves. -/
theorem Lays.andThen {names : List String} {numbers : List Nat} {n : Nat} {l : Listing}
    {next : Operand → Nat → Listing} (h : Lays names numbers n l)
    (hnext : ∀ numbers' j, (∀ k ∈ numbers, k ∈ numbers') → j ∈ numbers' → l.temps = j + 1 →
      l.value = .temp j → Lays names numbers' l.temps (next l.value l.temps)) :
    Lays names numbers n (l.andThen next) := by
  have hentries : ∀ rest, (l.andThen next).entries ++ rest =
      l.entries ++ ((next l.value l.temps).entries ++ rest) :=
    fun rest => List.append_assoc _ _ _
  rcases h with ⟨numbers', j, hsub, hj, htemps, hvalue, hlaid⟩ | hdead
  · rcases hnext numbers' j hsub hj htemps hvalue with
      ⟨numbers'', j', hsub', hj', htemps', hvalue', hlaid'⟩ | hdead'
    · refine Or.inl ⟨numbers'', j', fun k hk => hsub' k (hsub k hk), hj', htemps', hvalue', ?_⟩
      intro rest hrest
      rw [hentries]
      exact hlaid _ (hlaid' rest hrest)
    · refine Or.inr ?_
      intro rest
      rw [hentries]
      exact hlaid _ (hdead' rest)
  · refine Or.inr ?_
    intro rest
    rw [hentries]
    exact hdead _

/-- An instruction that puts a number in the next temporary. -/
theorem lays_define {names : List String} {numbers : List Nat} {n : Nat} {instr : Nat → Instr}
    (hret : (instr n).isRet = false)
    (h : ∀ lines, Straight names (n :: numbers) (n + 1) lines →
      Straight names numbers n (bodyLine (instr n) :: lines)) :
    Lays names numbers n (.define instr n) := by
  refine Or.inl ⟨n :: numbers, n, fun k hk => List.mem_cons_of_mem n hk, List.mem_cons_self, rfl,
    rfl, ?_⟩
  intro rest hrest
  exact laid_cons hret h hrest

theorem lays_arith {names : List String} {numbers : List Nat} {n a b : Nat} (op : Arith)
    (ha : a ∈ numbers) (hb : b ∈ numbers) :
    Lays names numbers n (.define (.arith · op (.temp a) (.temp b)) n) := by
  refine lays_define rfl ?_
  intro lines h
  have hmnemonic : op.text ∈ ["fadd", "fsub", "fmul", "fdiv"] := by cases op <;> decide
  have hline : bodyLine (.arith n op (.temp a) (.temp b)) = "  " ++ temporary n ++ " = " ++
      op.text ++ " double " ++ temporary a ++ ", " ++ temporary b := by
    simp only [bodyLine, Instr.text, Instr.define, Operand.text, temporary, String.append_assoc]
  rw [hline]
  exact .arith hmnemonic ha hb h

/-- A comparison and its conversion come together. -/
theorem lays_less {names : List String} {numbers : List Nat} {n a b : Nat} (loc : Location)
    (ha : a ∈ numbers) (hb : b ∈ numbers) :
    Lays names numbers n (listOperator .less loc (.temp a) (.temp b) n) := by
  refine Or.inl ⟨(n + 1) :: numbers, n + 1, fun k hk => List.mem_cons_of_mem _ hk,
    List.mem_cons_self, rfl, rfl, ?_⟩
  intro rest hrest hfault
  have hless : bodyLine (.less n (.temp a) (.temp b)) = "  " ++ temporary n ++
      " = fcmp olt double " ++ temporary a ++ ", " ++ temporary b := by
    simp only [bodyLine, Instr.text, Instr.define, Operand.text, temporary, String.append_assoc]
    rfl
  have hwiden : bodyLine (.widen (n + 1) (.temp n)) = "  " ++ temporary (n + 1) ++
      " = uitofp i1 " ++ temporary n ++ " to double" := by
    simp only [bodyLine, Instr.text, Instr.define, Operand.text, temporary, String.append_assoc]
    rfl
  show Straight names numbers n (bodyLine (.less n (.temp a) (.temp b)) ::
    bodyLine (.widen (n + 1) (.temp n)) :: (live rest).map bodyLine)
  rw [hless, hwiden]
  exact .compare ha hb (hrest hfault)

theorem lays_listOperator {names : List String} {numbers : List Nat} {n a b : Nat} (op : Operator)
    (loc : Location) (ha : a ∈ numbers) (hb : b ∈ numbers) :
    Lays names numbers n (listOperator op loc (.temp a) (.temp b) n) := by
  cases op with
  | less => exact lays_less loc ha hb
  | unsupported c => exact Or.inr fun rest => laid_fault c loc rest
  | add => exact lays_arith .fadd ha hb
  | sub => exact lays_arith .fsub ha hb
  | mul => exact lays_arith .fmul ha hb
  | div => exact lays_arith .fdiv ha hb

theorem laid_ret {names : List String} {numbers : List Nat} {n : Nat} {a : Operand}
    (ha : a = .zero ∨ ∃ j ∈ numbers, a = .temp j) (rest : List Entry) :
    Laid names numbers n (.instr (.ret a) :: rest) := by
  intro _
  rcases ha with rfl | ⟨j, hj, rfl⟩
  · exact .retZero
  · exact .ret hj

mutual

/-- The listing of an expression can be laid out wherever it stands. -/
theorem lays_listExpr {names : List String} : ∀ (e : Expr) (numbers : List Nat) (n : Nat),
    (∀ x ∈ e.reads, x ∈ names) → Lays names numbers n (listExpr e n)
  | .num value, numbers, n, _ => by
      refine lays_define rfl ?_
      intro lines h
      have hline : bodyLine (.const n value) =
          "  " ++ temporary n ++ " = fadd double 0.0, " ++ value.constantText := by
        simp only [bodyLine, Instr.text, Instr.define, Operand.text, temporary,
          String.append_assoc]
        rfl
      rw [hline]
      exact .constant value.isConstant_constantText h
  | .var name, numbers, n, hnames => by
      refine lays_define rfl ?_
      intro lines h
      have hline : bodyLine (.load n name) =
          "  " ++ temporary n ++ " = load double, double* %" ++ name ++ ".addr" := by
        simp only [bodyLine, Instr.text, Instr.define, Instr.slotName, Operand.text, temporary,
          String.append_assoc]
        rfl
      rw [hline]
      exact .load (hnames name (List.mem_singleton.mpr rfl)) h
  | .bin op left right loc, numbers, n, hnames => by
      rw [Expr.reads] at hnames
      rw [listExpr]
      refine (lays_listExpr left numbers n fun x hx =>
        hnames x (List.mem_append_left _ hx)).andThen ?_
      intro numbers₁ i _ hi _ hvalue₁
      refine (lays_listExpr right numbers₁ _ fun x hx =>
        hnames x (List.mem_append_right _ hx)).andThen ?_
      intro numbers₂ j hsub hj _ hvalue₂
      rw [hvalue₁, hvalue₂]
      exact lays_listOperator op loc (hsub i hi) hj
  | .ret value _, numbers, n, hnames => by
      rw [Expr.reads] at hnames
      rw [listExpr]
      refine (lays_listExpr value numbers n hnames).andThen ?_
      intro numbers' j _ hj _ hvalue
      rw [hvalue]
      exact Or.inr (laid_ret (Or.inr ⟨j, hj, rfl⟩))
  | .block stmts _, numbers, n, hnames => by
      rw [Expr.reads] at hnames
      rw [listExpr]
      exact lays_listBlock stmts numbers n hnames

theorem lays_listBlock {names : List String} : ∀ (stmts : List Expr) (numbers : List Nat) (n : Nat),
    (∀ x ∈ Expr.readsOf stmts, x ∈ names) → Lays names numbers n (listBlock stmts n)
  | [], numbers, n, _ => by
      rw [listBlock]
      exact Or.inr (laid_ret (Or.inl rfl))
  | stmt :: rest, numbers, n, hnames => by
      rw [Expr.readsOf] at hnames
      rw [listBlock]
      refine (lays_listExpr stmt numbers n fun x hx =>
        hnames x (List.mem_append_left _ hx)).andThen ?_
      intro numbers' j _ hj htemps _
      rw [htemps]
      exact lays_listStatements rest numbers' j hj fun x hx =>
        hnames x (List.mem_append_right _ hx)

/-- Statements follow a statement whose value is in the most recent temporary. -/
theorem lays_listStatements {names : List String} :
    ∀ (stmts : List Expr) (numbers : List Nat) (j : Nat), j ∈ numbers →
    (∀ x ∈ Expr.readsOf stmts, x ∈ names) →
    Lays names numbers (j + 1) (listStatements stmts (j + 1))
  | [], numbers, j, hj, _ =>
      Or.inl ⟨numbers, j, fun _ hk => hk, hj, rfl, rfl, fun _ hrest => hrest⟩
  | stmt :: rest, numbers, j, _, hnames => by
      rw [Expr.readsOf] at hnames
      rw [listStatements]
      refine (lays_listExpr stmt numbers (j + 1) fun x hx =>
        hnames x (List.mem_append_left _ hx)).andThen ?_
      intro numbers' i _ hi htemps _
      rw [htemps]
      exact lays_listStatements rest numbers' i hi fun x hx =>
        hnames x (List.mem_append_right _ hx)

end

/-! ### Compiled functions -/

/-- The body of a function without a fault is straight. -/
theorem straight_live {f : Function} (h : firstFault? (listFunction f) = none) :
    Straight (Expr.readsOf f.body) [] 0 ((live (listFunction f)).map bodyLine) := by
  have hlaid : Laid (Expr.readsOf f.body) [] 0 (listFunction f) := by
    rcases lays_listBlock f.body [] 0 fun x hx => hx with ⟨numbers, j, _, _, _, _, hlaid⟩ | hdead
    · exact hlaid _ (laid_ret (Or.inl rfl) [])
    · exact hdead _
  exact hlaid h

/-- The code of a source is the lines of its function. -/
theorem compile_eq_ok {source ir : String} {f : Function} (hcompile : compile source = .ok ir)
    (hcheck : check source = .ok f) :
    firstFault? (listFunction f) = none ∧ ir = textOf (functionLines f) := by
  have hgenerate : (generate f).mapError EmitError.diagnostic = .ok ir := by
    rw [compile, hcheck] at hcompile
    exact hcompile
  rw [generate, emitFunction_result] at hgenerate
  cases hfault : firstFault? (listFunction f) with
  | some fault =>
      rw [hfault] at hgenerate
      cases hgenerate
  | none =>
      rw [hfault] at hgenerate
      cases hgenerate
      exact ⟨rfl, rfl⟩

/-- The lines that make the slots of the parameters. -/
def slotLines (params : List String) : List String :=
  params.flatMap fun p =>
    ["  %" ++ p ++ ".addr = alloca double", "  store double %" ++ p ++ ", double* %" ++ p ++ ".addr"]

theorem map_bodyLine_prologue (params : List String) :
    (prologue params).map bodyLine = slotLines params := by
  induction params with
  | nil => rfl
  | cons p params ih =>
      have hslot : bodyLine (.slot p) = "  %" ++ p ++ ".addr = alloca double" := by
        apply String.ext
        simp [bodyLine, Instr.text, Instr.slotName]
      have hstore : bodyLine (.store p) =
          "  store double %" ++ p ++ ", double* %" ++ p ++ ".addr" := by
        apply String.ext
        simp [bodyLine, Instr.text, Instr.slotName]
      show bodyLine (.slot p) :: bodyLine (.store p) :: (prologue params).map bodyLine = _
      rw [hslot, hstore, ih]
      rfl

/-- The code of a source whose variables are parameters is the first line of its function, a label,
the slots of the parameters, and a straight body that loads only from these slots. -/
theorem compile_straight {source ir : String} {f : Function} (hcompile : compile source = .ok ir)
    (hcheck : check source = .ok f) (hscope : ∀ x ∈ Expr.readsOf f.body, x ∈ f.params) :
    ∃ body, Straight f.params [] 0 body ∧
      linesOf ir =
        ("define double @" ++ f.name ++ "(" ++ ", ".intercalate (f.params.map ("double %" ++ ·)) ++
          ") \x7b") :: "entry:" :: (slotLines f.params ++ body ++ ["\x7d", ""]) := by
  obtain ⟨hfault, rfl⟩ := compile_eq_ok hcompile hcheck
  refine ⟨(live (listFunction f)).map bodyLine, (straight_live hfault).mono hscope, ?_⟩
  have hlines := linesOf_functionLines (named_of_check hcheck)
  rw [map_bodyLine_prologue, ← List.append_assoc] at hlines
  exact hlines

/-- A return inside an operand cuts the body off before the sum. -/
theorem compile_straight_returned :
    ∃ ir f, compile "func f(a, b) \x7b b + return a < b; ; \x7d" = .ok ir ∧
      check "func f(a, b) \x7b b + return a < b; ; \x7d" = .ok f ∧
      (∀ x ∈ Expr.readsOf f.body, x ∈ f.params) ∧
      ∃ body, Straight f.params [] 0 body ∧
        linesOf ir = ("define double @" ++ f.name ++ "(" ++
          ", ".intercalate (f.params.map ("double %" ++ ·)) ++ ") \x7b") :: "entry:" ::
            (slotLines f.params ++ body ++ ["\x7d", ""]) := by
  have hcheck : check "func f(a, b) \x7b b + return a < b; ; \x7d" = .ok ⟨"f", ["a", "b"],
      [.bin .add (.var "b") (.ret (.bin .less (.var "a") (.var "b") ⟨1, 29⟩) ⟨1, 20⟩) ⟨1, 18⟩],
      ⟨1, 16⟩, ⟨1, 1⟩⟩ := by
    with_unfolding_all rfl
  have hok : (compile "func f(a, b) \x7b b + return a < b; ; \x7d").isOk = true := by
    decide +kernel
  cases hcompile : compile "func f(a, b) \x7b b + return a < b; ; \x7d" with
  | error e =>
      rw [hcompile] at hok
      cases hok
  | ok ir =>
      refine ⟨ir, _, rfl, hcheck, by decide, ?_⟩
      exact compile_straight hcompile hcheck (by decide)

end IR

end TallyLang
