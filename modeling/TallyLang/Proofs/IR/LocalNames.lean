/-
The local names that code introduces.

Parameters, slots, temporaries and the label of the only block share one space of
names.  `localNames` reads them off the text: the registers in the first line, the
label, and whatever stands to the left of an equals sign.

A slot has a point in its name and can meet no other name, and the temporaries are
numbered.  But parameters are named by the source, and nothing keeps them from having
the name of the label or of a temporary.  `nodup_localNames_iff` says that this is all
that can go wrong: every name is introduced once exactly if no parameter is called
`entry` and none is called like one of the temporaries that the body takes.
-/
import TallyLang.Proofs.IR.Shape

namespace TallyLang

namespace IR

/-! ### Reading the names off the text -/

/-- Whether a word is a local name. -/
def isLocal (word : String) : Bool := word.toList.head? = some '%'

/-- The local names that a line introduces: what it assigns to, the parameters of a first line, or
the label of a block. -/
def introduced (line : String) : List String :=
  match words line with
  | dest :: "=" :: _ => [dest]
  | "define" :: rest => rest.filter isLocal
  | [label] =>
    if label.toList.getLast? = some ':' then ["%" ++ String.ofList label.toList.dropLast] else []
  | _ => []

/-- The local names that a text introduces, in order. -/
def localNames (text : String) : List String := (linesOf text).flatMap introduced

theorem words_assignment {dest : String} (h : IsWord dest) (rhs : String) :
    words ("  " ++ dest ++ " = " ++ rhs) = dest :: "=" :: words rhs := by
  rw [String.append_assoc, String.append_assoc, words_indented, words, String.toList_append,
    wordsFrom_plain dest.toList h.2, List.nil_append, String.toList_append]
  show wordsFrom dest.toList (' ' :: '=' :: ' ' :: rhs.toList) = _
  rw [wordsFrom_blank, flush_of_isWord h]
  show dest :: wordsFrom ['='] (' ' :: rhs.toList) = _
  rw [wordsFrom_blank]
  rfl

theorem introduced_assignment {dest : String} (h : IsWord dest) (rhs : String) :
    introduced ("  " ++ dest ++ " = " ++ rhs) = [dest] := by
  rw [introduced, words_assignment h]
  rfl

theorem isWord_temporary (n : Nat) : IsWord (temporary n) := Operand.isWord_text (.temp n)

/-- A line that assigns to the next temporary puts it in front of those that follow. -/
theorem introduced_cons {n count : Nat} {line : String} {lines : List String} (rhs : String)
    (hline : line = "  " ++ temporary n ++ " = " ++ rhs)
    (h : lines.flatMap introduced = (List.range' (n + 1) count).map temporary) :
    (line :: lines).flatMap introduced = (List.range' n (count + 1)).map temporary := by
  rw [List.flatMap_cons, hline, introduced_assignment (isWord_temporary n), h]
  rfl

/-- A straight body introduces its temporaries, one after the other. -/
theorem Straight.introduced_eq {names : List String} {numbers : List Nat} {n : Nat}
    {lines : List String} (h : Straight names numbers n lines) :
    ∃ count, lines.flatMap introduced = (List.range' n count).map temporary := by
  induction h with
  | retZero => exact ⟨0, rfl⟩
  | @ret numbers n a _ =>
      refine ⟨0, ?_⟩
      have hwords : words ("  ret double " ++ temporary a) = ["ret", "double", temporary a] :=
        Instr.words_line (i := .ret (.temp a)) trivial
      rw [List.flatMap_singleton, introduced, hwords]
      rfl
  | @constant numbers n text lines _ _ ih =>
      obtain ⟨count, hcount⟩ := ih
      refine ⟨count + 1, introduced_cons ("fadd double 0.0, " ++ text) ?_ hcount⟩
      simp only [String.append_assoc]
      rfl
  | @load numbers n x lines _ _ ih =>
      obtain ⟨count, hcount⟩ := ih
      refine ⟨count + 1, introduced_cons ("load double, double* %" ++ x ++ ".addr") ?_ hcount⟩
      simp only [String.append_assoc]
      rfl
  | @arith numbers n a b mnemonic lines _ _ _ _ ih =>
      obtain ⟨count, hcount⟩ := ih
      refine ⟨count + 1, introduced_cons
        (mnemonic ++ " double " ++ temporary a ++ ", " ++ temporary b) ?_ hcount⟩
      simp only [String.append_assoc]
  | @compare numbers n a b lines _ _ _ ih =>
      obtain ⟨count, hcount⟩ := ih
      refine ⟨count + 2, introduced_cons ("fcmp olt double " ++ temporary a ++ ", " ++ temporary b)
        ?_ (introduced_cons ("uitofp i1 " ++ temporary n ++ " to double") ?_ hcount)⟩
      · simp only [String.append_assoc]
        rfl
      · simp only [String.append_assoc]
        rfl

theorem filter_isLocal_paramWords (params : List String) :
    (paramWords params).filter isLocal = params.map ("%" ++ ·) := by
  have hlocal : ∀ p : String, isLocal ("%" ++ p) = true := by
    intro p
    rw [isLocal, String.toList_append]
    rfl
  induction params with
  | nil => rfl
  | cons p params ih =>
      cases params with
      | nil =>
          show List.filter isLocal ["double", "%" ++ p] = _
          rw [List.filter_cons_of_neg (by decide), List.filter_cons_of_pos (hlocal p)]
          rfl
      | cons q qs =>
          show List.filter isLocal ("double" :: ("%" ++ p) :: "," :: paramWords (q :: qs)) = _
          rw [List.filter_cons_of_neg (by decide), List.filter_cons_of_pos (hlocal p),
            List.filter_cons_of_neg (by decide), ih]
          rfl

/-- The first line introduces the parameters. -/
theorem introduced_headerText {f : Function} (h : f.Named) :
    introduced (headerText f) = f.params.map ("%" ++ ·) := by
  have hglobal : ¬ isLocal ("@" ++ f.name) = true := by
    rw [isLocal, String.toList_append]
    exact Bool.noConfusion
  have hrest : introduced (headerText f) = (("double" :: ("@" ++ f.name) :: "(" ::
      (paramWords f.params ++ [")", "\x7b"])).filter isLocal) := by
    rw [introduced, words_headerText h]
    rfl
  rw [hrest, List.filter_cons_of_neg (by decide), List.filter_cons_of_neg hglobal,
    List.filter_cons_of_neg (by decide), List.filter_append, filter_isLocal_paramWords]
  exact List.append_nil _

/-- The two lines of a parameter introduce its slot. -/
theorem introduced_prologue {params : List String} (h : ∀ p ∈ params, isIdentifier p = true) :
    ((prologue params).map bodyLine).flatMap introduced = params.map Instr.slotName := by
  induction params with
  | nil => rfl
  | cons p params ih =>
      have hp : isIdentifier p = true := h p List.mem_cons_self
      have hslot : introduced (bodyLine (.slot p)) = [Instr.slotName p] := by
        rw [introduced, bodyLine, Instr.words_line (i := .slot p) hp]
        rfl
      have hstore : introduced (bodyLine (.store p)) = [] := by
        rw [introduced, bodyLine, Instr.words_line (i := .store p) hp]
        rfl
      show introduced (bodyLine (.slot p)) ++ (introduced (bodyLine (.store p)) ++
        ((prologue params).map bodyLine).flatMap introduced) = _
      rw [hslot, hstore, ih fun q hq => h q (List.mem_cons_of_mem p hq)]
      rfl

/-- The local names of the code of a function. -/
theorem localNames_functionLines {f : Function} (h : f.Named)
    (hfault : firstFault? (listFunction f) = none) :
    ∃ count, localNames (textOf (functionLines f)) = f.params.map ("%" ++ ·) ++
      "%entry" :: (f.params.map Instr.slotName ++ (List.range count).map temporary) := by
  obtain ⟨count, hcount⟩ := (straight_live hfault).introduced_eq
  refine ⟨count, ?_⟩
  have hentry : introduced "entry:" = ["%entry"] := by decide
  have hend : ["\x7d", ""].flatMap introduced = [] := by decide
  rw [localNames, linesOf_functionLines h, List.flatMap_cons, List.flatMap_cons,
    List.flatMap_append, List.flatMap_append, introduced_headerText h, hentry,
    introduced_prologue h.params, hcount, hend, List.append_nil, ← List.range_eq_range']
  rfl

/-! ### When they are distinct -/

theorem register_injective {p q : String} (h : "%" ++ p = "%" ++ q) : p = q := by
  have hlist := congrArg String.toList h
  rw [String.toList_append, String.toList_append, List.append_cancel_left_eq] at hlist
  exact String.toList_inj.mp hlist

theorem temporary_eq (k : Nat) : temporary k = "%" ++ ("t" ++ toString k) := by
  rw [← String.append_assoc]
  rfl

/-- The names that do not come from the source are distinct. -/
theorem nodup_generated {params : List String} (hnodup : params.Nodup) (count : Nat) :
    ("%entry" :: (params.map Instr.slotName ++ (List.range count).map temporary)).Nodup := by
  refine List.nodup_cons.mpr ⟨?_, List.nodup_append.mpr ⟨?_, ?_, ?_⟩⟩
  · intro hmem
    rcases List.mem_append.mp hmem with hslot | htemp
    · obtain ⟨p, _, heq⟩ := List.mem_map.mp hslot
      have hpoint := point_mem_slotName p
      rw [heq] at hpoint
      exact absurd hpoint (by decide)
    · obtain ⟨k, _, heq⟩ := List.mem_map.mp htemp
      rw [temporary_eq] at heq
      have hhead := congrArg (fun s => s.toList.head?) (register_injective (q := "entry") heq)
      simp only [String.toList_append] at hhead
      cases hhead
  · exact List.Pairwise.map _ (fun p q hne heq => hne (slotName_injective heq)) hnodup
  · exact List.Pairwise.map _ (fun i j hne heq => temp_ne_temp hne heq) List.nodup_range
  · intro a ha b hb heq
    obtain ⟨p, _, rfl⟩ := List.mem_map.mp ha
    obtain ⟨k, _, rfl⟩ := List.mem_map.mp hb
    exact ne_temp_of_point (point_mem_slotName p) k heq

/-- A parameter meets one of the other names exactly if it is called like the label or like one of
the temporaries. -/
theorem forall_ne_generated_iff {params : List String} (h : ∀ p ∈ params, isIdentifier p = true)
    (count : Nat) :
    (∀ a ∈ params.map ("%" ++ ·), ∀ b ∈ "%entry" :: (params.map Instr.slotName ++
      (List.range count).map temporary), a ≠ b) ↔
      "entry" ∉ params ∧ ∀ k < count, "t" ++ toString k ∉ params := by
  constructor
  · intro hne
    refine ⟨?_, ?_⟩
    · intro hmem
      exact hne _ (List.mem_map_of_mem hmem) "%entry" List.mem_cons_self rfl
    · intro k hk hmem
      refine hne _ (List.mem_map_of_mem hmem) (temporary k) ?_ (temporary_eq k).symm
      exact List.mem_cons_of_mem _ (List.mem_append_right _
        (List.mem_map_of_mem (List.mem_range.mpr hk)))
  · rintro ⟨hentry, htemps⟩ a ha b hb heq
    obtain ⟨p, hp, rfl⟩ := List.mem_map.mp ha
    rcases List.mem_cons.mp hb with rfl | hb
    · have hname : p = "entry" := register_injective heq
      exact hentry (hname ▸ hp)
    · rcases List.mem_append.mp hb with hslot | htemp
      · obtain ⟨q, _, rfl⟩ := List.mem_map.mp hslot
        exact register_ne_slotName (h p hp) q heq
      · obtain ⟨k, hk, rfl⟩ := List.mem_map.mp htemp
        rw [temporary_eq] at heq
        exact htemps k (List.mem_range.mp hk) (register_injective heq ▸ hp)

/-- The local names of compiled code are its parameters, its label, its slots and its temporaries,
and they are distinct exactly if no parameter is called like the label or like a temporary. -/
theorem nodup_localNames_iff {source ir : String} (h : compile source = .ok ir) :
    ∃ f count, check source = .ok f ∧
      localNames ir = f.params.map ("%" ++ ·) ++
        "%entry" :: (f.params.map (fun p => "%" ++ p ++ ".addr") ++
          (List.range count).map fun k => "%t" ++ toString k) ∧
      ((localNames ir).Nodup ↔
        "entry" ∉ f.params ∧ ∀ k < count, "t" ++ toString k ∉ f.params) := by
  obtain ⟨f, hcheck⟩ : ∃ f, check source = .ok f := by
    cases hcheck : check source with
    | ok f => exact ⟨f, rfl⟩
    | error e =>
        rw [compile, hcheck] at h
        cases h
  obtain ⟨hfault, rfl⟩ := compile_eq_ok h hcheck
  have hnamed := named_of_check hcheck
  have hnodup := nodup_params_of_check hcheck
  obtain ⟨count, hnames⟩ := localNames_functionLines hnamed hfault
  refine ⟨f, count, hcheck, hnames, ?_⟩
  have hparams : (f.params.map ("%" ++ ·)).Nodup :=
    List.Pairwise.map _ (fun p q hne heq => hne (register_injective heq)) hnodup
  rw [hnames, List.nodup_append, ← forall_ne_generated_iff hnamed.params count]
  constructor
  · intro hall
    exact hall.2.2
  · intro hne
    exact ⟨hparams, nodup_generated hnodup count, hne⟩

/-- A parameter that is called like the first temporary is defined twice. -/
theorem nodup_localNames_iff_shadowed :
    ∃ ir, compile "func f(t0) \x7b return t0; \x7d" = .ok ir ∧ ¬ (localNames ir).Nodup ∧
      ∃ f count, check "func f(t0) \x7b return t0; \x7d" = .ok f ∧
        localNames ir = f.params.map ("%" ++ ·) ++
          "%entry" :: (f.params.map (fun p => "%" ++ p ++ ".addr") ++
            (List.range count).map fun k => "%t" ++ toString k) ∧
        ((localNames ir).Nodup ↔
          "entry" ∉ f.params ∧ ∀ k < count, "t" ++ toString k ∉ f.params) := by
  have htwice : ((compile "func f(t0) \x7b return t0; \x7d").toOption.any fun ir =>
      decide (¬ (localNames ir).Nodup)) = true := by
    decide +kernel
  cases hcompile : compile "func f(t0) \x7b return t0; \x7d" with
  | error e =>
      rw [hcompile] at htwice
      cases htwice
  | ok ir =>
      rw [hcompile] at htwice
      exact ⟨ir, rfl, of_decide_eq_true htwice, nodup_localNames_iff hcompile⟩

end IR

end TallyLang
