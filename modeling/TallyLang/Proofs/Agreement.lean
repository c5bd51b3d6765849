/-
The two tools agree with each other and with `compile`.

The compiler hands its code over in one of three ways: in a file, between two rules on
standard output, or there with at most a prompt before it.  `Options.delivered` takes the
code from what a run leaves behind, by the options alone.  Between rules this works
because no line of the code is a rule: its lines begin with a `d`, an `e`, a blank or a
brace (`startsWithout_of_mem_functionLines`).

The checker has no options but its input and its verbosity (`bare_of_readArgs`), so all
that it prints on standard output is one line.  Both tools fail for the same reasons until
there is a function, and then neither can fail, unless the compiler has a file to write.
-/
import TallyLang.Proofs.ErrorLine
import TallyLang.Proofs.Outcome

namespace TallyLang

open IR (linesOf textOf functionLines headerText bodyLine)

/-! ### What the checker can be asked -/

/-- Options that say nothing but where the source is and how much to log. -/
def Options.Bare (o : Options) : Prop := o = { input := o.input, verbose := o.verbose }

namespace ArgState

/-- Arguments read so far that ask for nothing else, with no output held back. -/
structure Bare (s : ArgState) : Prop where
  options : s.options.Bare
  held : ∀ value?, s.held ≠ some (.output value?)

theorem Bare.settle {s s' : ArgState} (h : s.Bare) (hs : s.settle = .ok s') : s'.Bare := by
  rw [ArgState.settle] at hs
  cases hheld : s.held with
  | none =>
      rw [hheld] at hs
      cases hs
      exact h
  | some held =>
      cases held with
      | output value? => exact absurd hheld (h.held value?)
      | input value =>
          simp only [hheld] at hs
          split at hs
          · cases hs
          · cases hs
            refine ⟨?_, by simp⟩
            have hoptions := h.options
            rw [Options.Bare] at hoptions ⊢
            rw [hoptions]

/-- Of the switches that the checker knows only the verbosity lets it go on. -/
theorem Bare.takeSwitch {s s' : ArgState} {switch : Switch} (h : s.Bare)
    (hswitch : switch ∈ Tool.checker.switches) (hs : s.takeSwitch switch = .ok s') : s'.Bare := by
  obtain ⟨settled, hsettled, hs⟩ := exists_of_bind_eq_ok hs
  have hbare := h.settle hsettled
  simp only [Tool.switches, List.mem_cons, List.not_mem_nil, or_false] at hswitch
  rcases hswitch with rfl | rfl | rfl
  · cases hs
    refine ⟨?_, hbare.held⟩
    have hoptions := hbare.options
    rw [Options.Bare] at hoptions ⊢
    rw [hoptions]
  · cases hs
  · cases hs

theorem Bare.takeLong {s s' : ArgState} {rest : List Char} (h : s.Bare)
    (hs : s.takeLong .checker rest = .ok s') : s'.Bare := by
  rw [ArgState.takeLong] at hs
  split at hs
  · cases hs
  · rename_i switch hfound
    have hswitch : switch ∈ Tool.checker.switches := List.mem_of_find?_eq_some hfound
    split at hs
    · exact h.takeSwitch hswitch hs
    · -- no switch of the checker takes a value
      simp only [Tool.switches, List.mem_cons, List.not_mem_nil, or_false] at hswitch
      rcases hswitch with rfl | rfl | rfl <;> cases hs

theorem Bare.takeLetters {letters : List Char} : ∀ {s s' : ArgState}, s.Bare →
    s.takeLetters .checker letters = .ok s' → s'.Bare := by
  induction letters with
  | nil =>
      intro s s' h hs
      cases hs
      exact h
  | cons c rest ih =>
      intro s s' h hs
      unfold ArgState.takeLetters at hs
      split at hs
      · cases hs
      · rename_i hfound
        exact absurd (List.mem_of_find?_eq_some hfound) (by decide)
      · rename_i switch _ hfound
        obtain ⟨taken, htaken, hs⟩ := exists_of_bind_eq_ok hs
        exact ih (h.takeSwitch (List.mem_of_find?_eq_some hfound) htaken) hs

theorem Bare.takeInput {s s' : ArgState} {arg : String} (h : s.Bare)
    (hs : s.takeInput arg = .ok s') : s'.Bare := by
  rw [ArgState.takeInput] at hs
  split at hs
  · cases hs
  · obtain ⟨settled, hsettled, hs⟩ := exists_of_bind_eq_ok hs
    cases hs
    exact ⟨(h.settle hsettled).options, by simp⟩

theorem Bare.takePlain {s s' : ArgState} {arg : String} (h : s.Bare)
    (hs : s.takePlain arg = .ok s') : s'.Bare := by
  rw [ArgState.takePlain] at hs
  split at hs
  · rename_i hheld
    exact absurd hheld (h.held none)
  · exact h.takeInput hs

theorem Bare.take {s s' : ArgState} {arg : String} (h : s.Bare)
    (hs : s.take .checker arg = .ok s') : s'.Bare := by
  rw [ArgState.take] at hs
  split at hs
  · exact h.takeInput hs
  · split at hs
    · cases hs
      exact ⟨h.options, h.held⟩
    · exact h.takeLong hs
    · exact h.takePlain hs
    · exact h.takeLetters hs
    · exact h.takePlain hs

theorem Bare.foldlM_take {args : List String} : ∀ {s s' : ArgState}, s.Bare →
    args.foldlM (ArgState.take .checker) s = .ok s' → s'.Bare := by
  induction args with
  | nil =>
      intro s s' h hs
      cases hs
      exact h
  | cons arg args ih =>
      intro s s' h hs
      rw [List.foldlM_cons] at hs
      obtain ⟨taken, htaken, hs⟩ := exists_of_bind_eq_ok hs
      exact ih (h.take htaken) hs

end ArgState

/-- The checker is never asked for anything but a source and a log. -/
theorem bare_of_readArgs {args : List String} {o : Options}
    (h : Tool.checker.readArgs args = .ok o) : o.Bare := by
  obtain ⟨read, hread, h⟩ := ArgState.exists_of_bind_eq_ok h
  obtain ⟨settled, hsettled, h⟩ := ArgState.exists_of_bind_eq_ok h
  cases h
  have hstart : ArgState.Bare {} := ⟨rfl, by simp⟩
  exact ((hstart.foldlM_take hread).settle hsettled).options

/-! ### The code that a run delivers -/

/-- The line above and below the code. -/
def ruleLine : String := "=================="

/-- What stands between the first two rules of a text. -/
def betweenRules (text : String) : String :=
  textOf ((((linesOf text).dropWhile (· ≠ ruleLine)).drop 1).takeWhile (· ≠ ruleLine))

/-- A text without the prompt that it may begin with. -/
def afterPrompt (text : String) : String :=
  if "Enter code:\n".toList.isPrefixOf text.toList then
    String.ofList (text.toList.drop "Enter code:\n".length)
  else text

/-- The code that a run of the compiler delivers, taken from what it leaves: the content of the output
file, what stands between the rules on standard output, or all that comes there after the prompt. -/
def Options.delivered (o : Options) (out : Outcome) : Except SystemError ByteArray :=
  match o.output with
  | some path => out.tree.read path
  | none => .ok (if o.frame then betweenRules out.stdout else afterPrompt out.stdout).toUTF8

theorem betweenRules_textOf {before code : List String}
    (hbefore : ∀ line ∈ before, OneLine line ∧ line ≠ ruleLine)
    (hcode : ∀ line ∈ code, OneLine line ∧ line ≠ ruleLine) :
    betweenRules (textOf (before ++ ruleLine :: (code ++ [ruleLine]))) = textOf code := by
  have hlines : linesOf (textOf (before ++ ruleLine :: (code ++ [ruleLine]))) =
      before ++ ruleLine :: (code ++ [ruleLine]) ++ [""] := by
    refine IR.linesOf_textOf _ fun line hline => ?_
    rcases List.mem_append.mp hline with hline | hline
    · exact (hbefore line hline).1
    rcases List.mem_cons.mp hline with rfl | hline
    · decide
    rcases List.mem_append.mp hline with hline | hline
    · exact (hcode line hline).1
    · rw [List.mem_singleton.mp hline]
      decide
  have hdrop : ∀ line ∈ before, decide (line ≠ ruleLine) = true :=
    fun line hline => decide_eq_true (hbefore line hline).2
  have htake : ∀ line ∈ code, decide (line ≠ ruleLine) = true :=
    fun line hline => decide_eq_true (hcode line hline).2
  rw [betweenRules, hlines, List.append_assoc, List.dropWhile_append_of_pos hdrop, List.cons_append,
    List.dropWhile_cons_of_neg (by simp), List.drop_one, List.tail_cons, List.append_assoc,
    List.takeWhile_append_of_pos htake, List.cons_append, List.takeWhile_cons_of_neg (by simp),
    List.append_nil]

theorem afterPrompt_append (o : Options) {code : String} (h : StartsWithout 'E' code) :
    afterPrompt (promptText o ++ code) = code := by
  rcases promptText_cases o with hprompt | hprompt
  · have hnot : "Enter code:\n".toList.isPrefixOf code.toList = false := h.not_isPrefixOf _
    rw [hprompt, String.empty_append, afterPrompt, hnot]
    rfl
  · have hprefix : "Enter code:\n".toList.isPrefixOf ("Enter code:\n" ++ code).toList = true := by
      rw [String.toList_append]
      exact List.isPrefixOf_iff_prefix.mpr (List.prefix_append _ _)
    rw [hprompt, afterPrompt, if_pos hprefix, String.toList_append, ← String.length_toList,
      List.drop_left, String.ofList_toList]

/-! ### The lines of the code -/

theorem startsWithout_headerText {c : Char} (hc : c ≠ 'd') (f : Function) :
    StartsWithout c (headerText f) := by
  have hdefine : StartsWithout c "define double @" := ⟨'d', _, rfl, hc.symm⟩
  exact (((hdefine.append _).append _).append _).append _

theorem startsWithout_of_mem_functionLines {f : Function} :
    ∀ line ∈ functionLines f, StartsWithout '=' line := by
  intro line hline
  simp only [functionLines, List.mem_cons, List.mem_append, List.not_mem_nil, or_false] at hline
  rcases hline with rfl | rfl | hbody | rfl
  · exact startsWithout_headerText (by decide) f
  · exact ⟨_, _, rfl, by decide⟩
  · obtain ⟨i, -, rfl⟩ := List.mem_map.mp hbody
    have hindent : StartsWithout '=' "  " := ⟨_, _, rfl, by decide⟩
    exact hindent.append _
  · exact ⟨_, _, rfl, by decide⟩

theorem StartsWithout.ne_ruleLine {line : String} (h : StartsWithout '=' line) :
    line ≠ ruleLine := by
  rintro rfl
  obtain ⟨d, ds, htext, hd⟩ := h
  exact hd (List.cons.inj htext).1.symm

/-! ### Accepted sources -/

/-- The lines that the prompt consists of. -/
theorem exists_promptLines (o : Options) : ∃ lines, promptText o = textOf lines ∧
    ∀ line ∈ lines, OneLine line ∧ line ≠ ruleLine := by
  rcases promptText_cases o with hprompt | hprompt
  · exact ⟨[], hprompt, nofun⟩
  · refine ⟨["Enter code:"], hprompt, fun line hline => ?_⟩
    rw [List.mem_singleton.mp hline]
    decide

/-- The code that is printed for a function is found on standard output. -/
theorem delivered_printed {o : Options} (houtput : o.output = none) {f : Function} (h : f.Named)
    {out : Outcome}
    (hstdout : out.stdout = promptText o ++
      ((if o.frame then "Parsed a function successfully!\nGenerating LLVM IR...\n" else "") ++
        framed o.frame (textOf (functionLines f)))) :
    o.delivered out = .ok (textOf (functionLines f)).toUTF8 := by
  have hcode : ∀ line ∈ functionLines f, OneLine line ∧ line ≠ ruleLine :=
    fun line hline => ⟨IR.newline_not_mem_functionLines h line hline,
      (startsWithout_of_mem_functionLines line hline).ne_ruleLine⟩
  rw [Options.delivered, houtput]
  cases hframe : o.frame with
  | false =>
      rw [hframe] at hstdout
      have hstart : StartsWithout 'E' (textOf (functionLines f)) :=
        ((startsWithout_headerText (by decide) f).append _).append _
      have hprinted : out.stdout = promptText o ++ textOf (functionLines f) := by
        rw [hstdout]
        exact congrArg _ String.empty_append
      simp only [hprinted, afterPrompt_append o hstart]
      rfl
  | true =>
      rw [hframe] at hstdout
      obtain ⟨lines, hprompt, hlines⟩ := exists_promptLines o
      have hprinted : out.stdout = textOf ((lines ++ ["Parsed a function successfully!",
          "Generating LLVM IR...", "Generated LLVM IR:"]) ++
            ruleLine :: (functionLines f ++ [ruleLine])) := by
        rw [hstdout, hprompt, framed, if_pos rfl, if_pos rfl]
        apply String.ext
        simp [IR.textOf_append, textOf, rule, ruleLine]
      have hbefore : ∀ line ∈ lines ++ ["Parsed a function successfully!", "Generating LLVM IR...",
          "Generated LLVM IR:"], OneLine line ∧ line ≠ ruleLine := by
        intro line hline
        rcases List.mem_append.mp hline with hline | hline
        · exact hlines line hline
        · simp only [List.mem_cons, List.not_mem_nil, or_false] at hline
          rcases hline with rfl | rfl | rfl <;> decide
      simp only [hprinted, betweenRules_textOf hbefore hcode]
      rfl

section Accepted

variable {o : Options} {stdin : ByteArray} {t : FileTree} {source : String} {f : Function}

/-- A compiler without an output file prints the code of an accepted source. -/
theorem compiler_run_of_accepted (hread : t.readSource stdin o.source = .ok source)
    (hcheck : check source = .ok f) (houtput : o.output = none) :
    (Tool.compiler.run o stdin t).1.exitCode = 0 ∧
    (Tool.compiler.run o stdin t).1.stdout = promptText o ++
      ((if o.frame then "Parsed a function successfully!\nGenerating LLVM IR...\n" else "") ++
        framed o.frame (textOf (functionLines f))) := by
  have hwork : (Tool.compiler.work o source).stdout = (compileWork o f).stdout ∧
      (Tool.compiler.work o source).result = (compileWork o f).result := by
    rw [Tool.work, hcheck]
    exact ⟨rfl, rfl⟩
  rw [compileWork, (writable_of_check hcheck).generate_eq, houtput] at hwork
  simp only [Tool.run, hread, hwork, conclude]
  exact ⟨trivial, trivial⟩

/-- The checker prints the signature of an accepted source, and nothing else. -/
theorem checker_run_of_accepted (hread : t.readSource stdin o.source = .ok source)
    (hcheck : check source = .ok f) (hbare : o.Bare) :
    (Tool.checker.run o stdin t).1.exitCode = 0 ∧
    (Tool.checker.run o stdin t).1.stdout = "ok: " ++ f.signature ++ "\n" := by
  have hwork : (Tool.checker.work o source).stdout = "ok: " ++ f.signature ++ "\n" ∧
      (Tool.checker.work o source).result = .ok none := by
    rw [Tool.work, hcheck]
    exact ⟨rfl, rfl⟩
  have hprompt : promptText o = "" := by
    rw [promptText, hbare]
    rfl
  simp only [Tool.run, hread, hwork, conclude, hprompt, String.empty_append]
  exact ⟨trivial, trivial⟩

end Accepted

/-- A compiler that succeeds has read an accepted source and delivers its code. -/
theorem delivered_perform {o : Options} {stdin : ByteArray} {t : FileTree}
    (hzero : (Tool.compiler.perform o stdin t).exitCode = 0) :
    ∃ source f, t.readSource stdin o.source = .ok source ∧ check source = .ok f ∧
      o.delivered (Tool.compiler.perform o stdin t) =
        .ok (textOf (functionLines f)).toUTF8 := by
  have hends := ends_perform o stdin t
  obtain ⟨source, f, hread, hcheck, hplace⟩ := hends.success.mp hzero
  refine ⟨source, f, hread, hcheck, ?_⟩
  cases houtput : o.output with
  | none =>
      exact delivered_printed houtput (named_of_check hcheck)
        (compiler_run_of_accepted hread hcheck houtput).2
  | some path =>
      obtain ⟨ir, hcompile, -, htaken⟩ := hends.output _ _ _ hread hcheck houtput
      obtain ⟨ir', hcompile', htakes⟩ := hplace path houtput
      cases (compile_of_check_ok hcheck).symm.trans hcompile
      cases (compile_of_check_ok hcheck).symm.trans hcompile'
      rw [Options.delivered, houtput]
      exact (htaken htakes).1

/-! ### Agreement -/

/-- A failure before there is a function has an exit code of its own. -/
theorem exitCode_ne_zero_of_failure {t : FileTree} {stdin : ByteArray} {origin : Source}
    {e : Failure} (h : t.failure? stdin origin = some e) : e.exitCode ≠ 0 := by
  rw [FileTree.failure?] at h
  split at h
  · cases h
    exact Nat.succ_ne_zero 2
  · split at h
    · cases h
      exact Nat.one_ne_zero
    · cases h

/-- What a compiler that is asked for `o` and a checker that is asked for `o'` leave behind agrees. -/
structure Agree (o o' : Options) (stdin : ByteArray) (t : FileTree) (out out' : Outcome) :
    Prop where
  /-- What a compiler that succeeds delivers is what `compile` makes of the source it read. -/
  delivered : out.exitCode = 0 → ∃ source ir, t.readSource stdin o.source = .ok source ∧
    compile source = .ok ir ∧ o.delivered out = .ok ir.toUTF8
  /-- If they read the same source and the compiler writes no file, they succeed together, and else
  fail with the same exit code and the same report. -/
  failure : o'.source = o.source → o.output = none →
    (out'.exitCode = 0 ↔ out.exitCode = 0) ∧
    (out'.exitCode ≠ 0 → out'.exitCode = out.exitCode ∧
      ∃ message, errorLines out.stderr = linesOf ("error: " ++ message ++ "\n") ∧
        errorLines out'.stderr = linesOf ("error: " ++ message ++ "\n"))
  /-- If they read the same source, then whenever the compiler succeeds the checker does, and the name
  and the parameters that it prints are those of the first line of the code. -/
  signature : o'.source = o.source → out.exitCode = 0 →
    out'.exitCode = 0 ∧ ∃ name params ir,
      isName name = true ∧ (∀ p ∈ params, isName p = true) ∧
      out'.stdout = "ok: " ++ (name ++ "(" ++ ", ".intercalate params ++ ")") ++ "\n" ∧
      o.delivered out = .ok ir.toUTF8 ∧
      (linesOf ir).head? = some ("define double @" ++ name ++ "(" ++
        ", ".intercalate (params.map ("double %" ++ ·)) ++ ") \x7b")

theorem agree_perform (o : Options) {o' : Options} (hbare : o'.Bare) (stdin : ByteArray)
    (t : FileTree) :
    Agree o o' stdin t (Tool.compiler.perform o stdin t) (Tool.checker.perform o' stdin t) := by
  refine ⟨?_, ?_, ?_⟩
  · intro hzero
    obtain ⟨source, f, hread, hcheck, hdelivered⟩ := delivered_perform hzero
    exact ⟨source, _, hread, compile_of_check_ok hcheck, hdelivered⟩
  · intro hsource houtput
    cases hfailure : t.failure? stdin o.source with
    | some e =>
        have hne := exitCode_ne_zero_of_failure hfailure
        obtain ⟨hexit, hreport⟩ := report_of_failure .compiler o hfailure
        obtain ⟨hexit', hreport'⟩ := report_of_failure .checker o' (hsource ▸ hfailure)
        refine ⟨?_, fun _ => ⟨hexit'.trans hexit.symm, e.message, hreport, hreport'⟩⟩
        exact iff_of_false (hexit'.trans_ne hne) (hexit.trans_ne hne)
    | none =>
        obtain ⟨source, f, hread, hcheck⟩ := exists_check_of_no_failure hfailure
        have hzero := (compiler_run_of_accepted hread hcheck houtput).1
        have hzero' := (checker_run_of_accepted (hsource ▸ hread) hcheck hbare).1
        exact ⟨iff_of_true hzero' hzero, fun hne => absurd hzero' hne⟩
  · intro hsource hzero
    obtain ⟨source, f, hread, hcheck, hdelivered⟩ := delivered_perform hzero
    obtain ⟨hzero', hstdout'⟩ := checker_run_of_accepted (hsource ▸ hread) hcheck hbare
    have hwritable := writable_of_check hcheck
    have hfirst : (linesOf (textOf (functionLines f))).head? = some (headerText f) := by
      rw [IR.linesOf_functionLines (named_of_check hcheck), List.head?_cons]
    exact ⟨hzero', f.name, f.params, _, hwritable.name, hwritable.params, hstdout', hdelivered, hfirst⟩

/-- **The tools agree.**  Whatever arguments they are given, as long as these are understood, both
tools do the same with the same source, and the code is that of `compile`. -/
theorem tools_agree {args args' : List String} {o o' : Options}
    (hargs : Tool.compiler.readArgs args = .ok o) (hargs' : Tool.checker.readArgs args' = .ok o')
    (stdin : ByteArray) (t : FileTree) :
    Agree o o' stdin t (Tool.compiler.execute args stdin t) (Tool.checker.execute args' stdin t) := by
  rw [execute_of_readArgs hargs, execute_of_readArgs hargs']
  exact agree_perform o (bare_of_readArgs hargs') stdin t

private def sumFunction : String := "func f(a, b) \x7b a + b; \x7d"

private def brokenFunction : String := "func f(a, b) \x7b a + § \x7d"

/-- Code in a frame and behind a prompt is found, and the checker says the same of its function; and
what is logged and dumped does not hide that both refuse a source for the same reason. -/
theorem tools_agree_framed :
    (let out := Tool.compiler.execute ["--frame", "--prompt", "-vv"] sumFunction.toUTF8 ⟨[]⟩
     let out' := Tool.checker.execute ["-"] sumFunction.toUTF8 ⟨[]⟩
     out.exitCode = 0 ∧ out'.exitCode = 0 ∧ ∃ ir, compile sumFunction = .ok ir ∧
       Options.delivered { frame := true, prompt := true, verbose := 2 } out = .ok ir.toUTF8) ∧
    (let out := Tool.compiler.execute ["--dump-tokens", "-v"] brokenFunction.toUTF8 ⟨[]⟩
     let out' := Tool.checker.execute ["-vvv"] brokenFunction.toUTF8 ⟨[]⟩
     out.exitCode = 1 ∧ out'.exitCode = 1 ∧ errorLines out.stderr = errorLines out'.stderr) := by
  have hargs : Tool.compiler.readArgs ["--frame", "--prompt", "-vv"] =
      .ok { frame := true, prompt := true, verbose := 2 } := by
    decide +kernel
  have hargs' : Tool.checker.readArgs ["-"] = .ok { input := some ⟨"-"⟩ } := by
    decide +kernel
  have hread : FileTree.readSource ⟨[]⟩ sumFunction.toUTF8 .stdin = .ok sumFunction := by
    decide +kernel
  have hdump : Tool.compiler.readArgs ["--dump-tokens", "-v"] =
      .ok { dumpTokens := true, verbose := 1 } := by
    decide +kernel
  have hlog : Tool.checker.readArgs ["-vvv"] = .ok { verbose := 3 } := by
    decide +kernel
  have hbroken : FileTree.readSource ⟨[]⟩ brokenFunction.toUTF8 .stdin = .ok brokenFunction := by
    decide +kernel
  constructor
  · obtain ⟨f, hcheck⟩ : ∃ f, check sumFunction = .ok f := ⟨_, by with_unfolding_all rfl⟩
    have hzero : (Tool.compiler.execute ["--frame", "--prompt", "-vv"] sumFunction.toUTF8
        ⟨[]⟩).exitCode = 0 := by
      rw [execute_of_readArgs hargs]
      exact (compiler_run_of_accepted (o := { frame := true, prompt := true, verbose := 2 }) hread
        hcheck rfl).1
    obtain ⟨hdelivered, -, hfirst⟩ := tools_agree hargs hargs' sumFunction.toUTF8 ⟨[]⟩
    obtain ⟨source, ir, hread', hcompile, hcode⟩ := hdelivered hzero
    cases hread.symm.trans hread'
    exact ⟨hzero, (hfirst (by decide) hzero).1, ir, hcompile, hcode⟩
  · obtain ⟨-, hfails, -⟩ := tools_agree hdump hlog brokenFunction.toUTF8 ⟨[]⟩
    obtain ⟨-, hreports⟩ := hfails rfl rfl
    obtain ⟨e, hrefused⟩ : ∃ e, check brokenFunction = .error e := ⟨_, by with_unfolding_all rfl⟩
    have hfailure : FileTree.failure? ⟨[]⟩ brokenFunction.toUTF8 .stdin =
        some (.rejected e.diagnostic) := by
      simp only [FileTree.failure?, hbroken, hrefused]
    have hone : (Tool.checker.execute ["-vvv"] brokenFunction.toUTF8 ⟨[]⟩).exitCode = 1 := by
      rw [execute_of_readArgs hlog]
      exact (report_of_failure .checker { verbose := 3 } hfailure).1
    obtain ⟨hexit, message, hreport, hreport'⟩ := hreports (by rw [hone]; decide)
    exact ⟨hexit.symm.trans hone, hone, hreport.trans hreport'.symm⟩

end TallyLang
