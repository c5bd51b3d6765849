/-
More `-v` flags change nothing but the log.

A run looks at the verbosity only to leave out events (`run_louder`), and so of two runs
that differ by one `-v` the louder one adds events of the levels that it enables, and does
nothing else (`perform_louder`).  This holds whatever the options are and wherever they come from.
Of command lines it holds because one more use of the flag is one more in the options.

A line that is refused is an exception.  It is refused with more uses too, and nothing is done in
either case, but what is reported can be another of its problems.
-/
import TallyLang.Session
import TallyLang.Proofs.VerboseUses

namespace TallyLang

/-! ### What is visible -/

/-- An event is written unless its level is below the lowest one that is. -/
theorem LogLevel.enabledAt_eq (level : LogLevel) (verbose : Nat) :
    level.enabledAt verbose = decide (level.verbosity ≤ (ofVerbosity verbose).verbosity) := by
  have hlowest : (ofVerbosity verbose).verbosity = min verbose 3 := by
    match verbose with
    | 0 | 1 | 2 => rfl
    | verbose + 3 => simp [ofVerbosity, verbosity]
  have hlevel : level.verbosity ≤ 3 := by
    cases level <;> decide
  rw [enabledAt, hlowest]
  exact decide_eq_decide.mpr (by omega)

namespace Note

theorem visibleAt_succ {k : Nat} {n : Note} (h : n.visibleAt k = true) :
    n.visibleAt (k + 1) = true := by
  cases n with
  | line text => rfl
  | log event =>
      simp only [visibleAt, LogLevel.enabledAt, decide_eq_true_eq] at h ⊢
      exact Nat.le_succ_of_le h

/-- Of what is visible with one flag more, what was visible before is left. -/
theorem filter_visibleAt_succ (k : Nat) (notes : List Note) :
    (notes.filter (·.visibleAt (k + 1))).filter (·.visibleAt k) = notes.filter (·.visibleAt k) := by
  rw [List.filter_filter]
  refine List.filter_congr fun n _ => ?_
  exact (Bool.eq_self_and.mpr visibleAt_succ).symm

/-- What one flag more makes visible is an event of a level that it enables. -/
theorem exists_event_of_visibleAt {k : Nat} {n : Note} (h : n.visibleAt (k + 1) = true)
    (hbefore : n.visibleAt k = false) : ∃ event, n = .log event ∧
      (LogLevel.ofVerbosity k).verbosity < event.level.verbosity ∧
      event.level.verbosity ≤ (LogLevel.ofVerbosity (k + 1)).verbosity := by
  cases n with
  | line text => cases hbefore
  | log event =>
      refine ⟨event, rfl, ?_⟩
      simp only [visibleAt, LogLevel.enabledAt_eq, decide_eq_true_eq, decide_eq_false_iff_not]
        at h hbefore
      exact ⟨Nat.lt_of_not_le hbefore, h⟩

end Note

/-- The items that are written to standard error with `k` uses are, in their order, among those with
one use more, and the others are events of the levels that are enabled with `k + 1` and not with
`k`. -/
structure LogGrows (k : Nat) (items items' : List Note) : Prop where
  sublist : items.Sublist items'
  filter_eq : items'.filter (·.visibleAt k) = items
  event : ∀ n ∈ items', n.visibleAt k = false → ∃ event, n = .log event ∧
    (LogLevel.ofVerbosity k).verbosity < event.level.verbosity ∧
    event.level.verbosity ≤ (LogLevel.ofVerbosity (k + 1)).verbosity

theorem logGrows_filter (k : Nat) (notes : List Note) :
    LogGrows k (notes.filter (·.visibleAt k)) (notes.filter (·.visibleAt (k + 1))) := by
  have hfilter := Note.filter_visibleAt_succ k notes
  refine ⟨?_, hfilter, fun n hn hbefore => ?_⟩
  · rw [← hfilter]
    exact List.filter_sublist
  · exact Note.exists_event_of_visibleAt (List.mem_filter.mp hn).2 hbefore

/-! ### Runs -/

/-- What a run does and notes does not depend on the verbosity. -/
theorem run_louder (tool : Tool) (o : Options) (k : Nat) (stdin : ByteArray) (t : FileTree) :
    tool.run (o.louder k) stdin t = tool.run o stdin t := rfl

/-- The items that a run with given options writes to standard error, in order. -/
def Tool.items (tool : Tool) (o : Options) (stdin : ByteArray) (t : FileTree) : List Note :=
  (tool.run o stdin t).1.notes.filter (·.visibleAt o.verbose)

/-- What two runs leave behind of which the second is more verbose: they differ in the log only. -/
structure DiffersInLog (k : Nat) (items items' : List Note) (out out' : Outcome) : Prop where
  exitCode_eq : out'.exitCode = out.exitCode
  stdout_eq : out'.stdout = out.stdout
  tree_eq : out'.tree = out.tree
  stderr_eq : out.stderr = String.join (items.map Note.text)
  stderr_eq' : out'.stderr = String.join (items'.map Note.text)
  logGrows : LogGrows k items items'

/-- With one more in the verbosity and all else the same, runs differ in the log only. -/
theorem perform_louder (tool : Tool) (o : Options) (stdin : ByteArray) (t : FileTree) :
    DiffersInLog o.verbose (tool.items o stdin t) (tool.items (o.louder 1) stdin t)
      (tool.perform o stdin t) (tool.perform (o.louder 1) stdin t) := by
  unfold Tool.perform Tool.items
  rw [run_louder]
  exact ⟨rfl, rfl, rfl, rfl, rfl, logGrows_filter o.verbose _⟩

/-! ### Command lines -/

/-- Whether the arguments are refused. -/
def Tool.refuses (tool : Tool) (args : List String) : Bool :=
  match tool.readArgs args with
  | .error (.misuse _) => true
  | _ => false

/-- The items that a run with given arguments writes to standard error, if they are not refused. -/
def Tool.itemsOf (tool : Tool) (args : List String) (stdin : ByteArray) (t : FileTree) : List Note :=
  match tool.readArgs args with
  | .error _ => []
  | .ok o => tool.items o stdin t

/-- **Verbosity changes nothing but the log.**  Whatever the options are, one more in the verbosity
adds events of the levels that it enables to standard error, and changes nothing else.  So it is with
command lines.  Add `k` uses of `-v` to one without any, or `k + 1`.  Both are refused or neither is,
and the exit code, standard output and the tree of files are the same.  If they are not refused,
what is written to standard error differs in such events only. -/
theorem verbosity_only_logs (tool : Tool) (stdin : ByteArray) (t : FileTree) :
    (∀ o : Options, DiffersInLog o.verbose (tool.items o stdin t) (tool.items (o.louder 1) stdin t)
      (tool.perform o stdin t) (tool.perform (o.louder 1) stdin t)) ∧
    ∀ (base args args' : List String) (k : Nat),
      (∀ o, tool.readArgs base = .ok o → o.verbose = 0) →
      WithUses tool base k args → WithUses tool base (k + 1) args' →
      let out := tool.execute args stdin t
      let out' := tool.execute args' stdin t
      tool.refuses args' = tool.refuses args ∧
      out'.exitCode = out.exitCode ∧ out'.stdout = out.stdout ∧ out'.tree = out.tree ∧
      (tool.refuses args = false →
        DiffersInLog k (tool.itemsOf args stdin t) (tool.itemsOf args' stdin t) out out') := by
  refine ⟨fun o => perform_louder tool o stdin t, ?_⟩
  intro base args args' k hbase h h'
  have hread := h.readArgs_succ hbase h'
  simp only [Tool.refuses, Tool.execute, Tool.itemsOf]
  generalize tool.readArgs args = x at hread ⊢
  generalize tool.readArgs args' = y at hread ⊢
  cases hread with
  | @ok o _ h =>
      obtain ⟨rfl, rfl⟩ := h
      have hdiffers := perform_louder tool o stdin t
      exact ⟨rfl, hdiffers.exitCode_eq, hdiffers.stdout_eq, hdiffers.tree_eq, fun _ => hdiffers⟩
  | refused e e' =>
      refine ⟨rfl, rfl, rfl, rfl, fun hrefuses => ?_⟩
      cases hrefuses
  | error halt =>
      refine ⟨rfl, rfl, rfl, rfl, fun hrefuses => ?_⟩
      -- help and the version are written to standard output
      have hstderr : (halt.outcome tool t).stderr = "" := by
        cases halt with
        | misuse e => cases hrefuses
        | _ => rfl
      exact ⟨rfl, rfl, rfl, hstderr, hstderr, logGrows_filter k []⟩

private def unclosedParams : String := "func f(a \x7b \x7d"

/-- A third flag, wherever the three stand, brings the tokens of a source into the log of the run
that refuses it, once for the dump and once for the check. -/
theorem verbosity_only_logs_refused :
    let args := ["-vv", "--dump-tokens"]
    let args' := ["--dump-tokens", "-v", "--verbose", "-v"]
    let out := Tool.compiler.execute args unclosedParams.toUTF8 ⟨[]⟩
    let out' := Tool.compiler.execute args' unclosedParams.toUTF8 ⟨[]⟩
    out.exitCode = 1 ∧ out'.exitCode = 1 ∧ out'.stdout = out.stdout ∧
    (Tool.compiler.itemsOf args unclosedParams.toUTF8 ⟨[]⟩).length = 9 ∧
    (Tool.compiler.itemsOf args' unclosedParams.toUTF8 ⟨[]⟩).length = 21 ∧
    (Tool.compiler.itemsOf args unclosedParams.toUTF8 ⟨[]⟩).Sublist
      (Tool.compiler.itemsOf args' unclosedParams.toUTF8 ⟨[]⟩) := by
  intro args args' out out'
  have hbase : ∀ o, Tool.compiler.readArgs ["--dump-tokens"] = .ok o → o.verbose = 0 := by
    intro o ho
    cases ho
    rfl
  have huses : WithUses .compiler ["--dump-tokens"] 2 args := by
    have hfirst : AddsUse .compiler ["--dump-tokens"] ["-v", "--dump-tokens"] :=
      @AddsUse.argument _ [] _ _ (Or.inl rfl) (by decide)
    have hletter : AddsUse .compiler ["-v", "--dump-tokens"] ["-vv", "--dump-tokens"] := by
      have hfront : ∀ d ∈ ['v'], Tool.compiler.short? d ≠ some .output := by
        intro d hd
        rw [List.mem_singleton.mp hd, ArgState.short?_v]
        intro hsame
        cases hsame
      exact @AddsUse.letter _ [] ["--dump-tokens"] 'v' ['v'] [] [] rfl (by decide) hfront (by decide)
    exact (WithUses.none.more hfirst).more hletter
  have huses' : WithUses .compiler ["--dump-tokens"] 3 args' := by
    have hfirst := @AddsUse.argument .compiler ["--dump-tokens"] [] _ (Or.inl rfl) (by decide)
    have hsecond := @AddsUse.argument .compiler ["--dump-tokens", "-v"] [] _ (Or.inr rfl) (by decide)
    have hthird := @AddsUse.argument .compiler ["--dump-tokens", "-v", "--verbose"] [] _
      (Or.inl rfl) (by decide)
    exact ((WithUses.none.more hfirst).more hsecond).more hthird
  have hcode : out.exitCode = 1 := by
    decide +kernel
  obtain ⟨-, hexit, hstdout, -, hlog⟩ := (verbosity_only_logs .compiler unclosedParams.toUTF8 ⟨[]⟩).2
    ["--dump-tokens"] args args' 2 hbase huses huses'
  have hitems := (hlog (by decide +kernel)).logGrows.sublist
  exact ⟨hcode, hexit.trans hcode, hstdout, by decide +kernel, by decide +kernel, hitems⟩

private def oneFunction : String := "func f() \x7b return 1; \x7d"

/-- What is reported about a line that is refused can change.  In the first one the value of `-o` is
empty, and behind it is an argument that is not known, which is what is reported.  With a `-v` between
them the value is looked at first, and of the first report not even the characters are among those of
the second in their order.  And a `-v` right behind `-o` stands in the place of its value, so that a
line is refused that was not. -/
theorem refusals_change :
    (let args := ["-o", "", "--bogus"]
     let args' := ["-o", "", "-v", "--bogus"]
     let out := Tool.compiler.execute args ByteArray.empty ⟨[]⟩
     let out' := Tool.compiler.execute args' ByteArray.empty ⟨[]⟩
     (∀ o, Tool.compiler.readArgs args = .ok o → o.verbose = 0) ∧
     WithUses .compiler args 0 args ∧ WithUses .compiler args 1 args' ∧
     Tool.compiler.readArgs args = .error (.misuse (.unexpectedArgument "--bogus")) ∧
     Tool.compiler.readArgs args' = .error (.misuse .missingOutput) ∧
     out.exitCode = 2 ∧ out'.exitCode = 2 ∧
     out.stderr = "error: unexpected argument '--bogus' found\n" ∧
     out'.stderr = "error: a value is required for '--output <FILE>' but none was supplied\n" ∧
     ¬ out.stderr.toList.Sublist out'.stderr.toList) ∧
    Tool.compiler.switchMayFollow ["-o"] = false ∧
    (Tool.compiler.execute ["-o", "f.ll"] oneFunction.toUTF8 ⟨[]⟩).exitCode = 0 ∧
    (Tool.compiler.execute ["-o", "-v", "f.ll"] oneFunction.toUTF8 ⟨[]⟩).exitCode = 2 := by
  refine ⟨⟨?_, .none, ?_, rfl, rfl, by decide +kernel⟩, by decide, by decide +kernel,
    by decide +kernel⟩
  · intro o ho
    cases ho
  · exact WithUses.none.more (@AddsUse.argument _ ["-o", ""] ["--bogus"] _ (Or.inl rfl) (by decide))

end TallyLang
