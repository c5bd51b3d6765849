/-
How a run of the compiler ends.

A run reads, checks, makes directories and writes, in this order, and can fail at
each.  `Course` lists the five ways a run can go, each with its exit code and with the
tree that it leaves; `course_run` says that there are no others.  The sixth, a function
without code, is missing because what is accepted has code.

So a failure before the first directory is made leaves the tree as it was.  One after
it leaves new directories, all on the way to the output file, and nothing else.
-/
import TallyLang.Session
import TallyLang.Proofs.Accepted
import TallyLang.Proofs.FileTree

namespace TallyLang

/-! ### Putting the code in its place -/

/-- The steps to the directory of an output file. -/
def outputSteps (path : Path) : List String := (outputDir? path).elim [] Path.steps

namespace FileTree

/-- The directories of an output file can be made, and then the file can be written. -/
def Takes (t : FileTree) (path : Path) (content : ByteArray) : Prop :=
  (t.prepare path).1 = .ok () ∧ ∃ t', (t.prepare path).2.write path content = .ok t'

theorem changesOnly_prepare (t : FileTree) (path : Path) :
    ChangesOnly (outputSteps path) none t (t.prepare path).2 := by
  rw [prepare, outputSteps]
  cases outputDir? path with
  | none => exact .refl [] t
  | some dir =>
      have hdirs := changesOnly_makeDirs t dir
      simp only [Option.elim_some]
      split
      · rename_i made hmade
        rwa [hmade] at hdirs
      · rename_i e made hmade
        rwa [hmade] at hdirs

theorem exitCode_of_prepare {t : FileTree} {path : Path} {e : Failure}
    (h : (t.prepare path).1 = .error e) : e.exitCode = 3 := by
  rw [prepare] at h
  split at h
  · cases h
  · split at h
    · cases h
    · cases h
      rfl

theorem deliver_eq (t : FileTree) (path : Path) (ir : String) :
    t.deliver path ir =
      match (t.prepare path).1, (t.prepare path).2.write path ir.toUTF8 with
      | .error e, _ => (.error e, (t.prepare path).2)
      | .ok (), .error e => (.error (.unwritable path e), (t.prepare path).2)
      | .ok (), .ok t' => (.ok (wroteNotes path ir), t') := by
  rw [deliver]
  generalize t.prepare path = prepared
  obtain ⟨result, made⟩ := prepared
  cases result with
  | error e => rfl
  | ok =>
      simp only
      cases made.write path ir.toUTF8 <;> rfl

theorem deliver_of_takes {t : FileTree} {path : Path} {ir : String}
    (h : t.Takes path ir.toUTF8) :
    ∃ t', (t.prepare path).2.write path ir.toUTF8 = .ok t' ∧
      t.deliver path ir = (.ok (wroteNotes path ir), t') := by
  obtain ⟨hdirs, t', hwrite⟩ := h
  refine ⟨t', hwrite, ?_⟩
  rw [deliver_eq, hdirs, hwrite]

theorem deliver_of_not_takes {t : FileTree} {path : Path} {ir : String}
    (h : ¬ t.Takes path ir.toUTF8) :
    ∃ e, e.exitCode = 3 ∧ t.deliver path ir = (.error e, (t.prepare path).2) := by
  rw [deliver_eq]
  cases hdirs : (t.prepare path).1 with
  | error e => exact ⟨e, exitCode_of_prepare hdirs, rfl⟩
  | ok =>
      cases hwrite : (t.prepare path).2.write path ir.toUTF8 with
      | error e => exact ⟨.unwritable path e, rfl, rfl⟩
      | ok t' => exact absurd ⟨hdirs, t', hwrite⟩ h

end FileTree

/-! ### The courses of a run -/

/-- How a run of the compiler goes: its exit code, its standard output and the tree it leaves. -/
inductive Course (o : Options) (stdin : ByteArray) (t : FileTree) :
    Nat → String → FileTree → Prop
  /-- The source cannot be read. -/
  | unread {cause : ReadError} (hread : t.readSource stdin o.source = .error cause) :
      Course o stdin t 3 (promptText o) t
  /-- The source is not a function. -/
  | refused {source : String} {e : ParseError} (hread : t.readSource stdin o.source = .ok source)
      (hcheck : check source = .error e) : Course o stdin t 1 (promptText o) t
  /-- The code is printed. -/
  | printed {source : String} {f : Function} (hread : t.readSource stdin o.source = .ok source)
      (hcheck : check source = .ok f) (houtput : o.output = none) (stdout : String) :
      Course o stdin t 0 stdout t
  /-- The code has no place. -/
  | unplaced {source ir : String} {f : Function} {path : Path}
      (hread : t.readSource stdin o.source = .ok source) (hcheck : check source = .ok f)
      (houtput : o.output = some path) (hcompile : compile source = .ok ir)
      (htakes : ¬ t.Takes path ir.toUTF8) (stdout : String) :
      Course o stdin t 3 stdout (t.prepare path).2
  /-- The code is written to a file. -/
  | written {source ir : String} {f : Function} {path : Path} {t' : FileTree}
      (hread : t.readSource stdin o.source = .ok source) (hcheck : check source = .ok f)
      (houtput : o.output = some path) (hcompile : compile source = .ok ir)
      (htakes : t.Takes path ir.toUTF8) (hwrite : (t.prepare path).2.write path ir.toUTF8 = .ok t')
      (stdout : String) : Course o stdin t 0 stdout t'

/-- The work on a source that is refused prints nothing. -/
theorem work_of_refused (o : Options) {source : String} {e : ParseError}
    (h : check source = .error e) :
    (Tool.compiler.work o source).stdout = "" ∧
      (Tool.compiler.work o source).result = .error (.rejected e.diagnostic) := by
  rw [Tool.work, h]
  exact ⟨rfl, rfl⟩

/-- The work on a source that is accepted gives its code to the output file, if there is one. -/
theorem work_of_accepted (o : Options) {source : String} {f : Function}
    (h : check source = .ok f) :
    ∃ ir, compile source = .ok ir ∧
      (Tool.compiler.work o source).result = .ok (o.output.map (·, ir)) := by
  refine ⟨_, compile_of_check_ok h, ?_⟩
  rw [Tool.work, h]
  show (compileWork o f).result = _
  rw [compileWork, (writable_of_check h).generate_eq]
  cases o.output with
  | none => rfl
  | some path => rfl

theorem course_run (o : Options) (stdin : ByteArray) (t : FileTree) :
    Course o stdin t (Tool.compiler.run o stdin t).1.exitCode
      (Tool.compiler.run o stdin t).1.stdout (Tool.compiler.run o stdin t).2 := by
  cases hread : t.readSource stdin o.source with
  | error cause =>
      rw [Tool.run, hread]
      exact .unread hread
  | ok source =>
      cases hcheck : check source with
      | error e =>
          obtain ⟨hstdout, hresult⟩ := work_of_refused o hcheck
          simp only [Tool.run, hread, hresult, conclude, hstdout, String.append_empty]
          exact .refused hread hcheck
      | ok f =>
          obtain ⟨ir, hcompile, hresult⟩ := work_of_accepted o hcheck
          cases houtput : o.output with
          | none =>
              rw [houtput] at hresult
              simp only [Tool.run, hread, hresult, Option.map_none, conclude]
              exact .printed hread hcheck houtput _
          | some path =>
              rw [houtput] at hresult
              simp only [Tool.run, hread, hresult, Option.map_some, conclude]
              by_cases htakes : t.Takes path ir.toUTF8
              · obtain ⟨t', hwrite, hdeliver⟩ := FileTree.deliver_of_takes htakes
                rw [hdeliver]
                exact .written hread hcheck houtput hcompile htakes hwrite _
              · obtain ⟨e, hcode, hdeliver⟩ := FileTree.deliver_of_not_takes htakes
                rw [hdeliver]
                simp only [hcode]
                exact .unplaced hread hcheck houtput hcompile htakes _

/-- A source that is refused is not accepted. -/
theorem check_ne_ok_of_refused {t : FileTree} {stdin : ByteArray} {origin : Source}
    {source source' : String} {e : ParseError} {f : Function}
    (hread : t.readSource stdin origin = .ok source) (hcheck : check source = .error e)
    (hread' : t.readSource stdin origin = .ok source') : check source' ≠ .ok f := by
  intro hcheck'
  obtain rfl := Except.ok.inj (hread.symm.trans hread')
  rw [hcheck] at hcheck'
  cases hcheck'

theorem promptText_cases (o : Options) : promptText o = "" ∨ promptText o = "Enter code:\n" := by
  rw [promptText]
  by_cases hask : (o.prompt && o.source = .stdin) = true
  · rw [if_pos hask]
    exact Or.inr rfl
  · rw [if_neg hask]
    exact Or.inl rfl

/-! ### What a course says -/

namespace Course

variable {o : Options} {stdin : ByteArray} {t t' : FileTree} {code : Nat} {stdout : String}

theorem exitCode_cases (h : Course o stdin t code stdout t') : code = 0 ∨ code = 1 ∨ code = 3 := by
  cases h <;> simp

theorem exitCode_eq_zero_iff (h : Course o stdin t code stdout t') :
    code = 0 ↔ ∃ source f, t.readSource stdin o.source = .ok source ∧ check source = .ok f ∧
      ∀ path, o.output = some path → ∃ ir, compile source = .ok ir ∧ t.Takes path ir.toUTF8 := by
  constructor
  · intro hzero
    cases h with
    | unread _ => cases hzero
    | refused _ _ => cases hzero
    | unplaced _ _ _ _ _ _ => cases hzero
    | printed hread hcheck houtput _ =>
        refine ⟨_, _, hread, hcheck, ?_⟩
        intro path hpath
        rw [houtput] at hpath
        cases hpath
    | written hread hcheck houtput hcompile htakes _ _ =>
        refine ⟨_, _, hread, hcheck, ?_⟩
        intro path hpath
        obtain rfl := Option.some.inj (houtput.symm.trans hpath)
        exact ⟨_, hcompile, htakes⟩
  · rintro ⟨source, f, hread, hcheck, hplace⟩
    cases h with
    | unread hread' =>
        rw [hread] at hread'
        cases hread'
    | refused hread' hcheck' => exact absurd hcheck (check_ne_ok_of_refused hread' hcheck' hread)
    | printed _ _ _ _ => rfl
    | unplaced hread' _ houtput hcompile htakes _ =>
        obtain rfl := Except.ok.inj (hread.symm.trans hread')
        obtain ⟨ir, hcompile', htakes'⟩ := hplace _ houtput
        obtain rfl := Except.ok.inj (hcompile.symm.trans hcompile')
        exact absurd htakes' htakes
    | written _ _ _ _ _ _ _ => rfl

theorem exitCode_eq_one_iff (h : Course o stdin t code stdout t') :
    code = 1 ↔ ∃ source e, t.readSource stdin o.source = .ok source ∧ check source = .error e := by
  constructor
  · intro hone
    cases h with
    | refused hread hcheck => exact ⟨_, _, hread, hcheck⟩
    | _ => cases hone
  · rintro ⟨source, e, hread, hcheck⟩
    cases h with
    | unread hread' =>
        rw [hread] at hread'
        cases hread'
    | refused _ _ => rfl
    | printed hread' hcheck' _ _ => exact absurd hcheck' (check_ne_ok_of_refused hread hcheck hread')
    | unplaced hread' hcheck' _ _ _ _ => exact absurd hcheck' (check_ne_ok_of_refused hread hcheck hread')
    | written hread' hcheck' _ _ _ _ _ => exact absurd hcheck' (check_ne_ok_of_refused hread hcheck hread')

/-- Without an accepted source nothing is done but to ask for one. -/
theorem unchanged_of_not_accepted (h : Course o stdin t code stdout t')
    (hnot : ¬ ∃ source f, t.readSource stdin o.source = .ok source ∧ check source = .ok f) :
    t' = t ∧ stdout = promptText o := by
  cases h with
  | unread _ => exact ⟨rfl, rfl⟩
  | refused _ _ => exact ⟨rfl, rfl⟩
  | printed hread hcheck _ _ => exact absurd ⟨_, _, hread, hcheck⟩ hnot
  | unplaced hread hcheck _ _ _ _ => exact absurd ⟨_, _, hread, hcheck⟩ hnot
  | written hread hcheck _ _ _ _ _ => exact absurd ⟨_, _, hread, hcheck⟩ hnot

theorem unchanged_of_no_output (h : Course o stdin t code stdout t') (hnone : o.output = none) :
    t' = t := by
  cases h with
  | unread _ => rfl
  | refused _ _ => rfl
  | printed _ _ _ _ => rfl
  | unplaced _ _ houtput _ _ _ =>
      rw [hnone] at houtput
      cases houtput
  | written _ _ houtput _ _ _ _ =>
      rw [hnone] at houtput
      cases houtput

/-- With an accepted source and an output file, the code is in the file or the file is not touched,
and what is new besides are directories on the way to it. -/
theorem changesOnly (h : Course o stdin t code stdout t') {source : String} {f : Function}
    {path : Path} (hread : t.readSource stdin o.source = .ok source) (hcheck : check source = .ok f)
    (houtput : o.output = some path) :
    ∃ ir, compile source = .ok ir ∧
      (¬ t.Takes path ir.toUTF8 → FileTree.ChangesOnly (outputSteps path) none t t') ∧
      (t.Takes path ir.toUTF8 → t'.read path = .ok ir.toUTF8 ∧
        ∃ names, t'.walk [] path.parts = .ok names ∧ t.get? names ≠ some .dir ∧
          FileTree.ChangesOnly (outputSteps path) (some names) t t') := by
  cases h with
  | unread hread' =>
      rw [hread] at hread'
      cases hread'
  | refused hread' hcheck' => exact absurd hcheck (check_ne_ok_of_refused hread' hcheck' hread)
  | printed _ _ houtput' _ =>
      rw [houtput] at houtput'
      cases houtput'
  | unplaced hread' _ houtput' hcompile htakes _ =>
      obtain rfl := Except.ok.inj (hread.symm.trans hread')
      obtain rfl := Option.some.inj (houtput.symm.trans houtput')
      exact ⟨_, hcompile, fun _ => FileTree.changesOnly_prepare t path, fun h => absurd h htakes⟩
  | written hread' _ houtput' hcompile htakes hwrite _ =>
      obtain rfl := Except.ok.inj (hread.symm.trans hread')
      obtain rfl := Option.some.inj (houtput.symm.trans houtput')
      refine ⟨_, hcompile, fun h => absurd htakes h, fun _ => ?_⟩
      have hdirs := FileTree.changesOnly_prepare t path
      obtain ⟨hkeeps, hcontent, names, hwalk, hold, hwritten⟩ := FileTree.changesOnly_write hwrite
      refine ⟨hcontent, names, hwalk, ?_, hdirs.trans (hwritten _) hkeeps List.prefix_rfl⟩
      intro hdir
      exact hold (hdirs.keeps.dirs names hdir)

end Course

/-! ### The outcome -/

/-- What the compiler leaves behind when it is asked for `o`. -/
structure Ends (o : Options) (stdin : ByteArray) (t : FileTree) (out : Outcome) : Prop where
  /-- It succeeds just if the source can be read and is accepted and, with an output file, the code
  can be put there. -/
  success : out.exitCode = 0 ↔ ∃ source f, t.readSource stdin o.source = .ok source ∧
    check source = .ok f ∧
    ∀ path, o.output = some path → ∃ ir, compile source = .ok ir ∧ t.Takes path ir.toUTF8
  /-- It exits with 1 just if the source can be read and is refused. -/
  refusal : out.exitCode = 1 ↔ ∃ source e, t.readSource stdin o.source = .ok source ∧
    check source = .error e
  exitCode_cases : out.exitCode = 0 ∨ out.exitCode = 1 ∨ out.exitCode = 3
  /-- Without an accepted source the tree is unchanged and at most the prompt was printed. -/
  unaccepted : (¬ ∃ source f, t.readSource stdin o.source = .ok source ∧ check source = .ok f) →
    out.tree = t ∧ (out.stdout = "" ∨ out.stdout = "Enter code:\n")
  tree_eq : o.output = none → out.tree = t
  /-- With an accepted source and an output file, either the code cannot be put there, and then there
  are new directories on the way at most; or the file holds the code, and nothing else has changed but
  for such directories. -/
  output : ∀ source f path, t.readSource stdin o.source = .ok source → check source = .ok f →
    o.output = some path → ∃ ir, compile source = .ok ir ∧
      (¬ t.Takes path ir.toUTF8 → FileTree.ChangesOnly (outputSteps path) none t out.tree) ∧
      (t.Takes path ir.toUTF8 → out.tree.read path = .ok ir.toUTF8 ∧
        ∃ names, out.tree.walk [] path.parts = .ok names ∧ t.get? names ≠ some .dir ∧
          FileTree.ChangesOnly (outputSteps path) (some names) t out.tree)

theorem ends_perform (o : Options) (stdin : ByteArray) (t : FileTree) :
    Ends o stdin t (Tool.compiler.perform o stdin t) := by
  have hcourse : Course o stdin t (Tool.compiler.perform o stdin t).exitCode
      (Tool.compiler.perform o stdin t).stdout (Tool.compiler.perform o stdin t).tree :=
    course_run o stdin t
  refine ⟨hcourse.exitCode_eq_zero_iff, hcourse.exitCode_eq_one_iff, hcourse.exitCode_cases, ?_,
    hcourse.unchanged_of_no_output, ?_⟩
  · intro hnot
    obtain ⟨htree, hstdout⟩ := hcourse.unchanged_of_not_accepted hnot
    rw [hstdout]
    exact ⟨htree, promptText_cases o⟩
  · intro source f path hread hcheck houtput
    exact hcourse.changesOnly hread hcheck houtput

/-- **The outcome of the compiler.**  With arguments that are understood it exits with 0, 1 or 3, and
changes nothing but what it was asked for. -/
theorem execute_outcome {args : List String} {o : Options}
    (hargs : Tool.compiler.readArgs args = .ok o) (stdin : ByteArray) (t : FileTree) :
    Ends o stdin t (Tool.compiler.execute args stdin t) := by
  rw [execute_of_readArgs hargs]
  exact ends_perform o stdin t

/-- A tree with one file in it. -/
private def oneFile : FileTree := ⟨[(["keep"], .file ⟨#[1]⟩)]⟩

private def emptyFunction : String := "func f() \x7b\x7d"

/-- A path that goes up again is made and holds the code.  A path through a file stops midway, when
the directory `new` is there already. -/
theorem execute_outcome_midway :
    (let out := Tool.compiler.execute ["-o", "new/../out/f.ll"] emptyFunction.toUTF8 oneFile
     out.exitCode = 0 ∧ ∃ ir names, compile emptyFunction = .ok ir ∧
        out.tree.read ⟨"new/../out/f.ll"⟩ = .ok ir.toUTF8 ∧
        FileTree.ChangesOnly ["new", "..", "out"] (some names) oneFile out.tree) ∧
    (let out := Tool.compiler.execute ["-o", "new/../keep/x/f.ll"] emptyFunction.toUTF8 oneFile
     out.exitCode = 3 ∧ FileTree.ChangesOnly ["new", "..", "keep", "x"] none oneFile out.tree) := by
  have hread : oneFile.readSource emptyFunction.toUTF8 .stdin = .ok emptyFunction := by
    decide +kernel
  have hcheck : check emptyFunction = .ok ⟨"f", [], [], ⟨1, 11⟩, ⟨1, 1⟩⟩ := by
    with_unfolding_all rfl
  have hargs : ∀ path ∈ ["new/../out/f.ll", "new/../keep/x/f.ll"],
      Tool.compiler.readArgs ["-o", path] = .ok { output := some ⟨path⟩ } := by
    decide +kernel
  constructor
  · obtain ⟨hzero, -, -, -, -, hplaced⟩ :=
      execute_outcome (hargs "new/../out/f.ll" (by simp)) emptyFunction.toUTF8 oneFile
    obtain ⟨ir, hcompile, -, htaken⟩ := hplaced _ _ _ hread hcheck rfl
    have htakes : oneFile.Takes ⟨"new/../out/f.ll"⟩ ir.toUTF8 :=
      ⟨by decide +kernel, _, by with_unfolding_all rfl⟩
    obtain ⟨hcontent, names, -, -, hchanges⟩ := htaken htakes
    refine ⟨hzero.mpr ⟨_, _, hread, hcheck, ?_⟩, ir, names, hcompile, hcontent, hchanges⟩
    intro path hpath
    cases hpath
    exact ⟨ir, hcompile, htakes⟩
  · obtain ⟨hzero, hone, hcodes, -, -, hplaced⟩ :=
      execute_outcome (hargs "new/../keep/x/f.ll" (by simp)) emptyFunction.toUTF8 oneFile
    obtain ⟨ir, hcompile, hunplaced, -⟩ := hplaced _ _ _ hread hcheck rfl
    have hfails : (oneFile.prepare ⟨"new/../keep/x/f.ll"⟩).1 ≠ .ok () := by decide +kernel
    refine ⟨?_, hunplaced (fun htakes => hfails htakes.1)⟩
    rcases hcodes with hcode | hcode | hcode
    · obtain ⟨source, f, -, -, hplace⟩ := hzero.mp hcode
      obtain ⟨ir', -, htakes⟩ := hplace _ rfl
      exact absurd htakes.1 hfails
    · obtain ⟨source, e, hread', hcheck'⟩ := hone.mp hcode
      cases hread.symm.trans hread'
      cases hcheck.symm.trans hcheck'
    · exact hcode

end TallyLang
