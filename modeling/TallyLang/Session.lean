/-
What a run of a tool does.

A run reads a source, works on it, and may write a file.  The work itself needs
nothing but the source: `Tool.work` gives all that is printed up to the writing of
the file, and the code to be written.  `conclude` adds what is printed after it.
So the same two functions serve a run on a tree of files, which is `Tool.run`, and a
run on a real disk.

Everything on standard error is kept as a list of notes, log events among them, and
only the last step leaves out the events that the verbosity does not ask for.
-/
import TallyLang.Compiler
import TallyLang.Log
import TallyLang.CommandLine.Arguments
import TallyLang.FileTree.Basic

namespace TallyLang

/-! ### What is printed -/

/-- An item on standard error. -/
inductive Note where
  | line (text : String)
  | log (event : LogEvent)
deriving DecidableEq, Repr

namespace Note

/-- Whether the item is written with `verbose` many `-v` flags. -/
def visibleAt (verbose : Nat) : Note → Bool
  | line _ => true
  | log event => event.level.enabledAt verbose

/-- The text, with its line break. -/
def text : Note → String
  | line text => text ++ "\n"
  | log event => event.text ++ "\n"

/-- What a list of items puts on standard error. -/
def render (verbose : Nat) (notes : List Note) : String :=
  String.join ((notes.filter (·.visibleAt verbose)).map text)

end Note

/-! ### What can fail -/

/-- Why a run fails. -/
inductive Failure where
  | unreadable (source : Source) (cause : ReadError)
  | rejected (d : Diagnostic)
  | noDirectory (path : Path) (cause : SystemError)
  | unwritable (path : Path) (cause : SystemError)
deriving DecidableEq, Repr

namespace Failure

/-- The wording. -/
def message : Failure → String
  | unreadable .stdin cause => "failed to read standard input: " ++ cause.text
  | unreadable (.file path) cause =>
    "failed to read input file " ++ path.text ++ ": " ++ cause.text
  | rejected d => d.message
  | noDirectory path cause => "failed to create directory " ++ path.text ++ ": " ++ cause.text
  | unwritable path cause => "failed to write output file " ++ path.text ++ ": " ++ cause.text

/-- The exit code. -/
def exitCode : Failure → Nat
  | rejected d => d.exitCode
  | _ => 3

/-- Whether the source was read but is not a function. -/
def isParseFailure : Failure → Bool
  | rejected (.parser _ _) => true
  | _ => false

/-- The items that report the failure. -/
def notes (frame : Bool) (e : Failure) : List Note :=
  (if frame && e.isParseFailure then [.line "Error parsing function."] else []) ++
    [.line ("error: " ++ e.message)]

end Failure

/-! ### The work on a source -/

/-- What the work on a source prints, and the code to be written to a file, if any. -/
structure Work where
  stdout : String
  notes : List Note
  result : Except Failure (Option (Path × String))

/-- The events of reading a source as tokens. -/
def scanNotes (source : String) : List Note := (LogEvent.ofTokens (tokensOf source)).map .log

/-- The list of the tokens of a source, one a line. -/
def dumpNotes (source : String) : List Note :=
  (tokensOf source).zipIdx.map fun (t, i) =>
    .line ("  " ++ toString i ++ ": " ++ t.token.text ++ " at " ++ t.loc.text)

/-- The events of checking a source. -/
def checkNotes (source : String) : List Note :=
  scanNotes source ++ [.log (.lexed (tokensOf source).length)] ++
    match check source with
    | .ok f => [.log (.parsed f.name f.params.length)]
    | .error _ => []

/-- The line above and below the code. -/
def rule : String := "==================\n"

/-- The code as it is printed. -/
def framed (frame : Bool) (ir : String) : String :=
  if frame then "Generated LLVM IR:\n" ++ rule ++ ir ++ rule else ir

/-- How many temporaries the code of a function takes. -/
def tempsOf (f : Function) : Nat := (IR.emitFunction f .empty).2.temps

/-- The compiler's work on a function that was read. -/
def compileWork (o : Options) (f : Function) : Work :=
  let status := if o.frame then "Parsed a function successfully!\nGenerating LLVM IR...\n" else ""
  let dump := if o.dumpAst then [Note.line f.text] else []
  let notes := .log (.accepted f.name f.params.length) :: dump
  match generate f with
  | .error e => ⟨status, notes, .error (.rejected e.diagnostic)⟩
  | .ok ir =>
    let notes := notes ++ [.log (.generated f.name (tempsOf f))]
    match o.output with
    | some path => ⟨status, notes, .ok (some (path, ir))⟩
    | none => ⟨status ++ framed o.frame ir, notes, .ok none⟩

/-- The checker's work on a function that was read. -/
def checkWork (f : Function) : Work := ⟨"ok: " ++ f.signature ++ "\n", [], .ok none⟩

/-- The work of a tool on a source that was read. -/
def Tool.work (tool : Tool) (o : Options) (source : String) : Work :=
  let dump := if o.dumpTokens then scanNotes source ++ dumpNotes source else []
  let notes := dump ++ checkNotes source
  match check source with
  | .error e => ⟨"", notes, .error (.rejected e.diagnostic)⟩
  | .ok f =>
    let work := match tool with
      | .compiler => compileWork o f
      | .checker => checkWork f
    { work with notes := notes ++ work.notes }

/-! ### A whole run -/

/-- What is seen of a run. -/
structure Report where
  exitCode : Nat
  stdout : String
  notes : List Note

/-- The line that asks for a source. -/
def promptText (o : Options) : String :=
  if o.prompt && o.source = .stdin then "Enter code:\n" else ""

/-- The report of a run whose source cannot be read. -/
def reportUnreadable (o : Options) (cause : ReadError) : Report :=
  let e := Failure.unreadable o.source cause
  ⟨e.exitCode, promptText o, e.notes o.frame⟩

/-- The report of a run whose work ended in writing a file, or in nothing more to do. -/
def conclude (o : Options) (work : Work) (written : Except Failure (List Note)) : Report :=
  match written with
  | .ok notes => ⟨0, promptText o ++ work.stdout, work.notes ++ notes⟩
  | .error e => ⟨e.exitCode, promptText o ++ work.stdout, work.notes ++ e.notes o.frame⟩

/-- The event of having written the code to a file. -/
def wroteNotes (path : Path) (ir : String) : List Note := [.log (.wrote path.text ir.utf8ByteSize)]

/-- The directory that has to be there before a file is written, if the path has one. -/
def outputDir? (path : Path) : Option Path := path.parent?.filter (fun dir => !dir.text.isEmpty)

namespace FileTree

/-- Reads a source from a file of the tree, or from what stands for standard input. -/
def readSource (t : FileTree) (stdin : ByteArray) : Source → Except ReadError String
  | .stdin => decodeText stdin
  | .file path =>
    match t.read path with
    | .error e => .error (.system e)
    | .ok bytes => decodeText bytes

/-- Makes the directories of an output file that are missing. -/
def prepare (t : FileTree) (path : Path) : Except Failure Unit × FileTree :=
  match outputDir? path with
  | none => (.ok (), t)
  | some dir =>
    match t.makeDirs dir with
    | (.ok (), t) => (.ok (), t)
    | (.error e, t) => (.error (.noDirectory dir e), t)

/-- Writes the code to a file, and makes its directories if they are missing. -/
def deliver (t : FileTree) (path : Path) (ir : String) : Except Failure (List Note) × FileTree :=
  match t.prepare path with
  | (.error e, t) => (.error e, t)
  | (.ok (), t) =>
    match t.write path ir.toUTF8 with
    | .error e => (.error (.unwritable path e), t)
    | .ok t => (.ok (wroteNotes path ir), t)

end FileTree

/-- A run of a tool with given options on a tree of files. -/
def Tool.run (tool : Tool) (o : Options) (stdin : ByteArray) (t : FileTree) : Report × FileTree :=
  match t.readSource stdin o.source with
  | .error cause => (reportUnreadable o cause, t)
  | .ok source =>
    let work := tool.work o source
    match work.result with
    | .error e => (conclude o work (.error e), t)
    | .ok none => (conclude o work (.ok []), t)
    | .ok (some (path, ir)) =>
      let (written, t) := t.deliver path ir
      (conclude o work written, t)

/-- What a run leaves behind. -/
structure Outcome where
  exitCode : Nat
  stdout : String
  stderr : String
  tree : FileTree

/-- The outcome of a run that does not start its work. -/
def Halt.outcome (tool : Tool) (t : FileTree) : Halt → Outcome
  | help => ⟨0, tool.helpText, "", t⟩
  | version => ⟨0, tool.versionText, "", t⟩
  | misuse e => ⟨2, "", e.line, t⟩

/-- What a run with given options leaves behind.  The verbosity says what of its notes is written. -/
def Tool.perform (tool : Tool) (o : Options) (stdin : ByteArray) (t : FileTree) : Outcome :=
  let (report, t) := tool.run o stdin t
  ⟨report.exitCode, report.stdout, Note.render o.verbose report.notes, t⟩

/-- What a run with given arguments leaves behind. -/
def Tool.execute (tool : Tool) (args : List String) (stdin : ByteArray) (t : FileTree) : Outcome :=
  match tool.readArgs args with
  | .error halt => halt.outcome tool t
  | .ok o => tool.perform o stdin t

/-- Of the arguments only the options matter that they ask for. -/
theorem execute_of_readArgs {tool : Tool} {args : List String} {o : Options}
    (hargs : tool.readArgs args = .ok o) (stdin : ByteArray) (t : FileTree) :
    tool.execute args stdin t = tool.perform o stdin t := by
  rw [Tool.execute, hargs]

/-- Compiles a source to a file whose directory is there. -/
def FileTree.compileTo (t : FileTree) (source : String) (path : Path) :
    Except Diagnostic FileTree :=
  match compile source with
  | .error d => .error d
  | .ok ir => (t.write path ir.toUTF8).mapError (fun e => .io e.text)

end TallyLang
