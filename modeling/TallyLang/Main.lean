/-
The command line on a real disk.

The name of the program says which tool it is.  All decisions are made elsewhere;
this module reads the source, prints, and writes the file.
-/
import TallyLang.Session

namespace TallyLang

namespace CommandLine

/-- The number and the wording of an error of the system. -/
def systemError (e : IO.Error) : SystemError :=
  let known (code : UInt32) (reason : String) : SystemError :=
    let code := code.toNat
    .ofCode (if code < Nat.pow 2 31 then code else Nat.pow 2 32 - code) reason
  match e with
  | .noFileOrDirectory _ code reason | .interrupted _ code reason => known code reason
  | .alreadyExists _ code reason | .invalidArgument _ code reason
  | .permissionDenied _ code reason | .resourceExhausted _ code reason
  | .inappropriateType _ code reason | .noSuchThing _ code reason => known code reason
  | .otherError code reason | .resourceBusy code reason | .resourceVanished code reason
  | .unsupportedOperation code reason | .hardwareFault code reason
  | .unsatisfiedConstraints code reason | .illegalOperation code reason
  | .protocolError code reason | .timeExpired code reason => known code reason
  | .unexpectedEof => .other 0 "unexpected end of file"
  | .userError reason => .other 0 reason

/-- Runs an action and catches what the system refuses. -/
def attempt {α : Type} (act : IO α) : IO (Except SystemError α) := do
  try return .ok (← act) catch e => return .error (systemError e)

/-- Reads a source from the disk or from standard input. -/
def readSource (source : Source) : IO (Except ReadError String) := do
  let bytes ← attempt <| match source with
    | .stdin => do (← IO.getStdin).readBinToEnd
    | .file path => IO.FS.readBinFile path.text
  return match bytes with
    | .error e => .error (.system e)
    | .ok bytes => decodeText bytes

/-- Whether a path leads to a directory of the disk. -/
def isDir (p : Path) : IO Bool := do
  match ← attempt (IO.FS.realPath p.text) with
  | .ok real => real.isDir
  | .error _ => return false

/-- Makes a directory and those above it that are missing. -/
partial def makeDirs (p : Path) : IO (Except SystemError Unit) := do
  let make : IO (Except SystemError Unit) := do
    match ← attempt (IO.FS.createDir p.text) with
    | .error .notFound => return .error .notFound
    | .error e => if ← isDir p then return .ok () else return .error e
    | .ok () => return .ok ()
  match ← make, p.parent? with
  | .error .notFound, some up =>
    if up.text.isEmpty then return .error .notFound
    match ← makeDirs up with
    | .ok () => make
    | .error e => return .error e
  | made, _ => return made

/-- Writes the code to a file, and makes its directories if they are missing. -/
def deliver (path : Path) (ir : String) : IO (Except Failure (List Note)) := do
  if let some dir := outputDir? path then
    if let .error e ← makeDirs dir then return .error (.noDirectory dir e)
  match ← attempt (IO.FS.writeBinFile path.text ir.toUTF8) with
  | .error e => return .error (.unwritable path e)
  | .ok () => return .ok (wroteNotes path ir)

/-- Runs a tool and gives its report, the prompt apart, which is printed at once. -/
def runTool (tool : Tool) (o : Options) : IO Report := do
  IO.print (promptText o)
  (← IO.getStdout).flush
  let o := { o with prompt := false }
  match ← readSource o.source with
  | .error cause => return reportUnreadable o cause
  | .ok source =>
    let work := tool.work o source
    match work.result with
    | .error e => return conclude o work (.error e)
    | .ok none => return conclude o work (.ok [])
    | .ok (some (path, ir)) => return conclude o work (← deliver path ir)

/-- The tool with a given program name; the compiler unless it is the checker's. -/
def toolNamed (name : String) : Tool :=
  if name = Tool.checker.name then .checker else .compiler

end CommandLine

end TallyLang

open TallyLang in
/-- Runs the tool that the program is named for. -/
def main (args : List String) : IO UInt32 := do
  let tool := CommandLine.toolNamed ((← IO.appPath).fileName.getD "")
  match tool.readArgs args with
  | .error halt =>
    let out := halt.outcome tool .empty
    IO.print out.stdout
    IO.eprint out.stderr
    return UInt32.ofNat out.exitCode
  | .ok o =>
    let report ← CommandLine.runTool tool o
    IO.print report.stdout
    IO.eprint (Note.render o.verbose report.notes)
    return UInt32.ofNat report.exitCode
