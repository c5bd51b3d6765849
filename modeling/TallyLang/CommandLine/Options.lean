/-
The two tools and what can be asked of them.

The compiler writes the code of a function, the checker only says whether a source
is one.  Both read a source from a file or from standard input.
-/
import TallyLang.FileTree.Path

namespace TallyLang

/-- The tools. -/
inductive Tool where
  | compiler
  | checker
deriving DecidableEq, Repr

/-- What can be switched on or given after a dash. -/
inductive Switch where
  | output
  | dumpTokens
  | dumpAst
  | frame
  | prompt
  | verbose
  | help
  | version
deriving DecidableEq, Repr

namespace Switch

/-- The name after two dashes. -/
def long : Switch → String
  | output => "output"
  | dumpTokens => "dump-tokens"
  | dumpAst => "dump-ast"
  | frame => "frame"
  | prompt => "prompt"
  | verbose => "verbose"
  | help => "help"
  | version => "version"

/-- The letter after one dash. -/
def short? : Switch → Option Char
  | output => some 'o'
  | verbose => some 'v'
  | help => some 'h'
  | version => some 'V'
  | _ => none

/-- How messages show it. -/
def text : Switch → String
  | output => "--output <FILE>"
  | verbose => "--verbose..."
  | s => "--" ++ s.long

end Switch

namespace Tool

/-- The name of the program. -/
def name : Tool → String
  | compiler => "tallyc"
  | checker => "tally-check"

/-- The switches the tool knows. -/
def switches : Tool → List Switch
  | compiler => [.output, .dumpTokens, .dumpAst, .frame, .prompt, .verbose, .help, .version]
  | checker => [.verbose, .help, .version]

/-- The switch with a given long name. -/
def long? (tool : Tool) (name : String) : Option Switch :=
  tool.switches.find? (fun s => s.long = name)

/-- The switch with a given letter. -/
def short? (tool : Tool) (c : Char) : Option Switch :=
  tool.switches.find? (fun s => s.short? = some c)

/-- The line printed for `--version`. -/
def versionText (tool : Tool) : String := tool.name ++ " 0.1.0\n"

/-- The lines of the help on switches. -/
def switchHelp : Tool → String
  | compiler =>
    "  -o, --output <FILE>  Write the IR to FILE instead of standard output\n" ++
    "      --dump-tokens    Print the token stream to stderr\n" ++
    "      --dump-ast       Print the parsed function to stderr\n" ++
    "      --frame          Surround the IR with status lines and delimiters\n" ++
    "      --prompt         Print 'Enter code:' before reading standard input\n" ++
    "  -v, --verbose...     Increase log verbosity (-v info, -vv debug, -vvv trace)\n" ++
    "  -h, --help           Print help\n" ++
    "  -V, --version        Print version\n"
  | checker =>
    "  -v, --verbose...  Increase log verbosity (-v info, -vv debug, -vvv trace)\n" ++
    "  -h, --help        Print help\n" ++
    "  -V, --version     Print version\n"

/-- The text printed for `--help`. -/
def helpText (tool : Tool) : String :=
  "Compiles a single Tally function definition to LLVM IR text\n\nUsage: " ++ tool.name ++
    " [OPTIONS] [INPUT]\n\nArguments:\n" ++
    "  [INPUT]  Source file; standard input is read when omitted or `-`\n\nOptions:\n" ++
    tool.switchHelp

end Tool

/-- What a run of a tool was asked to do.  The checker only has an input and a verbosity. -/
structure Options where
  input : Option Path := none
  output : Option Path := none
  dumpTokens : Bool := false
  dumpAst : Bool := false
  frame : Bool := false
  prompt : Bool := false
  verbose : Nat := 0
deriving DecidableEq, Repr

/-- Where a source is read from. -/
inductive Source where
  | stdin
  | file (path : Path)
deriving DecidableEq, Repr

/-- Where the source is read from: the input file, or standard input when there is none or it
is a dash. -/
def Options.source (o : Options) : Source :=
  match o.input with
  | none => .stdin
  | some path => if path.isDash then .stdin else .file path

end TallyLang
