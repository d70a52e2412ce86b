import AlgoFrontEnd.Command.Arguments
import AlgoFrontEnd.Report
import AlgoFrontEnd.Text.Styling

/-! The command as a function of its arguments, the environment and the files it finds. -/
namespace AlgoFrontEnd.Command
open Files (Entry AccessFault Tree normalPath)

/-- A file to be written, and its new text. -/
structure Write where
  path : String
  text : String
  deriving DecidableEq, Repr

/-- What a run leaves behind. -/
structure Ending where
  exitCode : Nat
  stdout : String
  stderr : String
  write : Option Write
  deriving DecidableEq, Repr

/-- Arguments against the usage are answered with the usage; everything else ends a run. -/
inductive Outcome where
  | usage
  | ended (e : Ending)
  deriving DecidableEq, Repr

def success : Nat := 0
def buildError : Nat := 1
def invalidArguments : Nat := 2
def internalError : Nat := 3

namespace Outcome

def exitCode : Outcome → Nat
  | usage => invalidArguments
  | ended e => e.exitCode

def stdout : Outcome → String
  | usage => ""
  | ended e => e.stdout

def write : Outcome → Option Write
  | usage => none
  | ended e => e.write

/-- The files after a run. -/
def leave (o : Outcome) (t : Tree) : Tree :=
  match o.write with
  | some w => t.put (t.place w.path) (Text.Utf8.encode w.text)
  | none => t

end Outcome

def versionText : String := "algoc, version 1.0.0\n"

def usageText : String :=
  "Usage: algoc [OPTIONS] INPUT_FILE\n" ++
  "Try 'algoc --help' for help.\n\n" ++
  "Error: Invalid arguments.\n"

def helpText : String :=
  "Usage: algoc [OPTIONS] INPUT_FILE\n\n" ++
  "  Compile an algo program and report its flattened functions.\n\n" ++
  "  INPUT_FILE is the source file (.algo) to compile.\n\n" ++
  "  Examples:\n" ++
  "      algoc program.algo               # Print the report\n" ++
  "      algoc program.algo -o out.ir     # Write the report to a file\n" ++
  "      algoc --tokens program.algo      # Token stream only\n" ++
  "      algoc --ast program.algo         # Syntax tree only\n" ++
  "      algoc --entry start prog.algo    # Rename the entry function\n\n" ++
  "Options:\n" ++
  "  -o, --output FILE  Write the report to this file instead of stdout\n" ++
  "  --tokens           Print the token stream and exit\n" ++
  "  --ast              Print AST and exit (for debugging)\n" ++
  "  --entry TEXT       Name of the function that receives top-level statements\n" ++
  "                     (default: main, or ALGOC_ENTRY_FUNCTION)\n" ++
  "  --no-layout        Skip stack frame layout\n" ++
  "  -v, --verbose      Verbose output\n" ++
  "  --version          Show the version and exit.\n" ++
  "  --help             Show this message and exit.\n"

/-- A run whose arguments are in order: the source, how to compile it, and what to show. Paths
are kept as they are shown; an output comes with what is there now. -/
structure Job where
  input : String
  source : List UInt8
  output : Option (String × Entry)
  options : Options
  tokens : Bool
  tree : Bool
  verbose : Bool
  deriving DecidableEq, Repr

/-- The paths that a run looks at. -/
def Arguments.paths (a : Arguments) : List String :=
  a.files ++ match a.output with
    | some path => [path, normalPath path]
    | none => []

/-- The input must be a file and the output no directory. A named entry function takes
precedence over the environment, unless its name is empty. -/
def Job.ofArguments? (look : String → Entry) (environment : String → Option String)
    (a : Arguments) : Option Job :=
  match a.files with
  | [input] =>
    match look input with
    | .file source =>
      let base := Options.ofEnvironment environment
      let options : Options :=
        ⟨(a.entry.filter (· ≠ "")).getD base.entry, base.layout && !a.noLayout⟩
      let output := a.output.map fun path => (normalPath path, look (normalPath path))
      if a.output.any fun path => look path = .directory then none
      else some ⟨normalPath input, source, output, options, a.tokens, a.tree, a.verbose⟩
    | _ => none
  | _ => none

/-- The end of a run that fails: its exit code and message. A program at fault is told from a
fault of the run. -/
structure Abort where
  exitCode : Nat
  message : String
  deriving DecidableEq, Repr

def Abort.ofFailure : Failure → Abort
  | .diagnostic d => ⟨buildError, d.text⟩
  | f => ⟨internalError, "Internal error: " ++ f.message⟩

/-- A missing directory is a fault of the arguments. -/
def Abort.ofWriteFault (path : String) (f : AccessFault) : Abort :=
  match f with
  | .missingDirectory => ⟨invalidArguments, "Error: " ++ f.message path⟩
  | _ => ⟨internalError, "Internal error: " ++ f.message path⟩

/-- What a run shows in the end, and what it writes. -/
structure Product where
  shown : String
  write : Option Write
  deriving DecidableEq, Repr

def unlines (lines : List String) : String := String.join (lines.map (· ++ "\n"))

/-- Closing words of a verbose run. -/
def summary (c : Compilation) : List String :=
  [s!"Tokenized: {c.tokens.length} tokens",
    s!"Functions: {c.routines.length}, externs: {c.externals.length}"]

namespace Job

/-- Shows a report, or writes it where the output is. -/
def deliver (job : Job) (c : Compilation) (report : String) : Except Abort Product :=
  let closing := if job.verbose then unlines (summary c) else ""
  match job.output with
  | none => .ok ⟨report ++ closing, none⟩
  | some (path, entry) =>
    match entry.writeFault? with
    | some f => .error (.ofWriteFault path f)
    | none => .ok ⟨s!"Compiled {job.input} -> {path}\n" ++ closing, some ⟨path, report⟩⟩

/-- The token listing of a text, or its tree, or the report on it. The first one asked for stands,
in this order, and only the report is ever written to a file. -/
def product (job : Job) (text : String) : List Event × Except Abort Product :=
  if job.tokens then
    let lines := Text.lines text
    let tokens := Logged.telling (Source.tokens job.input lines)
      fun tokens => .tokenized lines.length job.input tokens.length
    (tokens.log, match tokens.result with
      | .ok tokens => .ok ⟨unlines (tokens.map Token.listing), none⟩
      | .error f => .error (.ofFailure f))
  else
    let compiled := compileText job.options job.input text
    (compiled.log, match compiled.result with
      | .error f => .error (.ofFailure f)
      | .ok c =>
        if job.tree then .ok ⟨c.program.text ++ "\n", none⟩
        else match c.describe with
          | .ok report => job.deliver c report
          | .error f => .error (.ofFailure f))

/-- A verbose run opens with what it compiles and tells its events. What is shown loses its style
sequences; events and written files keep them. -/
def run (job : Job) : Ending :=
  let opening := if job.verbose then s!"Compiling {job.input}...\n" else ""
  let (log, result) := match sourceText job.source with
    | .ok text => job.product text
    | .error f => ([], .error (.ofFailure f))
  let told := if job.verbose then unlines (log.map fun e => "DEBUG: " ++ e.text) else ""
  match result with
  | .ok p => ⟨success, Text.unstyled (opening ++ p.shown), told, p.write⟩
  | .error abort =>
    ⟨abort.exitCode, Text.unstyled opening, told ++ Text.unstyled abort.message ++ "\n", none⟩

end Job

def ArgumentFault.outcome : ArgumentFault → Outcome
  | usage => .usage
  | needsValue option =>
    .ended ⟨invalidArguments, "", s!"Error: Option '{option}' requires an argument.\n", none⟩
  | takesNoValue option =>
    .ended ⟨invalidArguments, "", s!"Error: Option '{option}' does not take a value.\n", none⟩

/-- The command on given arguments. -/
def run (look : String → Entry) (environment : String → Option String)
    (arguments : List String) : Outcome :=
  match Arguments.initial.read arguments with
  | .error f => f.outcome
  | .ok a =>
    match a.request with
    | some .version => .ended ⟨success, versionText, "", none⟩
    | some .help => .ended ⟨success, helpText, "", none⟩
    | none =>
      match Job.ofArguments? look environment a with
      | some job => .ended job.run
      | none => .usage

end AlgoFrontEnd.Command
