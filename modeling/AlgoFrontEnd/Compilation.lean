import AlgoFrontEnd.Failure
import AlgoFrontEnd.Grammar.Program
import AlgoFrontEnd.Options
import AlgoFrontEnd.Text.Lines
import AlgoFrontEnd.Token.Lexer

/-! Source text taken through tokens, tree and resolution to frames, up to the first fault. -/
namespace AlgoFrontEnd

/-- Everything that a successful compilation has found out about a source. -/
structure Compilation where
  file : String
  tokens : List Token
  program : Program Position
  routines : List Routine
  externals : List Symbol
  frames : FrameTable
  deriving Repr

namespace Source

/-- The tokens of numbered lines. A fault quotes its line without trailing line breaks. -/
def tokens (file : String) (lines : List String) : Except Failure (List Token) :=
  match Token.ofLines lines with
  | .ok tokens => .ok tokens
  | .error (.limit l) => .error (.limit l)
  | .error (.fault f) =>
    let texts := lines.map fun l => String.ofList (Token.lineText l)
    .error (.diagnostic (f.diagnostic file texts))

def program (file : String) (lines : List String) (tokens : List Token) :
    Except Failure (Program Position) :=
  (Grammar.program tokens).mapError fun f => .diagnostic (f.diagnostic file lines)

/-- Resolves a program; its faults quote the given lines. -/
def resolve (file entry : String) (lines : List String) (p : Program Position) :
    Logged Resolution.Result :=
  match Resolution.program entry p with
  | .ok (result, log) => ⟨log, .ok result⟩
  | .error stop => ⟨stop.log, .error (.diagnostic (stop.fault.diagnostic file lines))⟩

/-- Lays out the frames of functions, unless the options leave that out. -/
def layOut (file : String) (lines : List String) (options : Options) (rs : List Routine) :
    Logged FrameTable :=
  if options.layout then
    match FrameTable.ofRoutines rs with
    | .ok (table, log) => ⟨log, .ok table⟩
    | .error stop => ⟨stop.log, .error (.diagnostic (stop.fault.diagnostic file lines))⟩
  else ⟨[], .ok ⟨[]⟩⟩

end Source

/-- Compiles numbered lines. -/
def compileLines (options : Options) (file : String) (lines : List String) :
    Logged Compilation :=
  Logged.telling (Source.tokens file lines) (fun ts => .tokenized lines.length file ts.length)
  |>.andThen fun tokens =>
    Logged.telling (Source.program file lines tokens) (fun p => .parsed p.length file)
  |>.andThen fun program => Source.resolve file options.entry lines program
  |>.andThen fun resolved => Source.layOut file lines options resolved.routines
  |>.andThen fun frames =>
    Logged.telling
      (.ok ⟨file, tokens, program, resolved.routines, resolved.externals, frames⟩)
      (fun _ => .compiled file resolved.routines.length resolved.externals.length)

def compileText (options : Options) (file text : String) : Logged Compilation :=
  compileLines options file (Text.lines text)

/-- The text in a file. Carriage returns count as line feeds. -/
def sourceText (bytes : List UInt8) : Except Failure String :=
  match Text.Utf8.decode bytes with
  | .ok chars => .ok (String.ofList (Text.foldNewlines chars))
  | .error f => .error (.encoding f)

/-- Compiles the file at a path. Messages name the path as it is given. -/
def compileFile (look : String → Files.Entry) (options : Options) (path : String) :
    Logged Compilation :=
  match look (Files.normalPath path) with
  | .file bytes =>
    match sourceText bytes with
    | .ok text => compileText options path text
    | .error f => ⟨[], .error f⟩
  | .directory => ⟨[], .error (.access (Files.normalPath path) .isDirectory)⟩
  | .overlong => ⟨[], .error (.access (Files.normalPath path) .overlong)⟩
  | .vacant | .absent | .blocked => ⟨[], .error (.missingSource path)⟩

end AlgoFrontEnd
