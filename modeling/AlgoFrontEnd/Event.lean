/-! Steps of a compilation that a verbose run reports. -/
namespace AlgoFrontEnd

inductive Event where
  | tokenized (lines : Nat) (file : String) (tokens : Nat)
  | parsed (statements : Nat) (file : String)
  | registered (signature mangled : String)
  | declared (signature : String)
  | awaited (signature : String)
  | resolved (functions externals : Nat)
  | framed (function : String) (slots bytes : Nat)
  | compiled (file : String) (functions externals : Nat)
  deriving DecidableEq, Repr

def Event.text : Event → String
  | tokenized lines file tokens => s!"Tokenized {lines} lines of {file} into {tokens} tokens"
  | parsed statements file => s!"Parsed {statements} top-level statements from {file}"
  | registered signature mangled => s!"Registered function {signature} as {mangled}"
  | declared signature => s!"Declared function header {signature}"
  | awaited signature => s!"Extern function {signature}"
  | resolved functions externals =>
    s!"Analysis produced {functions} functions and {externals} externs"
  | framed function slots bytes => s!"Frame of {function}: {slots} slots, {bytes} bytes"
  | compiled file functions externals =>
    s!"Compiled {file}: {functions} functions, {externals} externs"

end AlgoFrontEnd
