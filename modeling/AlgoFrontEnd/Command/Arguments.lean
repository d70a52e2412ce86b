/-! Command-line arguments: options in any order, and one source file. -/
namespace AlgoFrontEnd.Command

/-- Requests that are answered before anything else is looked at. -/
inductive Request where
  | version
  | help
  deriving DecidableEq, Repr

/-- What the arguments say, before any file is looked at. -/
structure Arguments where
  files : List String
  output : Option String
  entry : Option String
  tokens : Bool
  tree : Bool
  noLayout : Bool
  verbose : Bool
  request : Option Request
  deriving DecidableEq, Repr

/-- Arguments that cannot be read: against the usage, or an option without its value, or one
with a value that it does not take. -/
inductive ArgumentFault where
  | usage
  | needsValue (option : String)
  | takesNoValue (option : String)
  deriving DecidableEq, Repr

namespace Arguments

def initial : Arguments := ⟨[], none, none, false, false, false, false, none⟩

/-- The first request stands. -/
def ask (r : Request) (a : Arguments) : Arguments := { a with request := a.request <|> some r }

end Arguments

/-- What an option does: a flag by itself, a setting with a value. The last value stands. -/
inductive OptionEffect where
  | flag (set : Arguments → Arguments)
  | setting (set : String → Arguments → Arguments)

namespace OptionEffect

def output : OptionEffect := setting fun value a => { a with output := some value }

def verbose : OptionEffect := flag fun a => { a with verbose := true }

def long? : String → Option OptionEffect
  | "--output" => some output
  | "--tokens" => some (flag fun a => { a with tokens := true })
  | "--ast" => some (flag fun a => { a with tree := true })
  | "--entry" => some (setting fun value a => { a with entry := some value })
  | "--no-layout" => some (flag fun a => { a with noLayout := true })
  | "--verbose" => some verbose
  | "--version" => some (flag (Arguments.ask .version))
  | "--help" => some (flag (Arguments.ask .help))
  | _ => none

def short? : Char → Option OptionEffect
  | 'o' => some output
  | 'v' => some verbose
  | _ => none

end OptionEffect

/-- Arguments so far, or a setting that still waits for its value. -/
inductive Partial where
  | complete (a : Arguments)
  | waiting (option : String) (set : String → Arguments)

/-- Short options behind one dash. What follows a setting is its value. -/
def shortOptions (a : Arguments) : List Char → Except ArgumentFault Partial
  | [] => .ok (.complete a)
  | c :: rest =>
    match OptionEffect.short? c with
    | some (.flag set) => shortOptions (set a) rest
    | some (.setting set) =>
      if rest.isEmpty then .ok (.waiting (String.ofList ['-', c]) (set · a))
      else .ok (.complete (set (String.ofList rest) a))
    | none => .error .usage

/-- The part before the first equals sign, and the part behind it if there is one. -/
def splitValue : List Char → List Char × Option (List Char)
  | [] => ([], none)
  | '=' :: rest => ([], some rest)
  | c :: rest => let (name, value) := splitValue rest; (c :: name, value)

/-- One argument that begins with a dash and goes on. Long names count in full only. -/
def option (a : Arguments) (argument : List Char) : Except ArgumentFault Partial :=
  let (name, value) := splitValue argument
  match OptionEffect.long? (String.ofList name), value with
  | some (.flag set), none => .ok (.complete (set a))
  | some (.flag _), some _ => .error (.takesNoValue (String.ofList name))
  | some (.setting set), none => .ok (.waiting (String.ofList name) (set · a))
  | some (.setting set), some value => .ok (.complete (set (String.ofList value) a))
  | none, _ =>
    match argument with
    | '-' :: '-' :: _ => .error .usage
    | _ => shortOptions a argument.tail

namespace Arguments

/-- Reads arguments from left to right. Behind two dashes everything is a file, and a single dash
is one too. A setting takes the next argument, whatever it looks like. -/
def read (a : Arguments) : List String → Except ArgumentFault Arguments
  | [] => .ok a
  | argument :: rest =>
    match argument.toList with
    | ['-', '-'] => .ok { a with files := a.files ++ rest }
    | '-' :: c :: cs =>
      match option a ('-' :: c :: cs) with
      | .error e => .error e
      | .ok (.complete a) => read a rest
      | .ok (.waiting name set) =>
        match rest with
        | value :: rest => read (set value) rest
        | [] => .error (.needsValue name)
    | _ => read { a with files := a.files ++ [argument] } rest

end Arguments
end AlgoFrontEnd.Command
