import AlgoFrontEnd.Grammar.Header

/-! Programs read line by line, with the blocks that are still open kept on a stack. -/
namespace AlgoFrontEnd.Grammar
open Token (Form)

/-- A line without its end-of-line token, and the place to point at when it stops too early. -/
structure TokenLine where
  tokens : List Token
  stop : Position
  deriving DecidableEq, Repr

/-- The last line may lack its end; it then stops at its last token. -/
def TokenLine.ofTokens : List Token → List TokenLine
  | [] => []
  | ⟨.endLine, position⟩ :: rest => ⟨[], position⟩ :: ofTokens rest
  | t :: rest =>
    match ofTokens rest with
    | [] => [⟨[t], t.position⟩]
    | line :: lines => ⟨t :: line.tokens, line.stop⟩ :: lines

/-- A block whose end has not been reached, with what came before its current body. A conditional
that directly follows an else is chained to it and shares its end. -/
inductive Block where
  | function (note : Position) (header : Header Position)
  | loop (note : Position) (condition : Expr Position)
  | thenPart (note : Position) (condition : Expr Position) (chained : Bool)
  | elsePart (note : Position) (condition : Expr Position) (thenBody : List (Stmt Position))
    (chained : Bool)
  deriving Repr

namespace Block

def note : Block → Position
  | function n _ | loop n _ | thenPart n _ _ | elsePart n _ _ _ => n

def construct : Block → String
  | function _ _ => "function"
  | loop _ _ => "while"
  | thenPart _ _ _ | elsePart _ _ _ _ => "if"

/-- The statement that a block becomes with its last body. -/
def complete (body : List (Stmt Position)) : Block → Stmt Position
  | function n header => .function n header body
  | loop n condition => .loop n condition body
  | thenPart n condition _ => .branch n condition body []
  | elsePart n condition thenBody _ => .branch n condition thenBody body

def isChained : Block → Bool
  | thenPart _ _ chained | elsePart _ _ _ chained => chained
  | function _ _ | loop _ _ => false

end Block

/-- The statements of the innermost body read so far, and the blocks around it from the inside
outwards, each with the statements before it. All statement lists are held newest first. -/
structure Reading where
  body : List (Stmt Position)
  enclosing : List (Block × List (Stmt Position))

namespace Reading

def start : Reading := ⟨[], []⟩

def add (r : Reading) (s : Stmt Position) : Reading := { r with body := s :: r.body }

def enter (r : Reading) (b : Block) : Reading := ⟨[], (b, r.body) :: r.enclosing⟩

/-- Whether a conditional here would directly follow an else. -/
def startsElse (r : Reading) : Bool :=
  match r.body, r.enclosing with
  | [], (.elsePart _ _ _ _, _) :: _ => true
  | _, _ => false

/-- Closes the innermost block, and the blocks that it is chained to. -/
def close (body : List (Stmt Position)) :
    List (Block × List (Stmt Position)) → Option Reading
  | [] => none
  | (block, before) :: outer =>
    let body := block.complete body.reverse :: before
    if block.isChained then close body outer else some ⟨body, outer⟩

/-- Turns to the other branch of the innermost conditional. -/
def turn (r : Reading) : Option Reading :=
  match r.enclosing with
  | (.thenPart n condition chained, before) :: outer =>
    some ⟨[], (.elsePart n condition r.body.reverse chained, before) :: outer⟩
  | _ => none

/-- Reads the rest of a line. Only an else may be followed by more on its line. -/
def line (stop : Position) (r : Reading) : List Token → Except Fault Reading
  | [] => .ok r
  | t :: rest =>
    match t.form with
    | .keyword .ifWord => do
      return r.enter (.thenPart t.position (← expression stop rest) r.startsElse)
    | .keyword .whileWord => do return r.enter (.loop t.position (← expression stop rest))
    | .keyword .functionWord => do return r.enter (.function t.position (← header stop rest))
    | .keyword .declareWord =>
      match rest with
      | ⟨.keyword .functionWord, _⟩ :: rest => do
        return r.add (.declare t.position (← header stop rest))
      | _ => fault (.missingToken "'function' after 'declare'") (here stop rest)
    | .keyword .returnWord =>
      match rest with
      | [] => .ok (r.add (.give t.position none))
      | _ => do return r.add (.give t.position (some (← expression stop rest)))
    | .keyword .elseWord =>
      match r.turn with
      | some r => r.line stop rest
      | none => unexpected t "statement"
    | .keyword .endWord =>
      match close r.body r.enclosing with
      | some r => do expectEnd rest; return r
      | none => unexpected t "statement"
    | .keyword (.unknown _) => unexpected t "statement"
    | _ => do return r.add (.expr (← expression stop (t :: rest)))

def lines (r : Reading) : List TokenLine → Except Fault Reading
  | [] => .ok r
  | l :: ls => do (← r.line l.stop l.tokens).lines ls

end Reading

/-- The program that a token stream spells. At its end no block may be open. -/
def program (tokens : List Token) : Except Fault (Program Position) := do
  let r ← Reading.start.lines (TokenLine.ofTokens tokens)
  match r.enclosing with
  | [] => return r.body.reverse
  | (block, _) :: _ => fault (.unterminatedBlock block.construct) block.note

end AlgoFrontEnd.Grammar
