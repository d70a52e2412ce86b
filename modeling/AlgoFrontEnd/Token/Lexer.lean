import AlgoFrontEnd.Fault
import AlgoFrontEnd.Number.Decimal
import AlgoFrontEnd.Token.Piece

/-! Tokens of a source text. Each line is read by itself and closed by an end-of-line token. -/
namespace AlgoFrontEnd.Token

/-- Why a line has no tokens: a fault at a column, or a literal that cannot be held. -/
inductive Refusal where
  | fault (cause : Cause) (column : Nat)
  | limit (l : Number.Limit)
  deriving DecidableEq, Repr

/-- A token that cannot end a value; at the start of a line there is none before. -/
def Form.wantsOperand : Form → Bool
  | .connective _ | .sign _ | .keyword _ | .mark .comma | .endLine | .mark .openParen
  | .mark .openBracket => true
  | _ => false

def wantsOperand (previous : Option Form) : Bool :=
  match previous with
  | none => true
  | some form => form.wantsOperand

/-- What a word means. Behind a colon every word that is not reserved names a type. -/
def wordForm (previous : Option Form) (word : String) : Form :=
  if ["int", "float", "bool", "string"].contains word then .typeName word
  else match Keyword.ofWord? word with
    | some k => .keyword k
    | none =>
      if word = "true" then .bool true
      else if word = "false" then .bool false
      else if previous = some (.mark .colon) then .typeName word
      else .name word

/-- A name directly before an opening parenthesis is called, unless the header of a function
introduces it. -/
def calledForm (previous : Option Form) (following : List Placed) : Form → Form
  | .name text =>
    match following with
    | ⟨_, .mark .openParen⟩ :: _ =>
      if previous = some (.keyword .functionWord) then .name text else .call text
    | _ => .name text
  | form => form

/-- The longest connective that the characters begin with, and what follows it. -/
def leadingConnective? : List Char → Option (Connective × List Char)
  | '<' :: '-' :: rest => some (.assign, rest)
  | '<' :: '=' :: rest => some (.operate .lessEq, rest)
  | '>' :: '=' :: rest => some (.operate .greaterEq, rest)
  | '=' :: '=' :: rest => some (.operate .equal, rest)
  | '!' :: '=' :: rest => some (.operate .notEqual, rest)
  | '<' :: rest => some (.operate .less, rest)
  | '>' :: rest => some (.operate .greater, rest)
  | '+' :: rest => some (.operate .add, rest)
  | '-' :: rest => some (.operate .subtract, rest)
  | '*' :: rest => some (.operate .multiply, rest)
  | '/' :: rest => some (.operate .divide, rest)
  | '%' :: rest => some (.operate .modulo, rest)
  | _ => none

/-- A connective is spelled by the characters taken for it. -/
theorem spelling_of_leadingConnective? {cs rest : List Char} {c : Connective}
    (h : leadingConnective? cs = some (c, rest)) : c.spelling.toList ++ rest = cs := by
  unfold leadingConnective? at h
  split at h <;> simp_all <;> obtain ⟨rfl, rfl⟩ := h <;> rfl

theorem spelling_ne_nil (c : Connective) : c.spelling.toList ≠ [] := by
  cases c with
  | assign => decide
  | operate op => cases op <;> decide

theorem length_of_leadingConnective? {cs rest : List Char} {c : Connective}
    (h : leadingConnective? cs = some (c, rest)) : rest.length < cs.length := by
  have hs := spelling_of_leadingConnective? h
  have hn := List.length_pos_iff.mpr (spelling_ne_nil c)
  rw [← hs, List.length_append]
  omega

/-- Splits a run of operator characters from a column on. A sign is taken where an operand is
due, and the longest connective elsewhere; after either an operand is due. -/
def splitRun (line : Int) (column : Nat) (operandDue : Bool) : List Char → Option (List Token)
  | [] => some []
  | c :: rest =>
    match if operandDue then Sign.ofSpelling? c.toString else none with
    | some s => (⟨.sign s, ⟨line, column⟩⟩ :: ·) <$> splitRun line (column + 1) true rest
    | none =>
      match _h : leadingConnective? (c :: rest) with
      | some (op, rest') =>
        (⟨.connective op, ⟨line, column⟩⟩ :: ·) <$>
          splitRun line (column + op.spelling.length) true rest'
      | none => none
termination_by cs => cs.length
decreasing_by
  · simp
  · exact length_of_leadingConnective? _h

/-- A numeral has a digit and at most one point. -/
def numeralForm (chars : List Char) (column : Nat) : Except Refusal Form :=
  if chars.any Char.isDigit then
    match Number.parts chars with
    | [digits] => (Number.integer digits).mapError .limit |>.map .int
    | [whole, behind] => (Number.real whole behind).mapError .limit |>.map .float
    | _ => .error (.fault (.invalidNumber (String.ofList chars)) column)
  else .error (.fault (.invalidNumber (String.ofList chars)) column)

/-- Interprets pieces from left to right, each in view of the token before it and the pieces
after it. A type name and an empty pair of brackets make one token. -/
def ofPieces (line : Int) (previous : Option Form) : List Placed → Except Refusal (List Token)
  | [] => .ok []
  | ⟨column, .word chars⟩ :: rest =>
    match wordForm previous (String.ofList chars), rest with
    | .typeName text, ⟨_, .mark .openBracket⟩ :: ⟨_, .mark .closeBracket⟩ :: rest => do
      let form := Form.arrayTypeName text
      return ⟨form, ⟨line, column⟩⟩ :: (← ofPieces line (some form) rest)
    | form, rest => do
      let form := calledForm previous rest form
      return ⟨form, ⟨line, column⟩⟩ :: (← ofPieces line (some form) rest)
  | ⟨column, .operators chars⟩ :: rest =>
    match splitRun line column (wantsOperand previous) chars with
    | some tokens => do
      return tokens ++ (← ofPieces line (tokens.getLast?.map (·.form) <|> previous) rest)
    | none => .error (.fault (.invalidOperator (String.ofList chars)) column)
  | ⟨column, .numeral chars⟩ :: rest => do
    let form ← numeralForm chars column
    return ⟨form, ⟨line, column⟩⟩ :: (← ofPieces line (some form) rest)
  | ⟨column, .quoted chars⟩ :: rest => do
    let form := Form.string (String.ofList chars)
    return ⟨form, ⟨line, column⟩⟩ :: (← ofPieces line (some form) rest)
  | ⟨column, .mark m⟩ :: rest => do
    return ⟨.mark m, ⟨line, column⟩⟩ :: (← ofPieces line (some (.mark m)) rest)

def Stop.refusal : Stop → Refusal
  | strayCharacter c column => .fault (.invalidCharacter c) column
  | openQuote column => .fault .unterminatedString column

/-- A line without the carriage returns and line feeds at its end. -/
def lineText (line : String) : List Char :=
  Text.dropEndWhile (fun c => c = '\r' || c = '\n') line.toList

/-- The tokens of one line. A piece that has no meaning is refused before what stopped the
cutting. -/
def ofLine (number : Int) (chars : List Char) : Except Refusal (List Token) := do
  let c := cut 1 chars
  let tokens ← ofPieces number none c.pieces
  match c.stop with
  | some stop => throw stop.refusal
  | none => return tokens ++ [⟨.endLine, ⟨number, chars.length + 1⟩⟩]

/-- Why a text has no tokens. -/
inductive Rejection where
  | fault (f : Fault)
  | limit (l : Number.Limit)
  deriving DecidableEq, Repr

def Refusal.atLine (number : Int) : Refusal → Rejection
  | fault cause column => .fault ⟨cause, some ⟨number, column⟩⟩
  | limit l => .limit l

/-- The tokens of lines that are numbered from a given one on. -/
def ofLinesFrom (number : Int) : List String → Except Rejection (List Token)
  | [] => .ok []
  | line :: lines => do
    let tokens ← (ofLine number (lineText line)).mapError (·.atLine number)
    return tokens ++ (← ofLinesFrom (number + 1) lines)

def ofLines (lines : List String) : Except Rejection (List Token) := ofLinesFrom 1 lines

end AlgoFrontEnd.Token
