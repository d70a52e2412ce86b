import AlgoFrontEnd.Text.Blank
import AlgoFrontEnd.Token.Basic

/-! A line cut into words, runs of operators, numerals, quoted texts and marks. -/
namespace AlgoFrontEnd.Token

def isNameStart (c : Char) : Bool := c.isAlpha || c = '_'

def isNameChar (c : Char) : Bool := c.isAlphanum || c = '_'

def isNumeralChar (c : Char) : Bool := c.isDigit || c = '.'

def isOperatorChar (c : Char) : Bool := "+-*/%<>=!".toList.contains c

/-- A piece of a line, not yet interpreted. A quoted text is kept without its quotes. -/
inductive Piece where
  | word (chars : List Char)
  | operators (chars : List Char)
  | numeral (chars : List Char)
  | quoted (chars : List Char)
  | mark (m : Mark)
  deriving DecidableEq, Repr

/-- A piece with the column of its first character. -/
structure Placed where
  column : Nat
  piece : Piece
  deriving DecidableEq, Repr

/-- What ended the cutting of a line early, and the column it points at. -/
inductive Stop where
  | strayCharacter (char : Char) (column : Nat)
  | openQuote (column : Nat)
  deriving DecidableEq, Repr

structure Cut where
  pieces : List Placed
  stop : Option Stop
  deriving DecidableEq, Repr

/-- The characters that a character starts a run of, and what the run is. Only letters and the
low line start a word, which may go on with digits; the alphabet is that of ASCII. -/
def run? (c : Char) : Option ((List Char → Piece) × (Char → Bool)) :=
  if isOperatorChar c then some (.operators, isOperatorChar)
  else if isNumeralChar c then some (.numeral, isNumeralChar)
  else if isNameStart c then some (.word, isNameChar)
  else none

/-- Puts a run in front of what follows it, unless a stray character breaks the run off: then
the run itself is never looked at. -/
def Cut.prepend (run : Placed) (next : Nat) (c : Cut) : Cut :=
  match c.stop with
  | some (.strayCharacter _ column) =>
    if column = next then c else { c with pieces := run :: c.pieces }
  | _ => { c with pieces := run :: c.pieces }

/-- Cuts from a column on, each piece as long as possible. Blank characters separate pieces. -/
def cut (column : Nat) : List Char → Cut
  | [] => ⟨[], none⟩
  | c :: rest =>
    if Text.isBlank c then cut (column + 1) rest
    else if c = '"' then
      match _h : rest.dropWhile (· ≠ '"') with
      | [] => ⟨[], some (.openQuote column)⟩
      | _ :: after =>
        let inside := rest.takeWhile (· ≠ '"')
        let following := cut (column + inside.length + 2) after
        { following with pieces := ⟨column, .quoted inside⟩ :: following.pieces }
    else match Mark.ofChar? c with
      | some m =>
        let following := cut (column + 1) rest
        { following with pieces := ⟨column, .mark m⟩ :: following.pieces }
      | none => match run? c with
        | some (piece, continues) =>
          let more := rest.takeWhile continues
          let next := column + 1 + more.length
          (cut next (rest.dropWhile continues)).prepend ⟨column, piece (c :: more)⟩ next
        | none => ⟨[], some (.strayCharacter c column)⟩
termination_by cs => cs.length
decreasing_by
  · simp
  · have := (List.dropWhile_suffix (fun x : Char => decide (x ≠ '"')) (l := rest)).length_le
    simp_all
    omega
  · simp
  · have := (List.dropWhile_suffix continues (l := rest)).length_le
    simp
    omega

end AlgoFrontEnd.Token
