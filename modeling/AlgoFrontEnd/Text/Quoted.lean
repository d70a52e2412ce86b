import AlgoFrontEnd.Text.Printable

/-! Texts between quotes on one line of printable characters. -/
namespace AlgoFrontEnd.Text

/-- The lower-case hexadecimal digits of a number, filled with zeros to a width. -/
def hexDigits (width n : Nat) : List Char :=
  let digits := Nat.toDigits 16 n
  List.replicate (width - digits.length) '0' ++ digits

/-- The single quote delimits, unless it occurs in the text and the double quote does not. -/
def delimiter (cs : List Char) : Char :=
  if cs.contains '\'' && !cs.contains '"' then '"' else '\''

/-- How one character stands between two delimiters. -/
def escape (delimiter c : Char) : List Char :=
  if c = delimiter || c = '\\' then ['\\', c]
  else if c = '\n' then ['\\', 'n']
  else if c = '\r' then ['\\', 'r']
  else if c = '\t' then ['\\', 't']
  else if isPrintable c then [c]
  else if c.toNat < 0x100 then '\\' :: 'x' :: hexDigits 2 c.toNat
  else if c.toNat < 0x10000 then '\\' :: 'u' :: hexDigits 4 c.toNat
  else '\\' :: 'U' :: hexDigits 8 c.toNat

/-- A text as it stands in diagnostics that must show every character. -/
def quoted (text : String) : String :=
  let cs := text.toList
  let mark := delimiter cs
  String.ofList (mark :: cs.flatMap (escape mark) ++ [mark])

end AlgoFrontEnd.Text
