import AlgoFrontEnd.Location
import AlgoFrontEnd.Number.Shortest
import AlgoFrontEnd.Operator
import AlgoFrontEnd.Text.Quoted

/-! Tokens: what a piece of source text means, and where it starts. -/
namespace AlgoFrontEnd

/-- Brackets and the other marks that separate. -/
inductive Mark where
  | openParen | closeParen | openBracket | closeBracket | comma | colon
  deriving DecidableEq, Repr

namespace Mark

def char : Mark → Char
  | openParen => '('
  | closeParen => ')'
  | openBracket => '['
  | closeBracket => ']'
  | comma => ','
  | colon => ':'

def all : List Mark := [openParen, closeParen, openBracket, closeBracket, comma, colon]

def ofChar? (c : Char) : Option Mark := all.find? (·.char = c)

def category : Mark → String
  | openParen => "OPENING_PARENTHESIS"
  | closeParen => "CLOSING_PARENTHESIS"
  | openBracket => "OPENING_BRACKET"
  | closeBracket => "CLOSING_BRACKET"
  | comma => "COMMA"
  | colon => "COLON"

end Mark

/-- The words that shape statements. Only tokens supplied by hand carry an unknown word. -/
inductive Keyword where
  | ifWord | elseWord | endWord | functionWord | declareWord | whileWord | returnWord
  | unknown (word : String)
  deriving DecidableEq, Repr

namespace Keyword

def word : Keyword → String
  | ifWord => "if"
  | elseWord => "else"
  | endWord => "end"
  | functionWord => "function"
  | declareWord => "declare"
  | whileWord => "while"
  | returnWord => "return"
  | unknown word => word

def all : List Keyword :=
  [ifWord, elseWord, endWord, functionWord, declareWord, whileWord, returnWord]

def ofWord? (word : String) : Option Keyword := all.find? (·.word = word)

end Keyword

namespace Token

/-- What a token is, with its value. A name before an opening parenthesis is a call, except in
the header of a function; a type name has no brackets, an array type name has one pair. -/
inductive Form where
  | mark (m : Mark)
  | endLine
  | int (value : Int)
  | float (value : Float)
  | bool (value : Bool)
  | string (value : String)
  | typeName (text : String)
  | arrayTypeName (text : String)
  | connective (c : Connective)
  | sign (s : Sign)
  | name (text : String)
  | call (text : String)
  | keyword (k : Keyword)
  deriving DecidableEq, Repr

namespace Form

def category : Form → String
  | mark m => m.category
  | endLine => "END_LINE"
  | int _ => "INT"
  | float _ => "FLOAT"
  | bool _ => "BOOL"
  | string _ => "STRING"
  | typeName _ => "TYPEDEF"
  | arrayTypeName _ => "ARRAY_TYPEDEF"
  | connective _ => "BINARY_OPERATOR"
  | sign _ => "UNARY_OPERATOR"
  | name _ => "VARIABLE"
  | call _ => "FUNCTION_CALL"
  | keyword _ => "KEYWORD"

/-- The spelling of a truth value in source text. -/
def boolText (b : Bool) : String := if b then "true" else "false"

/-- The token as it might stand in source text, for diagnostics. -/
def text : Form → String
  | mark m => m.char.toString
  | endLine => "end of line"
  | int value => toString value
  | float value => Number.text value
  | bool value => boolText value
  | string value => "\"" ++ value ++ "\""
  | arrayTypeName text => text ++ "[]"
  | connective c => c.spelling
  | sign s => s.spelling
  | keyword k => k.word
  | typeName text | name text | call text => text

/-- The value in a token listing; the end of a line has none. -/
def valueText? : Form → Option String
  | endLine => none
  | mark m => some (Text.quoted m.char.toString)
  | int value => some (toString value)
  | float value => some (Number.text value)
  | bool value => some (if value then "True" else "False")
  | connective c => some (Text.quoted c.spelling)
  | sign s => some (Text.quoted s.spelling)
  | keyword k => some (Text.quoted k.word)
  | string text | typeName text | arrayTypeName text | name text | call text =>
    some (Text.quoted text)

end Form
end Token

structure Token where
  form : Token.Form
  position : Position
  deriving DecidableEq, Repr

namespace Token

/-- The line of a token listing. -/
def listing (t : Token) : String :=
  let place := s!"{t.position.line}:{t.position.column}"
  match t.form.valueText? with
  | some value => s!"Token({t.form.category}, {value}, {place})"
  | none => s!"Token({t.form.category}, {place})"

end Token
end AlgoFrontEnd
