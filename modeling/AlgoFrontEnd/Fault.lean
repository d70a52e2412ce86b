import AlgoFrontEnd.Diagnostic
import AlgoFrontEnd.Operator
import AlgoFrontEnd.Ty

/-! What can be wrong with a program, and how it is told. -/
namespace AlgoFrontEnd

/-- Types that do not fit together. -/
inductive Mismatch where
  | missingReturnValue (function : String) (expected : Ty)
  | unexpectedReturnValue (function : String)
  | returnValue (function : String) (expected actual : Ty)
  | elementStore (array : String) (expected actual : Ty)
  | annotatedTarget (name : String) (declared actual : Ty)
  | rebinding (name : String) (bound actual : Ty)
  | unknownElement (array : String)
  | signOperand (sign : Sign) (actual : Ty)
  | operands (left right : Ty)
  | argument (signature : String) (expected actual : Ty)
  | notArray (name : String) (actual : Ty)
  deriving DecidableEq, Repr

def Mismatch.message : Mismatch → String
  | missingReturnValue function _ => s!"'{function}' must return a value"
  | unexpectedReturnValue function => s!"'{function}' has no return type but returns a value"
  | returnValue function _ _ => s!"return value does not match the return type of '{function}'"
  | elementStore array _ _ => s!"cannot store a value in an element of '{array}'"
  | annotatedTarget name declared _ =>
    s!"cannot assign to '{name}' declared as '{declared.display}'"
  | rebinding name _ actual => s!"cannot assign a '{actual.display}' value to '{name}'"
  | unknownElement array => s!"element type of '{array}' is unknown"
  | signOperand sign _ => s!"unary '{sign.spelling}' requires an int or float operand"
  | operands left right =>
    s!"incompatible operand types '{left.display}' and '{right.display}'"
  | argument signature _ _ => s!"argument does not match parameter of '{signature}'"
  | notArray name _ => s!"'{name}' is not an array"

/-- The hint on two types, when both are named. -/
def expectation (expected actual : Option String) : Option String :=
  match expected, actual with
  | none, _ | _, none | some "", _ | _, some "" => none
  | some expected, some actual => some s!"expected '{expected}', got '{actual}'"

def Mismatch.hint : Mismatch → Option String
  | returnValue _ expected actual | elementStore _ expected actual
  | annotatedTarget _ expected actual | rebinding _ expected actual
  | argument _ expected actual => expectation (some expected.display) (some actual.display)
  | notArray _ actual => expectation (some Ty.array.display) (some actual.display)
  | missingReturnValue _ _ | unexpectedReturnValue _ | unknownElement _ | signOperand _ _
  | operands _ _ => none

/-- Faults, by what caused them. -/
inductive Cause where
  | invalidCharacter (char : Char)
  | invalidOperator (run : String)
  | invalidNumber (text : String)
  | unterminatedString
  | unexpectedToken (found : String) (expected : Option String)
  | missingToken (expected : String)
  | unterminatedBlock (construct : String)
  | invalidTarget
  | notOneValue
  | emptyElement
  | missingOperand (symbol : String)
  | undefinedVariable (name : String) (similar : List String)
  | undefinedFunction (signature : String) (candidates : List String)
  | undefinedType (name : String)
  | untypedParameter (name : String)
  | duplicateParameter (name signature : String)
  | typeMismatch (what : Mismatch)
  | redeclaration (signature : String) (first : Option Position)
  | signatureConflict (signature header body : String)
  | voidValue (signature : String)
  | nestedDeclaration (name : String)
  | stackLayout (function : String) (declared needed : Int)
  deriving DecidableEq, Repr

namespace Cause

def kind : Cause → Kind
  | invalidCharacter _ => .invalidCharacter
  | invalidOperator _ => .invalidOperator
  | invalidNumber _ => .invalidNumber
  | unterminatedString => .unterminatedString
  | unexpectedToken _ _ => .unexpectedToken
  | missingToken _ => .missingToken
  | unterminatedBlock _ => .unterminatedBlock
  | invalidTarget => .invalidTarget
  | notOneValue | emptyElement | missingOperand _ => .invalidExpression
  | undefinedVariable _ _ => .undefinedVariable
  | undefinedFunction _ _ => .undefinedFunction
  | undefinedType _ | untypedParameter _ => .undefinedType
  | duplicateParameter _ _ => .semantic
  | typeMismatch _ => .typeMismatch
  | redeclaration _ _ => .redeclaration
  | signatureConflict _ _ _ => .signatureConflict
  | voidValue _ => .voidValue
  | nestedDeclaration _ => .nestedDeclaration
  | stackLayout _ _ _ => .stackLayout

/-- A code point in upper-case hexadecimal, at least two digits wide. -/
def codePoint (c : Char) : String :=
  let digits := (Nat.toDigits 16 c.toNat).map Char.toUpper
  String.ofList (List.replicate (2 - digits.length) '0' ++ digits)

def message : Cause → String
  | invalidCharacter c => s!"invalid character '{c}' (0x{codePoint c})"
  | invalidOperator run => s!"invalid operator '{run}'"
  | invalidNumber text => s!"invalid number '{text}'"
  | unterminatedString => "unterminated string literal"
  | unexpectedToken found _ => s!"unexpected token '{found}'"
  | missingToken expected => "expected " ++ expected
  | unterminatedBlock construct => "unterminated " ++ construct
  | invalidTarget => "can only assign a value to a variable"
  | notOneValue => "invalid expression"
  | emptyElement => "empty array element"
  | missingOperand symbol => s!"missing operand for '{symbol}'"
  | undefinedVariable name _ => s!"undefined variable '{name}'"
  | undefinedFunction signature _ => s!"undefined function '{signature}'"
  | undefinedType name => s!"undefined type '{name}'"
  | untypedParameter name => s!"parameter '{name}' has no type"
  | duplicateParameter name signature => s!"duplicate parameter '{name}' in '{signature}'"
  | typeMismatch what => what.message
  | redeclaration signature _ => s!"redeclaration of '{signature}'"
  | signatureConflict signature _ _ => s!"conflicting return type for '{signature}'"
  | voidValue signature =>
    s!"function '{signature}' has no return type and cannot be used as a value"
  | nestedDeclaration name => s!"function header '{name}' can only be declared at global scope"
  | stackLayout function declared needed =>
    s!"stack frame of '{function}' declares {declared} bytes but its variables need {needed}"

/-- Names between single quotes, separated by commas. -/
def nameList (names : List String) : String :=
  ", ".intercalate (names.map fun name => s!"'{name}'")

/-- How the fault might be mended. The file is that of any other place mentioned. -/
def hint (file : String) : Cause → Option String
  | invalidOperator _ => some "operators are + - * / % == != < > <= >= <-"
  | unterminatedString => some "add closing '\"' to complete the string"
  | unexpectedToken _ (some expected) =>
    if expected = "" then none else some ("expected " ++ expected)
  | unterminatedBlock _ => some "add 'end' to close the block"
  | invalidTarget => some "left side of '<-' must be a variable or an array element"
  | notOneValue => some "an expression must combine into exactly one value"
  | undefinedVariable _ (name :: more) =>
    some s!"did you mean {nameList ((name :: more).take 3)}?"
  | undefinedFunction _ (name :: more) => some ("candidates are " ++ nameList (name :: more))
  | untypedParameter name => some s!"write it as '{name}: int'"
  | typeMismatch what => what.hint
  | redeclaration signature (some first) =>
    some s!"'{signature}' was first declared at {(Location.mk file first).text}"
  | signatureConflict _ header body => some s!"declared as '{header}', implemented as '{body}'"
  | _ => none

def diagnostic (file : String) (location : Option Location) (sourceLine : Option String)
    (cause : Cause) : Diagnostic :=
  ⟨cause.kind, cause.message, location, cause.hint file, sourceLine⟩

end Cause

/-- A cause at a place; frames have no place. -/
structure Fault where
  cause : Cause
  position : Option Position
  deriving DecidableEq, Repr

/-- Fails for a cause at a place. -/
def fault {α : Type} (cause : Cause) (position : Position) : Except Fault α :=
  .error ⟨cause, some position⟩

/-- The line with this number, counted from one. -/
def lineAt? (lines : List String) (number : Int) : Option String :=
  if 0 < number then lines[(number - 1).toNat]? else none

/-- The message on a fault in a named source, quoting its line. -/
def Fault.diagnostic (file : String) (lines : List String) (f : Fault) : Diagnostic :=
  f.cause.diagnostic file (f.position.map (⟨file, ·⟩))
    (f.position.bind fun p => lineAt? lines p.line)

end AlgoFrontEnd
