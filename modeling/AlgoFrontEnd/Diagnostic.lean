import AlgoFrontEnd.Location

/-! Messages about faults in a program, with the place and the line they point at. -/
namespace AlgoFrontEnd

/-- Classes of faults. Every class but the first belongs to a wider one. -/
inductive Kind where
  | frontEnd
  | lexical | invalidCharacter | invalidOperator | invalidNumber | unterminatedString
  | parse | unexpectedToken | missingToken | unterminatedBlock | invalidTarget | invalidExpression
  | semantic | undefinedVariable | undefinedFunction | undefinedType | typeMismatch
  | redeclaration | signatureConflict | voidValue | nestedDeclaration
  | stackLayout
  deriving DecidableEq, Repr

/-- The next wider class. -/
def Kind.wider? : Kind → Option Kind
  | frontEnd => none
  | lexical | parse | semantic | stackLayout => some frontEnd
  | invalidCharacter | invalidOperator | invalidNumber | unterminatedString => some lexical
  | unexpectedToken | missingToken | unterminatedBlock | invalidTarget | invalidExpression =>
    some parse
  | undefinedVariable | undefinedFunction | undefinedType | typeMismatch | redeclaration
  | signatureConflict | voidValue | nestedDeclaration => some semantic

/-- The wider classes from the nearest outwards; no class has more than two. -/
def Kind.wider (k : Kind) : List Kind :=
  match k.wider? with
  | none => []
  | some w => match w.wider? with
    | none => [w]
    | some v => [w, v]

/-- A finished message: what is wrong, where, how it might be mended, and the line concerned. -/
structure Diagnostic where
  kind : Kind
  message : String
  location : Option Location
  hint : Option String
  sourceLine : Option String
  deriving DecidableEq, Repr

namespace Diagnostic

/-- The line concerned, indented by four, and a caret below the column. There is no caret for a
column before the first. -/
def excerpt (d : Diagnostic) : List String :=
  match d.location, d.sourceLine with
  | some l, some line =>
    let column := l.position.column
    let caret := String.ofList (List.replicate (column + 3).toNat ' ') ++ "^"
    ("    " ++ line) :: if 0 < column then [caret] else []
  | _, _ => []

/-- An empty hint is left out. -/
def hintLine (d : Diagnostic) : List String :=
  match d.hint with
  | none | some "" => []
  | some hint => ["hint: " ++ hint]

def headline (d : Diagnostic) : String :=
  match d.location with
  | some l => s!"{l.text}: error: {d.message}"
  | none => "error: " ++ d.message

def text (d : Diagnostic) : String :=
  "\n".intercalate (d.headline :: d.excerpt ++ d.hintLine)

end Diagnostic
end AlgoFrontEnd
