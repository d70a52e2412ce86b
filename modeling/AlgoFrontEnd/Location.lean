/-! Places in source text, counted from one. -/
namespace AlgoFrontEnd

/-- A line and a column. Tokens supplied by hand may carry any integers. -/
structure Position where
  line : Int
  column : Int
  deriving DecidableEq, Repr

/-- A position in a named source. -/
structure Location where
  file : String
  position : Position
  deriving DecidableEq, Repr

def Location.text (l : Location) : String :=
  s!"{l.file}:{l.position.line}:{l.position.column}"

end AlgoFrontEnd
