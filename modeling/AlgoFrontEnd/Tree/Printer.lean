import AlgoFrontEnd.Number.Shortest
import AlgoFrontEnd.Tree.Stmt

/-! Trees as indented text, one statement a line and two columns a level. -/
namespace AlgoFrontEnd
variable {α : Type}

/-- A name with its type behind a colon, if it has one. -/
def annotated (name : String) : Option TypeRef → String
  | some a => s!"{name}: {a.text}"
  | none => name

def Place.text : Place α → String
  | whole _ name type => annotated name type
  | element _ array offset => s!"{array}[{offset}]"

namespace Expr

mutual
/-- Binary and signed operands stand in parentheses, so the nesting is explicit. A text is
written between quotes as it is. -/
def text : Expr α → String
  | int _ value => toString value
  | float _ value => Number.text value
  | bool _ value => if value then "true" else "false"
  | string _ value => "\"" ++ value ++ "\""
  | array _ elements => "[" ++ ", ".intercalate (texts elements) ++ "]"
  | place p => p.text
  | call _ function arguments => function ++ "(" ++ ", ".intercalate (texts arguments) ++ ")"
  | binary _ op left right => s!"({left.text} {op.spelling} {right.text})"
  | sign _ s operand => s!"({s.spelling}{operand.text})"
  | assign _ target value => s!"({target.text} <- {value.text})"

def texts : List (Expr α) → List String
  | [] => []
  | e :: es => e.text :: texts es
end

/-- An expression as a statement of its own. -/
def statementText : Expr α → String
  | assign _ target value => s!"Assign: {target.text} <- {value.text}"
  | e => "Expr: " ++ e.text

end Expr

def Header.text (h : Header α) : String :=
  let parameters := h.parameters.map fun p => annotated p.name p.type
  let result := match h.result with
    | some a => ": " ++ a.text
    | none => ""
  h.name ++ "(" ++ ", ".intercalate parameters ++ ")" ++ result

/-- A line of printed text and the level it is indented to. -/
structure PrintedLine where
  level : Nat
  content : String

def PrintedLine.text (l : PrintedLine) : String :=
  String.ofList (List.replicate (2 * l.level) ' ') ++ l.content

namespace Stmt

mutual
/-- An empty else branch is not shown. -/
def printed (level : Nat) : Stmt α → List PrintedLine
  | function _ header body => ⟨level, "Function: " ++ header.text⟩ :: printedAll (level + 1) body
  | declare _ header => [⟨level, "Declare: " ++ header.text⟩]
  | branch _ condition thenBody elseBody =>
    ⟨level, s!"If ({condition.text})"⟩ :: ⟨level + 1, "Then:"⟩ ::
      printedAll (level + 2) thenBody ++
      if elseBody.isEmpty then [] else ⟨level + 1, "Else:"⟩ :: printedAll (level + 2) elseBody
  | loop _ condition body => ⟨level, s!"While ({condition.text})"⟩ :: printedAll (level + 1) body
  | give _ (some value) => [⟨level, "Return " ++ value.text⟩]
  | give _ none => [⟨level, "Return"⟩]
  | expr e => [⟨level, e.statementText⟩]

def printedAll (level : Nat) : List (Stmt α) → List PrintedLine
  | [] => []
  | s :: ss => printed level s ++ printedAll level ss
end

end Stmt

def printedText (printed : List PrintedLine) : String :=
  "\n".intercalate (printed.map (·.text))

def Stmt.text (s : Stmt α) : String := printedText (s.printed 0)

def Program.text (p : Program α) : String :=
  printedText (⟨0, "Program"⟩ :: Stmt.printedAll 1 p)

end AlgoFrontEnd
