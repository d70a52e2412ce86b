import AlgoFrontEnd.Tree.Stmt

/-! The nodes of a program in the order in which a walk from the root meets them. -/
namespace AlgoFrontEnd
variable {α : Type}

/-- What a node is, apart from its contents. -/
inductive NodeKind where
  | program | parameter | function | declare | branch | loop | give
  | int | float | bool | string | array | whole | element | call | binary | sign | assign
  deriving DecidableEq, Repr

def Place.kind : Place α → NodeKind
  | whole _ _ _ => .whole
  | element _ _ _ => .element

mutual
def Expr.kinds : Expr α → List NodeKind
  | .int _ _ => [.int]
  | .float _ _ => [.float]
  | .bool _ _ => [.bool]
  | .string _ _ => [.string]
  | .array _ elements => .array :: Expr.kindsAll elements
  | .place p => [p.kind]
  | .call _ _ arguments => .call :: Expr.kindsAll arguments
  | .binary _ _ left right => .binary :: left.kinds ++ right.kinds
  | .sign _ _ operand => .sign :: operand.kinds
  | .assign _ target value => .assign :: target.kind :: value.kinds

def Expr.kindsAll : List (Expr α) → List NodeKind
  | [] => []
  | e :: es => e.kinds ++ Expr.kindsAll es
end

def Header.kinds (h : Header α) : List NodeKind := h.parameters.map fun _ => .parameter

mutual
def Stmt.kinds : Stmt α → List NodeKind
  | .function _ header body => .function :: header.kinds ++ Stmt.kindsAll body
  | .declare _ header => .declare :: header.kinds
  | .branch _ condition thenBody elseBody =>
    .branch :: condition.kinds ++ Stmt.kindsAll thenBody ++ Stmt.kindsAll elseBody
  | .loop _ condition body => .loop :: condition.kinds ++ Stmt.kindsAll body
  | .give _ (some value) => .give :: value.kinds
  | .give _ none => [.give]
  | .expr e => e.kinds

def Stmt.kindsAll : List (Stmt α) → List NodeKind
  | [] => []
  | s :: ss => s.kinds ++ Stmt.kindsAll ss
end

/-- A node comes before its parts, and the parts come in source order. -/
def Program.kinds (p : Program α) : List NodeKind := .program :: Stmt.kindsAll p

end AlgoFrontEnd
