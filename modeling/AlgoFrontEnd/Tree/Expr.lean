import AlgoFrontEnd.Location
import AlgoFrontEnd.Operator
import AlgoFrontEnd.Ty

/-! Expression trees. Every node carries a note, such as its position or its type. -/
namespace AlgoFrontEnd

/-- What can be assigned to: a whole variable, annotated or not, or an array element. -/
inductive Place (α : Type) where
  | whole (note : α) (name : String) (type : Option TypeRef)
  | element (note : α) (array : String) (offset : Int)
  deriving DecidableEq, Repr

inductive Expr (α : Type) where
  | int (note : α) (value : Int)
  | float (note : α) (value : Float)
  | bool (note : α) (value : Bool)
  | string (note : α) (value : String)
  | array (note : α) (elements : List (Expr α))
  | place (p : Place α)
  | call (note : α) (function : String) (arguments : List (Expr α))
  | binary (note : α) (op : BinaryOp) (left right : Expr α)
  | sign (note : α) (s : Sign) (operand : Expr α)
  | assign (note : α) (target : Place α) (value : Expr α)
  deriving Repr

namespace Place
variable {α β : Type}

def note : Place α → α
  | whole n _ _ | element n _ _ => n

def name : Place α → String
  | whole _ name _ => name
  | element _ array _ => array

def map (f : α → β) : Place α → Place β
  | whole n name type => whole (f n) name type
  | element n array offset => element (f n) array offset

end Place

namespace Expr
variable {α β : Type}

def note : Expr α → α
  | int n _ | float n _ | bool n _ | string n _ | array n _ | call n _ _ | binary n _ _ _
  | sign n _ _ | assign n _ _ => n
  | place p => p.note

mutual
/-- Changes every note and nothing else. -/
def map (f : α → β) : Expr α → Expr β
  | int n value => int (f n) value
  | float n value => float (f n) value
  | bool n value => bool (f n) value
  | string n value => string (f n) value
  | array n elements => array (f n) (mapAll f elements)
  | place p => place (p.map f)
  | call n function arguments => call (f n) function (mapAll f arguments)
  | binary n op left right => binary (f n) op (left.map f) (right.map f)
  | sign n s operand => sign (f n) s (operand.map f)
  | assign n target value => assign (f n) (target.map f) (value.map f)

def mapAll (f : α → β) : List (Expr α) → List (Expr β)
  | [] => []
  | e :: es => e.map f :: mapAll f es
end

theorem mapAll_eq_map (f : α → β) (es : List (Expr α)) : mapAll f es = es.map (map f) := by
  induction es with
  | nil => rfl
  | cons e es ih => rw [mapAll, ih, List.map_cons]

end Expr
end AlgoFrontEnd
