/-! Value types, and the relations between types whose array elements may be unknown. -/
namespace AlgoFrontEnd

/-- Resolved types. An array knows the type of its elements or leaves it open. -/
inductive Ty where
  | int
  | float
  | bool
  | string
  | array
  | arrayOf (element : Ty)
  deriving DecidableEq, Repr

namespace Ty

/-- The array type with these elements, open when they have no common type. -/
def arrayWith : Option Ty → Ty
  | some element => arrayOf element
  | none => array

def element? : Ty → Option Ty
  | arrayOf element => some element
  | _ => none

/-- The type without what is known of its elements. Signatures distinguish types only so far. -/
def outline : Ty → Ty
  | arrayOf _ => array
  | t => t

/-- The name in signatures, the same for all array types. -/
def name : Ty → String
  | int => "int"
  | float => "float"
  | bool => "bool"
  | string => "string"
  | array | arrayOf _ => "array"

/-- The name in diagnostics and reports, with the element type when it is known. -/
def display : Ty → String
  | arrayOf element => element.display ++ "[]"
  | t => t.name

/-- Bytes that a value takes in a frame. An array is held by reference. -/
def size : Ty → Nat
  | int => 4
  | float | string | array | arrayOf _ => 8
  | bool => 1

def isArray : Ty → Bool
  | array | arrayOf _ => true
  | _ => false

def isNumeric : Ty → Bool
  | int | float => true
  | _ => false

/-- Whether two partially known types can be the same type. An open array agrees with every
array, so the relation is not transitive. -/
def agrees : Ty → Ty → Bool
  | arrayOf s, arrayOf t => s.agrees t
  | s, t => s.outline = t.outline

/-- The type of an arithmetic result: that of the left operand when the outlines agree, and
float when an integer meets a float. -/
def arithmetic? (left right : Ty) : Option Ty :=
  if left.outline = right.outline then some left
  else match left, right with
    | int, float | float, int => some float
    | _, _ => none

def builtins : List Ty := [int, float, bool, string, array]

/-- The type that a plain name denotes. -/
def ofName? (name : String) : Option Ty := builtins.find? (·.name = name)

end Ty

/-- A type as written behind a colon: a name, or a name with brackets. -/
structure TypeRef where
  name : String
  isArray : Bool
  deriving DecidableEq, Repr

namespace TypeRef

def text (a : TypeRef) : String := if a.isArray then a.name ++ "[]" else a.name

/-- The type meant, if its name is known. -/
def type? (a : TypeRef) : Option Ty :=
  (Ty.ofName? a.name).map fun t => if a.isArray then .arrayOf t else t

end TypeRef
end AlgoFrontEnd
