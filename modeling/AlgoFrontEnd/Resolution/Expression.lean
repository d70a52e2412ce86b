import AlgoFrontEnd.Fault
import AlgoFrontEnd.Scope.Basic
import AlgoFrontEnd.Tree.Stmt

/-! Types of expressions, bindings of variables and targets of calls. -/
namespace AlgoFrontEnd.Resolution

/-- The note of a resolved node. Statements and calls without a result have no type. -/
structure Typed where
  position : Position
  type : Option Ty
  deriving DecidableEq, Repr

/-- The function whose body is being resolved: the names bound so far, the locals among them,
and the bytes that all of them take. -/
structure Body where
  level : Level
  locals : List Binding
  bytes : Nat
  deriving DecidableEq, Repr

def mismatch {α : Type} (what : Mismatch) (position : Position) : Except Fault α :=
  fault (.typeMismatch what) position

def Body.declare (b : Body) (name : String) (type : Ty) : Body :=
  ⟨b.level.declare name type, b.locals ++ [⟨name, type⟩], b.bytes + type.size⟩

/-- Binds a name, or checks the type against the one it is bound to in the same body. -/
def Body.bind (b : Body) (name : String) (type : Ty) (position : Position) :
    Except Fault (Body × Ty) :=
  match b.level.binding? name with
  | none => .ok (b.declare name type, type)
  | some bound =>
    if bound.agrees type then .ok (b, bound) else mismatch (.rebinding name bound type) position

def refType (a : TypeRef) (position : Position) : Except Fault Ty :=
  match a.type? with
  | some type => .ok type
  | none => fault (.undefinedType a.name) position

/-- The type of the nearest variable of a name. -/
def variableType (scope : Scope) (name : String) (position : Position) : Except Fault Ty :=
  match scope.binding? name with
  | some type => .ok type
  | none => fault (.undefinedVariable name (scope.similar name)) position

def arrayType (scope : Scope) (name : String) (position : Position) : Except Fault Ty := do
  let type ← variableType scope name position
  if type.isArray then return type else mismatch (.notArray name type) position

/-- The type of a place that is read. A type written behind it has no effect. -/
def readPlace (scope : Scope) : Place Position → Except Fault (Place Typed × Ty)
  | .whole position name written => do
    let type ← variableType scope name position
    return (.whole ⟨position, some type⟩ name written, type)
  | .element position array offset => do
    match (← arrayType scope array position).element? with
    | some type => return (.element ⟨position, some type⟩ array offset, type)
    | none => mismatch (.unknownElement array) position

/-- The type that a target gets: the one written behind it, or that of the value. -/
def targetType (name : String) (written : Option TypeRef) (actual : Ty) (position : Position) :
    Except Fault Ty :=
  match written with
  | none => .ok actual
  | some ref => do
    let declared ← refType ref position
    if declared.agrees actual then return declared
    else mismatch (.annotatedTarget name declared actual) position

/-- Stores a value of a type in a place. A variable that the body has not bound becomes a
local. -/
def writePlace (outer : Scope) (b : Body) (value : Position) (actual : Ty) :
    Place Position → Except Fault (Body × Place Typed)
  | .whole position name written => do
    let type ← targetType name written actual position
    let (b, bound) ← b.bind name type position
    return (b, .whole ⟨position, some bound⟩ name written)
  | .element position array offset => do
    match (← arrayType (b.level :: outer) array position).element? with
    | some element =>
      if actual.agrees element then
        return (b, .element ⟨position, some element⟩ array offset)
      else mismatch (.elementStore array element actual) value
    | none => return (b, .element ⟨position, some actual⟩ array offset)

/-- The type of the elements of an array, if all agree with the first. -/
def commonType? : List Ty → Option Ty
  | [] => none
  | first :: rest => if rest.all (·.agrees first) then some first else none

/-- The type of a binary operation on values of two types. -/
def binaryType (op : BinaryOp) (left right : Ty) (position : Position) : Except Fault Ty :=
  if op.isComparison then .ok .bool
  else match left.arithmetic? right with
    | some type => .ok type
    | none => mismatch (.operands left right) position

/-- An argument and its parameter must agree on array elements too. -/
def checkArguments (signature : Signature) :
    List (Position × Ty) → List Ty → Except Fault Unit
  | (position, actual) :: arguments, expected :: parameters =>
    if actual.agrees expected then checkArguments signature arguments parameters
    else mismatch (.argument signature.text expected actual) position
  | _, _ => .ok ()

/-- The nearest function that arguments of these types select. -/
def callee (scope : Scope) (function : String) (arguments : List (Position × Ty))
    (position : Position) : Except Fault Symbol := do
  let wanted : Signature := ⟨function, arguments.map (·.2)⟩
  match scope.function? wanted with
  | none =>
    let candidates := (scope.candidates function).map (·.text)
    fault (.undefinedFunction wanted.text candidates) position
  | some symbol =>
    checkArguments symbol.signature arguments symbol.signature.parameters
    return symbol

mutual
/-- Resolves an expression whose value is needed. -/
def value (outer : Scope) (b : Body) : Expr Position → Except Fault (Body × Expr Typed × Ty)
  | .int position n => .ok (b, .int ⟨position, some .int⟩ n, .int)
  | .float position x => .ok (b, .float ⟨position, some .float⟩ x, .float)
  | .bool position v => .ok (b, .bool ⟨position, some .bool⟩ v, .bool)
  | .string position s => .ok (b, .string ⟨position, some .string⟩ s, .string)
  | .array position elements => do
    let (b, elements, types) ← values outer b elements
    let type := Ty.arrayWith (commonType? types)
    return (b, .array ⟨position, some type⟩ elements, type)
  | .place p => do
    let (p, type) ← readPlace (b.level :: outer) p
    return (b, .place p, type)
  | .call position function arguments => do
    let (b, resolved, types) ← values outer b arguments
    let located := arguments.map (·.note) |>.zip types
    let symbol ← callee (b.level :: outer) function located position
    match symbol.result with
    | some type => return (b, .call ⟨position, some type⟩ symbol.mangled resolved, type)
    | none => fault (.voidValue (Signature.mk function types).text) position
  | .binary position op left right => do
    let (b, left, leftType) ← value outer b left
    let (b, right, rightType) ← value outer b right
    let type ← binaryType op leftType rightType position
    return (b, .binary ⟨position, some type⟩ op left right, type)
  | .sign position s operand => do
    let (b, operand, type) ← value outer b operand
    if type.isNumeric then return (b, .sign ⟨position, some type⟩ s operand, type)
    else mismatch (.signOperand s type) position
  | .assign position target source => do
    let (b, resolved, type) ← value outer b source
    let (b, target) ← writePlace outer b source.note type target
    return (b, .assign ⟨position, some type⟩ target resolved, type)

/-- Resolves expressions from left to right. -/
def values (outer : Scope) (b : Body) :
    List (Expr Position) → Except Fault (Body × List (Expr Typed) × List Ty)
  | [] => .ok (b, [], [])
  | e :: es => do
    let (b, e, type) ← value outer b e
    let (b, es, types) ← values outer b es
    return (b, e :: es, type :: types)
end

/-- Resolves an expression on a line of its own. A plain annotated variable declares a local, and
a call needs no result. -/
def alone (outer : Scope) (b : Body) : Expr Position → Except Fault (Body × Expr Typed)
  | .place (.whole position name (some written)) => do
    let type ← refType written position
    let (b, _) ← b.bind name type position
    return (b, .place (.whole ⟨position, some type⟩ name (some written)))
  | .call position function arguments => do
    let (b, resolved, types) ← values outer b arguments
    let located := arguments.map (·.note) |>.zip types
    let symbol ← callee (b.level :: outer) function located position
    return (b, .call ⟨position, symbol.result⟩ symbol.mangled resolved)
  | e => do
    let (b, e, _) ← value outer b e
    return (b, e)

end AlgoFrontEnd.Resolution
