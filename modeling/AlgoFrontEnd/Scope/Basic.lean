import AlgoFrontEnd.Location
import AlgoFrontEnd.Text.Resemblance
import AlgoFrontEnd.Ty

/-! Bindings of one nesting level, and lookup from a level outwards. -/
namespace AlgoFrontEnd

/-- What tells overloads apart: a name and the outlines of the parameter types. -/
structure Signature where
  name : String
  parameters : List Ty
  deriving DecidableEq, Repr

namespace Signature

def text (s : Signature) : String :=
  s.name ++ "(" ++ ",".intercalate (s.parameters.map Ty.name) ++ ")"

/-- The same overload, whatever is known of array elements. -/
def same (s t : Signature) : Bool :=
  s.name = t.name && s.parameters.map Ty.outline = t.parameters.map Ty.outline

end Signature

/-- A function known at some level. Without a body so far it is only declared. -/
structure Symbol where
  signature : Signature
  result : Option Ty
  implemented : Bool
  mangled : String
  position : Option Position
  deriving DecidableEq, Repr

structure Binding where
  name : String
  type : Ty
  deriving DecidableEq, Repr

/-- Puts an entry in the place of the first one that it replaces, or at the end. -/
def putEntry {α : Type} (replaces : α → Bool) (entry : α) : List α → List α
  | [] => [entry]
  | old :: rest => if replaces old then entry :: rest else old :: putEntry replaces entry rest

/-- One nesting level. Its path goes in front of the names of the functions it holds. -/
structure Level where
  path : String
  bindings : List Binding
  functions : List Symbol
  deriving DecidableEq, Repr

namespace Level

def global : Level := ⟨"", [], []⟩

def binding? (l : Level) (name : String) : Option Ty :=
  (l.bindings.find? (·.name = name)).map (·.type)

def function? (l : Level) (s : Signature) : Option Symbol :=
  l.functions.find? (·.signature.same s)

def declare (l : Level) (name : String) (type : Ty) : Level :=
  { l with bindings := putEntry (·.name = name) ⟨name, type⟩ l.bindings }

/-- A symbol of the same signature is replaced and keeps its place. -/
def register (l : Level) (s : Symbol) : Level :=
  { l with functions := putEntry (·.signature.same s.signature) s l.functions }

def mangle (l : Level) (s : Signature) : String :=
  if l.path = "" then s.text else l.path ++ "." ++ s.text

/-- Functions that never got a body, in the order of their first declaration. -/
def unimplemented (l : Level) : List Symbol := l.functions.filter (!·.implemented)

end Level

/-- A level and the levels around it, the innermost first. -/
abbrev Scope := List Level

namespace Scope

/-- The nearest binding hides those further out. -/
def binding? (scope : Scope) (name : String) : Option Ty := scope.findSome? (·.binding? name)

def function? (scope : Scope) (s : Signature) : Option Symbol := scope.findSome? (·.function? s)

/-- Visible overloads of a name, hidden ones included. -/
def candidates (scope : Scope) (name : String) : List Signature :=
  scope.flatMap fun l => (l.functions.map (·.signature)).filter (·.name = name)

/-- Visible names that resemble a given one. -/
def similar (scope : Scope) (name : String) : List String :=
  Text.closest name (scope.flatMap fun l => l.bindings.map (·.name)).eraseDups

end Scope
end AlgoFrontEnd
