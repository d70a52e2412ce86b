import AlgoFrontEnd.Scope.Basic

/-! A tree of levels, each known by its number. -/
namespace AlgoFrontEnd

/-- A level with the numbers of the levels around it, the nearest first. -/
structure Nested where
  level : Level
  enclosing : List Nat
  deriving DecidableEq, Repr

/-- The types of a level. The global one holds the built-in types, and no other holds any. -/
def Nested.types (n : Nested) : List Ty := if n.enclosing.isEmpty then Ty.builtins else []

/-- All levels in the order in which they were opened; the global level is number zero. -/
structure Forest where
  nodes : List Nested
  deriving DecidableEq, Repr

namespace Forest

def start : Forest := ⟨[⟨.global, []⟩]⟩

/-- The number of a level and those of the levels around it, the nearest first. -/
def chain (f : Forest) (i : Nat) : List Nat :=
  match f.nodes[i]? with
  | some node => i :: node.enclosing
  | none => []

/-- The level with a number and the levels around it. -/
def scope (f : Forest) (i : Nat) : Scope :=
  match f.nodes[i]? with
  | some node => node.level :: node.enclosing.filterMap fun j => f.nodes[j]?.map (·.level)
  | none => []

/-- The nearest type of a name. -/
def type? (f : Forest) (i : Nat) (name : String) : Option Ty :=
  (f.chain i).findSome? fun j => f.nodes[j]?.bind fun node => node.types.find? (·.name = name)

def isGlobal (f : Forest) (i : Nat) : Bool :=
  match f.nodes[i]? with
  | some node => node.enclosing.isEmpty
  | none => false

/-- Opens a level inside another; its number is the number of levels before it. -/
def child (f : Forest) (i : Nat) (path : String) : Forest :=
  match f.nodes[i]? with
  | some node => ⟨f.nodes ++ [⟨⟨path, [], []⟩, i :: node.enclosing⟩]⟩
  | none => f

def modify (f : Forest) (i : Nat) (change : Level → Level) : Forest :=
  ⟨f.nodes.modify i fun node => { node with level := change node.level }⟩

end Forest
end AlgoFrontEnd
