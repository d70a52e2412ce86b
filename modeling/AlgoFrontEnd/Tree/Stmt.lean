import AlgoFrontEnd.Tree.Expr

/-! Statement trees and programs. -/
namespace AlgoFrontEnd

/-- A parameter of a function; only a program without meaning leaves its type out. -/
structure Parameter (α : Type) where
  note : α
  name : String
  type : Option TypeRef
  deriving DecidableEq, Repr

/-- What a function's first line says. Without a type behind it there is no result. -/
structure Header (α : Type) where
  name : String
  parameters : List (Parameter α)
  result : Option TypeRef
  deriving DecidableEq, Repr

inductive Stmt (α : Type) where
  | function (note : α) (header : Header α) (body : List (Stmt α))
  | declare (note : α) (header : Header α)
  | branch (note : α) (condition : Expr α) (thenBody elseBody : List (Stmt α))
  | loop (note : α) (condition : Expr α) (body : List (Stmt α))
  | give (note : α) (value : Option (Expr α))
  | expr (e : Expr α)
  deriving Repr

abbrev Program (α : Type) := List (Stmt α)

variable {α β : Type}

def Parameter.map (f : α → β) (p : Parameter α) : Parameter β := ⟨f p.note, p.name, p.type⟩

def Header.map (f : α → β) (h : Header α) : Header β :=
  ⟨h.name, h.parameters.map (·.map f), h.result⟩

namespace Stmt

def note : Stmt α → α
  | function n _ _ | declare n _ | branch n _ _ _ | loop n _ _ | give n _ => n
  | expr e => e.note

mutual
/-- Changes every note and nothing else. -/
def map (f : α → β) : Stmt α → Stmt β
  | function n header body => function (f n) (header.map f) (mapAll f body)
  | declare n header => declare (f n) (header.map f)
  | branch n condition thenBody elseBody =>
    branch (f n) (condition.map f) (mapAll f thenBody) (mapAll f elseBody)
  | loop n condition body => loop (f n) (condition.map f) (mapAll f body)
  | give n value => give (f n) (value.map (Expr.map f))
  | expr e => expr (e.map f)

def mapAll (f : α → β) : List (Stmt α) → List (Stmt β)
  | [] => []
  | s :: ss => s.map f :: mapAll f ss
end

theorem mapAll_eq_map (f : α → β) (ss : List (Stmt α)) : mapAll f ss = ss.map (map f) := by
  induction ss with
  | nil => rfl
  | cons s ss ih => rw [mapAll, ih, List.map_cons]

end Stmt
end AlgoFrontEnd
