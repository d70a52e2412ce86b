import AlgoFrontEnd.Resolution.Program

/-! The calls of a program: where they stand in source with the functions known there, and what
they are after resolution. -/
namespace AlgoFrontEnd
open Resolution

/-- A level without its variables, which play no part in the choice of a function. -/
def Level.bare (l : Level) : Level := { l with bindings := [] }

/-- The level once a header has been read. A header whose types are unknown adds nothing. -/
def Level.enter (l : Level) (implemented : Bool) (position : Position) (h : Header Position) :
    Level :=
  match headerTypes position h with
  | .ok (s, result) => l.register ⟨s, result, implemented, l.mangle s, some position⟩
  | .error _ => l

/-- The level inside a function that is defined at a level. -/
def Level.inside (l : Level) (position : Position) (h : Header Position) : Level :=
  match headerTypes position h with
  | .ok (s, _) => ⟨l.mangle s, [], []⟩
  | .error _ => ⟨l.path, [], []⟩

/-- A call in source with the levels around it at that point, the innermost first. -/
structure Site where
  position : Position
  function : String
  arguments : Nat
  scope : Scope
  deriving DecidableEq, Repr

mutual
/-- The calls of an expression, each after its arguments. -/
def Expr.sites (scope : Scope) : Expr Position → List Site
  | .int _ _ | .float _ _ | .bool _ _ | .string _ _ | .place _ => []
  | .array _ elements => Expr.sitesAll scope elements
  | .call position function arguments =>
    Expr.sitesAll scope arguments ++ [⟨position, function, arguments.length, scope⟩]
  | .binary _ _ left right => left.sites scope ++ right.sites scope
  | .sign _ _ operand => operand.sites scope
  | .assign _ _ value => value.sites scope

def Expr.sitesAll (scope : Scope) : List (Expr Position) → List Site
  | [] => []
  | e :: es => e.sites scope ++ Expr.sitesAll scope es
end

mutual
/-- The level after a statement. What is defined inside a function stays there. -/
def Stmt.register (l : Level) : Stmt Position → Level
  | .function position header _ => l.enter true position header
  | .declare position header => l.enter false position header
  | .branch _ _ thenBody elseBody => Stmt.registerAll (Stmt.registerAll l thenBody) elseBody
  | .loop _ _ body => Stmt.registerAll l body
  | .give _ _ | .expr _ => l

def Stmt.registerAll (l : Level) : List (Stmt Position) → Level
  | [] => l
  | s :: ss => Stmt.registerAll (s.register l) ss
end

mutual
/-- The calls of a statement, without those in the functions that it defines. -/
def Stmt.sites (outer : Scope) (l : Level) : Stmt Position → List Site
  | .function _ _ _ | .declare _ _ | .give _ none => []
  | .branch _ condition thenBody elseBody =>
    condition.sites (l :: outer) ++ Stmt.sitesAll outer l thenBody ++
      Stmt.sitesAll outer (Stmt.registerAll l thenBody) elseBody
  | .loop _ condition body => condition.sites (l :: outer) ++ Stmt.sitesAll outer l body
  | .give _ (some e) | .expr e => e.sites (l :: outer)

def Stmt.sitesAll (outer : Scope) (l : Level) : List (Stmt Position) → List Site
  | [] => []
  | s :: ss => s.sites outer l ++ Stmt.sitesAll outer (s.register l) ss
end

mutual
/-- The calls of each function that a statement defines, a function after those inside it. -/
def Stmt.bodies (outer : Scope) (l : Level) : Stmt Position → List (List Site)
  | .function position header body =>
    Stmt.bodiesAll (l.enter true position header :: outer) (l.inside position header) body ++
      [Stmt.sitesAll (l.enter true position header :: outer) (l.inside position header) body]
  | .branch _ _ thenBody elseBody =>
    Stmt.bodiesAll outer l thenBody ++
      Stmt.bodiesAll outer (Stmt.registerAll l thenBody) elseBody
  | .loop _ _ body => Stmt.bodiesAll outer l body
  | .declare _ _ | .give _ _ | .expr _ => []

def Stmt.bodiesAll (outer : Scope) (l : Level) : List (Stmt Position) → List (List Site)
  | [] => []
  | s :: ss => s.bodies outer l ++ Stmt.bodiesAll outer (s.register l) ss
end

/-- The calls of each function of a program, those outside of functions last. -/
def Program.sites (p : Program Position) : List (List Site) :=
  Stmt.bodiesAll [] .global p ++ [Stmt.sitesAll [] .global p]

/-- A resolved call: the name it links to, and the types of its arguments and its result. -/
structure Call where
  position : Position
  name : String
  arguments : List (Option Ty)
  type : Option Ty
  deriving DecidableEq, Repr

mutual
/-- The calls of a resolved expression, each after its arguments. -/
def Expr.calls : Expr Typed → List Call
  | .int _ _ | .float _ _ | .bool _ _ | .string _ _ | .place _ => []
  | .array _ elements => Expr.callsAll elements
  | .call note function arguments =>
    Expr.callsAll arguments ++
      [⟨note.position, function, arguments.map (·.note.type), note.type⟩]
  | .binary _ _ left right => left.calls ++ right.calls
  | .sign _ _ operand => operand.calls
  | .assign _ _ value => value.calls

def Expr.callsAll : List (Expr Typed) → List Call
  | [] => []
  | e :: es => e.calls ++ Expr.callsAll es
end

mutual
/-- The calls of a resolved statement at any depth. -/
def Stmt.calls : Stmt Typed → List Call
  | .function _ _ body => Stmt.callsAll body
  | .declare _ _ | .give _ none => []
  | .branch _ condition thenBody elseBody =>
    condition.calls ++ Stmt.callsAll thenBody ++ Stmt.callsAll elseBody
  | .loop _ condition body => condition.calls ++ Stmt.callsAll body
  | .give _ (some e) | .expr e => e.calls

def Stmt.callsAll : List (Stmt Typed) → List Call
  | [] => []
  | s :: ss => s.calls ++ Stmt.callsAll ss
end

def Routine.calls (f : Routine) : List Call := Stmt.callsAll f.statements

theorem Stmt.callsAll_append (xs ys : List (Stmt Typed)) :
    Stmt.callsAll (xs ++ ys) = Stmt.callsAll xs ++ Stmt.callsAll ys := by
  induction xs with
  | nil => rfl
  | cons s ss ih => simp only [List.cons_append, Stmt.callsAll, ih, List.append_assoc]

end AlgoFrontEnd
