import AlgoFrontEnd.Proofs.Resolution.Bodies

/-! The places of a program: where they stand in source with the names bound there, and what they
are after resolution. -/
namespace AlgoFrontEnd
open Resolution

/-- A function around some point of the source: where it comes in the result, and the names that
it has bound up to that point. -/
structure Enclosing where
  index : Nat
  names : List String
  deriving DecidableEq, Repr

def Enclosing.bind (a : Enclosing) (names : List String) : Enclosing :=
  { a with names := a.names ++ names }

/-- A variable or an element in source, with the function that it stands in and those around that
one, the innermost first. A target counts as bound already. -/
structure Use where
  place : Place Position
  here : Enclosing
  outer : List Enclosing
  deriving DecidableEq, Repr

def Use.around (u : Use) : List Enclosing := u.here :: u.outer

section
variable (outer : List Enclosing)

mutual
/-- The places of an expression, a target after the value that is stored in it. -/
def Expr.uses (here : Enclosing) : Expr Position → List Use
  | .int _ _ | .float _ _ | .bool _ _ | .string _ _ => []
  | .array _ elements => Expr.usesAll here elements
  | .place p => [⟨p, here, outer⟩]
  | .call _ _ arguments => Expr.usesAll here arguments
  | .binary _ _ left right => left.uses here ++ right.uses (here.bind left.targets)
  | .sign _ _ operand => operand.uses here
  | .assign _ target value =>
    value.uses here ++ [⟨target, (here.bind value.targets).bind target.targets, outer⟩]

def Expr.usesAll (here : Enclosing) : List (Expr Position) → List Use
  | [] => []
  | e :: es => e.uses here ++ Expr.usesAll (here.bind e.targets) es
end

/-- On a line of its own an annotated variable is a target. -/
def Expr.usesAlone (here : Enclosing) : Expr Position → List Use
  | .place (.whole position name (some written)) =>
    [⟨.whole position name (some written), here.bind [name], outer⟩]
  | e => e.uses outer here

mutual
/-- The places of a statement, without those in the functions that it defines. -/
def Stmt.uses (here : Enclosing) : Stmt Position → List Use
  | .function _ _ _ | .declare _ _ | .give _ none => []
  | .branch _ condition thenBody elseBody =>
    condition.uses outer here ++ Stmt.usesAll (here.bind condition.targets) thenBody ++
      Stmt.usesAll ((here.bind condition.targets).bind (Stmt.targetsAll thenBody)) elseBody
  | .loop _ condition body =>
    condition.uses outer here ++ Stmt.usesAll (here.bind condition.targets) body
  | .give _ (some e) => e.uses outer here
  | .expr e => e.usesAlone outer here

def Stmt.usesAll (here : Enclosing) : List (Stmt Position) → List Use
  | [] => []
  | s :: ss => s.uses here ++ Stmt.usesAll (here.bind s.targets) ss
end

end

mutual
/-- How many functions a statement defines, with those inside of others. -/
def Stmt.functions {α : Type} : Stmt α → Nat
  | .function _ _ body => Stmt.functionsAll body + 1
  | .branch _ _ thenBody elseBody => Stmt.functionsAll thenBody + Stmt.functionsAll elseBody
  | .loop _ _ body => Stmt.functionsAll body
  | .declare _ _ | .give _ _ | .expr _ => 0

def Stmt.functionsAll {α : Type} : List (Stmt α) → Nat
  | [] => 0
  | s :: ss => s.functions + Stmt.functionsAll ss
end

mutual
/-- The places of each function that a statement defines, a function after those inside it. So
many functions come before them all. -/
def Stmt.usesInside (outer : List Enclosing) (here : Enclosing) (before : Nat) :
    Stmt Position → List (List Use)
  | .function _ header body =>
    let self : Enclosing := ⟨before + Stmt.functionsAll body, header.parameters.map (·.name)⟩
    Stmt.usesInsideAll (here :: outer) self before body ++
      [Stmt.usesAll (here :: outer) self body]
  | .branch _ condition thenBody elseBody =>
    Stmt.usesInsideAll outer (here.bind condition.targets) before thenBody ++
      Stmt.usesInsideAll outer ((here.bind condition.targets).bind (Stmt.targetsAll thenBody))
        (before + Stmt.functionsAll thenBody) elseBody
  | .loop _ condition body => Stmt.usesInsideAll outer (here.bind condition.targets) before body
  | .declare _ _ | .give _ _ | .expr _ => []

def Stmt.usesInsideAll (outer : List Enclosing) (here : Enclosing) (before : Nat) :
    List (Stmt Position) → List (List Use)
  | [] => []
  | s :: ss =>
    s.usesInside outer here before ++
      Stmt.usesInsideAll outer (here.bind s.targets) (before + s.functions) ss
end

/-- The places of each function of a program, those outside of functions last. -/
def Program.uses (p : Program Position) : List (List Use) :=
  let self : Enclosing := ⟨Stmt.functionsAll p, []⟩
  Stmt.usesInsideAll [] self 0 p ++ [Stmt.usesAll [] self p]

/-! ### Resolved places -/

mutual
/-- The places of an expression, a target after the value that is stored in it. -/
def Expr.places : Expr Typed → List (Place Typed)
  | .int _ _ | .float _ _ | .bool _ _ | .string _ _ => []
  | .array _ elements => Expr.placesAll elements
  | .place p => [p]
  | .call _ _ arguments => Expr.placesAll arguments
  | .binary _ _ left right => left.places ++ right.places
  | .sign _ _ operand => operand.places
  | .assign _ target value => value.places ++ [target]

def Expr.placesAll : List (Expr Typed) → List (Place Typed)
  | [] => []
  | e :: es => e.places ++ Expr.placesAll es
end

mutual
/-- The places of a resolved statement at any depth. -/
def Stmt.places : Stmt Typed → List (Place Typed)
  | .function _ _ body => Stmt.placesAll body
  | .declare _ _ | .give _ none => []
  | .branch _ condition thenBody elseBody =>
    condition.places ++ Stmt.placesAll thenBody ++ Stmt.placesAll elseBody
  | .loop _ condition body => condition.places ++ Stmt.placesAll body
  | .give _ (some e) | .expr e => e.places

def Stmt.placesAll : List (Stmt Typed) → List (Place Typed)
  | [] => []
  | s :: ss => s.places ++ Stmt.placesAll ss
end

def Routine.places (F : Routine) : List (Place Typed) := Stmt.placesAll F.statements

theorem Stmt.placesAll_append (xs ys : List (Stmt Typed)) :
    Stmt.placesAll (xs ++ ys) = Stmt.placesAll xs ++ Stmt.placesAll ys := by
  induction xs with
  | nil => rfl
  | cons s ss ih => simp only [List.cons_append, Stmt.placesAll, ih, List.append_assoc]

/-- The type that a place carries agrees with the type of its variable, or with that of the
elements of its array if it is known. -/
def Place.Means (held : Ty) : Place Typed → Prop
  | whole note _ _ => ∃ type ∈ note.type, held.agrees type = true
  | element note _ _ =>
    held.isArray = true ∧ ∃ type ∈ note.type, ∀ e ∈ held.element?, e.agrees type = true

instance (held : Ty) : (p : Place Typed) → Decidable (p.Means held)
  | .whole note _ _ => inferInstanceAs (Decidable (∃ type ∈ note.type, _))
  | .element note _ _ => inferInstanceAs (Decidable (_ ∧ ∃ type ∈ note.type, _))

/-- The type of a variable of one of the functions of a result. -/
def Enclosing.typeOf? (functions : List Routine) (name : String) (a : Enclosing) : Option Ty :=
  functions[a.index]?.bind (·.typeOf? name)

/-- The innermost function around a use that has a variable of its name in the end. -/
def Use.holder? (functions : List Routine) (u : Use) : Option Enclosing :=
  u.around.find? fun a => (a.typeOf? functions u.place.name).isSome

/-- The innermost function around a use that has bound its name by then. -/
def Use.binder? (u : Use) : Option Enclosing := u.around.find? (u.place.name ∈ ·.names)

/-- What a use has become in a function. The names bound by then are variables of the functions
around it. The holder gives the use its meaning, unless it binds the name only later; then the
binder does. -/
structure Use.Kept (functions : List Routine) (F : Routine) (u : Use) (p : Place Typed) :
    Prop where
  same : p.map Typed.position = u.place
  own : functions[u.here.index]? = some F
  known : ∀ a ∈ u.around, ∀ name ∈ a.names, (a.typeOf? functions name).isSome = true
  held : ∃ G type, u.holder? functions = some G ∧
    G.typeOf? functions u.place.name = some type ∧ (u.place.name ∈ G.names → p.Means type)
  bound : ∃ H type, u.binder? = some H ∧ H.typeOf? functions u.place.name = some type ∧
    p.Means type

/-- The places of a function are what these uses have become. -/
def Use.AllKept (functions : List Routine) (us : List Use) (F : Routine) : Prop :=
  List.Forall₂ (Use.Kept functions F) us F.places

end AlgoFrontEnd
