import AlgoFrontEnd.Proofs.Relocation
import AlgoFrontEnd.Proofs.Scope.Widening
import AlgoFrontEnd.Proofs.Tree.Notes
import AlgoFrontEnd.Resolution.Program

/-! Programs resolved at other positions. Main statement: the result, or the fault, differs in its
positions only. -/
namespace AlgoFrontEnd
open Resolution

def Resolution.Typed.move (f : Position → Position) (note : Typed) : Typed :=
  ⟨f note.position, note.type⟩

/-- The same function, with its statements at other positions. -/
def Routine.move (f : Position → Position) (F : Routine) : Routine :=
  { F with statements := Stmt.mapAll (Typed.move f) F.statements }

/-- The level with its functions first declared at other positions. -/
def Level.move (f : Position → Position) (l : Level) : Level :=
  l.hold (l.functions.map (Symbol.move f))

section
variable (f : Position → Position)

theorem Level.function?_move (l : Level) (s : Signature) :
    (l.move f).function? s = (l.function? s).map (Symbol.move f) :=
  List.find?_map

theorem Level.register_move (l : Level) (s : Symbol) :
    (l.move f).register (s.move f) = (l.register s).move f := by
  have h : Widened (Symbol.move f) [] l.functions (l.functions.map (Symbol.move f)) :=
    Widened.nil_iff.mpr rfl
  have h := h.putEntry (q := (·.signature.same s.signature)) (fun _ => rfl) nofun s
  exact congrArg (l.hold ·) (Widened.nil_iff.mp h)

theorem Level.unimplemented_move (l : Level) :
    (l.move f).unimplemented = l.unimplemented.map (Symbol.move f) :=
  List.filter_map

theorem Scope.function?_move (scope : Scope) (s : Signature) :
    Scope.function? (scope.map (Level.move f)) s =
      (scope.function? s).map (Symbol.move f) := by
  induction scope with
  | nil => rfl
  | cons l scope ih =>
    rw [List.map_cons, Scope.function?, Scope.function?, List.findSome?_cons, List.findSome?_cons,
      Level.function?_move]
    cases l.function? s with
    | some symbol => rfl
    | none => exact ih

theorem Scope.binding?_move (scope : Scope) (name : String) :
    Scope.binding? (scope.map (Level.move f)) name = scope.binding? name := by
  rw [Scope.binding?, List.findSome?_map]
  rfl

theorem Scope.similar_move (scope : Scope) (name : String) :
    Scope.similar (scope.map (Level.move f)) name = scope.similar name := by
  rw [Scope.similar, List.flatMap_map]
  rfl

theorem Scope.candidates_move (scope : Scope) (name : String) :
    Scope.candidates (scope.map (Level.move f)) name = scope.candidates name := by
  rw [Scope.candidates, List.flatMap_map]
  simp only [Level.move, Level.hold, List.map_map]
  rfl

end

namespace Resolution

def Body.move (f : Position → Position) (b : Body) : Body := { b with level := b.level.move f }

section
variable (f : Position → Position)

/-! ### Variables -/

theorem bound_carry (b : Body) (name : String) (type : Ty) (position : Position) :
    (b.move f).bind name type (f position) =
      carry (Fault.move f) (Prod.map (Body.move f) id) (b.bind name type position) := by
  have hl : (b.move f).level.binding? name = b.level.binding? name := rfl
  unfold Body.bind
  rw [hl]
  split
  · rfl
  · split <;> rfl

theorem refType_carry (a : TypeRef) (position : Position) :
    refType a (f position) = carry (Fault.move f) id (refType a position) := by
  unfold refType
  split <;> rfl

theorem variableType_carry (scope : Scope) (name : String) (position : Position) :
    variableType (scope.map (Level.move f)) name (f position) =
      carry (Fault.move f) id (variableType scope name position) := by
  unfold variableType
  rw [Scope.binding?_move, Scope.similar_move]
  split <;> rfl

theorem arrayType_carry (scope : Scope) (name : String) (position : Position) :
    arrayType (scope.map (Level.move f)) name (f position) =
      carry (Fault.move f) id (arrayType scope name position) := by
  refine bind_carry (variableType_carry f scope name position) fun type _ => ?_
  rw [id]
  split <;> rfl

theorem readPlace_carry (scope : Scope) (p : Place Position) :
    readPlace (scope.map (Level.move f)) (p.map f) =
      carry (Fault.move f) (Prod.map (Place.map (Typed.move f)) id) (readPlace scope p) := by
  cases p with
  | whole position name written =>
    exact bind_carry (variableType_carry f scope name position) fun type _ => rfl
  | element position array offset =>
    refine bind_carry (arrayType_carry f scope array position) fun type _ => ?_
    rw [id]
    cases type.element? <;> rfl

theorem targetType_carry (name : String) (written : Option TypeRef) (actual : Ty)
    (position : Position) :
    targetType name written actual (f position) =
      carry (Fault.move f) id (targetType name written actual position) := by
  cases written with
  | none => rfl
  | some a =>
    refine bind_carry (refType_carry f a position) fun declared _ => ?_
    rw [id]
    split <;> rfl

theorem writePlace_carry (outer : Scope) (b : Body) (position : Position) (actual : Ty)
    (p : Place Position) :
    writePlace (outer.map (Level.move f)) (b.move f) (f position) actual (p.map f) =
      carry (Fault.move f) (Prod.map (Body.move f) (Place.map (Typed.move f)))
        (writePlace outer b position actual p) := by
  cases p with
  | whole p name written =>
    refine bind_carry (targetType_carry f name written actual p) fun type _ => ?_
    exact bind_carry (bound_carry f b name type p) fun _ _ => rfl
  | element p array offset =>
    refine bind_carry (arrayType_carry f (b.level :: outer) array p) fun type _ => ?_
    rw [id]
    cases type.element? with
    | none => rfl
    | some element =>
      simp only
      split <;> rfl

/-! ### Expressions -/

theorem binaryType_carry (op : BinaryOp) (left right : Ty) (position : Position) :
    binaryType op left right (f position) =
      carry (Fault.move f) id (binaryType op left right position) := by
  unfold binaryType
  split
  · rfl
  · split <;> rfl

theorem checkArguments_carry (s : Signature) (arguments : List (Position × Ty))
    (parameters : List Ty) :
    checkArguments s (arguments.map (Prod.map f id)) parameters =
      carry (Fault.move f) id (checkArguments s arguments parameters) := by
  induction arguments generalizing parameters with
  | nil => rfl
  | cons a arguments ih =>
    cases parameters with
    | nil => rfl
    | cons expected parameters =>
      rw [List.map_cons, checkArguments, checkArguments, carry_ite, ← ih]
      rfl

theorem callee_carry (scope : Scope) (function : String) (arguments : List (Position × Ty))
    (position : Position) :
    callee (scope.map (Level.move f)) function (arguments.map (Prod.map f id)) (f position) =
      carry (Fault.move f) (Symbol.move f) (callee scope function arguments position) := by
  have ht : (arguments.map (Prod.map f id)).map (·.2) = arguments.map (·.2) := by
    rw [List.map_map]
    rfl
  simp only [callee, ht, Scope.function?_move, Scope.candidates_move]
  cases scope.function? ⟨function, arguments.map (·.2)⟩ with
  | none => rfl
  | some symbol =>
    exact bind_carry (checkArguments_carry f symbol.signature arguments _) fun _ _ => rfl

theorem located_move (es : List (Expr Position)) (types : List Ty) :
    ((Expr.mapAll f es).map (·.note)).zip types =
      ((es.map (·.note)).zip types).map (Prod.map f id) := by
  rw [note_mapAll, ← List.zip_map, List.map_id]

mutual
theorem value_carry (outer : Scope) (b : Body) : (e : Expr Position) →
    value (outer.map (Level.move f)) (b.move f) (e.map f) =
      carry (Fault.move f) (Prod.map (Body.move f) (Prod.map (Expr.map (Typed.move f)) id))
        (value outer b e)
  | .int _ _ | .float _ _ | .bool _ _ | .string _ _ => rfl
  | .array _ elements => by
    rw [Expr.map, value, value]
    exact bind_carry (values_carry outer b elements) fun _ _ => rfl
  | .place p => by
    rw [Expr.map, value, value]
    exact bind_carry (readPlace_carry f (b.level :: outer) p) fun _ _ => rfl
  | .call position function arguments => by
    rw [Expr.map, value, value]
    refine bind_carry (values_carry outer b arguments) fun (b, resolved, types) _ => ?_
    refine bind_carry (g := Symbol.move f) ?_ fun symbol _ => ?_
    · simp only [located_move]
      exact callee_carry f (b.level :: outer) function _ position
    · obtain ⟨s, result, implemented, mangled, first⟩ := symbol
      cases result <;> rfl
  | .binary position op left right => by
    rw [Expr.map, value, value]
    refine bind_carry (value_carry outer b left) fun (b, left, leftType) _ => ?_
    refine bind_carry (value_carry outer b right) fun (b, right, rightType) _ => ?_
    exact bind_carry (binaryType_carry f op leftType rightType position) fun _ _ => rfl
  | .sign position s operand => by
    rw [Expr.map, value, value]
    refine bind_carry (value_carry outer b operand) fun (b, operand, type) _ => ?_
    simp only [Prod.map_apply, id]
    split <;> rfl
  | .assign position target source => by
    rw [Expr.map, value, value]
    refine bind_carry (value_carry outer b source) fun (b, resolved, type) _ => ?_
    simp only [note_map]
    exact bind_carry (writePlace_carry f outer b source.note type target) fun _ _ => rfl

theorem values_carry (outer : Scope) (b : Body) : (es : List (Expr Position)) →
    values (outer.map (Level.move f)) (b.move f) (Expr.mapAll f es) =
      carry (Fault.move f) (Prod.map (Body.move f) (Prod.map (Expr.mapAll (Typed.move f)) id))
        (values outer b es)
  | [] => rfl
  | e :: es => by
    rw [Expr.mapAll, values, values]
    refine bind_carry (value_carry outer b e) fun (b, e, type) _ => ?_
    exact bind_carry (values_carry outer b es) fun _ _ => rfl
end

theorem alone_carry (outer : Scope) (b : Body) (e : Expr Position) :
    alone (outer.map (Level.move f)) (b.move f) (e.map f) =
      carry (Fault.move f) (Prod.map (Body.move f) (Expr.map (Typed.move f)))
        (alone outer b e) := by
  have hvalue : (value (outer.map (Level.move f)) (b.move f) (e.map f) >>=
        fun r => .ok (r.1, r.2.1)) =
      carry (Fault.move f) (Prod.map (Body.move f) (Expr.map (Typed.move f)))
        (value outer b e >>= fun r => .ok (r.1, r.2.1)) :=
    bind_carry (value_carry f outer b e) fun _ _ => rfl
  cases e with
  | place p =>
    cases p with
    | element => exact hvalue
    | whole position name written =>
      cases written with
      | none => exact hvalue
      | some a =>
        refine bind_carry (refType_carry f a position) fun type _ => ?_
        exact bind_carry (bound_carry f b name type position) fun _ _ => rfl
  | call position function arguments =>
    refine bind_carry (values_carry f outer b arguments) fun (b, resolved, types) _ => ?_
    refine bind_carry (g := Symbol.move f) ?_ fun symbol _ => rfl
    simp only [located_move]
    exact callee_carry f (b.level :: outer) function _ position
  | _ => exact hvalue

/-! ### Headers -/

theorem parameterTypes_carry (ps : List (Parameter Position)) :
    parameterTypes (ps.map (·.map f)) = carry (Fault.move f) id (parameterTypes ps) := by
  induction ps with
  | nil => rfl
  | cons p ps ih =>
    have hp : parameterType (p.map f) = carry (Fault.move f) id (parameterType p) := by
      obtain ⟨position, name, type⟩ := p
      cases type with
      | none => rfl
      | some a => exact refType_carry f a position
    exact bind_carry hp fun type _ => bind_carry ih fun types _ => rfl

theorem headerTypes_carry (position : Position) (h : Header Position) :
    headerTypes (f position) (h.map f) = carry (Fault.move f) id (headerTypes position h) := by
  obtain ⟨name, ps, result⟩ := h
  refine bind_carry (parameterTypes_carry f ps) fun types _ => ?_
  cases result with
  | none => rfl
  | some a => exact bind_carry (refType_carry f a position) fun _ _ => rfl

theorem checkDefinition_carry (l : Level) (s : Signature) (result : Option Ty)
    (position : Position) :
    checkDefinition (l.move f) s result (f position) =
      carry (Fault.move f) id (checkDefinition l s result position) := by
  unfold checkDefinition
  rw [Level.function?_move]
  cases l.function? s with
  | none => rfl
  | some known =>
    simp only [Option.map_some, Symbol.move]
    split
    · rfl
    · split <;> rfl

theorem bindParameters_carry (s : Signature) (b : Body) (ps : List (Parameter Position))
    (types : List Ty) :
    bindParameters s (b.move f) (ps.map (·.map f)) types =
      carry (Fault.move f) (Body.move f) (bindParameters s b ps types) := by
  induction ps generalizing b types with
  | nil => rfl
  | cons p ps ih =>
    cases types with
    | nil => rfl
    | cons type types =>
      rw [List.map_cons, bindParameters, bindParameters, carry_ite, ← ih]
      rfl

theorem declareHeader_carry (ctx : Context) (l : Level) (position : Position)
    (h : Header Position) :
    declareHeader { ctx with outer := ctx.outer.map (Level.move f) } (l.move f) (f position)
        (h.map f) =
      carry (Fault.move f) (Prod.map (Level.move f) id) (declareHeader ctx l position h) := by
  simp only [declareHeader, List.isEmpty_map]
  split
  · refine bind_carry (headerTypes_carry f position h) fun (s, result) _ => ?_
    simp only [id, Level.function?_move]
    cases l.function? s with
    | some known => rfl
    | none =>
      exact congrArg (fun l => Except.ok (l, s))
        (Level.register_move f l ⟨s, result, false, l.mangle s, some position⟩)
  · rfl

theorem checkReturn_carry (ctx : Context) (position : Position) (actual : Ty) :
    checkReturn { ctx with outer := ctx.outer.map (Level.move f) } (f position) actual =
      carry (Fault.move f) id (checkReturn ctx position actual) := by
  unfold checkReturn
  simp only
  split
  · rfl
  · split <;> rfl

theorem enterFunction_carry (l : Level) (position : Position) (h : Header Position) :
    enterFunction (l.move f) (f position) (h.map f) =
      carry (Fault.move f) (Prod.map (Level.move f) (Symbol.move f))
        (enterFunction l position h) := by
  refine bind_carry (headerTypes_carry f position h) fun (s, result) _ => ?_
  refine bind_carry (checkDefinition_carry f l s result position) fun _ _ => ?_
  let symbol : Symbol := ⟨s, result, true, l.mangle s, some position⟩
  exact congrArg (fun l => Except.ok (l, symbol.move f)) (Level.register_move f l symbol)

/-! ### Statements -/

def Context.move (ctx : Context) : Context := { ctx with outer := ctx.outer.map (Level.move f) }

def Progress.move (p : Progress) : Progress :=
  ⟨p.body.move f, p.finished.map (Routine.move f), p.log⟩

def Stop.move (s : Stop) : Stop := ⟨s.fault.move f, s.log⟩

theorem attempt_carry {α β : Type} {x' : Except Fault β} {x : Except Fault α} {g : α → β}
    (p : Progress) (h : x' = carry (Fault.move f) g x) :
    (p.move f).attempt x' = carry (Stop.move f) g (p.attempt x) := by
  subst h
  cases x <;> rfl

mutual
theorem statement_carry (ctx : Context) (p : Progress) : (s : Stmt Position) →
    statement (ctx.move f) (p.move f) (s.map f) =
      carry (Stop.move f) (Prod.map (Progress.move f) (Stmt.mapAll (Typed.move f)))
        (statement ctx p s)
  | .function position header body => by
    rw [Stmt.map, statement, statement]
    refine bind_carry (attempt_carry f p (enterFunction_carry f p.body.level position header))
      fun (level, symbol) _ => ?_
    let s := symbol.signature
    let log := p.log ++ [.registered s.text symbol.mangled]
    let inner : Progress := ⟨⟨⟨symbol.mangled, [], []⟩, [], 0⟩, p.finished, log⟩
    refine bind_carry (attempt_carry f inner
      (bindParameters_carry f s inner.body header.parameters s.parameters)) fun bound _ => ?_
    refine bind_carry (block_carry ⟨s, symbol.result, level :: ctx.outer⟩
      { inner with body := bound } body) fun (inner, statements) _ => ?_
    let routine : Routine := ⟨symbol.mangled, s, symbol.result, bound.level.bindings,
      inner.body.locals, statements, inner.body.bytes⟩
    have hroutines : (inner.finished ++ [routine]).map (Routine.move f) =
        inner.finished.map (Routine.move f) ++ [routine.move f] := List.map_append
    let after : Body := { p.body with level := level }
    exact congrArg (fun rs => Except.ok (Progress.mk (after.move f) rs inner.log, []))
      hroutines.symm
  | .declare position header => by
    rw [Stmt.map, statement, statement]
    exact bind_carry (attempt_carry f p (declareHeader_carry f ctx p.body.level position header))
      fun _ _ => rfl
  | .branch position condition thenBody elseBody => by
    rw [Stmt.map, statement, statement]
    refine bind_carry (attempt_carry f p (value_carry f ctx.outer p.body condition))
      fun (b, condition, _) _ => ?_
    refine bind_carry (block_carry ctx { p with body := b } thenBody) fun (p, thenBody) _ => ?_
    exact bind_carry (block_carry ctx p elseBody) fun _ _ => rfl
  | .loop position condition body => by
    rw [Stmt.map, statement, statement]
    refine bind_carry (attempt_carry f p (value_carry f ctx.outer p.body condition))
      fun (b, condition, _) _ => ?_
    exact bind_carry (block_carry ctx { p with body := b } body) fun _ _ => rfl
  | .give position none => by
    simp only [Stmt.map, Option.map_none, statement, Context.move]
    split <;> rfl
  | .give position (some e) => by
    rw [Stmt.map, Option.map_some, statement, statement]
    refine bind_carry (attempt_carry f p (value_carry f ctx.outer p.body e))
      fun (b, e, type) _ => ?_
    exact bind_carry (attempt_carry f p (checkReturn_carry f ctx position type)) fun _ _ => rfl
  | .expr e => by
    rw [Stmt.map, statement, statement]
    exact bind_carry (attempt_carry f p (alone_carry f ctx.outer p.body e)) fun _ _ => rfl

theorem block_carry (ctx : Context) (p : Progress) : (ss : List (Stmt Position)) →
    block (ctx.move f) (p.move f) (Stmt.mapAll f ss) =
      carry (Stop.move f) (Prod.map (Progress.move f) (Stmt.mapAll (Typed.move f)))
        (block ctx p ss)
  | [] => rfl
  | s :: ss => by
    rw [Stmt.mapAll, block, block]
    refine bind_carry (statement_carry ctx p s) fun (p, first) _ => ?_
    refine bind_carry (block_carry ctx p ss) fun (p, rest) _ => ?_
    have hstatements := mapAll_append (Typed.move f) first rest
    exact congrArg (fun ss => Except.ok (p.move f, ss)) hstatements.symm
end

def Result.move (r : Result) : Result :=
  ⟨r.routines.map (Routine.move f), r.externals.map (Symbol.move f)⟩

/-- A program at other positions has the same result or the same fault, at other positions. -/
theorem program_carry (entry : String) (p : Program Position) :
    program entry (p.map (Stmt.map f)) =
      carry (Stop.move f) (Prod.map (Result.move f) id) (program entry p) := by
  let ctx : Context := ⟨⟨entry, []⟩, none, []⟩
  let start : Progress := ⟨⟨.global, [], 0⟩, [], []⟩
  rw [← Stmt.mapAll_eq_map]
  refine bind_carry (block_carry f ctx start p) fun (last, statements) _ => ?_
  have hopen := Level.unimplemented_move f last.body.level
  simp only [Progress.move, Body.move, Prod.map_apply, hopen]
  simp [carry, pure, Except.pure, Result.move, Routine.move, Symbol.move, Function.comp_def]

end
end Resolution
end AlgoFrontEnd
