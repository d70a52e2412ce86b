import AlgoFrontEnd.Event
import AlgoFrontEnd.Resolution.Expression

/-! Programs resolved into a flat list of functions. -/
namespace AlgoFrontEnd

/-- A function by itself: nested definitions have been taken out of its statements, and calls
name the function they select. The declared size of its frame goes with it. -/
structure Routine where
  name : String
  signature : Signature
  result : Option Ty
  parameters : List Binding
  locals : List Binding
  statements : List (Stmt Resolution.Typed)
  frameSize : Int
  deriving Repr

namespace Resolution

/-- The function around a statement, and the levels around its body. -/
structure Context where
  signature : Signature
  result : Option Ty
  outer : Scope
  deriving DecidableEq, Repr

/-- What has been resolved so far: the current body, the finished functions and the events. -/
structure Progress where
  body : Body
  finished : List Routine
  log : List Event

/-- A fault, and the events before it. -/
structure Stop where
  fault : Fault
  log : List Event

/-- Keeps the events of the progress so far with a fault. -/
def Progress.attempt {α : Type} (p : Progress) : Except Fault α → Except Stop α
  | .ok a => .ok a
  | .error fault => .error ⟨fault, p.log⟩

def parameterType (p : Parameter Position) : Except Fault Ty :=
  match p.type with
  | some a => refType a p.note
  | none => fault (.untypedParameter p.name) p.note

def parameterTypes : List (Parameter Position) → Except Fault (List Ty)
  | [] => .ok []
  | p :: ps => do
    let type ← parameterType p
    return type :: (← parameterTypes ps)

/-- The signature and result type that a header spells. Parameters come first. -/
def headerTypes (position : Position) (h : Header Position) :
    Except Fault (Signature × Option Ty) := do
  let types ← parameterTypes h.parameters
  let result ← match h.result with
    | some a => do pure (some (← refType a position))
    | none => pure none
  return (⟨h.name, types⟩, result)

/-- Results agree if both are absent or both types agree. -/
def sameResult : Option Ty → Option Ty → Bool
  | none, none => true
  | some header, some body => header.agrees body
  | _, _ => false

def resultText : Option Ty → String
  | some type => type.display
  | none => "no value"

/-- A header is open for one implementation with the same result. -/
def checkDefinition (l : Level) (s : Signature) (result : Option Ty) (position : Position) :
    Except Fault Unit :=
  match l.function? s with
  | none => .ok ()
  | some known =>
    if known.implemented then fault (.redeclaration s.text known.position) position
    else if sameResult known.result result then .ok ()
    else fault (.signatureConflict s.text (resultText known.result) (resultText result)) position

/-- The bindings of parameters, which must have different names. -/
def bindParameters (s : Signature) (b : Body) :
    List (Parameter Position) → List Ty → Except Fault Body
  | p :: ps, type :: types =>
    if (b.level.binding? p.name).isSome then
      fault (.duplicateParameter p.name s.text) p.note
    else
      bindParameters s ⟨b.level.declare p.name type, b.locals, b.bytes + type.size⟩ ps types
  | _, _ => .ok b

/-- A header may stand only outside all functions, and once for each signature. -/
def declareHeader (ctx : Context) (l : Level) (position : Position) (h : Header Position) :
    Except Fault (Level × Signature) := do
  unless ctx.outer.isEmpty do fault (.nestedDeclaration h.name) position
  let (s, result) ← headerTypes position h
  match l.function? s with
  | some known => fault (.redeclaration s.text known.position) position
  | none => return (l.register ⟨s, result, false, l.mangle s, some position⟩, s)

/-- The type of a return against that of the function around it. -/
def checkReturn (ctx : Context) (position : Position) (actual : Ty) : Except Fault Unit :=
  match ctx.result with
  | none => mismatch (.unexpectedReturnValue ctx.signature.text) position
  | some expected =>
    if actual.agrees expected then .ok ()
    else mismatch (.returnValue ctx.signature.text expected actual) position

/-- A function can call itself, so it is registered before its body is resolved. -/
def enterFunction (l : Level) (position : Position) (h : Header Position) :
    Except Fault (Level × Symbol) := do
  let (s, result) ← headerTypes position h
  checkDefinition l s result position
  let symbol : Symbol := ⟨s, result, true, l.mangle s, some position⟩
  return (l.register symbol, symbol)

mutual
/-- Resolves a statement. Definitions and headers leave nothing in the body they stand in; a
function comes after those defined inside it. -/
def statement (ctx : Context) (p : Progress) :
    Stmt Position → Except Stop (Progress × List (Stmt Typed))
  | .function position header body => do
    let (level, symbol) ← p.attempt (enterFunction p.body.level position header)
    let s := symbol.signature
    let log := p.log ++ [.registered s.text symbol.mangled]
    let inner : Progress := ⟨⟨⟨symbol.mangled, [], []⟩, [], 0⟩, p.finished, log⟩
    let bound ← inner.attempt (bindParameters s inner.body header.parameters s.parameters)
    let innerCtx : Context := ⟨s, symbol.result, level :: ctx.outer⟩
    let (inner, statements) ← block innerCtx { inner with body := bound } body
    let routine : Routine := ⟨symbol.mangled, s, symbol.result, bound.level.bindings,
      inner.body.locals, statements, inner.body.bytes⟩
    return (⟨{ p.body with level := level }, inner.finished ++ [routine], inner.log⟩, [])
  | .declare position header => do
    let (level, s) ← p.attempt (declareHeader ctx p.body.level position header)
    return ({ p with body := { p.body with level }, log := p.log ++ [.declared s.text] }, [])
  | .branch position condition thenBody elseBody => do
    let (b, condition, _) ← p.attempt (value ctx.outer p.body condition)
    let (p, thenBody) ← block ctx { p with body := b } thenBody
    let (p, elseBody) ← block ctx p elseBody
    return (p, [.branch ⟨position, none⟩ condition thenBody elseBody])
  | .loop position condition body => do
    let (b, condition, _) ← p.attempt (value ctx.outer p.body condition)
    let (p, body) ← block ctx { p with body := b } body
    return (p, [.loop ⟨position, none⟩ condition body])
  | .give position none =>
    match ctx.result with
    | none => .ok (p, [.give ⟨position, none⟩ none])
    | some expected =>
      p.attempt (mismatch (.missingReturnValue ctx.signature.text expected) position)
  | .give position (some e) => do
    let (b, e, type) ← p.attempt (value ctx.outer p.body e)
    p.attempt (checkReturn ctx position type)
    return ({ p with body := b }, [.give ⟨position, none⟩ (some e)])
  | .expr e => do
    let (b, e) ← p.attempt (alone ctx.outer p.body e)
    return ({ p with body := b }, [.expr e])

/-- Resolves statements in order. -/
def block (ctx : Context) (p : Progress) :
    List (Stmt Position) → Except Stop (Progress × List (Stmt Typed))
  | [] => .ok (p, [])
  | s :: ss => do
    let (p, first) ← statement ctx p s
    let (p, rest) ← block ctx p ss
    return (p, first ++ rest)
end

/-- The functions of a program, the entry function last, and the headers without a body. -/
structure Result where
  routines : List Routine
  externals : List Symbol
  deriving Repr

/-- The function of a name; of several, the first. -/
def Result.routine? (r : Result) (name : String) : Option Routine :=
  r.routines.find? (·.name = name)

/-- Resolves a program whose statements outside of functions make up the entry function. -/
def program (entry : String) (p : Program Position) : Except Stop (Result × List Event) := do
  let ctx : Context := ⟨⟨entry, []⟩, none, []⟩
  let (last, statements) ← block ctx ⟨⟨.global, [], 0⟩, [], []⟩ p
  let externals := last.body.level.unimplemented
  let routine : Routine :=
    ⟨entry, ctx.signature, none, [], last.body.locals, statements, last.body.bytes⟩
  let result : Result := ⟨last.finished ++ [routine], externals⟩
  let awaited := externals.map fun s => Event.awaited s.signature.text
  let resolved := Event.resolved result.routines.length externals.length
  return (result, last.log ++ awaited ++ [resolved])

end Resolution
end AlgoFrontEnd
