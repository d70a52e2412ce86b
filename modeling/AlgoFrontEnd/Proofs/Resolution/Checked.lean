import AlgoFrontEnd.Proofs.Breach
import AlgoFrontEnd.Proofs.Resolution.Selection

/-! Programs resolved with the types of resolved expressions read off their notes, where they may
be missing. Main statement: wherever a type is read, it is there, because an expression may be
without one only on a line of its own. -/
namespace AlgoFrontEnd.Resolution
namespace Checked

/-! ### Resolution with checks -/

/-- The type of a resolved expression, where one is needed. -/
def typeOf (e : Expr Typed) : Except Halt Ty :=
  match e.note.type with
  | some type => .ok type
  | none => breach .absentType

def typesOf : List (Expr Typed) → Except Halt (List Ty)
  | [] => .ok []
  | e :: es => do
    let type ← typeOf e
    return type :: (← typesOf es)

mutual
/-- A call without a result is refused where its value is needed. -/
def value (needed : Bool) (outer : Scope) (b : Body) :
    Expr Position → Except Halt (Body × Expr Typed)
  | .int position n => .ok (b, .int ⟨position, some .int⟩ n)
  | .float position x => .ok (b, .float ⟨position, some .float⟩ x)
  | .bool position v => .ok (b, .bool ⟨position, some .bool⟩ v)
  | .string position s => .ok (b, .string ⟨position, some .string⟩ s)
  | .array position elements => do
    let (b, elements) ← values outer b elements
    let types ← typesOf elements
    return (b, .array ⟨position, some (.arrayWith (commonType? types))⟩ elements)
  | .place p => do
    let (p, _) ← guarded (readPlace (b.level :: outer) p)
    return (b, .place p)
  | .call position function arguments => do
    let (b, resolved) ← values outer b arguments
    let types ← typesOf resolved
    let located := arguments.map (·.note) |>.zip types
    let symbol ← guarded (callee (b.level :: outer) function located position)
    if needed && symbol.result.isNone then
      guarded (fault (.voidValue (Signature.mk function types).text) position)
    else return (b, .call ⟨position, symbol.result⟩ symbol.mangled resolved)
  | .binary position op left right => do
    let (b, left) ← value true outer b left
    let (b, right) ← value true outer b right
    let type ← guarded (binaryType op (← typeOf left) (← typeOf right) position)
    return (b, .binary ⟨position, some type⟩ op left right)
  | .sign position s operand => do
    let (b, operand) ← value true outer b operand
    let type ← typeOf operand
    if type.isNumeric then return (b, .sign ⟨position, some type⟩ s operand)
    else guarded (mismatch (.signOperand s type) position)
  | .assign position target source => do
    let (b, resolved) ← value true outer b source
    let type ← typeOf resolved
    let (b, target) ← guarded (writePlace outer b source.note type target)
    return (b, .assign ⟨position, some type⟩ target resolved)

def values (outer : Scope) (b : Body) :
    List (Expr Position) → Except Halt (Body × List (Expr Typed))
  | [] => .ok (b, [])
  | e :: es => do
    let (b, e) ← value true outer b e
    let (b, es) ← values outer b es
    return (b, e :: es)
end

/-- Only the expression on a line of its own may be without a value. -/
def alone (outer : Scope) (b : Body) : Expr Position → Except Halt (Body × Expr Typed)
  | .place (.whole position name (some written)) => do
    let type ← guarded (refType written position)
    let (b, _) ← guarded (b.bind name type position)
    return (b, .place (.whole ⟨position, some type⟩ name (some written)))
  | e => value false outer b e

/-- Where resolution halts, and the events before. -/
structure Stop where
  halt : Halt
  log : List Event

def attempt {α : Type} (p : Progress) (x : Except Halt α) : Except Stop α :=
  x.mapError fun halt => ⟨halt, p.log⟩

mutual
def statement (ctx : Context) (p : Progress) :
    Stmt Position → Except Stop (Progress × List (Stmt Typed))
  | .function position header body => do
    let (level, symbol) ← attempt p (guarded (enterFunction p.body.level position header))
    let s := symbol.signature
    let log := p.log ++ [.registered s.text symbol.mangled]
    let inner : Progress := ⟨⟨⟨symbol.mangled, [], []⟩, [], 0⟩, p.finished, log⟩
    let bound ← attempt inner
      (guarded (bindParameters s inner.body header.parameters s.parameters))
    let innerCtx : Context := ⟨s, symbol.result, level :: ctx.outer⟩
    let (inner, statements) ← block innerCtx { inner with body := bound } body
    let routine : Routine := ⟨symbol.mangled, s, symbol.result, bound.level.bindings,
      inner.body.locals, statements, inner.body.bytes⟩
    return (⟨{ p.body with level := level }, inner.finished ++ [routine], inner.log⟩, [])
  | .declare position header => do
    let (level, s) ← attempt p (guarded (declareHeader ctx p.body.level position header))
    return ({ p with body := { p.body with level }, log := p.log ++ [.declared s.text] }, [])
  | .branch position condition thenBody elseBody => do
    let (b, condition) ← attempt p (value true ctx.outer p.body condition)
    let (p, thenBody) ← block ctx { p with body := b } thenBody
    let (p, elseBody) ← block ctx p elseBody
    return (p, [.branch ⟨position, none⟩ condition thenBody elseBody])
  | .loop position condition body => do
    let (b, condition) ← attempt p (value true ctx.outer p.body condition)
    let (p, body) ← block ctx { p with body := b } body
    return (p, [.loop ⟨position, none⟩ condition body])
  | .give position none =>
    match ctx.result with
    | none => .ok (p, [.give ⟨position, none⟩ none])
    | some expected =>
      attempt p
        (guarded (mismatch (.missingReturnValue ctx.signature.text expected) position))
  | .give position (some e) => do
    let (b, e) ← attempt p (value true ctx.outer p.body e)
    let type ← attempt p (typeOf e)
    attempt p (guarded (checkReturn ctx position type))
    return ({ p with body := b }, [.give ⟨position, none⟩ (some e)])
  | .expr e => do
    let (b, e) ← attempt p (alone ctx.outer p.body e)
    return ({ p with body := b }, [.expr e])

def block (ctx : Context) (p : Progress) :
    List (Stmt Position) → Except Stop (Progress × List (Stmt Typed))
  | [] => .ok (p, [])
  | s :: ss => do
    let (p, first) ← statement ctx p s
    let (p, rest) ← block ctx p ss
    return (p, first ++ rest)
end

def program (entry : String) (p : Program Position) : Except Stop (Result × List Event) := do
  let ctx : Context := ⟨⟨entry, []⟩, none, []⟩
  let (last, statements) ← block ctx ⟨⟨.global, [], 0⟩, [], []⟩ p
  let externals := last.body.level.unimplemented
  let routine : Routine :=
    ⟨entry, ctx.signature, none, [], last.body.locals, statements, last.body.bytes⟩
  let result : Result := ⟨last.finished ++ [routine], externals⟩
  let awaited := externals.map fun s => Event.awaited s.signature.text
  let resolved := Event.resolved result.routines.length externals.length
  return (result, last.log ++ awaited ++ [resolved])

/-! ### No type is missing where it is read -/

theorem typeOf_eq {e : Expr Typed} {type : Ty} (h : e.note.type = some type) :
    typeOf e = .ok type := by
  rw [typeOf, h]

theorem typesOf_eq {es : List (Expr Typed)} {types : List Ty}
    (h : es.map (·.note.type) = types.map some) : typesOf es = .ok types := by
  induction es generalizing types with
  | nil =>
    obtain rfl : types = [] := List.map_eq_nil_iff.mp h.symm
    rfl
  | cons e es ih =>
    cases types with
    | nil => cases h
    | cons type types =>
      obtain ⟨he, hes⟩ := List.cons.inj h
      rw [typesOf, typeOf_eq he, ih hes]
      rfl

/-- Forgets the type that goes along with an expression, which its note tells. -/
def noted {α β : Type} (r : Body × α × β) : Body × α := (r.1, r.2.1)

mutual
theorem value_eq (outer : Scope) (b : Body) : (e : Expr Position) →
    value true outer b e = guarded ((Resolution.value outer b e).map noted)
  | .int _ _ | .float _ _ | .bool _ _ | .string _ _ => rfl
  | .array position elements => by
    rw [value, Resolution.value, values_eq outer b elements, guarded_map_bind, guarded_bind_map]
    refine bind_congr_ok fun ⟨b₁, es, types⟩ h => ?_
    obtain ⟨-, -, ht, -⟩ := values_selected elements (guarded_eq_ok.mp h)
    simp only [noted, typesOf_eq ht]
    rfl
  | .place p => by
    rw [value, Resolution.value, guarded_bind_map]
    rfl
  | .call position function arguments => by
    rw [value, Resolution.value, values_eq outer b arguments, guarded_map_bind, guarded_bind_map]
    refine bind_congr_ok fun ⟨b₁, es, types⟩ h => ?_
    obtain ⟨-, -, ht, -⟩ := values_selected arguments (guarded_eq_ok.mp h)
    simp only [noted, typesOf_eq ht, ok_bind]
    rw [guarded_bind_map]
    refine bind_congr_ok fun symbol _ => ?_
    cases symbol.result <;> rfl
  | .binary position op left right => by
    rw [value, Resolution.value, value_eq outer b left, guarded_map_bind, guarded_bind_map]
    refine bind_congr_ok fun ⟨b₁, left', s⟩ hl => ?_
    obtain ⟨-, hs, -⟩ := value_selected left (guarded_eq_ok.mp hl)
    simp only [noted]
    rw [value_eq outer b₁ right, guarded_map_bind, guarded_bind_map]
    refine bind_congr_ok fun ⟨b₂, right', t⟩ hr => ?_
    obtain ⟨-, ht, -⟩ := value_selected right (guarded_eq_ok.mp hr)
    simp only [noted, typeOf_eq hs, typeOf_eq ht]
    rw [guarded_bind_map]
    rfl
  | .sign position s operand => by
    rw [value, Resolution.value, value_eq outer b operand, guarded_map_bind, guarded_bind_map]
    refine bind_congr_ok fun ⟨b₁, operand', type⟩ h => ?_
    obtain ⟨-, ht, -⟩ := value_selected operand (guarded_eq_ok.mp h)
    simp only [noted, typeOf_eq ht]
    change (if type.isNumeric = true then _ else _) = _
    split <;> rfl
  | .assign position target source => by
    rw [value, Resolution.value, value_eq outer b source, guarded_map_bind, guarded_bind_map]
    refine bind_congr_ok fun ⟨b₁, source', type⟩ h => ?_
    obtain ⟨-, ht, -⟩ := value_selected source (guarded_eq_ok.mp h)
    simp only [noted, typeOf_eq ht]
    rw [guarded_bind_map]
    rfl

theorem values_eq (outer : Scope) (b : Body) : (es : List (Expr Position)) →
    values outer b es = guarded ((Resolution.values outer b es).map noted)
  | [] => rfl
  | e :: es => by
    rw [values, Resolution.values, value_eq outer b e, guarded_map_bind, guarded_bind_map]
    refine bind_congr_ok fun ⟨b₁, e', type⟩ _ => ?_
    simp only [noted]
    rw [values_eq outer b₁ es, guarded_map_bind, guarded_bind_map]
    rfl
end

/-- Apart from a call, whether a value is needed makes no difference. -/
theorem value_irrelevant (needed : Bool) (outer : Scope) (b : Body) {e : Expr Position}
    (h : ∀ position function arguments, e ≠ .call position function arguments) :
    value needed outer b e = value true outer b e := by
  cases e with
  | call position function arguments => exact absurd rfl (h position function arguments)
  | _ => rfl

theorem alone_eq (outer : Scope) (b : Body) (e : Expr Position) :
    alone outer b e = guarded (Resolution.alone outer b e) := by
  fun_cases Resolution.alone outer b e with
  | case1 position name written =>
    rw [alone, guarded_bind]
    refine bind_congr_ok fun type _ => ?_
    rw [guarded_bind]
    rfl
  | case2 position function arguments =>
    have hc : alone outer b (.call position function arguments) =
      value false outer b (.call position function arguments) := rfl
    rw [hc, value, values_eq outer b arguments, guarded_map_bind, guarded_bind]
    refine bind_congr_ok fun ⟨b₁, es, types⟩ h => ?_
    obtain ⟨-, -, ht, -⟩ := values_selected arguments (guarded_eq_ok.mp h)
    simp only [noted, typesOf_eq ht, ok_bind]
    rw [guarded_bind]
    rfl
  | case3 e hplace hcall =>
    have ha : alone outer b e = value false outer b e := by
      unfold alone
      split
      · exact absurd rfl (hplace _ _ _)
      · rfl
    rw [ha, value_irrelevant false outer b hcall, value_eq]
    cases Resolution.value outer b e <;> rfl

/-! ### Statements -/

/-- A resolution without checks among those with checks. -/
def guardedStop {α : Type} (x : Except Resolution.Stop α) : Except Stop α :=
  x.mapError fun stop => ⟨.fault stop.fault, stop.log⟩

section
variable {α β : Type}

theorem guardedStop_bind (x : Except Resolution.Stop α) (f : α → Except Resolution.Stop β) :
    guardedStop (x >>= f) = guardedStop x >>= fun a => guardedStop (f a) := by
  cases x <;> rfl

theorem guardedStop_eq_ok {x : Except Resolution.Stop α} {a : α} :
    guardedStop x = .ok a ↔ x = .ok a := mapError_eq_ok

theorem attempt_guarded (p : Progress) (x : Except Fault α) :
    attempt p (guarded x) = guardedStop (p.attempt x) := by
  cases x <;> rfl

/-- An attempt at a value goes on without the type that its note tells. -/
theorem attempt_noted (p : Progress) (x : Except Fault (Body × Expr Typed × Ty))
    (k : Body × Expr Typed → Except Stop β) :
    attempt p (guarded (x.map noted)) >>= k =
      guardedStop (p.attempt x) >>= fun r => k (noted r) := by
  cases x <;> rfl

end

mutual
/-- Resolving a statement breaches nothing and comes to the same. -/
theorem statement_eq (ctx : Context) (p : Progress) : (s : Stmt Position) →
    statement ctx p s = guardedStop (Resolution.statement ctx p s)
  | .function position header body => by
    rw [statement, Resolution.statement, attempt_guarded, guardedStop_bind]
    refine bind_congr_ok fun ⟨level, symbol⟩ _ => ?_
    simp only
    rw [attempt_guarded, guardedStop_bind]
    refine bind_congr_ok fun bound _ => ?_
    rw [block_eq _ _ body, guardedStop_bind]
    rfl
  | .declare position header => by
    rw [statement, Resolution.statement, attempt_guarded, guardedStop_bind]
    rfl
  | .branch position condition thenBody elseBody => by
    rw [statement, Resolution.statement, value_eq, attempt_noted, guardedStop_bind]
    refine bind_congr_ok fun ⟨b, condition', type⟩ _ => ?_
    simp only [noted]
    rw [block_eq ctx _ thenBody, guardedStop_bind]
    refine bind_congr_ok fun ⟨p₁, thenBody'⟩ _ => ?_
    simp only
    rw [block_eq ctx p₁ elseBody, guardedStop_bind]
    rfl
  | .loop position condition body => by
    rw [statement, Resolution.statement, value_eq, attempt_noted, guardedStop_bind]
    refine bind_congr_ok fun ⟨b, condition', type⟩ _ => ?_
    simp only [noted]
    rw [block_eq ctx _ body, guardedStop_bind]
    rfl
  | .give position none => by
    rw [statement, Resolution.statement]
    cases ctx.result with
    | none => rfl
    | some expected => exact attempt_guarded p _
  | .give position (some e) => by
    rw [statement, Resolution.statement, value_eq, attempt_noted, guardedStop_bind]
    refine bind_congr_ok fun ⟨b, e', type⟩ h => ?_
    obtain ⟨-, ht, -⟩ := value_selected e (attempt_eq_ok.mp (guardedStop_eq_ok.mp h))
    have ha : attempt p (typeOf e') = .ok type := by rw [typeOf_eq ht]; rfl
    simp only [noted, ha, ok_bind]
    rw [attempt_guarded, guardedStop_bind]
    rfl
  | .expr e => by
    rw [statement, Resolution.statement, alone_eq, attempt_guarded, guardedStop_bind]
    rfl

theorem block_eq (ctx : Context) (p : Progress) : (ss : List (Stmt Position)) →
    block ctx p ss = guardedStop (Resolution.block ctx p ss)
  | [] => rfl
  | s :: ss => by
    rw [block, Resolution.block, statement_eq ctx p s, guardedStop_bind]
    refine bind_congr_ok fun ⟨p₁, first⟩ _ => ?_
    simp only
    rw [block_eq ctx p₁ ss, guardedStop_bind]
    rfl
end

/-- Resolving a program breaches nothing and comes to the same. -/
theorem program_eq (entry : String) (p : Program Position) :
    program entry p = guardedStop (Resolution.program entry p) := by
  rw [program, Resolution.program, block_eq, guardedStop_bind]
  rfl

end Checked
end AlgoFrontEnd.Resolution
