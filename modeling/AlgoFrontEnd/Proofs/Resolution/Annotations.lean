import AlgoFrontEnd.Proofs.Relocation
import AlgoFrontEnd.Proofs.Resolution.Typing

/-! Types written behind variables. Main statement: where a variable is declared or assigned to, its
type agrees with the one written behind it; where it is read, what is written behind it has no
effect whatever. -/
namespace AlgoFrontEnd
open Resolution

/-! ### Annotated variables -/

/-- A type written behind a variable, the type that the variable carries there, and whether it is
read there or declared or assigned to. -/
structure Annotation where
  position : Position
  name : String
  written : TypeRef
  type : Option Ty
  read : Bool
  deriving DecidableEq, Repr

def Place.annotations (read : Bool) : Place Typed → List Annotation
  | whole note name (some written) => [⟨note.position, name, written, note.type, read⟩]
  | whole _ _ none | element _ _ _ => []

mutual
/-- The annotated variables of a resolved expression. Only a target is not read. -/
def Expr.annotations : Expr Typed → List Annotation
  | .int _ _ | .float _ _ | .bool _ _ | .string _ _ => []
  | .array _ elements => Expr.annotationsAll elements
  | .place p => p.annotations true
  | .call _ _ arguments => Expr.annotationsAll arguments
  | .binary _ _ left right => left.annotations ++ right.annotations
  | .sign _ _ operand => operand.annotations
  | .assign _ target value => target.annotations false ++ value.annotations

def Expr.annotationsAll : List (Expr Typed) → List Annotation
  | [] => []
  | e :: es => e.annotations ++ Expr.annotationsAll es
end

/-- On a line of its own an annotated variable is declared. -/
def Expr.annotationsAlone : Expr Typed → List Annotation
  | .place p => p.annotations false
  | e => e.annotations

mutual
/-- The annotated variables of a resolved statement at any depth. -/
def Stmt.annotations : Stmt Typed → List Annotation
  | .function _ _ body => Stmt.annotationsAll body
  | .declare _ _ | .give _ none => []
  | .branch _ condition thenBody elseBody =>
    condition.annotations ++ Stmt.annotationsAll thenBody ++ Stmt.annotationsAll elseBody
  | .loop _ condition body => condition.annotations ++ Stmt.annotationsAll body
  | .give _ (some e) => e.annotations
  | .expr e => e.annotationsAlone

def Stmt.annotationsAll : List (Stmt Typed) → List Annotation
  | [] => []
  | s :: ss => s.annotations ++ Stmt.annotationsAll ss
end

def Routine.annotations (F : Routine) : List Annotation := Stmt.annotationsAll F.statements

theorem Stmt.annotationsAll_append (xs ys : List (Stmt Typed)) :
    Stmt.annotationsAll (xs ++ ys) = Stmt.annotationsAll xs ++ Stmt.annotationsAll ys := by
  induction xs with
  | nil => rfl
  | cons s ss ih => simp only [List.cons_append, Stmt.annotationsAll, ih, List.append_assoc]

/-- Among variables, the written type is known, and the type that the variable carries at the
annotation agrees with it, and so does the type that it has. -/
def Annotation.Kept (vs : List Binding) (a : Annotation) : Prop :=
  ∃ declared ∈ a.written.type?, ∃ carried ∈ a.type, ∃ held ∈ Binding.type? vs a.name,
    carried.agrees declared = true ∧ held.agrees declared = true

instance (vs : List Binding) (a : Annotation) : Decidable (a.Kept vs) :=
  inferInstanceAs (Decidable (∃ declared ∈ a.written.type?, ∃ carried ∈ a.type,
    ∃ held ∈ Binding.type? vs a.name, carried.agrees declared = true ∧ held.agrees declared = true))

/-- An annotation is kept unless its variable is read. -/
def Annotation.KeptUnlessRead (vs : List Binding) (a : Annotation) : Prop :=
  a.read = false → a.Kept vs

theorem Annotation.KeptUnlessRead.mono {vs ws : List Binding} {a : Annotation} (hp : vs <+: ws)
    (h : a.KeptUnlessRead vs) : a.KeptUnlessRead ws := by
  intro hr
  obtain ⟨declared, hd, carried, hc, held, hv, hagrees⟩ := h hr
  exact ⟨declared, hd, carried, hc, held, Binding.type?_mono hp hv, hagrees⟩

/-! ### Declarations and targets -/

namespace Resolution
variable {outer : Scope}

theorem writePlace_annotations {b b' : Body} {position : Position} {actual : Ty}
    {place : Place Position} {place' : Place Typed}
    (h : writePlace outer b position actual place = .ok (b', place')) :
    ∀ a ∈ place'.annotations false, a.KeptUnlessRead b'.level.bindings := by
  cases place with
  | element p name offset =>
    obtain ⟨held, -, -, -, -, rfl⟩ := writePlace_element h
    exact List.forall_mem_nil _
  | whole p name written =>
    obtain ⟨type, bound, ht, hb, rfl⟩ := writePlace_whole h
    obtain ⟨hv, hagrees⟩ := bind_binding? hb
    rcases targetType_ok ht with ⟨rfl, rfl⟩ | ⟨ref, rfl, hr, -⟩
    · exact List.forall_mem_nil _
    · refine List.forall_mem_singleton.mpr fun _ => ?_
      exact ⟨type, hr, bound, rfl, bound, hv, hagrees, hagrees⟩

theorem readPlace_annotations (vs : List Binding) (place : Place Typed) :
    ∀ a ∈ place.annotations true, a.KeptUnlessRead vs := by
  cases place with
  | element => exact List.forall_mem_nil _
  | whole note name written =>
    cases written with
    | none => exact List.forall_mem_nil _
    | some written => exact List.forall_mem_singleton.mpr nofun

mutual
theorem value_annotations {b b' : Body} {e' : Expr Typed} {type : Ty} :
    (e : Expr Position) → value outer b e = .ok (b', e', type) →
    ∀ a ∈ e'.annotations, a.KeptUnlessRead b'.level.bindings
  | .int _ _, h | .float _ _, h | .bool _ _, h | .string _ _, h => by
    cases h
    exact List.forall_mem_nil _
  | .array _ elements, h => by
    obtain ⟨elements', types, hv, -, rfl⟩ := value_array h
    exact values_annotations elements hv
  | .place _, h => by
    obtain ⟨place', -, -, rfl⟩ := value_place h
    exact readPlace_annotations _ place'
  | .call _ _ arguments, h => by
    obtain ⟨arguments', types, symbol, hv, -, -, rfl⟩ := value_call h
    exact values_annotations arguments hv
  | .binary _ _ left right, h => by
    obtain ⟨b₁, left', leftType, right', rightType, hl, hr, -, rfl⟩ := value_binary h
    have hp := (value_grows right hr).isPrefix
    exact List.forall_mem_append.mpr
      ⟨fun a ha => (value_annotations left hl a ha).mono hp, value_annotations right hr⟩
  | .sign _ _ operand, h => by
    obtain ⟨operand', ho, -, rfl⟩ := value_sign h
    rw [Expr.annotations]
    exact value_annotations operand ho
  | .assign _ target source, h => by
    obtain ⟨b₁, source', target', hv, hw, rfl⟩ := value_assign h
    have hp := (writePlace_grows hw).isPrefix
    exact List.forall_mem_append.mpr
      ⟨writePlace_annotations hw, fun a ha => (value_annotations source hv a ha).mono hp⟩

theorem values_annotations {b b' : Body} {es' : List (Expr Typed)} {types : List Ty} :
    (es : List (Expr Position)) → values outer b es = .ok (b', es', types) →
    ∀ a ∈ Expr.annotationsAll es', a.KeptUnlessRead b'.level.bindings
  | [], h => by
    cases h
    exact List.forall_mem_nil _
  | e :: es, h => by
    obtain ⟨b₁, first, type, rest, more, he, hes, rfl, -⟩ := values_cons h
    have hp := (values_grows es hes).isPrefix
    exact List.forall_mem_append.mpr
      ⟨fun a ha => (value_annotations e he a ha).mono hp, values_annotations es hes⟩
end

/-- Whether an expression is a variable or an element. -/
def isPlace {α : Type} : Expr α → Bool
  | .place _ => true
  | _ => false

theorem exists_place {α : Type} {e : Expr α} (h : isPlace e = true) : ∃ p, e = .place p := by
  cases e with
  | place p => exact ⟨p, rfl⟩
  | _ => cases h

theorem isPlace_of_value {b b' : Body} {e : Expr Position} {e' : Expr Typed} {type : Ty}
    (h : value outer b e = .ok (b', e', type)) : isPlace e' = isPlace e := by
  cases e with
  | int | float | bool | string =>
    cases h
    rfl
  | array =>
    obtain ⟨_, _, -, -, rfl⟩ := value_array h
    rfl
  | place =>
    obtain ⟨_, -, -, rfl⟩ := value_place h
    rfl
  | call =>
    obtain ⟨_, _, _, -, -, -, rfl⟩ := value_call h
    rfl
  | binary =>
    obtain ⟨_, _, _, _, _, -, -, -, rfl⟩ := value_binary h
    rfl
  | sign =>
    obtain ⟨_, -, -, rfl⟩ := value_sign h
    rfl
  | assign =>
    obtain ⟨_, _, _, -, -, rfl⟩ := value_assign h
    rfl

theorem annotationsAlone_of_isPlace {e : Expr Typed} (h : isPlace e = false) :
    e.annotationsAlone = e.annotations := by
  cases e with
  | place => cases h
  | _ => rfl

theorem alone_annotations {b b' : Body} {e : Expr Position} {e' : Expr Typed}
    (h : alone outer b e = .ok (b', e')) :
    ∀ a ∈ e'.annotationsAlone, a.KeptUnlessRead b'.level.bindings := by
  rcases alone_cases h with ⟨position, name, written, type, bound, rfl, ht, hb, rfl⟩ |
    ⟨_, _, arguments, _, _, _, -, hv, -, rfl⟩ | ⟨type, hv, hn⟩
  · obtain ⟨hv, hagrees⟩ := bind_binding? hb
    refine List.forall_mem_singleton.mpr fun _ => ?_
    exact ⟨type, ht, type, rfl, bound, hv, type.agrees_refl, hagrees⟩
  · exact values_annotations arguments hv
  · by_cases hp : isPlace e = true
    · obtain ⟨place, rfl⟩ := exists_place hp
      obtain ⟨place', hr, -, rfl⟩ := value_place hv
      cases place with
      | element =>
        obtain ⟨_, -, -, -, rfl⟩ := readPlace_element hr
        exact List.forall_mem_nil _
      | whole position name written =>
        obtain ⟨-, rfl⟩ := readPlace_whole hr
        cases written with
        | none => exact List.forall_mem_nil _
        | some written => exact absurd rfl (hn position name written)
    · rw [annotationsAlone_of_isPlace ((isPlace_of_value hv).trans (Bool.eq_false_iff.mpr hp))]
      exact value_annotations e hv

mutual
theorem statement_annotations {ctx : Context} {p p' : Progress} {out : List (Stmt Typed)} :
    (s : Stmt Position) → statement ctx p s = .ok (p', out) →
    ∀ a ∈ Stmt.annotationsAll out, a.KeptUnlessRead p'.body.level.bindings
  | .function _ _ _, h => by
    obtain ⟨_, _, _, _, _, _, -, -, -, -, -, -, -, -, rfl⟩ := statement_function h
    exact List.forall_mem_nil _
  | .declare _ _, h => by
    obtain ⟨_, _, -, -, -, -, -, -, -, rfl⟩ := statement_declare h
    exact List.forall_mem_nil _
  | .branch _ condition thenBody elseBody, h => by
    obtain ⟨b, condition', type, p₁, thenBody', elseBody', hc, ht, he, rfl⟩ := statement_branch h
    have hthen := (block_grows thenBody ht).isPrefix
    have helse := (block_grows elseBody he).isPrefix
    simp only [Stmt.annotationsAll, Stmt.annotations, List.append_nil, List.forall_mem_append]
    refine ⟨⟨?_, ?_⟩, block_annotations elseBody he⟩
    · exact fun a ha => (value_annotations condition hc a ha).mono (hthen.trans helse)
    · exact fun a ha => (block_annotations thenBody ht a ha).mono helse
  | .loop _ condition body, h => by
    obtain ⟨b, condition', type, body', hc, hb, rfl⟩ := statement_loop h
    have hbody := (block_grows body hb).isPrefix
    simp only [Stmt.annotationsAll, Stmt.annotations, List.append_nil, List.forall_mem_append]
    refine ⟨?_, block_annotations body hb⟩
    exact fun a ha => (value_annotations condition hc a ha).mono hbody
  | .give _ _, h => by
    rcases statement_give h with ⟨-, -, -, rfl⟩ | ⟨e, b, e', type, expected, -, hv, -, -, rfl, rfl⟩
    · exact List.forall_mem_nil _
    · simpa only [Stmt.annotationsAll, Stmt.annotations, List.append_nil] using
        value_annotations e hv
  | .expr _, h => by
    obtain ⟨b, e', ha, rfl, rfl⟩ := statement_expr h
    simpa only [Stmt.annotationsAll, Stmt.annotations, List.append_nil] using alone_annotations ha

theorem block_annotations {ctx : Context} {p p' : Progress} {out : List (Stmt Typed)} :
    (ss : List (Stmt Position)) → block ctx p ss = .ok (p', out) →
    ∀ a ∈ Stmt.annotationsAll out, a.KeptUnlessRead p'.body.level.bindings
  | [], h => by
    cases h
    exact List.forall_mem_nil _
  | s :: ss, h => by
    obtain ⟨p₁, first, rest, hs, hss, rfl⟩ := block_cons h
    have hp := (block_grows ss hss).isPrefix
    rw [Stmt.annotationsAll_append]
    exact List.forall_mem_append.mpr
      ⟨fun a ha => (statement_annotations s hs a ha).mono hp, block_annotations ss hss⟩
end

/-- Declarations and targets of all functions keep their annotations. -/
theorem program_annotations {entry : String} {p : Program Position} {r : Result}
    {log : List Event} (h : program entry p = .ok (r, log)) :
    ∀ F ∈ r.routines, ∀ a ∈ F.annotations, a.KeptUnlessRead F.variables := by
  intro F hF
  obtain ⟨name, hopens, hb⟩ := program_made h F hF
  rw [Routine.variables, hopens.variables hb]
  exact block_annotations _ hb

end Resolution

/-! ### Reads -/

section
variable {α : Type} (g : α → Option TypeRef → Option TypeRef)

def Place.reread : Place α → Place α
  | whole n name written => whole n name (g n written)
  | element n array offset => element n array offset

mutual
/-- Changes what is written behind variables that are read, and nothing else. -/
def Expr.reread : Expr α → Expr α
  | .int n value => .int n value
  | .float n value => .float n value
  | .bool n value => .bool n value
  | .string n value => .string n value
  | .array n elements => .array n (rereadAll elements)
  | .place p => .place (p.reread g)
  | .call n function arguments => .call n function (rereadAll arguments)
  | .binary n op left right => .binary n op left.reread right.reread
  | .sign n s operand => .sign n s operand.reread
  | .assign n target value => .assign n target value.reread

def Expr.rereadAll : List (Expr α) → List (Expr α)
  | [] => []
  | e :: es => e.reread :: rereadAll es
end

/-- On a line of its own a variable is not only read. -/
def Expr.rereadAlone (e : Expr α) : Expr α := if isPlace e then e else e.reread g

mutual
def Stmt.reread : Stmt α → Stmt α
  | .function n header body => .function n header (rereadAll body)
  | .declare n header => .declare n header
  | .branch n condition thenBody elseBody =>
    .branch n (condition.reread g) (rereadAll thenBody) (rereadAll elseBody)
  | .loop n condition body => .loop n (condition.reread g) (rereadAll body)
  | .give n value => .give n (value.map (Expr.reread g))
  | .expr e => .expr (e.rereadAlone g)

def Stmt.rereadAll : List (Stmt α) → List (Stmt α)
  | [] => []
  | s :: ss => s.reread :: rereadAll ss
end

theorem note_reread (e : Expr α) : (e.reread g).note = e.note := by
  cases e with
  | place p => cases p <;> rfl
  | _ => rfl

theorem note_rereadAll (es : List (Expr α)) :
    (Expr.rereadAll g es).map (·.note) = es.map (·.note) := by
  induction es with
  | nil => rfl
  | cons e es ih => rw [Expr.rereadAll, List.map_cons, List.map_cons, note_reread, ih]

theorem Stmt.rereadAll_append (xs ys : List (Stmt α)) :
    Stmt.rereadAll g (xs ++ ys) = Stmt.rereadAll g xs ++ Stmt.rereadAll g ys := by
  induction xs with
  | nil => rfl
  | cons s ss ih => simp only [List.cons_append, Stmt.rereadAll, ih]

end

section
variable (g : Position → Option TypeRef → Option TypeRef)

/-- The same change behind the variables of a resolved tree. -/
def Resolution.Typed.change (note : Typed) : Option TypeRef → Option TypeRef := g note.position

def Routine.reread (F : Routine) : Routine :=
  { F with statements := Stmt.rereadAll (Typed.change g) F.statements }

namespace Resolution

theorem readPlace_reread (scope : Scope) (p : Place Position) :
    readPlace scope (p.reread g) =
      carry id (Prod.map (Place.reread (Typed.change g)) id) (readPlace scope p) := by
  cases p with
  | whole position name written => exact bind_carry (carry_id _).symm fun _ _ => rfl
  | element position array offset =>
    refine bind_carry (carry_id _).symm fun type _ => ?_
    rw [id]
    cases type.element? <;> rfl

mutual
theorem value_reread (outer : Scope) (b : Body) : (e : Expr Position) →
    value outer b (e.reread g) =
      carry id (Prod.map id (Prod.map (Expr.reread (Typed.change g)) id)) (value outer b e)
  | .int _ _ | .float _ _ | .bool _ _ | .string _ _ => rfl
  | .array _ elements => by
    rw [Expr.reread, value, value]
    exact bind_carry (values_reread outer b elements) fun _ _ => rfl
  | .place p => by
    rw [Expr.reread, value, value]
    exact bind_carry (readPlace_reread g _ p) fun _ _ => rfl
  | .call position function arguments => by
    rw [Expr.reread, value, value, note_rereadAll]
    refine bind_carry (values_reread outer b arguments) fun (b, resolved, types) _ => ?_
    refine bind_carry (carry_id _).symm fun symbol _ => ?_
    obtain ⟨s, result, implemented, mangled, first⟩ := symbol
    cases result <;> rfl
  | .binary position op left right => by
    rw [Expr.reread, value, value]
    refine bind_carry (value_reread outer b left) fun (b, left, leftType) _ => ?_
    refine bind_carry (value_reread outer b right) fun (b, right, rightType) _ => ?_
    exact bind_carry (carry_id _).symm fun _ _ => rfl
  | .sign position s operand => by
    rw [Expr.reread, value, value]
    refine bind_carry (value_reread outer b operand) fun (b, operand, type) _ => ?_
    simp only [Prod.map_apply, id]
    split <;> rfl
  | .assign position target source => by
    rw [Expr.reread, value, value, note_reread]
    refine bind_carry (value_reread outer b source) fun (b, resolved, type) _ => ?_
    exact bind_carry (carry_id _).symm fun _ _ => rfl

theorem values_reread (outer : Scope) (b : Body) : (es : List (Expr Position)) →
    values outer b (Expr.rereadAll g es) =
      carry id (Prod.map id (Prod.map (Expr.rereadAll (Typed.change g)) id)) (values outer b es)
  | [] => rfl
  | e :: es => by
    rw [Expr.rereadAll, values, values]
    refine bind_carry (value_reread outer b e) fun (b, e, type) _ => ?_
    exact bind_carry (values_reread outer b es) fun _ _ => rfl
end

theorem alone_reread (outer : Scope) (b : Body) (e : Expr Position) :
    alone outer b (e.rereadAlone g) =
      carry id (Prod.map id (Expr.rereadAlone (Typed.change g))) (alone outer b e) := by
  by_cases hp : isPlace e = true
  · rw [Expr.rereadAlone, if_pos hp]
    cases he : alone outer b e with
    | error f => rfl
    | ok r =>
      have hr : isPlace r.2 = true := by
        rcases alone_cases he with ⟨_, _, _, _, _, -, -, -, hr⟩ |
          ⟨_, _, _, _, _, _, rfl, -, -, -⟩ | ⟨type, hv, -⟩
        · rw [hr]
          rfl
        · cases hp
        · rw [isPlace_of_value hv, hp]
      exact congrArg Except.ok (Prod.ext rfl (if_pos hr).symm)
  · have hvalue : (value outer b (e.reread g) >>= fun r => .ok (r.1, r.2.1)) =
        carry id (Prod.map id (Expr.rereadAlone (Typed.change g)))
          (value outer b e >>= fun r => .ok (r.1, r.2.1)) := by
      refine bind_carry (value_reread g outer b e) fun (b, e', type) hv => ?_
      have hp' : ¬ isPlace e' = true := by rwa [isPlace_of_value hv]
      exact congrArg Except.ok (Prod.ext rfl (if_neg hp').symm)
    rw [Expr.rereadAlone, if_neg hp]
    cases e with
    | place p => exact absurd rfl hp
    | call position function arguments =>
      rw [Expr.reread, alone, alone, note_rereadAll]
      refine bind_carry (values_reread g outer b arguments) fun (b, resolved, types) _ => ?_
      exact bind_carry (carry_id _).symm fun _ _ => rfl
    | _ => exact hvalue

/-! ### Statements -/

def Progress.reread (p : Progress) : Progress :=
  { p with finished := p.finished.map (Routine.reread g) }

theorem attempt_reread {α β : Type} {x' : Except Fault β} {x : Except Fault α} {h : α → β}
    (p : Progress) (hx : x' = carry id h x) :
    (p.reread g).attempt x' = carry id h (p.attempt x) := by
  subst hx
  cases x <;> rfl

mutual
theorem statement_reread (ctx : Context) (p : Progress) : (s : Stmt Position) →
    statement ctx (p.reread g) (s.reread g) =
      carry id (Prod.map (Progress.reread g) (Stmt.rereadAll (Typed.change g))) (statement ctx p s)
  | .function position header body => by
    rw [Stmt.reread, statement, statement]
    refine bind_carry (attempt_reread g p (carry_id _).symm) fun (level, symbol) _ => ?_
    let s := symbol.signature
    let log := p.log ++ [.registered s.text symbol.mangled]
    let inner : Progress := ⟨⟨⟨symbol.mangled, [], []⟩, [], 0⟩, p.finished, log⟩
    refine bind_carry (attempt_reread g inner (carry_id _).symm) fun bound _ => ?_
    refine bind_carry (block_reread ⟨s, symbol.result, level :: ctx.outer⟩
      { inner with body := bound } body) fun (inner, statements) _ => ?_
    let routine : Routine := ⟨symbol.mangled, s, symbol.result, bound.level.bindings,
      inner.body.locals, statements, inner.body.bytes⟩
    have hroutines : (inner.finished ++ [routine]).map (Routine.reread g) =
        inner.finished.map (Routine.reread g) ++ [routine.reread g] := List.map_append
    let after : Body := { p.body with level := level }
    exact congrArg (fun rs => Except.ok (Progress.mk after rs inner.log, [])) hroutines.symm
  | .declare position header => by
    rw [Stmt.reread, statement, statement]
    exact bind_carry (attempt_reread g p (carry_id _).symm) fun _ _ => rfl
  | .branch position condition thenBody elseBody => by
    rw [Stmt.reread, statement, statement]
    refine bind_carry (attempt_reread g p (value_reread g _ _ condition))
      fun (b, condition, _) _ => ?_
    refine bind_carry (block_reread ctx { p with body := b } thenBody) fun (p, thenBody) _ => ?_
    exact bind_carry (block_reread ctx p elseBody) fun _ _ => rfl
  | .loop position condition body => by
    rw [Stmt.reread, statement, statement]
    refine bind_carry (attempt_reread g p (value_reread g _ _ condition))
      fun (b, condition, _) _ => ?_
    exact bind_carry (block_reread ctx { p with body := b } body) fun _ _ => rfl
  | .give position none => by
    simp only [Stmt.reread, Option.map_none, statement]
    split <;> rfl
  | .give position (some e) => by
    rw [Stmt.reread, Option.map_some, statement, statement]
    refine bind_carry (attempt_reread g p (value_reread g _ _ e)) fun (b, e, type) _ => ?_
    exact bind_carry (attempt_reread g p (carry_id _).symm) fun _ _ => rfl
  | .expr e => by
    rw [Stmt.reread, statement, statement]
    exact bind_carry (attempt_reread g p (alone_reread g _ _ e)) fun _ _ => rfl

theorem block_reread (ctx : Context) (p : Progress) : (ss : List (Stmt Position)) →
    block ctx (p.reread g) (Stmt.rereadAll g ss) =
      carry id (Prod.map (Progress.reread g) (Stmt.rereadAll (Typed.change g))) (block ctx p ss)
  | [] => rfl
  | s :: ss => by
    rw [Stmt.rereadAll, block, block]
    refine bind_carry (statement_reread ctx p s) fun (p, first) _ => ?_
    refine bind_carry (block_reread ctx p ss) fun (p, rest) _ => ?_
    exact congrArg (fun ss => Except.ok (p.reread g, ss)) (Stmt.rereadAll_append _ first rest).symm
end

def Result.reread (r : Result) : Result := { r with routines := r.routines.map (Routine.reread g) }

/-- Whatever is written behind a variable that is read, the outcome is the same. -/
theorem program_reread (entry : String) (p : Program Position) :
    program entry (Stmt.rereadAll g p) =
      carry id (Prod.map (Result.reread g) id) (program entry p) := by
  refine bind_carry (block_reread g ⟨⟨entry, []⟩, none, []⟩ ⟨⟨.global, [], 0⟩, [], []⟩ p)
    fun (last, statements) _ => ?_
  simp only [Prod.map_apply, Progress.reread]
  simp [carry, pure, Except.pure, Result.reread, Routine.reread]

/-- Annotations where variables are declared or assigned to are kept: each names a known type, and
the types of the variable and of the occurrence agree with it. Those where variables are read have
no effect whatever: behind each such variable any type or none may be written, and the program still
resolves to the same result or ends in the same fault. -/
theorem annotations_kept_unless_read (entry : String) (p : Program Position) :
    (∀ r log, program entry p = .ok (r, log) → ∀ F ∈ r.routines, ∀ a ∈ F.annotations,
      a.read = false → a.Kept F.variables) ∧
    ∀ g, program entry (Stmt.rereadAll g p) =
      carry id (Prod.map (Result.reread g) id) (program entry p) :=
  ⟨fun _ _ h => program_annotations h, fun g => program_reread g entry p⟩

/-- An integer is read under an unknown type and as a string. -/
def overlookedSource : List String := ["x <- 1", "if x: point", "end", "x: string + 1"]

theorem overlookedSource_not_kept : ∃ p r, Resolves "main" overlookedSource p r ∧
    ∃ F ∈ r.routines, F.annotations.map (·.written) = [⟨"point", false⟩, ⟨"string", false⟩] ∧
      ∀ a ∈ F.annotations, ¬ a.Kept F.variables := by
  obtain ⟨p, r, h, hd⟩ := resolves_of_any "main" overlookedSource
    (fun (_, r) => ∃ F ∈ r.routines,
      F.annotations.map (·.written) = [⟨"point", false⟩, ⟨"string", false⟩] ∧
      ∀ a ∈ F.annotations, ¬ a.Kept F.variables) (by decide +kernel)
  exact ⟨p, r, h, of_decide_eq_true hd⟩

/-- A declaration, two targets, one of them inside a condition, and two reads. -/
def annotatedSource : List String :=
  ["x: int", "y: bool <- true", "while z: int[] <- [x]", "y: string == false", "end",
    "xs <- [x: point, 2]"]

theorem annotatedSource_kept_unless_read : ∃ p r log, program "main" p = .ok (r, log) ∧
    (r.routines.map fun F => F.annotations.map fun a => (a.name, a.written.name, a.read)) =
      [[("x", "int", false), ("y", "bool", false), ("z", "int", false), ("y", "string", true),
        ("x", "point", true)]] ∧
    (∀ F ∈ r.routines, ∀ a ∈ F.annotations, a.read = false → a.Kept F.variables) ∧
    program "main" (Stmt.rereadAll (fun _ _ => none) p) =
      .ok (Result.reread (fun _ _ => none) r, log) := by
  obtain ⟨p, r, ⟨_, log, -, -, h⟩, hs⟩ := resolves_of_any "main" annotatedSource
    (fun (_, r) =>
      (r.routines.map fun F => F.annotations.map fun a => (a.name, a.written.name, a.read)) =
      [[("x", "int", false), ("y", "bool", false), ("z", "int", false), ("y", "string", true),
        ("x", "point", true)]]) (by decide +kernel)
  obtain ⟨hkept, hreread⟩ := annotations_kept_unless_read "main" p
  refine ⟨p, r, log, h, of_decide_eq_true hs, hkept r log h, ?_⟩
  rw [hreread, h]
  rfl

end Resolution
end
end AlgoFrontEnd
