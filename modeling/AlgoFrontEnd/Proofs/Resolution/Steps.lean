import AlgoFrontEnd.Proofs.Resolution.Sites
import AlgoFrontEnd.Proofs.Scope.Bindings
import AlgoFrontEnd.Proofs.Success
import AlgoFrontEnd.Proofs.Types.Agreement
import Mathlib.Data.List.Forall2

/-! What a step of resolution did when it succeeded. -/
namespace AlgoFrontEnd.Resolution

@[simp] theorem mismatch_ne_ok {α : Type} {what : Mismatch} {position : Position} {a : α} :
    mismatch what position ≠ .ok a := by
  simp [mismatch]

theorem attempt_eq_ok {α : Type} {p : Progress} {x : Except Fault α} {a : α} :
    p.attempt x = .ok a ↔ x = .ok a := by
  cases x <;> simp [Progress.attempt]

theorem attempt_eq_error {α : Type} {p : Progress} {x : Except Fault α} {stop : Stop}
    (h : p.attempt x = .error stop) : x = .error stop.fault := by
  cases x with
  | ok a => cases h
  | error f =>
    cases h
    rfl

/-! ### Variables -/

@[simp] theorem bare_declare (l : Level) (name : String) (type : Ty) :
    (l.declare name type).bare = l.bare := rfl

@[simp] theorem bare_bare (l : Level) : l.bare.bare = l.bare := rfl

theorem refType_ok {a : TypeRef} {position : Position} {type : Ty}
    (h : refType a position = .ok type) : a.type? = some type := by
  unfold refType at h
  split at h
  · cases h
    assumption
  · exact absurd h fault_ne_ok

theorem variableType_ok {scope : Scope} {name : String} {position : Position} {type : Ty}
    (h : variableType scope name position = .ok type) : scope.binding? name = some type := by
  unfold variableType at h
  split at h
  · cases h
    assumption
  · exact absurd h fault_ne_ok

theorem arrayType_ok {scope : Scope} {name : String} {position : Position} {type : Ty}
    (h : arrayType scope name position = .ok type) :
    scope.binding? name = some type ∧ type.isArray = true := by
  simp only [arrayType, bind_eq_ok] at h
  obtain ⟨t, ht, h⟩ := h
  split at h
  · cases h
    exact ⟨variableType_ok ht, ‹_›⟩
  · exact absurd h mismatch_ne_ok

/-- A name is bound once in a body. After that its type is checked. -/
theorem bind_ok {b b' : Body} {name : String} {type bound : Ty} {position : Position}
    (h : b.bind name type position = .ok (b', bound)) :
    b.level.binding? name = none ∧ bound = type ∧ b' = b.declare name type ∨
      b.level.binding? name = some bound ∧ bound.agrees type = true ∧ b' = b := by
  unfold Body.bind at h
  split at h
  · cases h
    exact .inl ⟨‹_›, rfl, rfl⟩
  · split at h
    · cases h
      exact .inr ⟨‹_›, ‹_›, rfl⟩
    · exact absurd h mismatch_ne_ok

/-- Afterwards the name has the type that it was first bound to, and the new type agrees. -/
theorem bind_binding? {b b' : Body} {name : String} {type bound : Ty} {position : Position}
    (h : b.bind name type position = .ok (b', bound)) :
    b'.level.binding? name = some bound ∧ bound.agrees type = true := by
  rcases bind_ok h with ⟨hn, rfl, rfl⟩ | ⟨hs, ha, rfl⟩
  · exact ⟨Level.binding?_declare hn bound, bound.agrees_refl⟩
  · exact ⟨hs, ha⟩

theorem bind_bare {b b' : Body} {name : String} {type bound : Ty} {position : Position}
    (h : b.bind name type position = .ok (b', bound)) : b'.level.bare = b.level.bare := by
  rcases bind_ok h with ⟨-, -, rfl⟩ | ⟨-, -, rfl⟩ <;> rfl

/-- A target takes the type of the value, or one written behind it that agrees with the value. -/
theorem targetType_ok {name : String} {written : Option TypeRef} {actual type : Ty}
    {position : Position} (h : targetType name written actual position = .ok type) :
    written = none ∧ type = actual ∨
      ∃ ref, written = some ref ∧ ref.type? = some type ∧ type.agrees actual = true := by
  cases written with
  | none =>
    cases h
    exact .inl ⟨rfl, rfl⟩
  | some ref =>
    simp only [targetType, bind_eq_ok] at h
    obtain ⟨declared, hd, h⟩ := h
    split at h
    · cases h
      exact .inr ⟨ref, rfl, refType_ok hd, ‹_›⟩
    · exact absurd h mismatch_ne_ok

section
variable {outer : Scope} {b b' : Body} {at' position : Position} {actual type : Ty}
  {place' : Place Typed} {name : String} {written : Option TypeRef} {offset : Int}

theorem writePlace_whole
    (h : writePlace outer b at' actual (.whole position name written) = .ok (b', place')) :
    ∃ type bound, targetType name written actual position = .ok type ∧
      b.bind name type position = .ok (b', bound) ∧
      place' = .whole ⟨position, some bound⟩ name written := by
  simp only [writePlace, bind_eq_ok, pure_eq_ok, Prod.mk.injEq] at h
  obtain ⟨type, ht, ⟨b₁, bound⟩, hb, rfl, rfl⟩ := h
  exact ⟨type, bound, ht, hb, rfl⟩

/-- An element gets the element type of its array, or the type of the value if that is open. -/
theorem writePlace_element
    (h : writePlace outer b at' actual (.element position name offset) = .ok (b', place')) :
    ∃ held, Scope.binding? (b.level :: outer) name = some held ∧ held.isArray = true ∧
      actual.agrees (held.element?.getD actual) = true ∧ b' = b ∧
      place' = .element ⟨position, some (held.element?.getD actual)⟩ name offset := by
  simp only [writePlace, bind_eq_ok] at h
  obtain ⟨held, ha, h⟩ := h
  obtain ⟨hs, hi⟩ := arrayType_ok ha
  refine ⟨held, hs, hi, ?_⟩
  split at h
  · rename_i element he
    rw [he, Option.getD_some]
    split at h
    · cases h
      exact ⟨‹_›, rfl, rfl⟩
    · exact absurd h mismatch_ne_ok
  · rename_i he
    cases h
    rw [he, Option.getD_none]
    exact ⟨actual.agrees_refl, rfl, rfl⟩

theorem readPlace_whole {scope : Scope}
    (h : readPlace scope (.whole position name written) = .ok (place', type)) :
    scope.binding? name = some type ∧ place' = .whole ⟨position, some type⟩ name written := by
  simp only [readPlace, bind_eq_ok, pure_eq_ok, Prod.mk.injEq] at h
  obtain ⟨t, ht, rfl, rfl⟩ := h
  exact ⟨variableType_ok ht, rfl⟩

theorem readPlace_element {scope : Scope}
    (h : readPlace scope (.element position name offset) = .ok (place', type)) :
    ∃ held, scope.binding? name = some held ∧ held.isArray = true ∧
      held.element? = some type ∧ place' = .element ⟨position, some type⟩ name offset := by
  simp only [readPlace, bind_eq_ok] at h
  obtain ⟨held, ha, h⟩ := h
  obtain ⟨hs, hi⟩ := arrayType_ok ha
  split at h
  · cases h
    exact ⟨held, hs, hi, ‹_›, rfl⟩
  · exact absurd h mismatch_ne_ok

end

theorem writePlace_bare {outer : Scope} {b b' : Body} {position : Position} {actual : Ty}
    {place : Place Position} {place' : Place Typed}
    (h : writePlace outer b position actual place = .ok (b', place')) :
    b'.level.bare = b.level.bare := by
  cases place with
  | whole p name written =>
    obtain ⟨type, bound, -, hb, -⟩ := writePlace_whole h
    exact bind_bare hb
  | element p array offset =>
    obtain ⟨-, -, -, -, rfl, -⟩ := writePlace_element h
    rfl

theorem readPlace_note {scope : Scope} {place : Place Position} {place' : Place Typed} {type : Ty}
    (h : readPlace scope place = .ok (place', type)) : place'.note.type = some type := by
  cases place with
  | whole p name written =>
    obtain ⟨-, rfl⟩ := readPlace_whole h
    rfl
  | element p array offset =>
    obtain ⟨-, -, -, -, rfl⟩ := readPlace_element h
    rfl

/-! ### Expressions -/

section
variable {outer : Scope} {b b' : Body} {position : Position} {type : Ty} {e' : Expr Typed}

theorem value_array {elements : List (Expr Position)}
    (h : value outer b (.array position elements) = .ok (b', e', type)) :
    ∃ elements' types, values outer b elements = .ok (b', elements', types) ∧
      type = .arrayWith (commonType? types) ∧ e' = .array ⟨position, some type⟩ elements' := by
  simp only [value, bind_eq_ok, pure_eq_ok, Prod.mk.injEq] at h
  obtain ⟨⟨b₁, es, types⟩, hv, rfl, rfl, rfl⟩ := h
  exact ⟨es, types, hv, rfl, rfl⟩

theorem value_place {place : Place Position}
    (h : value outer b (.place place) = .ok (b', e', type)) :
    ∃ place', readPlace (b.level :: outer) place = .ok (place', type) ∧ b' = b ∧
      e' = .place place' := by
  simp only [value, bind_eq_ok, pure_eq_ok, Prod.mk.injEq] at h
  obtain ⟨⟨p, t⟩, hp, rfl, rfl, rfl⟩ := h
  exact ⟨p, hp, rfl, rfl⟩

theorem value_call {function : String} {arguments : List (Expr Position)}
    (h : value outer b (.call position function arguments) = .ok (b', e', type)) :
    ∃ arguments' types symbol, values outer b arguments = .ok (b', arguments', types) ∧
      callee (b'.level :: outer) function ((arguments.map (·.note)).zip types) position =
        .ok symbol ∧
      symbol.result = some type ∧
      e' = .call ⟨position, some type⟩ symbol.mangled arguments' := by
  simp only [value, bind_eq_ok] at h
  obtain ⟨⟨b₁, es, types⟩, hv, symbol, hc, h⟩ := h
  split at h
  · cases h
    exact ⟨es, types, symbol, hv, hc, ‹_›, rfl⟩
  · exact absurd h fault_ne_ok

theorem value_binary {op : BinaryOp} {left right : Expr Position}
    (h : value outer b (.binary position op left right) = .ok (b', e', type)) :
    ∃ b₁ left' leftType right' rightType,
      value outer b left = .ok (b₁, left', leftType) ∧
      value outer b₁ right = .ok (b', right', rightType) ∧
      binaryType op leftType rightType position = .ok type ∧
      e' = .binary ⟨position, some type⟩ op left' right' := by
  simp only [value, bind_eq_ok, pure_eq_ok, Prod.mk.injEq] at h
  obtain ⟨⟨b₁, l, lt⟩, hl, ⟨b₂, r, rt⟩, hr, t, ht, rfl, rfl, rfl⟩ := h
  exact ⟨b₁, l, lt, r, rt, hl, hr, ht, rfl⟩

theorem value_sign {s : Sign} {operand : Expr Position}
    (h : value outer b (.sign position s operand) = .ok (b', e', type)) :
    ∃ operand', value outer b operand = .ok (b', operand', type) ∧ type.isNumeric = true ∧
      e' = .sign ⟨position, some type⟩ s operand' := by
  simp only [value, bind_eq_ok] at h
  obtain ⟨⟨b₁, o, t⟩, ho, h⟩ := h
  split at h
  · cases h
    exact ⟨o, ho, ‹_›, rfl⟩
  · exact absurd h mismatch_ne_ok

theorem value_assign {target : Place Position} {source : Expr Position}
    (h : value outer b (.assign position target source) = .ok (b', e', type)) :
    ∃ b₁ source' target', value outer b source = .ok (b₁, source', type) ∧
      writePlace outer b₁ source.note type target = .ok (b', target') ∧
      e' = .assign ⟨position, some type⟩ target' source' := by
  simp only [value, bind_eq_ok, pure_eq_ok, Prod.mk.injEq] at h
  obtain ⟨⟨b₁, s, t⟩, hs, ⟨b₂, p⟩, hp, rfl, rfl, rfl⟩ := h
  exact ⟨b₁, s, p, hs, hp, rfl⟩

theorem values_cons {e : Expr Position} {es : List (Expr Position)} {es' : List (Expr Typed)}
    {types : List Ty} (h : values outer b (e :: es) = .ok (b', es', types)) :
    ∃ b₁ first type rest more, value outer b e = .ok (b₁, first, type) ∧
      values outer b₁ es = .ok (b', rest, more) ∧ es' = first :: rest ∧ types = type :: more := by
  simp only [values, bind_eq_ok, pure_eq_ok, Prod.mk.injEq] at h
  obtain ⟨⟨b₁, f, t⟩, hf, ⟨b₂, r, ts⟩, hr, rfl, rfl, rfl⟩ := h
  exact ⟨b₁, f, t, r, ts, hf, hr, rfl, rfl⟩

/-- A line of its own declares a variable, calls a function or has a value that is not used. -/
theorem alone_cases {e : Expr Position} (h : alone outer b e = .ok (b', e')) :
    (∃ position name written type bound, e = .place (.whole position name (some written)) ∧
        written.type? = some type ∧ b.bind name type position = .ok (b', bound) ∧
        e' = .place (.whole ⟨position, some type⟩ name (some written))) ∨
    (∃ position function arguments arguments' types symbol, e = .call position function arguments ∧
        values outer b arguments = .ok (b', arguments', types) ∧
        callee (b'.level :: outer) function ((arguments.map (·.note)).zip types) position =
          .ok symbol ∧
        e' = .call ⟨position, symbol.result⟩ symbol.mangled arguments') ∨
    ∃ type, value outer b e = .ok (b', e', type) ∧
      ∀ position name written, e ≠ .place (.whole position name (some written)) := by
  unfold alone at h
  split at h
  · simp only [bind_eq_ok, pure_eq_ok, Prod.mk.injEq] at h
    obtain ⟨type, ht, ⟨b₁, bound⟩, hb, rfl, rfl⟩ := h
    exact .inl ⟨_, _, _, type, bound, rfl, refType_ok ht, hb, rfl⟩
  · simp only [bind_eq_ok, pure_eq_ok, Prod.mk.injEq] at h
    obtain ⟨⟨b₁, es, types⟩, hv, symbol, hc, rfl, rfl⟩ := h
    exact .inr (.inl ⟨_, _, _, es, types, symbol, rfl, hv, hc, rfl⟩)
  · simp only [bind_eq_ok, pure_eq_ok, Prod.mk.injEq] at h
    obtain ⟨⟨b₁, v, t⟩, hv, rfl, rfl⟩ := h
    exact .inr (.inr ⟨t, hv, by assumption⟩)

end

/-! ### Calls -/

theorem checkArguments_ok {signature : Signature} {arguments : List (Position × Ty)}
    {parameters : List Ty} (h : checkArguments signature arguments parameters = .ok ())
    (hl : arguments.length = parameters.length) :
    List.Forall₂ (fun actual expected => actual.agrees expected = true) (arguments.map (·.2))
      parameters := by
  induction arguments generalizing parameters with
  | nil =>
    rw [List.length_eq_zero_iff.mp hl.symm]
    exact .nil
  | cons a arguments ih =>
    obtain ⟨position, actual⟩ := a
    cases parameters with
    | nil => simp at hl
    | cons expected parameters =>
      rw [checkArguments] at h
      split at h
      · exact .cons ‹_› (ih h (by simpa using hl))
      · exact absurd h mismatch_ne_ok

theorem same_of_scope_function? {scope : Scope} {s : Signature} {symbol : Symbol}
    (h : scope.function? s = some symbol) : symbol.signature.same s = true := by
  obtain ⟨l, -, hl⟩ := List.exists_of_findSome?_eq_some h
  exact (Level.mem_of_function? hl).2

/-- A call selects the nearest function of its name and the outlines of its arguments, and each
argument agrees with its parameter. -/
theorem callee_ok {scope : Scope} {function : String} {positions : List Position} {types : List Ty}
    {position : Position} {symbol : Symbol} (hl : types.length = positions.length)
    (h : callee scope function (positions.zip types) position = .ok symbol) :
    scope.function? ⟨function, types⟩ = some symbol ∧
      List.Forall₂ (fun actual expected => actual.agrees expected = true) types
        symbol.signature.parameters := by
  have ht : (positions.zip types).map (·.2) = types := List.map_snd_zip (by omega)
  simp only [callee, ht] at h
  split at h
  · exact absurd h fault_ne_ok
  · rename_i known hf
    simp only [bind_eq_ok, pure_eq_ok] at h
    obtain ⟨⟨⟩, hc, rfl⟩ := h
    have hs := congrArg List.length (same_iff.mp (same_of_scope_function? hf)).2
    simp only [List.length_map] at hs
    refine ⟨hf, ?_⟩
    have := checkArguments_ok hc (by simp [hl, hs])
    rwa [ht] at this

/-! ### Functions and headers -/

theorem enter_eq {l : Level} {implemented : Bool} {position : Position} {h : Header Position}
    {s : Signature} {result : Option Ty} (hh : headerTypes position h = .ok (s, result)) :
    l.enter implemented position h =
      l.register ⟨s, result, implemented, l.mangle s, some position⟩ := by
  simp [Level.enter, hh]

theorem inside_eq {l : Level} {position : Position} {h : Header Position} {s : Signature}
    {result : Option Ty} (hh : headerTypes position h = .ok (s, result)) :
    l.inside position h = ⟨l.mangle s, [], []⟩ := by
  simp [Level.inside, hh]

theorem headerTypes_ok {position : Position} {h : Header Position} {s : Signature}
    {result : Option Ty} (hh : headerTypes position h = .ok (s, result)) :
    s.name = h.name ∧ parameterTypes h.parameters = .ok s.parameters := by
  simp only [headerTypes, bind_eq_ok] at hh
  obtain ⟨types, ht, hh⟩ := hh
  split at hh
  · simp only [bind_eq_ok, pure_eq_ok, Prod.mk.injEq] at hh
    obtain ⟨-, -, -, -, rfl, -⟩ := hh
    exact ⟨rfl, ht⟩
  · cases hh
    exact ⟨rfl, ht⟩

theorem bindParameters_bare {s : Signature} {b bound : Body} {ps : List (Parameter Position)}
    {types : List Ty} (h : bindParameters s b ps types = .ok bound) :
    bound.level.bare = b.level.bare := by
  induction ps generalizing b types with
  | nil =>
    cases h
    rfl
  | cons p ps ih =>
    cases types with
    | nil =>
      cases h
      rfl
    | cons type types =>
      simp only [bindParameters] at h
      split at h
      · exact absurd h fault_ne_ok
      · have := ih h
        exact this

/-- Parameters become bindings of a body, in their order and under different names. -/
theorem bindParameters_ok {s : Signature} {b bound : Body} {ps : List (Parameter Position)}
    {types : List Ty} (hl : types.length = ps.length)
    (h : bindParameters s b ps types = .ok bound) :
    ∃ new : List Binding, new.map (·.name) = ps.map (·.name) ∧ new.map (·.type) = types ∧
      bound.level.bindings = b.level.bindings ++ new ∧ bound.locals = b.locals ∧
      bound.bytes = b.bytes + Binding.total new ∧
      ((b.level.bindings.map (·.name)).Nodup → (bound.level.bindings.map (·.name)).Nodup) := by
  induction ps generalizing b types with
  | nil =>
    cases h
    exact ⟨[], rfl, (List.length_eq_zero_iff.mp hl).symm, (List.append_nil _).symm, rfl, rfl, id⟩
  | cons p ps ih =>
    obtain ⟨type, types, rfl⟩ := List.exists_cons_of_length_eq_add_one hl
    simp only [bindParameters] at h
    split at h
    · exact absurd h fault_ne_ok
    · rename_i hn
      have hn := Option.not_isSome_iff_eq_none.mp hn
      obtain ⟨new, hnames, htypes, hb, hlocals, hbytes, hd⟩ := ih (Nat.succ.inj hl) h
      rw [Level.declare_of_binding?_none hn] at hb
      exact ⟨⟨p.name, type⟩ :: new, by simp [hnames], by simp [htypes], by simp [hb], hlocals,
        by simp [hbytes, Binding.total, Nat.add_assoc],
        fun hnodup => hd (Level.nodup_declare hnodup hn type)⟩

theorem bindParameters_types {s : Signature} {b bound : Body} {ps : List (Parameter Position)}
    {types : List Ty} (hl : types.length = ps.length)
    (h : bindParameters s b ps types = .ok bound) :
    bound.level.bindings.map (·.type) = b.level.bindings.map (·.type) ++ types := by
  obtain ⟨new, -, ht, hb, -⟩ := bindParameters_ok hl h
  rw [hb, List.map_append, ht]

theorem parameterTypes_length {ps : List (Parameter Position)} {types : List Ty}
    (h : parameterTypes ps = .ok types) : types.length = ps.length := by
  induction ps generalizing types with
  | nil =>
    cases h
    rfl
  | cons p ps ih =>
    simp only [parameterTypes, bind_eq_ok, pure_eq_ok] at h
    obtain ⟨type, -, rest, hr, rfl⟩ := h
    exact congrArg (· + 1) (ih hr)

/-- A known signature is open for a definition only as a header with the same result. -/
theorem checkDefinition_ok {l : Level} {s : Signature} {result : Option Ty} {position : Position}
    (h : checkDefinition l s result position = .ok ()) {known : Symbol}
    (hk : l.function? s = some known) :
    known.implemented = false ∧ sameResult known.result result = true := by
  simp only [checkDefinition, hk] at h
  split at h
  · exact absurd h fault_ne_ok
  · split at h
    · exact ⟨Bool.eq_false_iff.mpr ‹_›, ‹_›⟩
    · exact absurd h fault_ne_ok

/-- A value is returned only from a function with a result of its type. -/
theorem checkReturn_ok {ctx : Context} {position : Position} {actual : Ty}
    (h : checkReturn ctx position actual = .ok ()) :
    ∃ expected, ctx.result = some expected ∧ actual.agrees expected = true := by
  unfold checkReturn at h
  split at h
  · exact absurd h mismatch_ne_ok
  · split at h
    · exact ⟨_, ‹_›, ‹_›⟩
    · exact absurd h mismatch_ne_ok

section
variable {ctx : Context} {p p' : Progress} {out : List (Stmt Typed)} {position : Position}

/-- A function is registered, its body resolved in a level of its own, and the function finished
after those inside it. -/
theorem statement_function {header : Header Position} {body : List (Stmt Position)}
    (h : statement ctx p (.function position header body) = .ok (p', out)) :
    ∃ s result bound log last statements,
      headerTypes position header = .ok (s, result) ∧
      checkDefinition p.body.level s result position = .ok () ∧
      bindParameters s ⟨p.body.level.inside position header, [], 0⟩ header.parameters
        s.parameters = .ok bound ∧
      block ⟨s, result, p.body.level.enter true position header :: ctx.outer⟩
        ⟨bound, p.finished, log⟩ body = .ok (last, statements) ∧
      p'.body.level = p.body.level.enter true position header ∧
      p'.finished = last.finished ++ [⟨p.body.level.mangle s, s, result, bound.level.bindings,
        last.body.locals, statements, last.body.bytes⟩] ∧
      p'.body.locals = p.body.locals ∧ p'.body.bytes = p.body.bytes ∧ out = [] := by
  simp only [statement, bind_eq_ok, attempt_eq_ok, enterFunction, pure_eq_ok, Prod.mk.injEq] at h
  obtain ⟨⟨level, symbol⟩, ⟨⟨s, result⟩, hs, ⟨⟩, hc, rfl, rfl⟩, bound, hb, ⟨last, ss⟩, hbody, rfl,
    rfl⟩ := h
  rw [enter_eq hs, inside_eq hs]
  exact ⟨s, result, bound, _, last, ss, hs, hc, hb, hbody, rfl, rfl, rfl, rfl, rfl⟩

/-- A header adds an open symbol of a new signature, outside of all functions. -/
theorem statement_declare {header : Header Position}
    (h : statement ctx p (.declare position header) = .ok (p', out)) :
    ∃ s result, headerTypes position header = .ok (s, result) ∧ ctx.outer = [] ∧
      p.body.level.function? s = none ∧
      p'.body.level = p.body.level.enter false position header ∧ p'.finished = p.finished ∧
      p'.body.locals = p.body.locals ∧ p'.body.bytes = p.body.bytes ∧ out = [] := by
  simp only [statement, bind_eq_ok, attempt_eq_ok, declareHeader, pure_eq_ok, Prod.mk.injEq] at h
  obtain ⟨⟨level, s⟩, h, rfl, rfl⟩ := h
  split at h
  · simp only [bind_eq_ok] at h
    obtain ⟨⟨s₁, result⟩, hs, h⟩ := h
    split at h
    · exact absurd h fault_ne_ok
    · cases h
      exact ⟨_, result, hs, List.isEmpty_iff.mp ‹_›, ‹_›, (enter_eq hs).symm, rfl, rfl, rfl,
        rfl⟩
  · simp only [bind_eq_ok] at h
    obtain ⟨⟨⟩, h, -⟩ := h
    exact absurd h fault_ne_ok

theorem statement_branch {condition : Expr Position} {thenBody elseBody : List (Stmt Position)}
    (h : statement ctx p (.branch position condition thenBody elseBody) = .ok (p', out)) :
    ∃ b condition' type p₁ thenBody' elseBody',
      value ctx.outer p.body condition = .ok (b, condition', type) ∧
      block ctx { p with body := b } thenBody = .ok (p₁, thenBody') ∧
      block ctx p₁ elseBody = .ok (p', elseBody') ∧
      out = [.branch ⟨position, none⟩ condition' thenBody' elseBody'] := by
  simp only [statement, bind_eq_ok, attempt_eq_ok, pure_eq_ok, Prod.mk.injEq] at h
  obtain ⟨⟨b, c, t⟩, hv, ⟨p₁, ts⟩, ht, ⟨p₂, es⟩, he, rfl, rfl⟩ := h
  exact ⟨b, c, t, p₁, ts, es, hv, ht, he, rfl⟩

theorem statement_loop {condition : Expr Position} {body : List (Stmt Position)}
    (h : statement ctx p (.loop position condition body) = .ok (p', out)) :
    ∃ b condition' type body', value ctx.outer p.body condition = .ok (b, condition', type) ∧
      block ctx { p with body := b } body = .ok (p', body') ∧
      out = [.loop ⟨position, none⟩ condition' body'] := by
  simp only [statement, bind_eq_ok, attempt_eq_ok, pure_eq_ok, Prod.mk.injEq] at h
  obtain ⟨⟨b, c, t⟩, hv, ⟨p₁, ss⟩, hb, rfl, rfl⟩ := h
  exact ⟨b, c, t, ss, hv, hb, rfl⟩

theorem statement_give {e : Option (Expr Position)}
    (h : statement ctx p (.give position e) = .ok (p', out)) :
    (e = none ∧ ctx.result = none ∧ p' = p ∧ out = [.give ⟨position, none⟩ none]) ∨
    ∃ e₁ b e' type expected, e = some e₁ ∧ value ctx.outer p.body e₁ = .ok (b, e', type) ∧
      ctx.result = some expected ∧ type.agrees expected = true ∧ p' = { p with body := b } ∧
      out = [.give ⟨position, none⟩ (some e')] := by
  cases e with
  | none =>
    simp only [statement] at h
    split at h
    · cases h
      exact .inl ⟨rfl, ‹_›, rfl, rfl⟩
    · exact absurd (attempt_eq_ok.mp h) mismatch_ne_ok
  | some e =>
    simp only [statement, bind_eq_ok, attempt_eq_ok, pure_eq_ok, Prod.mk.injEq] at h
    obtain ⟨⟨b, e', t⟩, hv, ⟨⟩, hc, rfl, rfl⟩ := h
    obtain ⟨expected, hx, ha⟩ := checkReturn_ok hc
    exact .inr ⟨e, b, e', t, expected, rfl, hv, hx, ha, rfl, rfl⟩

theorem statement_expr {e : Expr Position} (h : statement ctx p (.expr e) = .ok (p', out)) :
    ∃ b e', alone ctx.outer p.body e = .ok (b, e') ∧ p' = { p with body := b } ∧
      out = [.expr e'] := by
  simp only [statement, bind_eq_ok, attempt_eq_ok, pure_eq_ok, Prod.mk.injEq] at h
  obtain ⟨⟨b, e'⟩, ha, rfl, rfl⟩ := h
  exact ⟨b, e', ha, rfl, rfl⟩

theorem block_cons {s : Stmt Position} {ss : List (Stmt Position)}
    (h : block ctx p (s :: ss) = .ok (p', out)) :
    ∃ p₁ first rest, statement ctx p s = .ok (p₁, first) ∧ block ctx p₁ ss = .ok (p', rest) ∧
      out = first ++ rest := by
  simp only [block, bind_eq_ok, pure_eq_ok, Prod.mk.injEq] at h
  obtain ⟨⟨p₁, f⟩, hf, ⟨p₂, r⟩, hr, rfl, rfl⟩ := h
  exact ⟨p₁, f, r, hf, hr, rfl⟩

end

theorem program_ok {entry : String} {p : Program Position} {r : Result} {log : List Event}
    (h : program entry p = .ok (r, log)) :
    ∃ last statements,
      block ⟨⟨entry, []⟩, none, []⟩ ⟨⟨.global, [], 0⟩, [], []⟩ p = .ok (last, statements) ∧
      r.externals = last.body.level.unimplemented ∧
      r.routines = last.finished ++ [⟨entry, ⟨entry, []⟩, none, [], last.body.locals, statements,
        last.body.bytes⟩] := by
  simp only [program, bind_eq_ok, pure_eq_ok, Prod.mk.injEq] at h
  obtain ⟨⟨last, ss⟩, hb, rfl, -⟩ := h
  exact ⟨last, ss, hb, rfl, rfl⟩

end AlgoFrontEnd.Resolution
