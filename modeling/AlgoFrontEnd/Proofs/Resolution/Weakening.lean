import AlgoFrontEnd.Proofs.Resolution.Definitions
import AlgoFrontEnd.Proofs.Resolution.Relocation

/-! Resolution at other positions and in scopes with more functions. Main statements: expressions
and statements that resolve without a new function resolve alike with it, unless a header at its
level spells its signature. -/
namespace AlgoFrontEnd
open Resolution

section
variable {α : Type}

/-- A header does not spell a signature. -/
def Header.Avoids (h : Header α) (taken : Option Signature) : Prop :=
  ∀ s ∈ h.signature?, ∀ t ∈ taken, s.same t = false

instance (h : Header α) (taken : Option Signature) : Decidable (h.Avoids taken) :=
  inferInstanceAs (Decidable (∀ s ∈ h.signature?, ∀ t ∈ taken, s.same t = false))

mutual
/-- The headers that a statement reads into the level around it. -/
def Stmt.entered : Stmt α → List (Header α)
  | .function _ header _ | .declare _ header => [header]
  | .branch _ _ thenBody elseBody => Stmt.enteredAll thenBody ++ Stmt.enteredAll elseBody
  | .loop _ _ body => Stmt.enteredAll body
  | .give _ _ | .expr _ => []

def Stmt.enteredAll : List (Stmt α) → List (Header α)
  | [] => []
  | s :: ss => s.entered ++ Stmt.enteredAll ss
end

end

namespace Resolution

/-- The body with other functions at its level. -/
def Body.hold (fs : List Symbol) (b : Body) : Body := { b with level := b.level.hold fs }

/-- Two scopes with the same variables, where the second has all functions of the first and maybe
more. -/
structure Widens (f : Position → Position) (scope scope' : Scope) : Prop where
  bindings : scope'.map Level.bindings = scope.map Level.bindings
  functions : ∀ {s symbol}, scope.function? s = some symbol →
    scope'.function? s = some (symbol.move f)

theorem function?_cons (l : Level) (scope : Scope) (s : Signature) :
    Scope.function? (l :: scope) s = (l.function? s).or (scope.function? s) := by
  rw [Scope.function?, List.findSome?_cons]
  cases l.function? s <;> rfl

section
variable {f : Position → Position} {fs : List Symbol} {outer outer' : Scope} {b b₁ : Body}
  {type : Ty} {position : Position}

theorem widens_nil : Widens f [] [] := ⟨rfl, nofun⟩

theorem Widens.binding? {scope scope' : Scope} (h : Widens f scope scope') (name : String) :
    scope'.binding? name = scope.binding? name := by
  have (scope : Scope) : scope.binding? name = (scope.map Level.bindings).findSome?
      fun bs => (bs.find? (·.name = name)).map (·.type) := by
    rw [List.findSome?_map]
    rfl
  rw [this, this, h.bindings]

theorem Widens.isEmpty {scope scope' : Scope} (h : Widens f scope scope') :
    scope'.isEmpty = scope.isEmpty := by
  have := congrArg List.isEmpty h.bindings
  rwa [List.isEmpty_map, List.isEmpty_map] at this

/-- Variables that a body binds come on both sides. -/
theorem Widens.of_bare {l l₁ : Level} (h : Widens f (l :: outer) (l.hold fs :: outer'))
    (hb : l₁.bare = l.bare) : Widens f (l₁ :: outer) (l₁.hold fs :: outer') := by
  have hl := congrArg Level.functions hb
  change l₁.functions = l.functions at hl
  have ho : outer'.map Level.bindings = outer.map Level.bindings := (List.cons.inj h.bindings).2
  refine ⟨congrArg (l₁.bindings :: ·) ho, ?_⟩
  intro s symbol hs
  rw [function?_cons, Level.function?, hl] at hs
  have := h.functions (by rwa [function?_cons, Level.function?])
  rwa [function?_cons] at this ⊢

/-! ### Variables -/

theorem bind_hold {bound : Ty} {name : String} (h : b.bind name type position = .ok (b₁, bound))
    (fs : List Symbol) (at' : Position) :
    (b.hold fs).bind name type at' = .ok (b₁.hold fs, bound) := by
  have hl : (b.hold fs).level.binding? name = b.level.binding? name := rfl
  rcases bind_ok h with ⟨hn, rfl, rfl⟩ | ⟨hs, ha, rfl⟩
  · simp only [Body.bind, hl, hn]
    rfl
  · simp only [Body.bind, hl, hs, ha, if_true]

theorem refType_eq_ok {a : TypeRef} (h : a.type? = some type) (position : Position) :
    refType a position = .ok type := by
  rw [refType, h]

theorem variableType_eq_ok {scope : Scope} {name : String} (h : scope.binding? name = some type)
    (position : Position) : variableType scope name position = .ok type := by
  rw [variableType, h]

theorem arrayType_eq_ok {scope : Scope} {name : String} (h : scope.binding? name = some type)
    (ha : type.isArray = true) (position : Position) :
    arrayType scope name position = .ok type := by
  refine bind_eq_ok.mpr ⟨type, variableType_eq_ok h position, ?_⟩
  rw [if_pos ha]
  rfl

theorem readPlace_move (hs : Widens f (b.level :: outer) ((b.hold fs).level :: outer'))
    {place : Place Position} {place' : Place Typed}
    (h : readPlace (b.level :: outer) place = .ok (place', type)) :
    readPlace ((b.hold fs).level :: outer') (place.map f) =
      .ok (place'.map (Typed.move f), type) := by
  cases place with
  | whole position name written =>
    obtain ⟨hv, rfl⟩ := readPlace_whole h
    rw [← hs.binding?] at hv
    exact bind_eq_ok.mpr ⟨type, variableType_eq_ok hv _, rfl⟩
  | element position name offset =>
    obtain ⟨held, hv, hi, ht, rfl⟩ := readPlace_element h
    rw [← hs.binding?] at hv
    refine bind_eq_ok.mpr ⟨held, arrayType_eq_ok hv hi _, ?_⟩
    rw [ht]
    rfl

theorem targetType_move {name : String} {written : Option TypeRef} {actual : Ty}
    (h : targetType name written actual position = .ok type) (at' : Position) :
    targetType name written actual at' = .ok type :=
  (targetType_carry (fun _ => at') name written actual position).trans
    (carry_eq_ok.mpr ⟨type, h, rfl⟩)

theorem writePlace_move (hs : Widens f (b.level :: outer) ((b.hold fs).level :: outer'))
    {actual : Ty} {place : Place Position} {place' : Place Typed}
    (h : writePlace outer b position actual place = .ok (b₁, place')) (at' : Position) :
    writePlace outer' (b.hold fs) at' actual (place.map f) =
      .ok (b₁.hold fs, place'.map (Typed.move f)) := by
  cases place with
  | whole position name written =>
    obtain ⟨type, bound, ht, hb, rfl⟩ := writePlace_whole h
    exact bind_eq_ok.mpr ⟨type, targetType_move ht _,
      bind_eq_ok.mpr ⟨(b₁.hold fs, bound), bind_hold hb fs _, rfl⟩⟩
  | element position name offset =>
    obtain ⟨held, hv, hi, ha, rfl, rfl⟩ := writePlace_element h
    rw [← hs.binding?] at hv
    refine bind_eq_ok.mpr ⟨held, arrayType_eq_ok hv hi _, ?_⟩
    cases he : held.element? with
    | none => rfl
    | some element =>
      rw [he, Option.getD_some] at ha
      simp only [ha, if_true]
      rfl

/-! ### Expressions -/

theorem checkArguments_eq_ok {types parameters : List Ty}
    (h : List.Forall₂ (fun actual expected => actual.agrees expected = true) types parameters)
    (signature : Signature) (positions : List Position) :
    checkArguments signature (positions.zip types) parameters = .ok () := by
  induction h generalizing positions with
  | nil => cases positions <;> rfl
  | cons ha _ ih =>
    cases positions with
    | nil => rfl
    | cons position positions =>
      rw [List.zip_cons_cons, checkArguments, if_pos ha]
      exact ih positions

theorem callee_move (hs : Widens f (b.level :: outer) ((b.hold fs).level :: outer'))
    {function : String} {positions : List Position} {types : List Ty} {symbol : Symbol}
    (hl : types.length = positions.length)
    (h : callee (b.level :: outer) function (positions.zip types) position = .ok symbol)
    (at' : Position) :
    callee ((b.hold fs).level :: outer') function ((positions.map f).zip types) at' =
      .ok (symbol.move f) := by
  obtain ⟨hf, ha⟩ := callee_ok hl h
  have ht : ((positions.map f).zip types).map (·.2) = types := List.map_snd_zip (by simp [hl])
  have hf' : Scope.function? ((b.hold fs).level :: outer') ⟨function, types⟩ =
    some (symbol.move f) := hs.functions hf
  rw [callee, ht]
  simp only [hf']
  exact bind_eq_ok.mpr ⟨(), checkArguments_eq_ok ha _ _, rfl⟩

theorem binaryType_move {op : BinaryOp} {left right : Ty}
    (h : binaryType op left right position = .ok type) (at' : Position) :
    binaryType op left right at' = .ok type :=
  (binaryType_carry (fun _ => at') op left right position).trans
    (carry_eq_ok.mpr ⟨type, h, rfl⟩)

mutual
/-- A value that is found without the new functions is found with them, and it is the same. -/
theorem value_move {b b₁ : Body} {e' : Expr Typed} {type : Ty}
    (hs : Widens f (b.level :: outer) ((b.hold fs).level :: outer')) :
    (e : Expr Position) → value outer b e = .ok (b₁, e', type) →
    value outer' (b.hold fs) (e.map f) = .ok (b₁.hold fs, e'.map (Typed.move f), type)
  | .int _ _, h | .float _ _, h | .bool _ _, h | .string _ _, h => by
    cases h
    rfl
  | .array _ elements, h => by
    obtain ⟨elements', types, hv, rfl, rfl⟩ := value_array h
    rw [Expr.map, value]
    exact bind_eq_ok.mpr ⟨_, values_move hs elements hv, rfl⟩
  | .place place, h => by
    obtain ⟨place', hp, rfl, rfl⟩ := value_place h
    rw [Expr.map, value]
    exact bind_eq_ok.mpr ⟨_, readPlace_move hs hp, rfl⟩
  | .call _ function arguments, h => by
    obtain ⟨arguments', types, symbol, hv, hc, hr, rfl⟩ := value_call h
    obtain ⟨hb, hl, -, -⟩ := values_selected arguments hv
    have hc := callee_move (hs.of_bare hb) (by simpa using hl) hc
    rw [Expr.map, value]
    refine bind_eq_ok.mpr ⟨_, values_move hs arguments hv, ?_⟩
    refine bind_eq_ok.mpr ⟨symbol.move f, note_mapAll f arguments ▸ hc _, ?_⟩
    simp only [Symbol.move, hr]
    rfl
  | .binary _ op left right, h => by
    obtain ⟨b₁, left', leftType, right', rightType, hl, hr, ht, rfl⟩ := value_binary h
    obtain ⟨hb, -, -⟩ := value_selected left hl
    rw [Expr.map, value]
    refine bind_eq_ok.mpr ⟨_, value_move hs left hl, ?_⟩
    refine bind_eq_ok.mpr ⟨_, value_move (hs.of_bare hb) right hr, ?_⟩
    exact bind_eq_ok.mpr ⟨type, binaryType_move ht _, rfl⟩
  | .sign _ s operand, h => by
    obtain ⟨operand', ho, hn, rfl⟩ := value_sign h
    rw [Expr.map, value]
    refine bind_eq_ok.mpr ⟨_, value_move hs operand ho, ?_⟩
    simp only [hn, if_true]
    rfl
  | .assign _ target source, h => by
    obtain ⟨b₁, source', target', hv, hw, rfl⟩ := value_assign h
    obtain ⟨hb, -, -⟩ := value_selected source hv
    rw [Expr.map, value]
    refine bind_eq_ok.mpr ⟨_, value_move hs source hv, ?_⟩
    exact bind_eq_ok.mpr ⟨_, writePlace_move (hs.of_bare hb) hw _, rfl⟩

theorem values_move {b b₁ : Body} {es' : List (Expr Typed)} {types : List Ty}
    (hs : Widens f (b.level :: outer) ((b.hold fs).level :: outer')) :
    (es : List (Expr Position)) → values outer b es = .ok (b₁, es', types) →
    values outer' (b.hold fs) (Expr.mapAll f es) =
      .ok (b₁.hold fs, Expr.mapAll (Typed.move f) es', types)
  | [], h => by
    cases h
    rfl
  | e :: es, h => by
    obtain ⟨b₁, first, type, rest, more, he, hes, rfl, rfl⟩ := values_cons h
    obtain ⟨hb, -, -⟩ := value_selected e he
    rw [Expr.mapAll, values]
    refine bind_eq_ok.mpr ⟨_, value_move hs e he, ?_⟩
    exact bind_eq_ok.mpr ⟨_, values_move (hs.of_bare hb) es hes, rfl⟩
end

/-- On a line of its own an expression with a value is the same, but for a declaration. -/
theorem alone_of_value {e : Expr Position} {e' : Expr Typed}
    (h : value outer b e = .ok (b₁, e', type))
    (hn : ∀ position name written, e ≠ .place (.whole position name (some written))) :
    alone outer b e = .ok (b₁, e') := by
  unfold alone
  split
  · exact absurd rfl (hn _ _ _)
  · obtain ⟨arguments', types, symbol, hv, hc, hr, rfl⟩ := value_call h
    refine bind_eq_ok.mpr ⟨_, hv, bind_eq_ok.mpr ⟨symbol, hc, ?_⟩⟩
    rw [hr]
    rfl
  · exact bind_eq_ok.mpr ⟨_, h, rfl⟩

theorem alone_move (hs : Widens f (b.level :: outer) ((b.hold fs).level :: outer'))
    {e : Expr Position} {e' : Expr Typed} (h : alone outer b e = .ok (b₁, e')) :
    alone outer' (b.hold fs) (e.map f) = .ok (b₁.hold fs, e'.map (Typed.move f)) := by
  rcases alone_cases h with ⟨position, name, written, type, bound, rfl, ht, hb, rfl⟩ |
    ⟨position, function, arguments, arguments', types, symbol, rfl, hv, hc, rfl⟩ | ⟨type, hv, hn⟩
  · exact bind_eq_ok.mpr ⟨type, refType_eq_ok ht _, bind_eq_ok.mpr ⟨_, bind_hold hb fs _, rfl⟩⟩
  · obtain ⟨hb, hl, -, -⟩ := values_selected arguments hv
    have hc := callee_move (hs.of_bare hb) (by simpa using hl) hc
    refine bind_eq_ok.mpr ⟨_, values_move hs arguments hv, ?_⟩
    exact bind_eq_ok.mpr ⟨symbol.move f, note_mapAll f arguments ▸ hc _, rfl⟩
  · refine alone_of_value (value_move hs e hv) ?_
    intro position name written he
    cases e with
    | place p =>
      cases p with
      | whole n name' written' =>
        cases he
        exact hn _ _ _ rfl
      | element => cases he
    | _ => cases he

end

/-! ### Headers -/

theorem headerTypes_move {f : Position → Position} {position : Position} {h : Header Position}
    {s : Signature} {result : Option Ty} (hh : headerTypes position h = .ok (s, result)) :
    headerTypes (f position) (h.map f) = .ok (s, result) :=
  (headerTypes_carry f position h).trans (carry_eq_ok.mpr ⟨_, hh, rfl⟩)

theorem bindParameters_move {f : Position → Position} {s : Signature} {b bound : Body}
    {ps : List (Parameter Position)} {types : List Ty}
    (h : bindParameters s b ps types = .ok bound) :
    bindParameters s b (ps.map (·.map f)) types = .ok bound := by
  induction ps generalizing b types with
  | nil => exact h
  | cons p ps ih =>
    cases types with
    | nil => exact h
    | cons type types =>
      rw [bindParameters] at h
      rw [List.map_cons, bindParameters]
      split at h
      · exact absurd h fault_ne_ok
      · rename_i hn
        exact (if_neg hn).trans (ih h)

theorem checkDefinition_move {f : Position → Position} {l l' : Level} {s : Signature}
    {result : Option Ty} {position : Position}
    (hl : l'.function? s = (l.function? s).map (Symbol.move f))
    (h : checkDefinition l s result position = .ok ()) (at' : Position) :
    checkDefinition l' s result at' = .ok () := by
  rw [checkDefinition, hl]
  cases hk : l.function? s with
  | none => rfl
  | some known =>
    obtain ⟨hi, hr⟩ := checkDefinition_ok h hk
    simp only [Option.map_some, Symbol.move, hi, hr, if_true]
    rfl

section
variable {f : Position → Position} {fs : List Symbol} {l : Level} {position : Position}
  {header : Header Position} {s : Signature} {result : Option Ty}

theorem enterFunction_move (hh : headerTypes position header = .ok (s, result))
    (hl : (l.hold fs).function? s = (l.function? s).map (Symbol.move f))
    (hd : checkDefinition l s result position = .ok ()) :
    enterFunction (l.hold fs) (f position) (header.map f) =
      .ok ((l.hold fs).register (.move f ⟨s, result, true, l.mangle s, some position⟩),
        .move f ⟨s, result, true, l.mangle s, some position⟩) := by
  refine bind_eq_ok.mpr ⟨_, headerTypes_move hh, ?_⟩
  exact bind_eq_ok.mpr ⟨(), checkDefinition_move hl hd _, rfl⟩

theorem declareHeader_move {ctx : Context} (hc : ctx.outer = [])
    (hh : headerTypes position header = .ok (s, result))
    (hl : (l.hold fs).function? s = none) :
    declareHeader ctx (l.hold fs) (f position) (header.map f) =
      .ok ((l.hold fs).register (.move f ⟨s, result, false, l.mangle s, some position⟩), s) := by
  simp only [declareHeader, hc, List.isEmpty_nil, if_true]
  refine bind_eq_ok.mpr ⟨_, headerTypes_move hh, ?_⟩
  simp only [hl]
  rfl

end

/-! ### Statements -/

section
variable {f : Position → Position}

/-- Functions outside of all others can be added to the level there only. -/
theorem Widens.cons {free : Option Signature} {new fs : List Symbol} {l : Level}
    {outer outer' : Scope} (ho : Widens f outer outer') (h : l.Gains f free new fs)
    (hf : free = none ∨ outer = []) : Widens f (l :: outer) (l.hold fs :: outer') := by
  refine ⟨congrArg (l.bindings :: ·) ho.bindings, ?_⟩
  intro s symbol hs
  rw [function?_cons] at hs ⊢
  rcases Option.or_eq_some_iff.mp hs with hs | ⟨hn, hs⟩
  · rw [h.function?_of_some hs, Option.some_or]
  · rcases hf with rfl | rfl
    · rw [h.function? (h.not_same nofun), hn, Option.map_none, Option.none_or]
      exact ho.functions hs
    · cases hs

/-- A run has come as far as another, at other positions: it knows new functions besides, and it has
finished others. -/
structure Mirrors (f : Position → Position) (free : Option Signature) (new : List Symbol)
    (own : List Routine) (p : Progress) (fs : List Symbol) (done : List Routine) : Prop where
  level : p.body.level.Gains f free new fs
  finished : Widened (Routine.move f) own p.finished done

theorem Mirrors.of_body {free : Option Signature} {new fs : List Symbol} {own done : List Routine}
    {p : Progress} {b : Body} (h : Mirrors f free new own p fs done)
    (hb : b.level.bare = p.body.level.bare) :
    Mirrors f free new own { p with body := b } fs done := by
  have hl := congrArg Level.functions hb
  change b.level.functions = p.body.level.functions at hl
  refine ⟨⟨hl ▸ h.level.functions, ?_, h.level.free⟩, h.finished⟩
  intro s hs
  rw [Level.function?, hl]
  exact h.level.lacks s hs

mutual
/-- A statement that resolves without the new functions resolves alike with them. Inside a function
any header may stand, for none hides them at their own level. -/
theorem statement_mirrors {own done : List Routine} {ctx : Context} {outer' : Scope}
    {free : Option Signature} {new fs : List Symbol} {p p₁ : Progress} {out : List (Stmt Typed)}
    (ho : Widens f ctx.outer outer') (hf : free = none ∨ ctx.outer = [])
    (hm : Mirrors f free new own p fs done) (log : List Event) :
    (s : Stmt Position) → (∀ h ∈ s.entered, h.Avoids free) →
    statement ctx p s = .ok (p₁, out) →
    ∃ fs₁ done₁ log₁, Mirrors f free new own p₁ fs₁ done₁ ∧
      statement { ctx with outer := outer' } ⟨p.body.hold fs, done, log⟩ (s.map f) =
        .ok (⟨p₁.body.hold fs₁, done₁, log₁⟩, Stmt.mapAll (Typed.move f) out)
  | .function position header body, ha, h => by
    obtain ⟨s, result, bound, log', last, statements, hh, hd, hp, hb, hlevel, hfinished, hlocals,
      hbytes, rfl⟩ := statement_function h
    rw [enter_eq hh] at hb hlevel
    have hs := ha header (List.mem_singleton_self _) s (headerTypes_spelled hh).1
    have hl := hm.level.register ⟨s, result, true, p.body.level.mangle s, some position⟩ hs
    have hnone := congrArg Level.functions (bindParameters_bare hp)
    rw [inside_eq hh] at hp hnone
    change bound.level.functions = [] at hnone
    -- inside the function nothing is new, and what is new further out is hidden as before
    have hempty : Mirrors f none [] own ⟨bound, p.finished, log'⟩ bound.level.functions done :=
      ⟨.of_nil hnone, hm.finished⟩
    obtain ⟨fs₁, done₁, log₁, hinner, hbody⟩ :=
      block_mirrors (ho.cons hl hf) (.inl rfl) hempty _ body nofun hb
    obtain ⟨⟨level₁, locals₁, bytes₁⟩, finished₁, log₂⟩ := p₁
    simp only at hlevel hfinished hlocals hbytes
    subst hlevel hfinished hlocals hbytes
    refine ⟨_, _, log₁, ⟨hl, hinner.finished.append [_]⟩, ?_⟩
    rw [Stmt.map, statement]
    have henter := enterFunction_move hh (hm.level.function? (hm.level.not_same hs)) hd
    refine bind_eq_ok.mpr ⟨_, attempt_eq_ok.mpr henter, ?_⟩
    refine bind_eq_ok.mpr ⟨bound, attempt_eq_ok.mpr (bindParameters_move hp), ?_⟩
    exact bind_eq_ok.mpr ⟨_, hbody, rfl⟩
  | .declare position header, ha, h => by
    obtain ⟨s, result, hh, hempty, hn, hlevel, hfinished, hlocals, hbytes, rfl⟩ :=
      statement_declare h
    rw [enter_eq hh] at hlevel
    have hs := ha header (List.mem_singleton_self _) s (headerTypes_spelled hh).1
    have hl := hm.level.register ⟨s, result, false, p.body.level.mangle s, some position⟩ hs
    obtain ⟨⟨level₁, locals₁, bytes₁⟩, finished₁, log₁⟩ := p₁
    simp only at hlevel hfinished hlocals hbytes
    subst hlevel hfinished hlocals hbytes
    refine ⟨_, done, log ++ [.declared s.text], ⟨hl, hm.finished⟩, ?_⟩
    rw [Stmt.map, statement]
    have houter : outer' = [] := by
      have := ho.isEmpty
      rwa [hempty, List.isEmpty_nil, List.isEmpty_iff] at this
    have hfree := hm.level.function? (hm.level.not_same hs)
    rw [hn, Option.map_none] at hfree
    exact bind_eq_ok.mpr ⟨_, attempt_eq_ok.mpr (declareHeader_move houter hh hfree), rfl⟩
  | .branch position condition thenBody elseBody, ha, h => by
    obtain ⟨b, condition', type, p₁, thenBody', elseBody', hc, ht, he, rfl⟩ := statement_branch h
    obtain ⟨hthen, helse⟩ := List.forall_mem_append.mp ha
    have hm₁ := hm.of_body (value_selected condition hc).1
    obtain ⟨fs₂, done₂, log₂, hm₂, ht⟩ := block_mirrors ho hf hm₁ log thenBody hthen ht
    obtain ⟨fs₃, done₃, log₃, hm₃, he⟩ := block_mirrors ho hf hm₂ log₂ elseBody helse he
    refine ⟨fs₃, done₃, log₃, hm₃, ?_⟩
    rw [Stmt.map, statement]
    refine bind_eq_ok.mpr ⟨_, attempt_eq_ok.mpr (value_move (ho.cons hm.level hf) condition hc), ?_⟩
    exact bind_eq_ok.mpr ⟨_, ht, bind_eq_ok.mpr ⟨_, he, rfl⟩⟩
  | .loop position condition body, ha, h => by
    obtain ⟨b, condition', type, body', hc, hb, rfl⟩ := statement_loop h
    have hm₁ := hm.of_body (value_selected condition hc).1
    obtain ⟨fs₂, done₂, log₂, hm₂, hb⟩ := block_mirrors ho hf hm₁ log body ha hb
    refine ⟨fs₂, done₂, log₂, hm₂, ?_⟩
    rw [Stmt.map, statement]
    refine bind_eq_ok.mpr ⟨_, attempt_eq_ok.mpr (value_move (ho.cons hm.level hf) condition hc), ?_⟩
    exact bind_eq_ok.mpr ⟨_, hb, rfl⟩
  | .give position e, _, h => by
    rcases statement_give h with ⟨rfl, hr, rfl, rfl⟩ |
      ⟨e₁, b, e', type, expected, rfl, hv, hr, ha, rfl, rfl⟩
    · refine ⟨fs, done, log, hm, ?_⟩
      simp only [Stmt.map, Option.map_none, statement, hr]
      rfl
    · refine ⟨fs, done, log, hm.of_body (value_selected e₁ hv).1, ?_⟩
      rw [Stmt.map, Option.map_some, statement]
      refine bind_eq_ok.mpr ⟨_, attempt_eq_ok.mpr (value_move (ho.cons hm.level hf) e₁ hv), ?_⟩
      refine bind_eq_ok.mpr ⟨(), attempt_eq_ok.mpr ?_, rfl⟩
      simp only [checkReturn, hr, ha, if_true]
  | .expr e, _, h => by
    obtain ⟨b, e', ha, rfl, rfl⟩ := statement_expr h
    refine ⟨fs, done, log, hm.of_body (alone_selected ha).1, ?_⟩
    rw [Stmt.map, statement]
    exact bind_eq_ok.mpr ⟨_, attempt_eq_ok.mpr (alone_move (ho.cons hm.level hf) ha), rfl⟩

theorem block_mirrors {own done : List Routine} {ctx : Context} {outer' : Scope}
    {free : Option Signature} {new fs : List Symbol} {p p₁ : Progress} {out : List (Stmt Typed)}
    (ho : Widens f ctx.outer outer') (hf : free = none ∨ ctx.outer = [])
    (hm : Mirrors f free new own p fs done) (log : List Event) :
    (ss : List (Stmt Position)) → (∀ h ∈ Stmt.enteredAll ss, h.Avoids free) →
    block ctx p ss = .ok (p₁, out) →
    ∃ fs₁ done₁ log₁, Mirrors f free new own p₁ fs₁ done₁ ∧
      block { ctx with outer := outer' } ⟨p.body.hold fs, done, log⟩ (Stmt.mapAll f ss) =
        .ok (⟨p₁.body.hold fs₁, done₁, log₁⟩, Stmt.mapAll (Typed.move f) out)
  | [], _, h => by
    cases h
    exact ⟨fs, done, log, hm, rfl⟩
  | s :: ss, ha, h => by
    obtain ⟨p₁, first, rest, hs, hss, rfl⟩ := block_cons h
    obtain ⟨hfirst, hrest⟩ := List.forall_mem_append.mp ha
    obtain ⟨fs₁, done₁, log₁, hm₁, hs⟩ := statement_mirrors ho hf hm log s hfirst hs
    obtain ⟨fs₂, done₂, log₂, hm₂, hss⟩ := block_mirrors ho hf hm₁ log₁ ss hrest hss
    refine ⟨fs₂, done₂, log₂, hm₂, ?_⟩
    rw [Stmt.mapAll, block, mapAll_append]
    exact bind_eq_ok.mpr ⟨_, hs, bind_eq_ok.mpr ⟨_, hss, rfl⟩⟩
end

end
end Resolution
end AlgoFrontEnd
