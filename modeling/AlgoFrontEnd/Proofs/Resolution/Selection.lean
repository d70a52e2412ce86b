import AlgoFrontEnd.Proofs.Resolution.Steps

/-! Every call selects the nearest function that fits it where it stands. -/
namespace AlgoFrontEnd

/-- The function of a signature at the innermost level that has one. -/
def Scope.Nearest (scope : Scope) (s : Signature) (symbol : Symbol) : Prop :=
  ∃ inner level further, scope = inner ++ level :: further ∧
    (∀ l ∈ inner, ∀ f ∈ l.functions, f.signature.same s = false) ∧
    symbol ∈ level.functions ∧ symbol.signature.same s = true

namespace Resolution

/-- A resolved call with arguments of these types takes its name and its type from the nearest
function for it. -/
structure Selects (s : Site) (c : Call) (types : List Ty) (symbol : Symbol) : Prop where
  position : c.position = s.position
  count : types.length = s.arguments
  arguments : c.arguments = types.map some
  nearest : s.scope.Nearest ⟨s.function, types⟩ symbol
  name : c.name = symbol.mangled
  type : c.type = symbol.result
  agree : List.Forall₂ (fun actual expected => actual.agrees expected = true) types
    symbol.signature.parameters

def Selected (s : Site) (c : Call) : Prop := ∃ types symbol, Selects s c types symbol

theorem nearest_of_function? {scope : Scope} {s : Signature} {symbol : Symbol}
    (h : scope.function? s = some symbol) : scope.Nearest s symbol := by
  obtain ⟨inner, level, further, hs, hl, hn⟩ := List.findSome?_eq_some_iff.mp h
  refine ⟨inner, level, further, hs, ?_, List.mem_of_find?_eq_some hl,
    same_of_scope_function? h⟩
  intro l hm f hf
  have := List.find?_eq_none.mp (hn l hm) f hf
  simpa using this

theorem function?_map_bare (scope : Scope) (s : Signature) :
    Scope.function? (scope.map Level.bare) s = scope.function? s := by
  simp only [Scope.function?, List.findSome?_map]
  rfl

/-! ### Levels without variables -/

theorem bare_enter (l : Level) (implemented : Bool) (position : Position) (h : Header Position) :
    (l.enter implemented position h).bare = l.bare.enter implemented position h := by
  unfold Level.enter
  split <;> rfl

theorem bare_inside (l : Level) (position : Position) (h : Header Position) :
    (l.inside position h).bare = l.inside position h := by
  unfold Level.inside
  split <;> rfl

/-! ### Expressions -/

theorem selected_of_callee {outer : Scope} {l : Level} {function : String}
    {arguments : List (Expr Position)} {arguments' : List (Expr Typed)} {types : List Ty}
    {position : Position} {symbol : Symbol}
    (hc : callee (l :: outer) function ((arguments.map (·.note)).zip types) position = .ok symbol)
    (hn : types.length = arguments.length)
    (ht : arguments'.map (·.note.type) = types.map some) :
    Selected ⟨position, function, arguments.length, (l :: outer).map Level.bare⟩
      ⟨position, symbol.mangled, arguments'.map (·.note.type), symbol.result⟩ := by
  obtain ⟨hf, ha⟩ := callee_ok (by simpa using hn) hc
  rw [← function?_map_bare] at hf
  exact ⟨types, symbol, rfl, hn, ht, nearest_of_function? hf, rfl, rfl, ha⟩

mutual
/-- An expression binds variables at most, has the type that is noted, and its calls select. -/
theorem value_selected {outer : Scope} {b b' : Body} {e' : Expr Typed} {type : Ty} :
    (e : Expr Position) → value outer b e = .ok (b', e', type) →
    b'.level.bare = b.level.bare ∧ e'.note.type = some type ∧
      List.Forall₂ Selected (e.sites ((b.level :: outer).map Level.bare)) e'.calls
  | .int _ _, h | .float _ _, h | .bool _ _, h | .string _ _, h => by
    cases h
    exact ⟨rfl, rfl, .nil⟩
  | .array _ elements, h => by
    obtain ⟨elements', types, hv, -, rfl⟩ := value_array h
    obtain ⟨hb, -, -, hs⟩ := values_selected elements hv
    exact ⟨hb, rfl, hs⟩
  | .place _, h => by
    obtain ⟨place', hp, rfl, rfl⟩ := value_place h
    exact ⟨rfl, readPlace_note hp, .nil⟩
  | .call position function arguments, h => by
    obtain ⟨arguments', types, symbol, hv, hc, hr, rfl⟩ := value_call h
    obtain ⟨hb, hn, ht, hs⟩ := values_selected arguments hv
    refine ⟨hb, rfl, List.rel_append hs (.cons ?_ .nil)⟩
    have := selected_of_callee hc hn ht
    rwa [List.map_cons, hb, hr] at this
  | .binary _ _ left right, h => by
    obtain ⟨b₁, left', leftType, right', rightType, hl, hr, -, rfl⟩ := value_binary h
    obtain ⟨hb₁, -, hs₁⟩ := value_selected left hl
    obtain ⟨hb₂, -, hs₂⟩ := value_selected right hr
    rw [List.map_cons, hb₁] at hs₂
    exact ⟨hb₂.trans hb₁, rfl, List.rel_append hs₁ hs₂⟩
  | .sign _ _ operand, h => by
    obtain ⟨operand', ho, -, rfl⟩ := value_sign h
    obtain ⟨hb, -, hs⟩ := value_selected operand ho
    exact ⟨hb, rfl, hs⟩
  | .assign _ _ source, h => by
    obtain ⟨b₁, source', target', hv, hw, rfl⟩ := value_assign h
    obtain ⟨hb, -, hs⟩ := value_selected source hv
    exact ⟨(writePlace_bare hw).trans hb, rfl, hs⟩

theorem values_selected {outer : Scope} {b b' : Body} {es' : List (Expr Typed)}
    {types : List Ty} :
    (es : List (Expr Position)) → values outer b es = .ok (b', es', types) →
    b'.level.bare = b.level.bare ∧ types.length = es.length ∧
      es'.map (·.note.type) = types.map some ∧
      List.Forall₂ Selected (Expr.sitesAll ((b.level :: outer).map Level.bare) es)
        (Expr.callsAll es')
  | [], h => by
    cases h
    exact ⟨rfl, rfl, rfl, .nil⟩
  | e :: es, h => by
    obtain ⟨b₁, first, type, rest, more, he, hes, rfl, rfl⟩ := values_cons h
    obtain ⟨hb₁, ht, hs₁⟩ := value_selected e he
    obtain ⟨hb₂, hn, hts, hs₂⟩ := values_selected es hes
    rw [List.map_cons, hb₁] at hs₂
    exact ⟨hb₂.trans hb₁, congrArg (· + 1) hn, by simp [ht, hts], List.rel_append hs₁ hs₂⟩
end

theorem alone_selected {outer : Scope} {b b' : Body} {e : Expr Position} {e' : Expr Typed}
    (h : alone outer b e = .ok (b', e')) : b'.level.bare = b.level.bare ∧
      List.Forall₂ Selected (e.sites ((b.level :: outer).map Level.bare)) e'.calls := by
  rcases alone_cases h with ⟨_, _, _, _, _, rfl, -, hb, rfl⟩ |
    ⟨position, function, arguments, arguments', types, symbol, rfl, hv, hc, rfl⟩ | ⟨type, hv, -⟩
  · exact ⟨bind_bare hb, .nil⟩
  · obtain ⟨hb, hn, ht, hs⟩ := values_selected arguments hv
    refine ⟨hb, List.rel_append hs (.cons ?_ .nil)⟩
    have := selected_of_callee hc hn ht
    rwa [List.map_cons, hb] at this
  · obtain ⟨hb, -, hs⟩ := value_selected e hv
    exact ⟨hb, hs⟩

/-! ### Statements -/

/-- What a part of a program has become: the level after it, its calls, and the functions that
it has added with their calls. -/
structure Traced (p p' : Progress) (level : Level) (sites : List Site) (calls : List Call)
    (bodies : List (List Site)) : Prop where
  level : p'.body.level.bare = level
  own : List.Forall₂ Selected sites calls
  added : ∃ new, p'.finished = p.finished ++ new ∧
    List.Forall₂ (List.Forall₂ Selected) bodies (new.map Routine.calls)

theorem Traced.append {p p₁ p₂ : Progress} {l₁ l₂ : Level} {s₁ s₂ : List Site}
    {c₁ c₂ : List Call} {bs₁ bs₂ : List (List Site)} (h₁ : Traced p p₁ l₁ s₁ c₁ bs₁)
    (h₂ : Traced p₁ p₂ l₂ s₂ c₂ bs₂) : Traced p p₂ l₂ (s₁ ++ s₂) (c₁ ++ c₂) (bs₁ ++ bs₂) := by
  obtain ⟨-, ho₁, new₁, hf₁, hn₁⟩ := h₁
  obtain ⟨hl₂, ho₂, new₂, hf₂, hn₂⟩ := h₂
  refine ⟨hl₂, List.rel_append ho₁ ho₂, new₁ ++ new₂, by rw [hf₂, hf₁, List.append_assoc], ?_⟩
  rw [List.map_append]
  exact List.rel_append hn₁ hn₂

/-- An expression adds no function. -/
theorem Traced.of_body {p : Progress} {b : Body} {sites : List Site} {calls : List Call}
    (hb : b.level.bare = p.body.level.bare) (hs : List.Forall₂ Selected sites calls) :
    Traced p { p with body := b } p.body.level.bare sites calls [] :=
  ⟨hb, hs, [], by simp, .nil⟩

mutual
theorem statement_traced {ctx : Context} {p p' : Progress} {out : List (Stmt Typed)} :
    (s : Stmt Position) → statement ctx p s = .ok (p', out) →
    Traced p p' (s.register p.body.level.bare)
      (s.sites (ctx.outer.map Level.bare) p.body.level.bare) (Stmt.callsAll out)
      (s.bodies (ctx.outer.map Level.bare) p.body.level.bare)
  | .function position header body, h => by
    obtain ⟨s, result, bound, log, last, statements, hh, -, hp, hb, hl, hf, -, -, rfl⟩ :=
      statement_function h
    obtain ⟨-, ho, new, hn, hs⟩ := block_traced body hb
    have hi := bindParameters_bare hp
    simp only [List.map_cons, hi, bare_inside, bare_enter] at ho hs
    refine ⟨by rw [hl, bare_enter, Stmt.register], .nil, new ++ [_], by rw [hf, hn,
      List.append_assoc], ?_⟩
    rw [List.map_append]
    exact List.rel_append hs (.cons ho .nil)
  | .declare position header, h => by
    obtain ⟨s, result, -, -, -, hl, hf, -, -, rfl⟩ := statement_declare h
    exact ⟨by rw [hl, bare_enter, Stmt.register], .nil, [], by simpa using hf, .nil⟩
  | .branch _ condition thenBody elseBody, h => by
    obtain ⟨b, condition', type, p₁, thenBody', elseBody', hc, ht, he, rfl⟩ := statement_branch h
    obtain ⟨hb, -, hs⟩ := value_selected condition hc
    have ht := block_traced thenBody ht
    have he := block_traced elseBody he
    rw [ht.level] at he
    rw [hb] at ht he
    have := ((Traced.of_body hb hs).append ht).append he
    simpa only [Stmt.register, Stmt.sites, Stmt.bodies, Stmt.callsAll, Stmt.calls, List.map_cons,
      List.append_nil, List.nil_append] using this
  | .loop _ condition body, h => by
    obtain ⟨b, condition', type, body', hc, hbody, rfl⟩ := statement_loop h
    obtain ⟨hb, -, hs⟩ := value_selected condition hc
    have hbody := block_traced body hbody
    rw [hb] at hbody
    have := (Traced.of_body hb hs).append hbody
    simpa only [Stmt.register, Stmt.sites, Stmt.bodies, Stmt.callsAll, Stmt.calls, List.map_cons,
      List.append_nil, List.nil_append] using this
  | .give _ e, h => by
    rcases statement_give h with ⟨rfl, -, rfl, rfl⟩ |
      ⟨e₁, b, e', type, -, rfl, hv, -, -, rfl, rfl⟩
    · exact ⟨rfl, .nil, [], by simp, .nil⟩
    · obtain ⟨hb, -, hs⟩ := value_selected e₁ hv
      have := Traced.of_body hb hs
      simpa only [Stmt.register, Stmt.sites, Stmt.bodies, Stmt.callsAll, Stmt.calls, List.map_cons,
      List.append_nil] using this
  | .expr e, h => by
    obtain ⟨b, e', ha, rfl, rfl⟩ := statement_expr h
    obtain ⟨hb, hs⟩ := alone_selected ha
    have := Traced.of_body hb hs
    simpa only [Stmt.register, Stmt.sites, Stmt.bodies, Stmt.callsAll, Stmt.calls, List.map_cons,
      List.append_nil] using this

theorem block_traced {ctx : Context} {p p' : Progress} {out : List (Stmt Typed)} :
    (ss : List (Stmt Position)) → block ctx p ss = .ok (p', out) →
    Traced p p' (Stmt.registerAll p.body.level.bare ss)
      (Stmt.sitesAll (ctx.outer.map Level.bare) p.body.level.bare ss) (Stmt.callsAll out)
      (Stmt.bodiesAll (ctx.outer.map Level.bare) p.body.level.bare ss)
  | [], h => by
    cases h
    exact ⟨rfl, .nil, [], by simp, .nil⟩
  | s :: ss, h => by
    obtain ⟨p₁, first, rest, hs, hss, rfl⟩ := block_cons h
    have hs := statement_traced s hs
    have hss := block_traced ss hss
    rw [hs.level] at hss
    rw [Stmt.callsAll_append]
    exact hs.append hss
end

/-- Source and result have the same functions with the same calls, each of which selects. -/
theorem program_selected {entry : String} {p : Program Position} {r : Result} {log : List Event}
    (h : program entry p = .ok (r, log)) :
    List.Forall₂ (List.Forall₂ Selected) p.sites (r.routines.map Routine.calls) := by
  obtain ⟨last, statements, hb, -, hr⟩ := program_ok h
  obtain ⟨-, ho, new, hn, hs⟩ := block_traced p hb
  rw [hr, hn, List.nil_append, List.map_append]
  exact List.rel_append hs (.cons ho .nil)

end Resolution
end AlgoFrontEnd
