import AlgoFrontEnd.Proofs.Resolution.Definitions
import Mathlib.Data.List.DropRight

/-! Resolved statements without what resolution has noted in them. Main statement: these are the
statements of the source, less the definitions and headers among them. -/
namespace AlgoFrontEnd
open Resolution

/-- What stands in front of the bracket in the last part of a mangled name. -/
def sourceName (mangled : String) : String :=
  .ofList ((mangled.toList.rtakeWhile (· ≠ '.')).takeWhile (· ≠ '('))

section
variable {α : Type}

mutual
/-- Changes the names in calls and nothing else. -/
def Expr.rename (f : String → String) : Expr α → Expr α
  | .int n value => .int n value
  | .float n value => .float n value
  | .bool n value => .bool n value
  | .string n value => .string n value
  | .array n elements => .array n (Expr.renameAll f elements)
  | .place p => .place p
  | .call n function arguments => .call n (f function) (Expr.renameAll f arguments)
  | .binary n op left right => .binary n op (left.rename f) (right.rename f)
  | .sign n s operand => .sign n s (operand.rename f)
  | .assign n target value => .assign n target (value.rename f)

def Expr.renameAll (f : String → String) : List (Expr α) → List (Expr α)
  | [] => []
  | e :: es => e.rename f :: Expr.renameAll f es
end

mutual
def Stmt.rename (f : String → String) : Stmt α → Stmt α
  | .function n header body => .function n header (Stmt.renameAll f body)
  | .declare n header => .declare n header
  | .branch n condition thenBody elseBody =>
    .branch n (condition.rename f) (Stmt.renameAll f thenBody) (Stmt.renameAll f elseBody)
  | .loop n condition body => .loop n (condition.rename f) (Stmt.renameAll f body)
  | .give n value => .give n (value.map (Expr.rename f))
  | .expr e => .expr (e.rename f)

def Stmt.renameAll (f : String → String) : List (Stmt α) → List (Stmt α)
  | [] => []
  | s :: ss => s.rename f :: Stmt.renameAll f ss
end

mutual
/-- What a statement leaves in the body around it: no definition and no header at any depth of its
branches and loops. -/
def Stmt.kept : Stmt α → List (Stmt α)
  | .function _ _ _ | .declare _ _ => []
  | .branch n condition thenBody elseBody =>
    [.branch n condition (Stmt.keptAll thenBody) (Stmt.keptAll elseBody)]
  | .loop n condition body => [.loop n condition (Stmt.keptAll body)]
  | .give n value => [.give n value]
  | .expr e => [.expr e]

def Stmt.keptAll : List (Stmt α) → List (Stmt α)
  | [] => []
  | s :: ss => s.kept ++ Stmt.keptAll ss
end

end

def Expr.erase (e : Expr Typed) : Expr Position := (e.rename sourceName).map Typed.position

def Expr.eraseAll (es : List (Expr Typed)) : List (Expr Position) :=
  mapAll Typed.position (renameAll sourceName es)

/-- Statements without types, and with the names of the source in their calls. -/
def Stmt.eraseAll (ss : List (Stmt Typed)) : List (Stmt Position) :=
  mapAll Typed.position (renameAll sourceName ss)

theorem Stmt.eraseAll_append (xs ys : List (Stmt Typed)) :
    eraseAll (xs ++ ys) = eraseAll xs ++ eraseAll ys := by
  induction xs with
  | nil => rfl
  | cons s ss ih =>
    simp only [eraseAll, List.cons_append, renameAll, mapAll] at ih ⊢
    rw [ih]

/-! ### Names -/

/-- The name in a signature can be read back from each mangled name that ends in it. -/
theorem sourceName_mangle (l : Level) {s : Signature} (hs : Plain s.name) :
    sourceName (l.mangle s) = s.name := by
  have hpart : (l.mangle s).toList.rtakeWhile (· ≠ '.') = s.text.toList := by
    have hstem : ∀ c ∈ l.stem.reverse.head?, c = '.' := by
      unfold Level.stem
      split <;> simp
    have hdot : '.' ∉ s.text.toList.reverse := by
      simpa using Signature.dot_not_mem_text hs
    rw [List.rtakeWhile, Level.toList_mangle, List.reverse_append,
      takeWhile_ne_append hdot hstem, List.reverse_reverse]
  have hparen : '(' ∉ s.name.toList := not_mem_of_plain hs (by decide)
  rw [sourceName, hpart, Signature.toList_text, takeWhile_ne_append hparen (by simp),
    String.ofList_toList]

/-- The mangled names of a level end in the names of its functions. -/
def Level.Named (l : Level) : Prop := ∀ f ∈ l.functions, sourceName f.mangled = f.signature.name

def Scope.Named (scope : Scope) : Prop := ∀ l ∈ scope, l.Named

theorem Scope.named_nil : Scope.Named [] := List.forall_mem_nil _

theorem Scope.named_cons {l : Level} {scope : Scope} :
    Scope.Named (l :: scope) ↔ l.Named ∧ scope.Named := List.forall_mem_cons

theorem Level.Named.of_bare {l l' : Level} (h : l.Named) (hb : l'.bare = l.bare) : l'.Named := by
  have hf := congrArg Level.functions hb
  intro f hm
  exact h f (hf ▸ hm)

theorem Level.named_global : Level.global.Named := List.forall_mem_nil _

namespace Resolution

theorem named_enter {l : Level} (hl : l.Named) (implemented : Bool) (position : Position)
    {h : Header Position} (hn : Plain h.name) : (l.enter implemented position h).Named := by
  cases hh : headerTypes position h with
  | error => simpa [Level.enter, hh] using hl
  | ok r =>
    obtain ⟨s, result⟩ := r
    rw [enter_eq hh]
    intro f hf
    rcases Level.mem_of_mem_register hf with rfl | hf
    · exact sourceName_mangle l ((headerTypes_ok hh).1 ▸ hn)
    · exact hl f hf

theorem named_inside (l : Level) (position : Position) (h : Header Position) :
    (l.inside position h).Named := by
  unfold Level.inside
  split <;> exact List.forall_mem_nil _

theorem sourceName_callee {scope : Scope} {function : String} {positions : List Position}
    {types : List Ty} {position : Position} {symbol : Symbol} (hn : scope.Named)
    (hl : types.length = positions.length)
    (h : callee scope function (positions.zip types) position = .ok symbol) :
    sourceName symbol.mangled = function := by
  have hf := (callee_ok hl h).1
  obtain ⟨l, hm, hs⟩ := List.exists_of_findSome?_eq_some hf
  rw [hn l hm symbol (Level.mem_of_function? hs).1]
  exact (same_iff.mp (same_of_scope_function? hf)).1

/-! ### Expressions -/

theorem readPlace_position {scope : Scope} {place : Place Position} {place' : Place Typed}
    {type : Ty} (h : readPlace scope place = .ok (place', type)) :
    place'.map Typed.position = place := by
  cases place with
  | whole =>
    obtain ⟨-, rfl⟩ := readPlace_whole h
    rfl
  | element =>
    obtain ⟨-, -, -, -, rfl⟩ := readPlace_element h
    rfl

theorem writePlace_position {outer : Scope} {b b' : Body} {position : Position} {actual : Ty}
    {place : Place Position} {place' : Place Typed}
    (h : writePlace outer b position actual place = .ok (b', place')) :
    place'.map Typed.position = place := by
  cases place with
  | whole =>
    obtain ⟨type, bound, -, -, rfl⟩ := writePlace_whole h
    rfl
  | element =>
    obtain ⟨-, -, -, -, -, rfl⟩ := writePlace_element h
    rfl

theorem named_of_bare {outer : Scope} {b b' : Body} (h : Scope.Named (b.level :: outer))
    (hb : b'.level.bare = b.level.bare) : Scope.Named (b'.level :: outer) := by
  obtain ⟨hl, ho⟩ := Scope.named_cons.mp h
  exact Scope.named_cons.mpr ⟨hl.of_bare hb, ho⟩

/-- A call is that of the source if its arguments are. -/
theorem call_erase {outer : Scope} {b b' : Body} {function : String} {position : Position}
    {arguments : List (Expr Position)} {arguments' : List (Expr Typed)} {types : List Ty}
    {symbol : Symbol} (hn : Scope.Named (b.level :: outer))
    (hv : values outer b arguments = .ok (b', arguments', types))
    (hc : callee (b'.level :: outer) function ((arguments.map (·.note)).zip types) position =
      .ok symbol) (ha : Expr.eraseAll arguments' = arguments) (type : Option Ty) :
    (Expr.call ⟨position, type⟩ symbol.mangled arguments').erase =
      .call position function arguments := by
  obtain ⟨hb, hl, -, -⟩ := values_selected arguments hv
  have hname := sourceName_callee (named_of_bare hn hb) (by simpa using hl) hc
  exact congrArg₂ (Expr.call position) hname ha

mutual
theorem value_erase {outer : Scope} {b b' : Body} {e' : Expr Typed} {type : Ty}
    (hn : Scope.Named (b.level :: outer)) :
    (e : Expr Position) → value outer b e = .ok (b', e', type) → e'.erase = e
  | .int _ _, h | .float _ _, h | .bool _ _, h | .string _ _, h => by
    cases h
    rfl
  | .array position elements, h => by
    obtain ⟨elements', types, hv, -, rfl⟩ := value_array h
    exact congrArg (Expr.array position) (values_erase hn elements hv)
  | .place _, h => by
    obtain ⟨place', hp, -, rfl⟩ := value_place h
    exact congrArg Expr.place (readPlace_position hp)
  | .call position function arguments, h => by
    obtain ⟨arguments', types, symbol, hv, hc, -, rfl⟩ := value_call h
    exact call_erase hn hv hc (values_erase hn arguments hv) _
  | .binary position op left right, h => by
    obtain ⟨b₁, left', leftType, right', rightType, hl, hr, -, rfl⟩ := value_binary h
    have hb := (value_selected left hl).1
    exact congrArg₂ (Expr.binary position op) (value_erase hn left hl)
      (value_erase (named_of_bare hn hb) right hr)
  | .sign position s operand, h => by
    obtain ⟨operand', ho, -, rfl⟩ := value_sign h
    exact congrArg (Expr.sign position s) (value_erase hn operand ho)
  | .assign position target source, h => by
    obtain ⟨b₁, source', target', hv, hw, rfl⟩ := value_assign h
    exact congrArg₂ (Expr.assign position) (writePlace_position hw) (value_erase hn source hv)

theorem values_erase {outer : Scope} {b b' : Body} {es' : List (Expr Typed)} {types : List Ty}
    (hn : Scope.Named (b.level :: outer)) :
    (es : List (Expr Position)) → values outer b es = .ok (b', es', types) →
    Expr.eraseAll es' = es
  | [], h => by
    cases h
    rfl
  | e :: es, h => by
    obtain ⟨b₁, first, type, rest, more, he, hes, rfl, rfl⟩ := values_cons h
    have hb := (value_selected e he).1
    exact congrArg₂ List.cons (value_erase hn e he) (values_erase (named_of_bare hn hb) es hes)
end

theorem alone_erase {outer : Scope} {b b' : Body} {e : Expr Position} {e' : Expr Typed}
    (hn : Scope.Named (b.level :: outer)) (h : alone outer b e = .ok (b', e')) : e'.erase = e := by
  rcases alone_cases h with ⟨_, _, _, _, _, rfl, -, -, rfl⟩ |
    ⟨position, function, arguments, arguments', types, symbol, rfl, hv, hc, rfl⟩ | ⟨type, hv, -⟩
  · rfl
  · exact call_erase hn hv hc (values_erase hn arguments hv) _
  · exact value_erase hn e hv

/-! ### Statements -/

/-- A part of a program has finished these definitions, each with what its body keeps. -/
structure Erases (p p' : Progress) (ds : List Definition) : Prop where
  named : p'.body.level.Named
  added : Adds (fun d F => Stmt.eraseAll F.statements = Stmt.keptAll d.body) p p' ds

theorem Erases.append {p p₁ p₂ : Progress} {ds ds' : List Definition} (h : Erases p p₁ ds)
    (h' : Erases p₁ p₂ ds') : Erases p p₂ (ds ++ ds') :=
  ⟨h'.named, h.added.append h'.added⟩

theorem Erases.of_body {p : Progress} {b : Body} (hl : p.body.level.Named)
    (hb : b.level.bare = p.body.level.bare) : Erases p { p with body := b } [] :=
  ⟨hl.of_bare hb, .of_eq rfl⟩

mutual
/-- Definitions and headers leave a body, and the rest stays as it was. -/
theorem statement_erase {ctx : Context} {p p' : Progress} {out : List (Stmt Typed)}
    (around : List (Header Position)) (ho : ctx.outer.Named) :
    (s : Stmt Position) → (∀ h ∈ s.headers, Plain h.name) → p.body.level.Named →
    statement ctx p s = .ok (p', out) →
    Stmt.eraseAll out = s.kept ∧ Erases p p' (s.definitions around)
  | .function position header body, hs, hl, h => by
    obtain ⟨s, result, bound, log, last, statements, -, -, hp, hb, hlevel, hf, -, -, rfl⟩ :=
      statement_function h
    obtain ⟨hheader, hbody⟩ := List.forall_mem_cons.mp hs
    have henter := named_enter hl true position hheader
    have hinside := (named_inside _ position header).of_bare (bindParameters_bare hp)
    obtain ⟨hkept, hinner⟩ := block_erase (around ++ [header])
      (Scope.named_cons.mpr ⟨henter, ho⟩) body hbody hinside hb
    exact ⟨rfl, hlevel ▸ henter, hinner.added.finish hf hkept⟩
  | .declare position header, hs, hl, h => by
    obtain ⟨s, result, -, -, -, hlevel, hf, -, -, rfl⟩ := statement_declare h
    exact ⟨rfl, hlevel ▸ named_enter hl false position (hs header (List.mem_singleton_self _)),
      .of_eq hf⟩
  | .branch position condition thenBody elseBody, hs, hl, h => by
    obtain ⟨b, condition', type, p₁, thenBody', elseBody', hc, ht, he, rfl⟩ := statement_branch h
    obtain ⟨hthen, helse⟩ := List.forall_mem_append.mp hs
    have h₀ := Erases.of_body hl (value_selected condition hc).1
    obtain ⟨hkept₁, h₁⟩ := block_erase around ho thenBody hthen h₀.named ht
    obtain ⟨hkept₂, h₂⟩ := block_erase around ho elseBody helse h₁.named he
    refine ⟨?_, (h₀.append h₁).append h₂⟩
    rw [Stmt.kept, ← hkept₁, ← hkept₂,
      ← value_erase (Scope.named_cons.mpr ⟨hl, ho⟩) condition hc]
    rfl
  | .loop position condition body, hs, hl, h => by
    obtain ⟨b, condition', type, body', hc, hb, rfl⟩ := statement_loop h
    have h₀ := Erases.of_body hl (value_selected condition hc).1
    obtain ⟨hkept, h₁⟩ := block_erase around ho body hs h₀.named hb
    refine ⟨?_, h₀.append h₁⟩
    rw [Stmt.kept, ← hkept, ← value_erase (Scope.named_cons.mpr ⟨hl, ho⟩) condition hc]
    rfl
  | .give _ e, _, hl, h => by
    rcases statement_give h with ⟨rfl, -, rfl, rfl⟩ |
      ⟨e₁, b, e', type, -, rfl, hv, -, -, rfl, rfl⟩
    · exact ⟨rfl, .of_body hl rfl⟩
    · refine ⟨?_, .of_body hl (value_selected e₁ hv).1⟩
      rw [Stmt.kept, ← value_erase (Scope.named_cons.mpr ⟨hl, ho⟩) e₁ hv]
      rfl
  | .expr e, _, hl, h => by
    obtain ⟨b, e', ha, rfl, rfl⟩ := statement_expr h
    refine ⟨?_, .of_body hl (alone_selected ha).1⟩
    rw [Stmt.kept, ← alone_erase (Scope.named_cons.mpr ⟨hl, ho⟩) ha]
    rfl

theorem block_erase {ctx : Context} {p p' : Progress} {out : List (Stmt Typed)}
    (around : List (Header Position)) (ho : ctx.outer.Named) :
    (ss : List (Stmt Position)) → PlainHeaders ss → p.body.level.Named →
    block ctx p ss = .ok (p', out) →
    Stmt.eraseAll out = Stmt.keptAll ss ∧ Erases p p' (Stmt.definitionsAll around ss)
  | [], _, hl, h => by
    cases h
    exact ⟨rfl, .of_body hl rfl⟩
  | s :: ss, hs, hl, h => by
    obtain ⟨p₁, first, rest, hfirst, hrest, rfl⟩ := block_cons h
    obtain ⟨hs, hss⟩ := plainHeaders_cons.mp hs
    obtain ⟨hkept₁, h₁⟩ := statement_erase around ho s hs hl hfirst
    obtain ⟨hkept₂, h₂⟩ := block_erase around ho ss hss h₁.named hrest
    rw [Stmt.eraseAll_append, Stmt.keptAll, hkept₁, hkept₂]
    exact ⟨rfl, h₁.append h₂⟩
end

/-! ### Results -/

/-- Without types and mangled names, each function has the statements of its definition, and the
entry function those of the program, less the definitions and headers among them. -/
theorem statements_erased {entry : String} {lines : List String} {p : Program Position}
    {r : Result} (h : Resolves entry lines p r) :
    List.Forall₂ (fun d F => d.Emitted F ∧ Stmt.eraseAll F.statements = Stmt.keptAll d.body)
      p.definitions r.routines.dropLast ∧
    ∃ main, r.routines = r.routines.dropLast ++ [main] ∧ main.name = entry ∧
      Stmt.eraseAll main.statements = Stmt.keptAll p := by
  obtain ⟨tokens, log, ht, hp, h⟩ := h
  have hn := Grammar.plainHeaders_program ht hp
  have he := program_emitted h
  obtain ⟨last, statements, hb, -, hr⟩ := program_ok h
  obtain ⟨hkept, -, new, hnew, hd⟩ := block_erase [] Scope.named_nil p hn Level.named_global hb
  rw [hr, List.dropLast_concat, hnew] at he ⊢
  exact ⟨he.mp (fun _ _ => And.intro) hd, _, rfl, rfl, hkept⟩

/-- Calls of an overload, of a header, of a function in its own body and of one inside it. -/
def strippedSource : List String :=
  ["declare function log(x: int)", "xs <- [1, 2]", "if xs[0] > 1",
    "function f(n: int, a: int[]) : int", "function g()", "log(n)", "end", "while n > 0", "g()",
    "n <- n - f(n, a)", "function g(b: bool)", "end", "g(true)", "end", "return n", "end",
    "y: int <- -2", "end", "log(f(1, xs))"]

theorem strippedSource_erased : ∃ p r, Resolves "main" strippedSource p r ∧
    (r.routines.map fun F => (F.name, F.calls.map (·.name))) =
      [("f(int,array).g()", ["log(int)"]), ("f(int,array).g(bool)", []),
        ("f(int,array)", ["f(int,array).g()", "f(int,array)", "f(int,array).g(bool)"]),
        ("main", ["f(int,array)", "log(int)"])] ∧
    List.Forall₂ (fun d F => d.Emitted F ∧ Stmt.eraseAll F.statements = Stmt.keptAll d.body)
      p.definitions r.routines.dropLast ∧
    ∃ main, r.routines = r.routines.dropLast ++ [main] ∧ main.name = "main" ∧
      Stmt.eraseAll main.statements = Stmt.keptAll p := by
  obtain ⟨p, r, h, hn⟩ := resolves_of_any "main" strippedSource
    (fun (_, r) => (r.routines.map fun F => (F.name, F.calls.map (·.name))) =
      [("f(int,array).g()", ["log(int)"]), ("f(int,array).g(bool)", []),
        ("f(int,array)", ["f(int,array).g()", "f(int,array)", "f(int,array).g(bool)"]),
        ("main", ["f(int,array)", "log(int)"])]) (by decide +kernel)
  exact ⟨p, r, h, of_decide_eq_true hn, statements_erased h⟩

end Resolution
end AlgoFrontEnd
