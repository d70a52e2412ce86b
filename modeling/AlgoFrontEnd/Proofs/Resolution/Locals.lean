import AlgoFrontEnd.Proofs.Resolution.Annotations
import AlgoFrontEnd.Proofs.Resolution.Erasure

/-! Where a function binds variables, and the locals that come of it. Main statement: the locals are
the first bindings of the function's own text, with the types that are given there. -/
namespace AlgoFrontEnd
open Resolution
variable {α β : Type}

/-- A variable that is bound: what is noted of it there, the type written behind it, and what is
noted of the value that it gets, if it gets one. -/
structure Binder (α : Type) where
  note : α
  name : String
  written : Option TypeRef
  value : Option α

namespace Binder

def map (f : α → β) (s : Binder α) : Binder β := ⟨f s.note, s.name, s.written, s.value.map f⟩

/-- The type that a variable is bound to, if it is bound there first. -/
def type? (s : Binder Typed) : Option Ty :=
  match s.written with
  | some ref => ref.type?
  | none => s.value.bind (·.type)

end Binder

/-! ### Binders in a text -/

/-- Storing in a whole variable binds it. An element belongs to a variable that is there. -/
def Place.binders (value : α) : Place α → List (Binder α)
  | whole note name written => [⟨note, name, written, some value⟩]
  | element _ _ _ => []

mutual
/-- The variables that an expression binds, from left to right. Those in a value come before the
target that gets the value. -/
def Expr.binders : Expr α → List (Binder α)
  | .int _ _ | .float _ _ | .bool _ _ | .string _ _ | .place _ => []
  | .array _ elements => Expr.bindersAll elements
  | .call _ _ arguments => Expr.bindersAll arguments
  | .binary _ _ left right => left.binders ++ right.binders
  | .sign _ _ operand => operand.binders
  | .assign _ target value => value.binders ++ target.binders value.note

def Expr.bindersAll : List (Expr α) → List (Binder α)
  | [] => []
  | e :: es => e.binders ++ Expr.bindersAll es
end

/-- On a line of its own an annotated variable is bound without a value. -/
def Expr.bindersAlone : Expr α → List (Binder α)
  | .place (.whole note name (some written)) => [⟨note, name, some written, none⟩]
  | e => e.binders

theorem Expr.bindersAlone_eq {e : Expr α}
    (h : ∀ note name written, e ≠ .place (.whole note name (some written))) :
    e.bindersAlone = e.binders := by
  unfold Expr.bindersAlone
  split
  · exact absurd rfl (h _ _ _)
  · rfl

mutual
/-- The variables that a statement binds in the function around it. What is defined inside it binds
variables of its own. -/
def Stmt.binders : Stmt α → List (Binder α)
  | .function _ _ _ | .declare _ _ | .give _ none => []
  | .branch _ condition thenBody elseBody =>
    condition.binders ++ Stmt.bindersAll thenBody ++ Stmt.bindersAll elseBody
  | .loop _ condition body => condition.binders ++ Stmt.bindersAll body
  | .give _ (some e) => e.binders
  | .expr e => e.bindersAlone

def Stmt.bindersAll : List (Stmt α) → List (Binder α)
  | [] => []
  | s :: ss => s.binders ++ Stmt.bindersAll ss
end

theorem Stmt.bindersAll_append (xs ys : List (Stmt α)) :
    Stmt.bindersAll (xs ++ ys) = Stmt.bindersAll xs ++ Stmt.bindersAll ys := by
  induction xs with
  | nil => rfl
  | cons s ss ih => simp only [List.cons_append, Stmt.bindersAll, ih, List.append_assoc]

theorem Stmt.bindersAll_singleton (s : Stmt α) : Stmt.bindersAll [s] = s.binders :=
  List.append_nil _

/-- A local is made where its name first occurs. It has the type that is written there, or else that
of the value. -/
def Binding.MadeBy (v : Binding) (s : Binder Typed) : Prop :=
  v.name = s.name ∧ s.type? = some v.type

/-- A function binds what the text of its body binds, and its locals are the first of these in the
order of the text, less the parameters. -/
structure Routine.Binds (F : Routine) (body : List (Stmt Position)) : Prop where
  text : (Stmt.bindersAll F.statements).map (·.map Typed.position) = Stmt.bindersAll body
  locals : List.Forall₂ Binding.MadeBy F.locals
    (firstsBy Binder.name (F.parameters.map (·.name)) (Stmt.bindersAll F.statements))

namespace Resolution

/-! ### Bodies -/

/-- From one body to the next, each binder of a new name has added its variable. The binders are
those of a text. -/
structure Binds (text : List (Binder Position)) (bs : List (Binder Typed)) (b b' : Body) :
    Prop where
  text : bs.map (·.map Typed.position) = text
  added : ∃ new : List Binding, List.Forall₂ Binding.MadeBy new (firstsBy Binder.name b.names bs) ∧
    b'.level.bindings = b.level.bindings ++ new ∧ b'.locals = b.locals ++ new

section
variable {b b₁ b₂ : Body} {text text' : List (Binder Position)} {xs ys : List (Binder Typed)}

theorem map_name_of_madeBy {vs : List Binding} {bs : List (Binder Typed)}
    (h : List.Forall₂ Binding.MadeBy vs bs) : vs.map (·.name) = bs.map Binder.name := by
  induction h with
  | nil => rfl
  | cons hv _ ih => rw [List.map_cons, List.map_cons, hv.1, ih]

theorem Binds.of_eq (hb : b₁.level.bindings = b.level.bindings) (hl : b₁.locals = b.locals) :
    Binds [] [] b b₁ :=
  ⟨rfl, [], .nil, by simp [hb], by simp [hl]⟩

theorem Binds.refl (b : Body) : Binds [] [] b b := .of_eq rfl rfl

theorem Binds.trans (h : Binds text xs b b₁) (h' : Binds text' ys b₁ b₂) :
    Binds (text ++ text') (xs ++ ys) b b₂ := by
  obtain ⟨ht, new, hn, hb, hl⟩ := h
  obtain ⟨ht', new', hn', hb', hl'⟩ := h'
  have hnames : b₁.names = b.names ++ (firstsBy Binder.name b.names xs).map Binder.name := by
    rw [Body.names, hb, List.map_append, map_name_of_madeBy hn, Body.names]
  refine ⟨by rw [List.map_append, ht, ht'], new ++ new', ?_, by rw [hb', hb, List.append_assoc],
    by rw [hl', hl, List.append_assoc]⟩
  rw [firstsBy_append, ← hnames]
  exact List.rel_append hn hn'

/-- A name that is bound is bound by one binder, which makes a variable if the name is new. -/
theorem Binds.of_bind {type bound : Ty} {position : Position} {s : Binder Typed}
    (ht : s.type? = some type) (h : b.bind s.name type position = .ok (b₁, bound)) :
    Binds [s.map Typed.position] [s] b b₁ := by
  refine ⟨rfl, ?_⟩
  rcases bind_ok h with ⟨hn, -, rfl⟩ | ⟨hs, -, rfl⟩
  · have hk : s.name ∉ b.names := Level.binding?_eq_none_iff.mp hn
    refine ⟨[⟨s.name, type⟩], ?_, by rw [Body.declare, Level.declare_of_binding?_none hn], rfl⟩
    rw [firstsBy, if_neg hk]
    exact .cons ⟨rfl, ht⟩ .nil
  · have hk : s.name ∈ b₁.names := Level.isSome_binding?_iff.mp (Option.isSome_of_eq_some hs)
    refine ⟨[], ?_, (List.append_nil _).symm, (List.append_nil _).symm⟩
    rw [firstsBy, if_pos hk]
    exact .nil

end

/-! ### Expressions -/

theorem value_position {outer : Scope} {b b' : Body} {e : Expr Position} {e' : Expr Typed}
    {type : Ty} (h : value outer b e = .ok (b', e', type)) : e'.note.position = e.note := by
  cases e with
  | int | float | bool | string =>
    cases h
    rfl
  | array =>
    obtain ⟨_, _, -, -, rfl⟩ := value_array h
    rfl
  | place p =>
    obtain ⟨place', hp, -, rfl⟩ := value_place h
    rw [← readPlace_position hp]
    cases place' <;> rfl
  | call =>
    obtain ⟨_, _, _, -, -, -, rfl⟩ := value_call h
    rfl
  | binary =>
    obtain ⟨_, _, _, _, _, -, -, -, rfl⟩ := value_binary h
    rfl
  | sign =>
    obtain ⟨_, -, -, rfl⟩ := value_sign h
    rfl
  | assign =>
    obtain ⟨_, _, _, -, -, rfl⟩ := value_assign h
    rfl

/-- A target is bound to the type written behind it, or to that of the value. -/
theorem writePlace_binds {outer : Scope} {b b' : Body} {position : Position} {actual : Ty}
    {place : Place Position} {place' : Place Typed} {note : Typed}
    (hn : note.type = some actual)
    (h : writePlace outer b position actual place = .ok (b', place')) :
    Binds (place.binders note.position) (place'.binders note) b b' := by
  cases place with
  | whole p name written =>
    obtain ⟨type, bound, ht, hb, rfl⟩ := writePlace_whole h
    refine .of_bind (s := ⟨⟨p, some bound⟩, name, written, some note⟩) ?_ hb
    rcases targetType_ok ht with ⟨rfl, rfl⟩ | ⟨ref, rfl, hr, -⟩
    · exact hn
    · exact hr
  | element p name offset =>
    obtain ⟨-, -, -, -, rfl, rfl⟩ := writePlace_element h
    exact .refl _

mutual
theorem value_binds {outer : Scope} {b b' : Body} {e' : Expr Typed} {type : Ty} :
    (e : Expr Position) → value outer b e = .ok (b', e', type) →
    Binds e.binders e'.binders b b'
  | .int _ _, h | .float _ _, h | .bool _ _, h | .string _ _, h => by
    cases h
    exact .refl _
  | .array _ elements, h => by
    obtain ⟨elements', types, hv, -, rfl⟩ := value_array h
    exact values_binds elements hv
  | .place _, h => by
    obtain ⟨place', -, rfl, rfl⟩ := value_place h
    exact .refl _
  | .call _ _ arguments, h => by
    obtain ⟨arguments', types, symbol, hv, -, -, rfl⟩ := value_call h
    exact values_binds arguments hv
  | .binary _ _ left right, h => by
    obtain ⟨b₁, left', leftType, right', rightType, hl, hr, -, rfl⟩ := value_binary h
    exact (value_binds left hl).trans (value_binds right hr)
  | .sign _ _ operand, h => by
    obtain ⟨operand', ho, -, rfl⟩ := value_sign h
    rw [Expr.binders, Expr.binders]
    exact value_binds operand ho
  | .assign _ target source, h => by
    obtain ⟨b₁, source', target', hv, hw, rfl⟩ := value_assign h
    -- the type that is noted at the value is the one that the target is bound to
    have ht := writePlace_binds (value_selected source hv).2.1 hw
    rw [value_position hv] at ht
    exact (value_binds source hv).trans ht

theorem values_binds {outer : Scope} {b b' : Body} {es' : List (Expr Typed)} {types : List Ty} :
    (es : List (Expr Position)) → values outer b es = .ok (b', es', types) →
    Binds (Expr.bindersAll es) (Expr.bindersAll es') b b'
  | [], h => by
    cases h
    exact .refl _
  | e :: es, h => by
    obtain ⟨b₁, first, type, rest, more, he, hes, rfl, -⟩ := values_cons h
    exact (value_binds e he).trans (values_binds es hes)
end

/-- Only a declaration becomes an annotated variable on a line of its own. -/
theorem ne_annotated_of_value {outer : Scope} {b b' : Body} {e : Expr Position}
    {e' : Expr Typed} {type : Ty} (h : value outer b e = .ok (b', e', type))
    (he : ∀ note name written, e ≠ .place (.whole note name (some written))) :
    ∀ note name written, e' ≠ .place (.whole note name (some written)) := by
  rintro note name written rfl
  obtain ⟨place, rfl⟩ := exists_place (isPlace_of_value h).symm
  obtain ⟨place', hp, -, hplace⟩ := value_place h
  cases hplace
  exact he _ _ _ (congrArg Expr.place (readPlace_position hp)).symm

theorem alone_binds {outer : Scope} {b b' : Body} {e : Expr Position} {e' : Expr Typed}
    (h : alone outer b e = .ok (b', e')) : Binds e.bindersAlone e'.bindersAlone b b' := by
  rcases alone_cases h with ⟨position, name, written, type, bound, rfl, ht, hb, rfl⟩ |
    ⟨_, _, arguments, _, _, _, rfl, hv, -, rfl⟩ | ⟨type, hv, hp⟩
  · exact .of_bind (s := ⟨⟨position, some type⟩, name, some written, none⟩) ht hb
  · exact values_binds arguments hv
  · rw [Expr.bindersAlone_eq hp, Expr.bindersAlone_eq (ne_annotated_of_value hv hp)]
    exact value_binds e hv

/-! ### Statements -/

/-- A function opens with its parameters, so that what its body adds are the locals. -/
theorem Body.Opens.binds {start last : Body} {source : List (Stmt Position)} {F : Routine}
    (h : start.Opens)
    (hb : Binds (Stmt.bindersAll source) (Stmt.bindersAll F.statements) start last)
    (hp : F.parameters = start.level.bindings) (hf : F.locals = last.locals) : F.Binds source := by
  obtain ⟨ht, new, hn, -, hl⟩ := hb
  rw [h.locals, List.nil_append] at hl
  refine ⟨ht, ?_⟩
  rw [hf, hl, hp]
  exact hn

/-- What a part of a program binds in the function around it, and the functions that it has
finished with what each of them binds. -/
structure BindsAll (p p' : Progress) (text : List (Binder Position)) (bs : List (Binder Typed))
    (ds : List Definition) : Prop where
  own : Binds text bs p.body p'.body
  added : Adds (fun d F => F.Binds d.body) p p' ds

theorem BindsAll.append {p p₁ p₂ : Progress} {text text' : List (Binder Position)}
    {xs ys : List (Binder Typed)} {ds ds' : List Definition} (h : BindsAll p p₁ text xs ds)
    (h' : BindsAll p₁ p₂ text' ys ds') : BindsAll p p₂ (text ++ text') (xs ++ ys) (ds ++ ds') :=
  ⟨h.own.trans h'.own, h.added.append h'.added⟩

theorem BindsAll.of_body {p : Progress} {b : Body} {text : List (Binder Position)}
    {bs : List (Binder Typed)} (h : Binds text bs p.body b) :
    BindsAll p { p with body := b } text bs [] :=
  ⟨h, .of_eq rfl⟩

mutual
theorem statement_binds {ctx : Context} {p p' : Progress} {out : List (Stmt Typed)}
    (around : List (Header Position)) :
    (s : Stmt Position) → statement ctx p s = .ok (p', out) →
    BindsAll p p' s.binders (Stmt.bindersAll out) (s.definitions around)
  | .function position header body, h => by
    obtain ⟨s, result, bound, log, last, statements, hh, -, hb, hbody, hl, hf, hlocals, -, rfl⟩ :=
      statement_function h
    have hinner := block_binds (around ++ [header]) body hbody
    have hopens := (bindParameters_opens hh hb).1
    exact ⟨.of_eq (by rw [hl, bindings_enter]) hlocals,
      hinner.added.finish hf (hopens.binds hinner.own rfl rfl)⟩
  | .declare position header, h => by
    obtain ⟨s, result, -, -, -, hl, hf, hlocals, -, rfl⟩ := statement_declare h
    exact ⟨.of_eq (by rw [hl, bindings_enter]) hlocals, .of_eq hf⟩
  | .branch _ condition thenBody elseBody, h => by
    obtain ⟨b, condition', type, p₁, thenBody', elseBody', hc, ht, he, rfl⟩ := statement_branch h
    have h₀ := BindsAll.of_body (value_binds condition hc)
    have h₁ := h₀.append (block_binds around thenBody ht)
    rw [Stmt.bindersAll_singleton]
    exact h₁.append (block_binds around elseBody he)
  | .loop _ condition body, h => by
    obtain ⟨b, condition', type, body', hc, hb, rfl⟩ := statement_loop h
    have h₀ := BindsAll.of_body (value_binds condition hc)
    rw [Stmt.bindersAll_singleton]
    exact h₀.append (block_binds around body hb)
  | .give _ e, h => by
    rcases statement_give h with ⟨rfl, -, rfl, rfl⟩ | ⟨e₁, b, e', type, _, rfl, hv, -, -, rfl, rfl⟩
    · exact .of_body (.refl _)
    · rw [Stmt.bindersAll_singleton]
      exact .of_body (value_binds e₁ hv)
  | .expr e, h => by
    obtain ⟨b, e', ha, rfl, rfl⟩ := statement_expr h
    rw [Stmt.bindersAll_singleton]
    exact .of_body (alone_binds ha)

theorem block_binds {ctx : Context} {p p' : Progress} {out : List (Stmt Typed)}
    (around : List (Header Position)) :
    (ss : List (Stmt Position)) → block ctx p ss = .ok (p', out) →
    BindsAll p p' (Stmt.bindersAll ss) (Stmt.bindersAll out) (Stmt.definitionsAll around ss)
  | [], h => by
    cases h
    exact .of_body (.refl _)
  | s :: ss, h => by
    obtain ⟨p₁, first, rest, hs, hss, rfl⟩ := block_cons h
    rw [Stmt.bindersAll_append]
    exact (statement_binds around s hs).append (block_binds around ss hss)
end

/-! ### Results -/

/-- The locals of every function, in their order, are the first bindings of names in the text of
its own definition, and those of the entry function the first ones outside of all definitions.
Each has the type that is written there, or else that of the value. -/
theorem locals_first_bound {entry : String} {p : Program Position} {r : Result}
    {log : List Event} (h : program entry p = .ok (r, log)) :
    List.Forall₂ (fun d F => d.Emitted F ∧ F.Binds d.body) p.definitions r.routines.dropLast ∧
    ∃ main, r.routines = r.routines.dropLast ++ [main] ∧ main.parameters = [] ∧
      main.Binds p := by
  have he := program_emitted h
  obtain ⟨last, statements, hb, -, hr⟩ := program_ok h
  obtain ⟨hown, new, hnew, hd⟩ := block_binds [] p hb
  rw [hr, List.dropLast_concat, hnew] at he ⊢
  exact ⟨he.mp (fun _ _ => And.intro) hd, _, rfl, rfl, Body.opens_global.binds hown rfl rfl⟩

/-- Variables bound in conditions, elements, arguments and values of others, some of them again
with another type written behind them, a parameter, and a variable of a function inside. -/
def scatteredSource : List String :=
  ["function f(n: int) : int", "if (a <- n) == 1", "n <- 2", "function g()", "c <- true",
    "a <- false", "end", "c <- n", "else", "xs: array <- (ys <- [b <- true, false])",
    "xs[0] <- 3", "end", "d: string", "while d == d", "c: int <- a", "e: float", "end", "return a",
    "end", "z <- f(y <- 1) + (w <- 2)", "y: int"]

theorem scatteredSource_locals : ∃ p r log, program "main" p = .ok (r, log) ∧
    (r.routines.map fun F => F.locals.map fun v => (v.name, v.type)) =
      [[("c", .bool), ("a", .bool)],
        [("a", .int), ("c", .int), ("b", .bool), ("ys", .arrayOf .bool), ("xs", .array),
          ("d", .string), ("e", .float)],
        [("y", .int), ("w", .int), ("z", .int)]] ∧
    List.Forall₂ (fun d F => d.Emitted F ∧ F.Binds d.body) p.definitions r.routines.dropLast ∧
    ∃ main, r.routines = r.routines.dropLast ++ [main] ∧ main.parameters = [] ∧
      main.Binds p := by
  obtain ⟨p, r, ⟨_, log, -, -, h⟩, hs⟩ := resolves_of_any "main" scatteredSource
    (fun (_, r) => (r.routines.map fun F => F.locals.map fun v => (v.name, v.type)) =
      [[("c", .bool), ("a", .bool)],
        [("a", .int), ("c", .int), ("b", .bool), ("ys", .arrayOf .bool), ("xs", .array),
          ("d", .string), ("e", .float)],
        [("y", .int), ("w", .int), ("z", .int)]]) (by decide +kernel)
  exact ⟨p, r, log, h, of_decide_eq_true hs, locals_first_bound h⟩

end Resolution
end AlgoFrontEnd
