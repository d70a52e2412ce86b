import AlgoFrontEnd.Proofs.Resolution.Bodies
import AlgoFrontEnd.Proofs.Resolution.Linking
import AlgoFrontEnd.Proofs.Scope.Paths

/-! The functions that a program defines, and what each has become in the result. Main statement:
every definition is finished once, after those inside it, and the entry function is last. -/
namespace AlgoFrontEnd
open Resolution

/-- The type that is written behind a parameter, if it is known. -/
def Parameter.type? {α : Type} (p : Parameter α) : Option Ty := p.type.bind TypeRef.type?

/-- The signature that a header spells, if the types of its parameters are known. -/
def Header.signature? {α : Type} (h : Header α) : Option Signature :=
  (h.parameters.mapM Parameter.type?).map (Signature.mk h.name)

/-- A function in source, and the headers of those around it from the outermost inwards. -/
structure Definition where
  around : List (Header Position)
  header : Header Position
  body : List (Stmt Position)

mutual
/-- The functions that a statement defines at any depth: in the order of the source, but each one
after those inside it. -/
def Stmt.definitions (around : List (Header Position)) : Stmt Position → List Definition
  | .function _ header body =>
    Stmt.definitionsAll (around ++ [header]) body ++ [⟨around, header, body⟩]
  | .branch _ _ thenBody elseBody =>
    Stmt.definitionsAll around thenBody ++ Stmt.definitionsAll around elseBody
  | .loop _ _ body => Stmt.definitionsAll around body
  | .declare _ _ | .give _ _ | .expr _ => []

def Stmt.definitionsAll (around : List (Header Position)) : List (Stmt Position) → List Definition
  | [] => []
  | s :: ss => s.definitions around ++ Stmt.definitionsAll around ss
end

def Program.definitions (p : Program Position) : List Definition := Stmt.definitionsAll [] p

/-- What a function keeps of its header: the signature and result that it spells, and the names of
the parameters in their order. Its own name spells the signatures around it and its own. -/
structure Definition.Emitted (d : Definition) (F : Routine) : Prop where
  signature : d.header.signature? = some F.signature
  parameters : F.parameters.map (·.name) = d.header.parameters.map (·.name)
  types : F.parameters.map (·.type) = F.signature.parameters
  result : d.header.result.map TypeRef.type? = F.result.map some
  name : ∃ path, d.around.mapM Header.signature? = some path ∧
    F.name = Signature.pathText (path ++ [F.signature])

namespace Resolution

/-! ### Headers -/

theorem parameterType_ok {p : Parameter Position} {type : Ty}
    (h : parameterType p = .ok type) : p.type? = some type := by
  unfold parameterType at h
  split at h
  · rename_i a ha
    rw [Parameter.type?, ha]
    exact refType_ok h
  · exact absurd h fault_ne_ok

theorem parameterTypes_ok {ps : List (Parameter Position)} {types : List Ty}
    (h : parameterTypes ps = .ok types) : ps.mapM Parameter.type? = some types := by
  induction ps generalizing types with
  | nil =>
    cases h
    rfl
  | cons p ps ih =>
    simp only [parameterTypes, bind_eq_ok, pure_eq_ok] at h
    obtain ⟨type, hp, rest, hr, rfl⟩ := h
    simp [List.mapM_cons, parameterType_ok hp, ih hr]

theorem headerTypes_spelled {position : Position} {h : Header Position} {s : Signature}
    {result : Option Ty} (hh : headerTypes position h = .ok (s, result)) :
    h.signature? = some s ∧ h.result.map TypeRef.type? = result.map some := by
  obtain ⟨hname, htypes⟩ := headerTypes_ok hh
  refine ⟨?_, ?_⟩
  · rw [Header.signature?, parameterTypes_ok htypes, Option.map_some, ← hname]
  · simp only [headerTypes, bind_eq_ok] at hh
    obtain ⟨types, -, hh⟩ := hh
    split at hh
    · rename_i a ha
      simp only [bind_eq_ok, pure_eq_ok, Prod.mk.injEq] at hh
      obtain ⟨t, ht, _, rfl, -, rfl⟩ := hh
      rw [ha, Option.map_some, refType_ok ht, Option.map_some]
    · rename_i ha
      cases hh
      rw [ha]
      rfl

@[simp] theorem path_enter (l : Level) (implemented : Bool) (position : Position)
    (h : Header Position) : (l.enter implemented position h).path = l.path := by
  unfold Level.enter
  split <;> rfl

theorem mapM_signature?_concat {around : List (Header Position)} {path : List Signature}
    (ha : around.mapM Header.signature? = some path) {position : Position} {h : Header Position}
    {s : Signature} {result : Option Ty} (hh : headerTypes position h = .ok (s, result)) :
    (around ++ [h]).mapM Header.signature? = some (path ++ [s]) := by
  simp [List.mapM_append, ha, (headerTypes_spelled hh).1]

/-- The level inside a function is empty and goes by the path of the function. -/
theorem bare_of_bindParameters {l : Level} {path : List Signature} {position : Position}
    {h : Header Position} {s : Signature} {result : Option Ty} {b : Body}
    (hp : l.path = Signature.pathText path) (hh : headerTypes position h = .ok (s, result))
    (hb : bindParameters s ⟨l.inside position h, [], 0⟩ h.parameters s.parameters = .ok b) :
    b.level.bare = ⟨Signature.pathText (path ++ [s]), [], []⟩ := by
  rw [bindParameters_bare hb, inside_eq hh, Level.mangle_eq_pathText hp]
  rfl

/-! ### Statements -/

/-- A part of a program has finished a function for each of these definitions, in their order. -/
def Adds (R : Definition → Routine → Prop) (p p' : Progress) (ds : List Definition) : Prop :=
  ∃ new, p'.finished = p.finished ++ new ∧ List.Forall₂ R ds new

section
variable {R : Definition → Routine → Prop} {p p₁ p₂ : Progress} {ds ds' : List Definition}

theorem Adds.of_eq (h : p₁.finished = p.finished) : Adds R p p₁ [] :=
  ⟨[], by rw [h, List.append_nil], .nil⟩

theorem Adds.append (h : Adds R p p₁ ds) (h' : Adds R p₁ p₂ ds') : Adds R p p₂ (ds ++ ds') := by
  obtain ⟨new, hn, hd⟩ := h
  obtain ⟨new', hn', hd'⟩ := h'
  exact ⟨new ++ new', by rw [hn', hn, List.append_assoc], List.rel_append hd hd'⟩

/-- A function is added behind those inside it. -/
theorem Adds.finish (h : Adds R p p₁ ds) {F : Routine} (hf : p₂.finished = p₁.finished ++ [F])
    {d : Definition} (hd : R d F) : Adds R p p₂ (ds ++ [d]) :=
  h.append ⟨[F], hf, .cons hd .nil⟩

end

/-- A part of a program has finished these definitions, and its level goes by the same path. -/
structure Emits (p p' : Progress) (ds : List Definition) : Prop where
  path : p'.body.level.path = p.body.level.path
  added : Adds Definition.Emitted p p' ds

theorem Emits.append {p p₁ p₂ : Progress} {ds ds' : List Definition} (h : Emits p p₁ ds)
    (h' : Emits p₁ p₂ ds') : Emits p p₂ (ds ++ ds') :=
  ⟨h'.path.trans h.path, h.added.append h'.added⟩

theorem Emits.of_body {p : Progress} {b : Body} (h : b.level.bare = p.body.level.bare) :
    Emits p { p with body := b } [] := by
  have hp := congrArg Level.path h
  exact ⟨hp, .of_eq rfl⟩

mutual
/-- A function is finished behind those inside it, under the path of the level around it. -/
theorem statement_emitted {ctx : Context} {p p' : Progress} {out : List (Stmt Typed)}
    (around : List (Header Position)) {path : List Signature}
    (ha : around.mapM Header.signature? = some path) :
    (s : Stmt Position) → p.body.level.path = Signature.pathText path →
    statement ctx p s = .ok (p', out) → Emits p p' (s.definitions around)
  | .function position header body, hp, h => by
    obtain ⟨s, result, bound, log, last, statements, hh, -, hb, hbody, hl, hf, -⟩ :=
      statement_function h
    obtain ⟨hs, hr⟩ := headerTypes_spelled hh
    obtain ⟨new, hnames, htypes, hbindings, -⟩ :=
      bindParameters_ok (parameterTypes_length (headerTypes_ok hh).2) hb
    rw [bindings_inside, List.nil_append] at hbindings
    have hname := Level.mangle_eq_pathText hp s
    have hinside := congrArg Level.path (bare_of_bindParameters hp hh hb)
    have hinner := block_emitted (around ++ [header]) (mapM_signature?_concat ha hh) body
      hinside hbody
    refine ⟨by rw [hl, path_enter], hinner.added.finish hf ⟨hs, ?_, ?_, hr, path, ha, hname⟩⟩
    · rw [hbindings, hnames]
    · rw [hbindings, htypes]
  | .declare position header, _, h => by
    obtain ⟨s, result, -, -, -, hl, hf, -⟩ := statement_declare h
    exact ⟨by rw [hl, path_enter], .of_eq hf⟩
  | .branch _ condition thenBody elseBody, hp, h => by
    obtain ⟨b, condition', type, p₁, thenBody', elseBody', hc, ht, he, -⟩ := statement_branch h
    have h₀ := Emits.of_body (value_selected condition hc).1
    have h₁ := h₀.append (block_emitted around ha thenBody (h₀.path.trans hp) ht)
    exact h₁.append (block_emitted around ha elseBody (h₁.path.trans hp) he)
  | .loop _ condition body, hp, h => by
    obtain ⟨b, condition', type, body', hc, hb, -⟩ := statement_loop h
    have h₀ := Emits.of_body (value_selected condition hc).1
    exact h₀.append (block_emitted around ha body (h₀.path.trans hp) hb)
  | .give _ e, _, h => by
    rcases statement_give h with ⟨-, -, rfl, -⟩ | ⟨e₁, b, e', type, _, -, hv, -, -, rfl, -⟩
    · exact .of_body rfl
    · exact .of_body (value_selected e₁ hv).1
  | .expr e, _, h => by
    obtain ⟨b, e', he, rfl, -⟩ := statement_expr h
    exact .of_body (alone_selected he).1

theorem block_emitted {ctx : Context} {p p' : Progress} {out : List (Stmt Typed)}
    (around : List (Header Position)) {path : List Signature}
    (ha : around.mapM Header.signature? = some path) :
    (ss : List (Stmt Position)) → p.body.level.path = Signature.pathText path →
    block ctx p ss = .ok (p', out) → Emits p p' (Stmt.definitionsAll around ss)
  | [], _, h => by
    cases h
    exact .of_body rfl
  | s :: ss, hp, h => by
    obtain ⟨p₁, first, rest, hs, hss, -⟩ := block_cons h
    have h₁ := statement_emitted around ha s hp hs
    exact h₁.append (block_emitted around ha ss (h₁.path.trans hp) hss)
end

/-! ### Results -/

/-- The functions before the last one are the definitions of the program. -/
theorem program_emitted {entry : String} {p : Program Position} {r : Result} {log : List Event}
    (h : program entry p = .ok (r, log)) :
    List.Forall₂ Definition.Emitted p.definitions r.routines.dropLast := by
  obtain ⟨last, statements, hb, -, hr⟩ := program_ok h
  obtain ⟨-, new, hn, hd⟩ := block_emitted [] rfl p rfl hb
  rw [hr, List.dropLast_concat, hn]
  exact hd

/-- The functions of a result are the definitions of the program, each once and behind those
inside it, and then the entry function. -/
theorem program_flattened {entry : String} {p : Program Position} {r : Result}
    {log : List Event} (h : program entry p = .ok (r, log)) :
    List.Forall₂ Definition.Emitted p.definitions r.routines.dropLast ∧
    ∃ main, r.routines = r.routines.dropLast ++ [main] ∧ main.name = entry ∧
      main.signature = ⟨entry, []⟩ ∧ main.parameters = [] ∧ main.result = none := by
  refine ⟨program_emitted h, ?_⟩
  obtain ⟨last, statements, -, -, hr⟩ := program_ok h
  rw [hr, List.dropLast_concat]
  exact ⟨_, rfl, rfl, rfl, rfl, rfl⟩

/-- Definitions in a loop, in both parts of a branch and inside each other, and an overload. -/
def layeredSource : List String :=
  ["declare function c(x: int) : int", "while true", "function a(x: int, ys: float[]) : bool",
    "if x > 1", "function b()", "end", "else", "function b(a: string)", "function c()", "end",
    "end", "end", "return true", "end", "end", "function c(x: int) : int", "return x", "end"]

theorem layeredSource_flattened : ∃ p r log, program "main" p = .ok (r, log) ∧
    (r.routines.map fun F => (F.name, F.parameters.map (·.name), F.result)) =
      [("a(int,array).b()", [], none), ("a(int,array).b(string).c()", [], none),
        ("a(int,array).b(string)", ["a"], none), ("a(int,array)", ["x", "ys"], some .bool),
        ("c(int)", ["x"], some .int), ("main", [], none)] ∧
    List.Forall₂ Definition.Emitted p.definitions r.routines.dropLast ∧
    ∃ main, r.routines = r.routines.dropLast ++ [main] ∧ main.name = "main" ∧
      main.signature = ⟨"main", []⟩ ∧ main.parameters = [] ∧ main.result = none := by
  obtain ⟨p, r, ⟨_, log, -, -, h⟩, hs⟩ := resolves_of_any "main" layeredSource
    (fun (_, r) => (r.routines.map fun F => (F.name, F.parameters.map (·.name), F.result)) =
      [("a(int,array).b()", [], none), ("a(int,array).b(string).c()", [], none),
        ("a(int,array).b(string)", ["a"], none), ("a(int,array)", ["x", "ys"], some .bool),
        ("c(int)", ["x"], some .int), ("main", [], none)]) (by decide +kernel)
  exact ⟨p, r, log, h, of_decide_eq_true hs, program_flattened h⟩

end Resolution
end AlgoFrontEnd
