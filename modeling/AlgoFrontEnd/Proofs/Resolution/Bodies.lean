import AlgoFrontEnd.Proofs.Resolution.Steps

/-! The variables that source text binds, what they add to the body around them, and the
functions that are made of bodies. -/
namespace AlgoFrontEnd
open Resolution

/-- The names that are not known yet, each where it first occurs. -/
def newNames (known : List String) : List String → List String
  | [] => []
  | name :: names =>
    if name ∈ known then newNames known names else name :: newNames (known ++ [name]) names

/-- The entries with keys that are not known yet, each where its key first occurs. -/
def firstsBy {α : Type} (key : α → String) (known : List String) : List α → List α
  | [] => []
  | x :: xs =>
    if key x ∈ known then firstsBy key known xs else x :: firstsBy key (known ++ [key x]) xs

theorem firstsBy_append {α : Type} (key : α → String) (known : List String) (xs ys : List α) :
    firstsBy key known (xs ++ ys) =
      firstsBy key known xs ++ firstsBy key (known ++ (firstsBy key known xs).map key) ys := by
  induction xs generalizing known with
  | nil => simp [firstsBy]
  | cons x xs ih =>
    rw [List.cons_append, firstsBy, firstsBy]
    split
    · exact ih known
    · rw [ih, List.map_cons, List.cons_append, List.append_assoc, List.singleton_append]

theorem newNames_eq (known names : List String) :
    newNames known names = firstsBy id known names := by
  induction names generalizing known with
  | nil => rfl
  | cons name names ih => simp only [newNames, firstsBy, ih, id]

theorem newNames_append (known xs ys : List String) :
    newNames known (xs ++ ys) =
      newNames known xs ++ newNames (known ++ newNames known xs) ys := by
  simp only [newNames_eq, firstsBy_append, List.map_id]

theorem mem_newNames_iff {known names : List String} {name : String} :
    name ∈ newNames known names ↔ name ∈ names ∧ name ∉ known := by
  induction names generalizing known with
  | nil => simp [newNames]
  | cons x xs ih =>
    rw [newNames]
    split
    · rw [ih]
      grind
    · rw [List.mem_cons, ih]
      grind

theorem nodup_append_newNames {known : List String} (h : known.Nodup) (names : List String) :
    (known ++ newNames known names).Nodup := by
  induction names generalizing known with
  | nil => simpa [newNames] using h
  | cons x xs ih =>
    rw [newNames]
    split
    · exact ih h
    · rename_i hx
      have hk : (known ++ [x]).Nodup := by
        rw [List.nodup_append]
        refine ⟨h, by simp, ?_⟩
        intro y hy z hz
        rw [List.mem_singleton.mp hz]
        exact ne_of_mem_of_not_mem hy hx
      simpa using ih hk

/-! ### Names that are bound -/

variable {α : Type}

/-- Storing in a whole variable binds its name, storing in an element does not. -/
def Place.targets : Place α → List String
  | whole _ name _ => [name]
  | element _ _ _ => []

mutual
/-- The variables that an expression stores in, in the order in which it does. -/
def Expr.targets : Expr α → List String
  | .int _ _ | .float _ _ | .bool _ _ | .string _ _ | .place _ => []
  | .array _ elements => Expr.targetsAll elements
  | .call _ _ arguments => Expr.targetsAll arguments
  | .binary _ _ left right => left.targets ++ right.targets
  | .sign _ _ operand => operand.targets
  | .assign _ target value => value.targets ++ target.targets

def Expr.targetsAll : List (Expr α) → List String
  | [] => []
  | e :: es => e.targets ++ Expr.targetsAll es
end

/-- On a line of its own an annotated variable is bound too. -/
def Expr.targetsAlone : Expr α → List String
  | .place (.whole _ name (some _)) => [name]
  | e => e.targets

theorem Expr.targetsAlone_eq {e : Expr α}
    (h : ∀ note name written, e ≠ .place (.whole note name (some written))) :
    e.targetsAlone = e.targets := by
  unfold Expr.targetsAlone
  split
  · exact absurd rfl (h _ _ _)
  · rfl

mutual
/-- The names that a statement binds in the function around it. -/
def Stmt.targets : Stmt α → List String
  | .function _ _ _ | .declare _ _ | .give _ none => []
  | .branch _ condition thenBody elseBody =>
    condition.targets ++ Stmt.targetsAll thenBody ++ Stmt.targetsAll elseBody
  | .loop _ condition body => condition.targets ++ Stmt.targetsAll body
  | .give _ (some e) => e.targets
  | .expr e => e.targetsAlone

def Stmt.targetsAll : List (Stmt α) → List String
  | [] => []
  | s :: ss => s.targets ++ Stmt.targetsAll ss
end

/-- All variables of a function, in the order of its frame. -/
def Routine.variables (F : Routine) : List Binding := F.parameters ++ F.locals

def Routine.typeOf? (F : Routine) (name : String) : Option Ty := Binding.type? F.variables name

namespace Resolution

/-! ### Growth of a body -/

def Body.names (b : Body) : List String := b.level.bindings.map (·.name)

/-- Binding some names in order adds a variable for each new one, at the same time to the level,
to the locals and to the bytes. Variables that are there stay. -/
def Grows (names : List String) (b b' : Body) : Prop :=
  ∃ new : List Binding, new.map (·.name) = newNames b.names names ∧
    b'.level.bindings = b.level.bindings ++ new ∧ b'.locals = b.locals ++ new ∧
    b'.bytes = b.bytes + Binding.total new

section
variable {b b₁ b₂ : Body} {xs ys : List String}

theorem Grows.refl (b : Body) : Grows [] b b :=
  ⟨[], rfl, by simp, by simp, rfl⟩

theorem Grows.names (h : Grows xs b b₁) : b₁.names = b.names ++ newNames b.names xs := by
  obtain ⟨new, hn, hb, -, -⟩ := h
  rw [Body.names, hb, List.map_append, hn, Body.names]

theorem Grows.trans (h : Grows xs b b₁) (h' : Grows ys b₁ b₂) : Grows (xs ++ ys) b b₂ := by
  have hnames := h.names
  obtain ⟨new, hn, hb, hl, hs⟩ := h
  obtain ⟨new', hn', hb', hl', hs'⟩ := h'
  refine ⟨new ++ new', ?_, by rw [hb', hb, List.append_assoc], by rw [hl', hl, List.append_assoc],
    by rw [hs', hs, Binding.total_append, Nat.add_assoc]⟩
  rw [List.map_append, hn, hn', newNames_append, hnames]

/-- Functions do not matter. -/
theorem Grows.of_eq (hb : b₁.level.bindings = b.level.bindings) (hl : b₁.locals = b.locals)
    (hs : b₁.bytes = b.bytes) : Grows [] b b₁ :=
  ⟨[], rfl, by simp [hb], by simp [hl], hs⟩

theorem Grows.isPrefix (h : Grows xs b b₁) : b.level.bindings <+: b₁.level.bindings := by
  obtain ⟨new, -, hb, -⟩ := h
  exact ⟨new, hb.symm⟩

theorem Grows.mem_names_iff (h : Grows xs b b₁) {name : String} :
    name ∈ b₁.names ↔ name ∈ b.names ∨ name ∈ xs := by
  rw [h.names, List.mem_append, mem_newNames_iff]
  tauto

theorem Grows.nodup (h : Grows xs b b₁) (hb : b.names.Nodup) : b₁.names.Nodup := by
  rw [h.names]
  exact nodup_append_newNames hb xs

end

section
variable {outer : Scope} {b b' : Body} {position : Position}

theorem bind_grows {name : String} {type bound : Ty}
    (h : b.bind name type position = .ok (b', bound)) : Grows [name] b b' := by
  rcases bind_ok h with ⟨hn, -, rfl⟩ | ⟨hs, -, rfl⟩
  · have hk := Level.binding?_eq_none_iff.mp hn
    refine ⟨[⟨name, type⟩], ?_, ?_, rfl, rfl⟩
    · simp [newNames, Body.names, hk]
    · simp [Body.declare, Level.declare_of_binding?_none hn]
  · have hk := Level.isSome_binding?_iff.mp (Option.isSome_of_eq_some hs)
    refine ⟨[], ?_, by simp, by simp, rfl⟩
    simp [newNames, Body.names, hk]

theorem writePlace_grows {actual : Ty} {place : Place Position} {place' : Place Typed}
    (h : writePlace outer b position actual place = .ok (b', place')) :
    Grows place.targets b b' := by
  cases place with
  | whole p name written =>
    obtain ⟨type, bound, -, hb, -⟩ := writePlace_whole h
    exact bind_grows hb
  | element p name offset =>
    obtain ⟨-, -, -, -, rfl, -⟩ := writePlace_element h
    exact .refl _

end

mutual
theorem value_grows {outer : Scope} {b b' : Body} {e' : Expr Typed} {type : Ty} :
    (e : Expr Position) → value outer b e = .ok (b', e', type) → Grows e.targets b b'
  | .int _ _, h | .float _ _, h | .bool _ _, h | .string _ _, h => by
    cases h
    exact .refl _
  | .array _ elements, h => by
    obtain ⟨elements', types, hv, -, -⟩ := value_array h
    exact values_grows elements hv
  | .place _, h => by
    obtain ⟨place', -, rfl, -⟩ := value_place h
    exact .refl _
  | .call _ _ arguments, h => by
    obtain ⟨arguments', types, symbol, hv, -⟩ := value_call h
    exact values_grows arguments hv
  | .binary _ _ left right, h => by
    obtain ⟨b₁, left', leftType, right', rightType, hl, hr, -⟩ := value_binary h
    exact (value_grows left hl).trans (value_grows right hr)
  | .sign _ _ operand, h => by
    obtain ⟨operand', ho, -⟩ := value_sign h
    exact value_grows operand ho
  | .assign _ target source, h => by
    obtain ⟨b₁, source', target', hv, hw, -⟩ := value_assign h
    exact (value_grows source hv).trans (writePlace_grows hw)

theorem values_grows {outer : Scope} {b b' : Body} {es' : List (Expr Typed)}
    {types : List Ty} :
    (es : List (Expr Position)) → values outer b es = .ok (b', es', types) →
    Grows (Expr.targetsAll es) b b'
  | [], h => by
    cases h
    exact .refl _
  | e :: es, h => by
    obtain ⟨b₁, first, type, rest, more, he, hes, -⟩ := values_cons h
    exact (value_grows e he).trans (values_grows es hes)
end

theorem alone_grows {outer : Scope} {b b' : Body} {e : Expr Position} {e' : Expr Typed}
    (h : alone outer b e = .ok (b', e')) : Grows e.targetsAlone b b' := by
  rcases alone_cases h with ⟨_, _, _, _, _, rfl, -, hb, -⟩ |
    ⟨_, _, arguments, _, _, _, rfl, hv, -⟩ | ⟨type, hv, hp⟩
  · exact bind_grows hb
  · exact values_grows arguments hv
  · rw [Expr.targetsAlone_eq hp]
    exact value_grows e hv

@[simp] theorem bindings_enter (l : Level) (implemented : Bool) (position : Position)
    (h : Header Position) : (l.enter implemented position h).bindings = l.bindings := by
  unfold Level.enter
  split <;> rfl

@[simp] theorem bindings_inside (l : Level) (position : Position) (h : Header Position) :
    (l.inside position h).bindings = [] := by
  unfold Level.inside
  split <;> rfl

mutual
/-- What is defined inside a function binds nothing around it. -/
theorem statement_grows {ctx : Context} {p p' : Progress} {out : List (Stmt Typed)} :
    (s : Stmt Position) → statement ctx p s = .ok (p', out) → Grows s.targets p.body p'.body
  | .function position header body, h => by
    obtain ⟨s, result, bound, log, last, statements, -, -, -, -, hl, -, hlocals, hbytes, -⟩ :=
      statement_function h
    exact .of_eq (by rw [hl, bindings_enter]) hlocals hbytes
  | .declare position header, h => by
    obtain ⟨s, result, -, -, -, hl, -, hlocals, hbytes, -⟩ := statement_declare h
    exact .of_eq (by rw [hl, bindings_enter]) hlocals hbytes
  | .branch _ condition thenBody elseBody, h => by
    obtain ⟨b, condition', type, p₁, thenBody', elseBody', hc, ht, he, -⟩ := statement_branch h
    exact ((value_grows condition hc).trans (block_grows thenBody ht)).trans
      (block_grows elseBody he)
  | .loop _ condition body, h => by
    obtain ⟨b, condition', type, body', hc, hbody, -⟩ := statement_loop h
    exact (value_grows condition hc).trans (block_grows body hbody)
  | .give _ none, h => by
    rcases statement_give h with ⟨-, -, rfl, -⟩ | ⟨_, _, _, _, _, hn, -⟩
    · exact .refl _
    · cases hn
  | .give _ (some e), h => by
    rcases statement_give h with ⟨hn, -⟩ | ⟨_, b, e', type, _, hs, hv, -, -, rfl, -⟩
    · cases hn
    · cases hs
      exact value_grows e hv
  | .expr e, h => by
    obtain ⟨b, e', ha, rfl, -⟩ := statement_expr h
    exact alone_grows ha

theorem block_grows {ctx : Context} {p p' : Progress} {out : List (Stmt Typed)} :
    (ss : List (Stmt Position)) → block ctx p ss = .ok (p', out) →
    Grows (Stmt.targetsAll ss) p.body p'.body
  | [], h => by
    cases h
    exact .refl _
  | s :: ss, h => by
    obtain ⟨p₁, first, rest, hs, hss, -⟩ := block_cons h
    exact (statement_grows s hs).trans (block_grows ss hss)
end

/-! ### Functions made of bodies -/

/-- The start of a body, where only parameters are bound. -/
structure Body.Opens (b : Body) : Prop where
  locals : b.locals = []
  bytes : b.bytes = Binding.total b.level.bindings
  distinct : b.names.Nodup

/-- A function is what a body has become: the variables bound before it are the parameters, and
those bound on the way the locals. -/
inductive Made : Routine → Prop where
  | body {ctx : Context} {start last : Progress} {source : List (Stmt Position)}
      {statements : List (Stmt Typed)} (name : String) (opens : start.body.Opens)
      (resolved : block ctx start source = .ok (last, statements)) :
      Made ⟨name, ctx.signature, ctx.result, start.body.level.bindings, last.body.locals,
        statements, last.body.bytes⟩

theorem Body.opens_global : Body.Opens ⟨.global, [], 0⟩ := ⟨rfl, rfl, List.nodup_nil⟩

/-- A function opens with the parameters of its header. -/
theorem bindParameters_opens {l : Level} {position : Position} {header : Header Position}
    {s : Signature} {result : Option Ty} {bound : Body}
    (hh : headerTypes position header = .ok (s, result))
    (h : bindParameters s ⟨l.inside position header, [], 0⟩ header.parameters s.parameters =
      .ok bound) : bound.Opens ∧ bound.names = header.parameters.map (·.name) := by
  have hlength := parameterTypes_length (headerTypes_ok hh).2
  obtain ⟨new, hnames, -, hn, hlocals, hbytes, hd⟩ := bindParameters_ok hlength h
  rw [bindings_inside, List.nil_append] at hn
  refine ⟨⟨hlocals, by rw [hbytes, hn, Nat.zero_add], hd (by simp)⟩, ?_⟩
  rw [Body.names, hn, hnames]

mutual
theorem statement_made {ctx : Context} {p p' : Progress} {out : List (Stmt Typed)} :
    (s : Stmt Position) → statement ctx p s = .ok (p', out) → (∀ F ∈ p.finished, Made F) →
    ∀ F ∈ p'.finished, Made F
  | .function position header body, h, hp => by
    obtain ⟨s, result, bound, log, last, statements, hh, -, hb, hbody, -, hf, -⟩ :=
      statement_function h
    have hopens := (bindParameters_opens hh hb).1
    rw [hf]
    refine List.forall_mem_append.mpr ⟨block_made body hbody hp, List.forall_mem_singleton.mpr ?_⟩
    exact .body _ hopens hbody
  | .declare _ _, h, hp => by
    obtain ⟨s, result, -, -, -, -, hf, -⟩ := statement_declare h
    rwa [hf]
  | .branch _ _ thenBody elseBody, h, hp => by
    obtain ⟨b, condition', type, p₁, thenBody', elseBody', -, ht, he, -⟩ := statement_branch h
    exact block_made elseBody he (block_made thenBody ht hp)
  | .loop _ _ body, h, hp => by
    obtain ⟨b, condition', type, body', -, hbody, -⟩ := statement_loop h
    exact block_made body hbody hp
  | .give _ e, h, hp => by
    rcases statement_give h with ⟨-, -, rfl, -⟩ | ⟨_, _, _, _, _, -, -, -, -, rfl, -⟩ <;> exact hp
  | .expr e, h, hp => by
    obtain ⟨b, e', -, rfl, -⟩ := statement_expr h
    exact hp

theorem block_made {ctx : Context} {p p' : Progress} {out : List (Stmt Typed)} :
    (ss : List (Stmt Position)) → block ctx p ss = .ok (p', out) → (∀ F ∈ p.finished, Made F) →
    ∀ F ∈ p'.finished, Made F
  | [], h, hp => by
    cases h
    exact hp
  | s :: ss, h, hp => by
    obtain ⟨p₁, first, rest, hs, hss, -⟩ := block_cons h
    exact block_made ss hss (statement_made s hs hp)
end

theorem program_made {entry : String} {p : Program Position} {r : Result} {log : List Event}
    (h : program entry p = .ok (r, log)) : ∀ F ∈ r.routines, Made F := by
  obtain ⟨last, statements, hb, -, hr⟩ := program_ok h
  rw [hr]
  refine List.forall_mem_append.mpr ⟨block_made p hb (by simp), List.forall_mem_singleton.mpr ?_⟩
  exact .body entry Body.opens_global hb

/-- What a body has bound in the end are the variables of its function. -/
theorem Body.Opens.variables {ctx : Context} {start last : Progress}
    {source : List (Stmt Position)} {statements : List (Stmt Typed)} (h : start.body.Opens)
    (hb : block ctx start source = .ok (last, statements)) :
    start.body.level.bindings ++ last.body.locals = last.body.level.bindings := by
  obtain ⟨new, -, hbindings, hlocals, -⟩ := block_grows source hb
  rw [hbindings, hlocals, h.locals, List.nil_append]

/-- The variables of a function have different names, and its declared size is that of all of
them together. -/
theorem Made.variables {F : Routine} (h : Made F) :
    (F.variables.map (·.name)).Nodup ∧ F.frameSize = (Binding.total F.variables : Int) := by
  obtain ⟨name, hopens, hbody⟩ := h
  rename_i ctx start last source statements
  have hgrows := block_grows source hbody
  simp only [Routine.variables, hopens.variables hbody]
  refine ⟨hgrows.nodup hopens.distinct, ?_⟩
  obtain ⟨new, -, hb, -, hs⟩ := hgrows
  rw [hs, hb, hopens.bytes, Binding.total_append]

end Resolution
end AlgoFrontEnd
