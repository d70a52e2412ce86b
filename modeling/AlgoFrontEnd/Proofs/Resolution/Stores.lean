import AlgoFrontEnd.Proofs.Resolution.Typing

/-! What functions store in their variables. Main statement: a stored value agrees with the type
that its variable got first, unless an array type with open elements stands behind the target. -/
namespace AlgoFrontEnd
open Resolution

/-- A value stored in a whole variable: the type written behind the target, and the types that
target and value carry. -/
structure Store where
  position : Position
  name : String
  written : Option TypeRef
  target : Option Ty
  value : Option Ty
  deriving DecidableEq, Repr

def Place.stores (value : Option Ty) : Place Typed → List Store
  | whole note name written => [⟨note.position, name, written, note.type, value⟩]
  | element _ _ _ => []

mutual
/-- The assignments to variables in a resolved expression, each after those in its value. -/
def Expr.stores : Expr Typed → List Store
  | .int _ _ | .float _ _ | .bool _ _ | .string _ _ | .place _ => []
  | .array _ elements => Expr.storesAll elements
  | .call _ _ arguments => Expr.storesAll arguments
  | .binary _ _ left right => left.stores ++ right.stores
  | .sign _ _ operand => operand.stores
  | .assign _ target value => value.stores ++ target.stores value.note.type

def Expr.storesAll : List (Expr Typed) → List Store
  | [] => []
  | e :: es => e.stores ++ Expr.storesAll es
end

mutual
/-- The assignments to variables in a resolved statement at any depth. -/
def Stmt.stores : Stmt Typed → List Store
  | .function _ _ body => Stmt.storesAll body
  | .declare _ _ | .give _ none => []
  | .branch _ condition thenBody elseBody =>
    condition.stores ++ Stmt.storesAll thenBody ++ Stmt.storesAll elseBody
  | .loop _ condition body => condition.stores ++ Stmt.storesAll body
  | .give _ (some e) | .expr e => e.stores

def Stmt.storesAll : List (Stmt Typed) → List Store
  | [] => []
  | s :: ss => s.stores ++ Stmt.storesAll ss
end

def Routine.stores (F : Routine) : List Store := Stmt.storesAll F.statements

theorem Stmt.storesAll_append (xs ys : List (Stmt Typed)) :
    Stmt.storesAll (xs ++ ys) = Stmt.storesAll xs ++ Stmt.storesAll ys := by
  induction xs with
  | nil => rfl
  | cons s ss ih => simp only [List.cons_append, Stmt.storesAll, ih, List.append_assoc]

/-- The type behind the target is an array type that leaves elements open. It agrees with the
variable and with the value, but these need not agree with each other. -/
def Store.Through (s : Store) (held actual : Ty) : Prop :=
  ∃ ref declared, s.written = some ref ∧ ref.name = Ty.array.name ∧ ref.type? = some declared ∧
    declared.agrees held = true ∧ declared.agrees actual = true

/-- A store among variables carries the type that its variable has there. -/
def Store.Keeps (vs : List Binding) (s : Store) : Prop :=
  ∃ held actual, Binding.type? vs s.name = some held ∧ s.target = some held ∧
    s.value = some actual ∧ (held.agrees actual = true ∨ s.Through held actual)

theorem Store.Keeps.mono {vs ws : List Binding} {s : Store} (hp : vs <+: ws)
    (h : s.Keeps vs) : s.Keeps ws := by
  obtain ⟨held, actual, hv, hs⟩ := h
  exact ⟨held, actual, Binding.type?_mono hp hv, hs⟩

namespace Resolution

theorem writePlace_stores {outer : Scope} {b b' : Body} {position : Position} {actual : Ty}
    {place : Place Position} {place' : Place Typed}
    (h : writePlace outer b position actual place = .ok (b', place')) :
    ∀ s ∈ place'.stores (some actual), s.Keeps b'.level.bindings := by
  cases place with
  | element p name offset =>
    obtain ⟨held, -, -, -, -, rfl⟩ := writePlace_element h
    exact List.forall_mem_nil _
  | whole p name written =>
    obtain ⟨type, bound, ht, hb, rfl⟩ := writePlace_whole h
    obtain ⟨hv, hagrees⟩ := bind_binding? hb
    refine List.forall_mem_singleton.mpr ⟨bound, actual, hv, rfl, rfl, ?_⟩
    rcases targetType_ok ht with ⟨-, rfl⟩ | ⟨ref, rfl, hr, ha⟩
    · exact .inl hagrees
    · by_cases hname : ref.name = Ty.array.name
      · exact .inr ⟨ref, type, rfl, hname, hr, by rwa [Ty.agrees_comm], ha⟩
      · exact .inl (Ty.agrees_trans_of_isClosed (TypeRef.isClosed_of_type? hr hname) hagrees ha)

mutual
theorem value_stores {outer : Scope} {b b' : Body} {e' : Expr Typed} {type : Ty} :
    (e : Expr Position) → value outer b e = .ok (b', e', type) →
    ∀ s ∈ e'.stores, s.Keeps b'.level.bindings
  | .int _ _, h | .float _ _, h | .bool _ _, h | .string _ _, h => by
    cases h
    exact List.forall_mem_nil _
  | .array _ elements, h => by
    obtain ⟨elements', types, hv, -, rfl⟩ := value_array h
    exact values_stores elements hv
  | .place _, h => by
    obtain ⟨place', -, -, rfl⟩ := value_place h
    exact List.forall_mem_nil _
  | .call _ _ arguments, h => by
    obtain ⟨arguments', types, symbol, hv, -, -, rfl⟩ := value_call h
    exact values_stores arguments hv
  | .binary _ _ left right, h => by
    obtain ⟨b₁, left', leftType, right', rightType, hl, hr, -, rfl⟩ := value_binary h
    have hp := (value_grows right hr).isPrefix
    exact List.forall_mem_append.mpr
      ⟨fun s hs => (value_stores left hl s hs).mono hp, value_stores right hr⟩
  | .sign _ _ operand, h => by
    obtain ⟨operand', ho, -, rfl⟩ := value_sign h
    rw [Expr.stores]
    exact value_stores operand ho
  | .assign _ target source, h => by
    obtain ⟨b₁, source', target', hv, hw, rfl⟩ := value_assign h
    have hp := (writePlace_grows hw).isPrefix
    rw [Expr.stores, (value_hasType source hv).note]
    exact List.forall_mem_append.mpr
      ⟨fun s hs => (value_stores source hv s hs).mono hp, writePlace_stores hw⟩

theorem values_stores {outer : Scope} {b b' : Body} {es' : List (Expr Typed)}
    {types : List Ty} :
    (es : List (Expr Position)) → values outer b es = .ok (b', es', types) →
    ∀ s ∈ Expr.storesAll es', s.Keeps b'.level.bindings
  | [], h => by
    cases h
    exact List.forall_mem_nil _
  | e :: es, h => by
    obtain ⟨b₁, first, type, rest, more, he, hes, rfl, -⟩ := values_cons h
    have hp := (values_grows es hes).isPrefix
    exact List.forall_mem_append.mpr
      ⟨fun s hs => (value_stores e he s hs).mono hp, values_stores es hes⟩
end

theorem alone_stores {outer : Scope} {b b' : Body} {e : Expr Position} {e' : Expr Typed}
    (h : alone outer b e = .ok (b', e')) : ∀ s ∈ e'.stores, s.Keeps b'.level.bindings := by
  rcases alone_cases h with ⟨_, _, _, _, _, -, -, -, rfl⟩ |
    ⟨_, _, arguments, _, _, _, -, hv, -, rfl⟩ | ⟨type, hv, -⟩
  · exact List.forall_mem_nil _
  · exact values_stores arguments hv
  · exact value_stores e hv

mutual
/-- The stores of a statement keep the types of the variables that are bound behind it. -/
theorem statement_stores {ctx : Context} {p p' : Progress} {out : List (Stmt Typed)} :
    (s : Stmt Position) → statement ctx p s = .ok (p', out) →
    ∀ s ∈ Stmt.storesAll out, s.Keeps p'.body.level.bindings
  | .function _ _ _, h => by
    obtain ⟨_, _, _, _, _, _, -, -, -, -, -, -, -, -, rfl⟩ := statement_function h
    exact List.forall_mem_nil _
  | .declare _ _, h => by
    obtain ⟨_, _, -, -, -, -, -, -, -, rfl⟩ := statement_declare h
    exact List.forall_mem_nil _
  | .branch _ condition thenBody elseBody, h => by
    obtain ⟨b, condition', type, p₁, thenBody', elseBody', hc, ht, he, rfl⟩ := statement_branch h
    have hthen := (block_grows thenBody ht).isPrefix
    have helse := (block_grows elseBody he).isPrefix
    simp only [Stmt.storesAll, Stmt.stores, List.append_nil, List.forall_mem_append]
    refine ⟨⟨?_, ?_⟩, block_stores elseBody he⟩
    · exact fun s hs => (value_stores condition hc s hs).mono (hthen.trans helse)
    · exact fun s hs => (block_stores thenBody ht s hs).mono helse
  | .loop _ condition body, h => by
    obtain ⟨b, condition', type, body', hc, hb, rfl⟩ := statement_loop h
    have hbody := (block_grows body hb).isPrefix
    simp only [Stmt.storesAll, Stmt.stores, List.append_nil, List.forall_mem_append]
    exact ⟨fun s hs => (value_stores condition hc s hs).mono hbody, block_stores body hb⟩
  | .give _ _, h => by
    rcases statement_give h with ⟨-, -, -, rfl⟩ | ⟨e, b, e', type, expected, -, hv, -, -, rfl, rfl⟩
    · exact List.forall_mem_nil _
    · simpa only [Stmt.storesAll, Stmt.stores, List.append_nil] using value_stores e hv
  | .expr _, h => by
    obtain ⟨b, e', ha, rfl, rfl⟩ := statement_expr h
    simpa only [Stmt.storesAll, Stmt.stores, List.append_nil] using alone_stores ha

theorem block_stores {ctx : Context} {p p' : Progress} {out : List (Stmt Typed)} :
    (ss : List (Stmt Position)) → block ctx p ss = .ok (p', out) →
    ∀ s ∈ Stmt.storesAll out, s.Keeps p'.body.level.bindings
  | [], h => by
    cases h
    exact List.forall_mem_nil _
  | s :: ss, h => by
    obtain ⟨p₁, first, rest, hs, hss, rfl⟩ := block_cons h
    have hp := (block_grows ss hss).isPrefix
    rw [Stmt.storesAll_append]
    exact List.forall_mem_append.mpr
      ⟨fun x hx => (statement_stores s hs x hx).mono hp, block_stores ss hss⟩
end

/-- A variable keeps its first type: every assignment to it, at any depth, carries that type at
its target, and the value agrees with it or goes through an array type with open elements. -/
theorem program_stores {entry : String} {p : Program Position} {r : Result} {log : List Event}
    (h : program entry p = .ok (r, log)) :
    ∀ F ∈ r.routines, ∀ s ∈ F.stores, s.Keeps F.variables := by
  intro F hF
  obtain ⟨name, hopens, hb⟩ := program_made h F hF
  rw [Routine.variables, hopens.variables hb]
  exact block_stores _ hb

/-- Between an array of floats and one of integers stands an open array type. -/
def looseSource : List String := ["xs: float[]", "xs: array <- [1]"]

theorem looseSource_disagrees : ∃ p r, Resolves "main" looseSource p r ∧
    ∃ F ∈ r.routines, ∃ s ∈ F.stores, ∃ held ∈ F.typeOf? s.name, ∃ actual ∈ s.value,
      held.agrees actual = false := by
  obtain ⟨p, r, h, hd⟩ := resolves_of_any "main" looseSource
    (fun (_, r) => ∃ F ∈ r.routines, ∃ s ∈ F.stores, ∃ held ∈ F.typeOf? s.name,
      ∃ actual ∈ s.value, held.agrees actual = false) (by decide +kernel)
  exact ⟨p, r, h, of_decide_eq_true hd⟩

/-- A parameter that is stored in again: an empty array, an open type that does no harm, and an
assignment inside another. -/
def steadySource : List String :=
  ["function f(xs: int[])", "xs <- []", "while xs[0] > 0", "xs: array <- [1]",
    "ys: int[] <- (xs <- [2])", "end", "end"]

theorem steadySource_keeps : ∃ p r log, program "main" p = .ok (r, log) ∧
    (r.routines.map fun F => F.stores.map fun s => (s.name, s.target, s.value)) =
      [[("xs", some (.arrayOf .int), some .array),
        ("xs", some (.arrayOf .int), some (.arrayOf .int)),
        ("xs", some (.arrayOf .int), some (.arrayOf .int)),
        ("ys", some (.arrayOf .int), some (.arrayOf .int))], []] ∧
    ∀ F ∈ r.routines, ∀ s ∈ F.stores, s.Keeps F.variables := by
  obtain ⟨p, r, ⟨_, log, -, -, h⟩, hs⟩ := resolves_of_any "main" steadySource
    (fun (_, r) => (r.routines.map fun F => F.stores.map fun s => (s.name, s.target, s.value)) =
      [[("xs", some (.arrayOf .int), some .array),
        ("xs", some (.arrayOf .int), some (.arrayOf .int)),
        ("xs", some (.arrayOf .int), some (.arrayOf .int)),
        ("ys", some (.arrayOf .int), some (.arrayOf .int))], []]) (by decide +kernel)
  exact ⟨p, r, log, h, of_decide_eq_true hs, program_stores h⟩

end Resolution
end AlgoFrontEnd
