import AlgoFrontEnd.Proofs.Resolution.Bodies
import AlgoFrontEnd.Proofs.Resolution.Linking

/-! Typing rules for resolved trees, stated on the types that their nodes carry. Main statement:
resolution yields only trees that follow the rules. -/
namespace AlgoFrontEnd
open Resolution

/-- A target for values of a type. A type written behind it agrees with the value and with the
variable. -/
inductive Place.Takes : Place Typed → Ty → Prop where
  | plain {position : Position} {name : String} {held actual : Ty} :
      held.agrees actual = true → Takes (.whole ⟨position, some held⟩ name none) actual
  | annotated {position : Position} {name : String} {ref : TypeRef} {declared held actual : Ty} :
      ref.type? = some declared → declared.agrees actual = true → declared.agrees held = true →
      Takes (.whole ⟨position, some held⟩ name (some ref)) actual
  | element {position : Position} {array : String} {offset : Int} {held actual : Ty} :
      held.agrees actual = true → Takes (.element ⟨position, some held⟩ array offset) actual

/-- An expression has the type that it carries, by the types that its parts carry. -/
inductive HasType : Expr Typed → Ty → Prop where
  | int {position : Position} {n : Int} : HasType (.int ⟨position, some .int⟩ n) .int
  | float {position : Position} {x : Float} : HasType (.float ⟨position, some .float⟩ x) .float
  | bool {position : Position} {v : Bool} : HasType (.bool ⟨position, some .bool⟩ v) .bool
  | string {position : Position} {s : String} :
      HasType (.string ⟨position, some .string⟩ s) .string
  | array {position : Position} {elements : List (Expr Typed)} {types : List Ty}
      {known : Option Ty} :
      List.Forall₂ HasType elements types → (∀ e ∈ known, ∀ t ∈ types, t.agrees e = true) →
      HasType (.array ⟨position, some (.arrayWith known)⟩ elements) (.arrayWith known)
  | place {p : Place Typed} {type : Ty} : p.note.type = some type → HasType (.place p) type
  | call {position : Position} {function : String} {arguments : List (Expr Typed)}
      {types : List Ty} {result : Ty} :
      List.Forall₂ HasType arguments types →
      HasType (.call ⟨position, some result⟩ function arguments) result
  | comparison {position : Position} {op : BinaryOp} {left right : Expr Typed} {s t : Ty} :
      op.isComparison = true → HasType left s → HasType right t →
      HasType (.binary ⟨position, some .bool⟩ op left right) .bool
  | arithmetic {position : Position} {op : BinaryOp} {left right : Expr Typed} {s t : Ty} :
      op.isComparison = false → HasType left s → HasType right t → s.outline = t.outline →
      HasType (.binary ⟨position, some s⟩ op left right) s
  | mixed {position : Position} {op : BinaryOp} {left right : Expr Typed} {s t : Ty} :
      op.isComparison = false → HasType left s → HasType right t →
      s = .int ∧ t = .float ∨ s = .float ∧ t = .int →
      HasType (.binary ⟨position, some .float⟩ op left right) .float
  | sign {position : Position} {s : Sign} {operand : Expr Typed} {type : Ty} :
      type = .int ∨ type = .float → HasType operand type →
      HasType (.sign ⟨position, some type⟩ s operand) type
  | assign {position : Position} {target : Place Typed} {value : Expr Typed} {type : Ty} :
      HasType value type → target.Takes type →
      HasType (.assign ⟨position, some type⟩ target value) type

/-- A statement inside a function with a result, or with none. Only a call that is a statement
of its own can have no type, and a return has a value exactly when the function has a result. -/
inductive Stmt.WellTyped (result : Option Ty) : Stmt Typed → Prop where
  | branch {note : Typed} {condition : Expr Typed} {thenBody elseBody : List (Stmt Typed)}
      {type : Ty} :
      HasType condition type → (∀ s ∈ thenBody, s.WellTyped result) →
      (∀ s ∈ elseBody, s.WellTyped result) →
      WellTyped result (.branch note condition thenBody elseBody)
  | loop {note : Typed} {condition : Expr Typed} {body : List (Stmt Typed)} {type : Ty} :
      HasType condition type → (∀ s ∈ body, s.WellTyped result) →
      WellTyped result (.loop note condition body)
  | leave {note : Typed} : result = none → WellTyped result (.give note none)
  | give {note : Typed} {value : Expr Typed} {type expected : Ty} :
      result = some expected → HasType value type → type.agrees expected = true →
      WellTyped result (.give note (some value))
  | value {e : Expr Typed} {type : Ty} : HasType e type → WellTyped result (.expr e)
  | call {position : Position} {function : String} {arguments : List (Expr Typed)}
      {types : List Ty} :
      List.Forall₂ HasType arguments types →
      WellTyped result (.expr (.call ⟨position, none⟩ function arguments))

theorem HasType.note {e : Expr Typed} {type : Ty} (h : HasType e type) :
    e.note.type = some type := by
  cases h with
  | place hp => exact hp
  | _ => rfl

namespace Resolution

theorem agrees_of_commonType? {types : List Ty} {element : Ty}
    (h : commonType? types = some element) : ∀ t ∈ types, t.agrees element = true := by
  cases types with
  | nil => cases h
  | cons first rest =>
    rw [commonType?] at h
    split at h
    · cases h
      exact List.forall_mem_cons.mpr ⟨Ty.agrees_refl _, List.all_eq_true.mp ‹_›⟩
    · cases h

theorem writePlace_takes {outer : Scope} {b b' : Body} {position : Position} {actual : Ty}
    {place : Place Position} {place' : Place Typed}
    (h : writePlace outer b position actual place = .ok (b', place')) : place'.Takes actual := by
  cases place with
  | whole p name written =>
    obtain ⟨type, bound, ht, hb, rfl⟩ := writePlace_whole h
    have hagrees := (bind_binding? hb).2
    rcases targetType_ok ht with ⟨rfl, rfl⟩ | ⟨ref, rfl, hr, ha⟩
    · exact .plain hagrees
    · exact .annotated hr ha (by rwa [Ty.agrees_comm])
  | element p name offset =>
    obtain ⟨held, -, -, ha, -, rfl⟩ := writePlace_element h
    exact .element (by rwa [Ty.agrees_comm])

theorem hasType_binary {op : BinaryOp} {left right : Expr Typed} {s t type : Ty}
    {position : Position} (hl : HasType left s) (hr : HasType right t)
    (h : binaryType op s t position = .ok type) :
    HasType (.binary ⟨position, some type⟩ op left right) type := by
  unfold binaryType at h
  split at h
  · cases h
    exact .comparison ‹_› hl hr
  · rename_i hop
    rw [Bool.not_eq_true] at hop
    split at h
    · cases h
      rename_i ha
      rcases Ty.arithmetic?_eq_some ha with ⟨ho, rfl⟩ | ⟨hm, rfl⟩
      · exact .arithmetic hop hl hr ho
      · exact .mixed hop hl hr hm
    · exact absurd h mismatch_ne_ok

mutual
/-- The value of a resolved expression has the type that it was resolved with. -/
theorem value_hasType {outer : Scope} {b b' : Body} {e' : Expr Typed} {type : Ty} :
    (e : Expr Position) → value outer b e = .ok (b', e', type) → HasType e' type
  | .int _ _, h => by
    cases h
    exact .int
  | .float _ _, h => by
    cases h
    exact .float
  | .bool _ _, h => by
    cases h
    exact .bool
  | .string _ _, h => by
    cases h
    exact .string
  | .array _ elements, h => by
    obtain ⟨elements', types, hv, rfl, rfl⟩ := value_array h
    exact .array (values_hasType elements hv) fun e he => agrees_of_commonType? he
  | .place _, h => by
    obtain ⟨place', hp, -, rfl⟩ := value_place h
    exact .place (readPlace_note hp)
  | .call _ _ arguments, h => by
    obtain ⟨arguments', types, symbol, hv, -, -, rfl⟩ := value_call h
    exact .call (values_hasType arguments hv)
  | .binary _ _ left right, h => by
    obtain ⟨b₁, left', leftType, right', rightType, hl, hr, ht, rfl⟩ := value_binary h
    exact hasType_binary (value_hasType left hl) (value_hasType right hr) ht
  | .sign _ _ operand, h => by
    obtain ⟨operand', ho, hn, rfl⟩ := value_sign h
    exact .sign (Ty.isNumeric_iff.mp hn) (value_hasType operand ho)
  | .assign _ _ source, h => by
    obtain ⟨b₁, source', target', hv, hw, rfl⟩ := value_assign h
    exact .assign (value_hasType source hv) (writePlace_takes hw)

theorem values_hasType {outer : Scope} {b b' : Body} {es' : List (Expr Typed)}
    {types : List Ty} :
    (es : List (Expr Position)) → values outer b es = .ok (b', es', types) →
    List.Forall₂ HasType es' types
  | [], h => by
    cases h
    exact .nil
  | e :: es, h => by
    obtain ⟨b₁, first, type, rest, more, he, hes, rfl, rfl⟩ := values_cons h
    exact .cons (value_hasType e he) (values_hasType es hes)
end

theorem alone_wellTyped {outer : Scope} {b b' : Body} {e : Expr Position} {e' : Expr Typed}
    (result : Option Ty) (h : alone outer b e = .ok (b', e')) :
    (Stmt.expr e').WellTyped result := by
  rcases alone_cases h with ⟨position, name, written, type, bound, -, -, -, rfl⟩ |
    ⟨position, function, arguments, arguments', types, symbol, -, hv, -, rfl⟩ | ⟨type, hv, -⟩
  · exact .value (.place rfl)
  · have ha := values_hasType arguments hv
    cases symbol.result with
    | none => exact .call ha
    | some type => exact .value (.call ha)
  · exact .value (value_hasType e hv)

mutual
/-- What a statement leaves in its function follows the rules for the result of that function. -/
theorem statement_wellTyped {ctx : Context} {p p' : Progress} {out : List (Stmt Typed)} :
    (s : Stmt Position) → statement ctx p s = .ok (p', out) →
    ∀ s' ∈ out, s'.WellTyped ctx.result
  | .function _ _ _, h => by
    obtain ⟨_, _, _, _, _, _, -, -, -, -, -, -, -, -, rfl⟩ := statement_function h
    exact List.forall_mem_nil _
  | .declare _ _, h => by
    obtain ⟨_, _, -, -, -, -, -, -, -, rfl⟩ := statement_declare h
    exact List.forall_mem_nil _
  | .branch _ condition thenBody elseBody, h => by
    obtain ⟨b, condition', type, p₁, thenBody', elseBody', hc, ht, he, rfl⟩ := statement_branch h
    exact List.forall_mem_singleton.mpr
      (.branch (value_hasType condition hc) (block_wellTyped thenBody ht)
        (block_wellTyped elseBody he))
  | .loop _ condition body, h => by
    obtain ⟨b, condition', type, body', hc, hb, rfl⟩ := statement_loop h
    exact List.forall_mem_singleton.mpr
      (.loop (value_hasType condition hc) (block_wellTyped body hb))
  | .give _ _, h => by
    rcases statement_give h with ⟨-, hn, -, rfl⟩ | ⟨e, b, e', type, expected, -, hv, hx, ha, -, rfl⟩
    · exact List.forall_mem_singleton.mpr (.leave hn)
    · exact List.forall_mem_singleton.mpr (.give hx (value_hasType e hv) ha)
  | .expr _, h => by
    obtain ⟨b, e', ha, -, rfl⟩ := statement_expr h
    exact List.forall_mem_singleton.mpr (alone_wellTyped ctx.result ha)

theorem block_wellTyped {ctx : Context} {p p' : Progress} {out : List (Stmt Typed)} :
    (ss : List (Stmt Position)) → block ctx p ss = .ok (p', out) →
    ∀ s' ∈ out, s'.WellTyped ctx.result
  | [], h => by
    cases h
    exact List.forall_mem_nil _
  | s :: ss, h => by
    obtain ⟨p₁, first, rest, hs, hss, rfl⟩ := block_cons h
    exact List.forall_mem_append.mpr ⟨statement_wellTyped s hs, block_wellTyped ss hss⟩
end

/-- The statements of every function of a result follow the typing rules for its result. -/
theorem program_wellTyped {entry : String} {p : Program Position} {r : Result}
    {log : List Event} (h : program entry p = .ok (r, log)) :
    ∀ F ∈ r.routines, ∀ s ∈ F.statements, s.WellTyped F.result := by
  intro F hF
  obtain ⟨name, -, hb⟩ := program_made h F hF
  exact block_wellTyped _ hb

/-- Returns at several depths, an array that is partly open, and a call without a result. -/
def typedSource : List String :=
  ["function scale(x: float, n: int) : float", "while n > 0", "return x * n", "end", "return -x",
    "end", "function fill(xs: array)", "xs[0] <- 1", "return", "end",
    "rows: array <- [[1], []]", "fill(rows)", "y: float", "y <- scale(scale(y, 2), 3)"]

theorem typedSource_wellTyped : ∃ p r log, program "main" p = .ok (r, log) ∧
    (r.routines.map fun F => (F.name, F.result, F.statements.length)) =
      [("scale(float,int)", some .float, 2), ("fill(array)", none, 2), ("main", none, 4)] ∧
    ∀ F ∈ r.routines, ∀ s ∈ F.statements, s.WellTyped F.result := by
  obtain ⟨p, r, ⟨_, log, -, -, h⟩, hs⟩ := resolves_of_any "main" typedSource
    (fun (_, r) => (r.routines.map fun F => (F.name, F.result, F.statements.length)) =
      [("scale(float,int)", some .float, 2), ("fill(array)", none, 2), ("main", none, 4)])
    (by decide +kernel)
  exact ⟨p, r, log, h, of_decide_eq_true hs, program_wellTyped h⟩

end Resolution
end AlgoFrontEnd
