import AlgoFrontEnd.Proofs.Grammar.Layout
import AlgoFrontEnd.Proofs.Resolution.Typing

/-! What array literals know of their elements. Main statement: every literal of an accepted program
takes the type of its first element if the others agree with it, and this does not depend on their
order exactly if any two of them agree. -/
namespace AlgoFrontEnd
open Resolution

/-- An array literal with the types that it and its elements carry. -/
structure ArrayLiteral where
  position : Position
  type : Option Ty
  elements : List (Option Ty)
  deriving DecidableEq, Repr

mutual
/-- The array literals of a resolved expression, each after those in its elements. -/
def Expr.literals : Expr Typed → List ArrayLiteral
  | .int _ _ | .float _ _ | .bool _ _ | .string _ _ | .place _ => []
  | .array note elements =>
    Expr.literalsAll elements ++ [⟨note.position, note.type, elements.map (·.note.type)⟩]
  | .call _ _ arguments => Expr.literalsAll arguments
  | .binary _ _ left right => left.literals ++ right.literals
  | .sign _ _ operand => operand.literals
  | .assign _ _ value => value.literals

def Expr.literalsAll : List (Expr Typed) → List ArrayLiteral
  | [] => []
  | e :: es => e.literals ++ Expr.literalsAll es
end

/-- The array literals of a function at any depth. -/
def Routine.literals (F : Routine) : List ArrayLiteral :=
  (Stmt.exprsAll F.statements).flatMap Expr.literals

/-- A literal has the type that is found for elements of these types. -/
structure ArrayLiteral.Holds (a : ArrayLiteral) (types : List Ty) : Prop where
  elements : a.elements = types.map some
  type : a.type = some (.arrayWith (commonType? types))

/-- Any two of the types agree. -/
def AllAgree (types : List Ty) : Prop := ∀ s ∈ types, ∀ t ∈ types, s.agrees t = true

/-- What a literal knows of elements of these types: the type of the first one, if the others agree
with it. Then any two agree if that type leaves nothing open, and in general exactly if a type would
be known in every order of the elements. -/
structure ArrayLiteral.Knows (a : ArrayLiteral) (types : List Ty) : Prop extends a.Holds types where
  known : ∀ element, a.type = some (.arrayOf element) ↔
    types.head? = some element ∧ ∀ t ∈ types, t.agrees element = true
  closed : ∀ element, a.type = some (.arrayOf element) → element.isClosed = true → AllAgree types
  everyOrder : (∀ us, us.Perm types → (commonType? us).isSome = true) ↔
    types ≠ [] ∧ AllAgree types

namespace Resolution

/-! ### Types of elements -/

section
variable {types : List Ty}

/-- The common type is that of the first element, if the others agree with it. -/
theorem commonType?_eq_some_iff {element : Ty} :
    commonType? types = some element ↔
      types.head? = some element ∧ ∀ t ∈ types, t.agrees element = true := by
  refine ⟨fun h => ⟨?_, agrees_of_commonType? h⟩, fun ⟨hfirst, hall⟩ => ?_⟩
  · cases types with
    | nil => cases h
    | cons first rest =>
      rw [commonType?] at h
      split at h
      · exact h
      · cases h
  · cases types with
    | nil => cases hfirst
    | cons first rest =>
      cases hfirst
      exact if_pos (List.all_eq_true.mpr (List.forall_mem_cons.mp hall).2)

/-- With a first element that leaves nothing open, any two elements agree. -/
theorem allAgree_of_isClosed {element : Ty} (hc : element.isClosed = true)
    (h : commonType? types = some element) : AllAgree types := by
  intro s hs t ht
  have hagree := (commonType?_eq_some_iff.mp h).2
  exact Ty.agrees_trans_of_isClosed hc (hagree s hs) (by rw [Ty.agrees_comm]; exact hagree t ht)

/-- A common type is found in every order of the elements exactly if any two of them agree. -/
theorem known_in_every_order_iff :
    (∀ us, us.Perm types → (commonType? us).isSome = true) ↔ types ≠ [] ∧ AllAgree types := by
  constructor
  · intro h
    refine ⟨?_, fun s hs t ht => ?_⟩
    · rintro rfl
      cases h [] (.refl [])
    · -- every element can be put first
      have hp := List.perm_cons_erase ht
      obtain ⟨element, he⟩ := Option.isSome_iff_exists.mp (h _ hp.symm)
      obtain ⟨hfirst, hall⟩ := commonType?_eq_some_iff.mp he
      cases hfirst
      exact hall s (hp.mem_iff.mp hs)
  · rintro ⟨hn, ha⟩ us hp
    cases us with
    | nil => exact absurd hp.symm.eq_nil hn
    | cons first rest =>
      have hfirst := hp.mem_iff.mp (List.mem_cons_self ..)
      have he : commonType? (first :: rest) = some first :=
        commonType?_eq_some_iff.mpr ⟨rfl, fun t ht => ha t (hp.mem_iff.mp ht) first hfirst⟩
      rw [he]
      rfl

end

/-! ### Literals in values -/

/-- Every literal in expressions has the type that is found for its elements. -/
def LiteralsHold (literals : List ArrayLiteral) : Prop := ∀ a ∈ literals, ∃ types, a.Holds types

theorem LiteralsHold.append {as bs : List ArrayLiteral} (ha : LiteralsHold as)
    (hb : LiteralsHold bs) : LiteralsHold (as ++ bs) :=
  List.forall_mem_append.mpr ⟨ha, hb⟩

mutual
theorem value_literals {outer : Scope} {b b' : Body} {e' : Expr Typed} {type : Ty} :
    (e : Expr Position) → value outer b e = .ok (b', e', type) → LiteralsHold e'.literals
  | .int _ _, h | .float _ _, h | .bool _ _, h | .string _ _, h => by
    cases h
    exact List.forall_mem_nil _
  | .array _ elements, h => by
    obtain ⟨elements', types, hv, rfl, rfl⟩ := value_array h
    obtain ⟨-, -, ht, -⟩ := values_selected elements hv
    exact (values_literals elements hv).append (List.forall_mem_singleton.mpr ⟨types, ht, rfl⟩)
  | .place _, h => by
    obtain ⟨place', -, -, rfl⟩ := value_place h
    exact List.forall_mem_nil _
  | .call _ _ arguments, h => by
    obtain ⟨arguments', types, symbol, hv, -, -, rfl⟩ := value_call h
    exact values_literals arguments hv
  | .binary _ _ left right, h => by
    obtain ⟨b₁, left', leftType, right', rightType, hl, hr, -, rfl⟩ := value_binary h
    exact (value_literals left hl).append (value_literals right hr)
  | .sign _ _ operand, h => by
    obtain ⟨operand', ho, -, rfl⟩ := value_sign h
    rw [Expr.literals]
    exact value_literals operand ho
  | .assign _ _ source, h => by
    obtain ⟨b₁, source', target', hv, -, rfl⟩ := value_assign h
    rw [Expr.literals]
    exact value_literals source hv

theorem values_literals {outer : Scope} {b b' : Body} {es' : List (Expr Typed)}
    {types : List Ty} :
    (es : List (Expr Position)) → values outer b es = .ok (b', es', types) →
    LiteralsHold (Expr.literalsAll es')
  | [], h => by
    cases h
    exact List.forall_mem_nil _
  | e :: es, h => by
    obtain ⟨b₁, first, type, rest, more, he, hes, rfl, -⟩ := values_cons h
    exact (value_literals e he).append (values_literals es hes)
end

theorem alone_literals {outer : Scope} {b b' : Body} {e : Expr Position} {e' : Expr Typed}
    (h : alone outer b e = .ok (b', e')) : LiteralsHold e'.literals := by
  rcases alone_cases h with ⟨_, _, _, _, _, -, -, -, rfl⟩ |
    ⟨_, _, arguments, _, _, _, -, hv, -, rfl⟩ | ⟨type, hv, -⟩
  · exact List.forall_mem_nil _
  · exact values_literals arguments hv
  · exact value_literals e hv

/-! ### Expressions of functions -/

/-- What the value of an expression has become, or a line of its own. -/
inductive Resolved : Expr Typed → Prop where
  | value {outer : Scope} {b b' : Body} {source : Expr Position} {e : Expr Typed} {type : Ty}
      (h : Resolution.value outer b source = .ok (b', e, type)) : Resolved e
  | alone {outer : Scope} {b b' : Body} {source : Expr Position} {e : Expr Typed}
      (h : Resolution.alone outer b source = .ok (b', e)) : Resolved e

mutual
/-- The expressions that a statement leaves in its function have been resolved. -/
theorem statement_resolved {ctx : Context} {p p' : Progress} {out : List (Stmt Typed)} :
    (s : Stmt Position) → statement ctx p s = .ok (p', out) →
    ∀ e ∈ Stmt.exprsAll out, Resolved e
  | .function _ _ _, h => by
    obtain ⟨_, _, _, _, _, _, -, -, -, -, -, -, -, -, rfl⟩ := statement_function h
    exact List.forall_mem_nil _
  | .declare _ _, h => by
    obtain ⟨_, _, -, -, -, -, -, -, -, rfl⟩ := statement_declare h
    exact List.forall_mem_nil _
  | .branch _ condition thenBody elseBody, h => by
    obtain ⟨b, condition', type, p₁, thenBody', elseBody', hc, ht, he, rfl⟩ := statement_branch h
    simp only [Stmt.exprsAll, Stmt.exprs, List.append_nil, List.cons_append, List.forall_mem_cons,
      List.forall_mem_append]
    exact ⟨.value hc, block_resolved thenBody ht, block_resolved elseBody he⟩
  | .loop _ condition body, h => by
    obtain ⟨b, condition', type, body', hc, hb, rfl⟩ := statement_loop h
    simp only [Stmt.exprsAll, Stmt.exprs, List.append_nil, List.forall_mem_cons]
    exact ⟨.value hc, block_resolved body hb⟩
  | .give _ _, h => by
    rcases statement_give h with ⟨-, -, -, rfl⟩ | ⟨e, b, e', type, expected, -, hv, -, -, -, rfl⟩
    · exact List.forall_mem_nil _
    · exact List.forall_mem_singleton.mpr (.value hv)
  | .expr _, h => by
    obtain ⟨b, e', ha, -, rfl⟩ := statement_expr h
    exact List.forall_mem_singleton.mpr (.alone ha)

theorem block_resolved {ctx : Context} {p p' : Progress} {out : List (Stmt Typed)} :
    (ss : List (Stmt Position)) → block ctx p ss = .ok (p', out) →
    ∀ e ∈ Stmt.exprsAll out, Resolved e
  | [], h => by
    cases h
    exact List.forall_mem_nil _
  | s :: ss, h => by
    obtain ⟨p₁, first, rest, hs, hss, rfl⟩ := block_cons h
    rw [Stmt.exprsAll_append]
    exact List.forall_mem_append.mpr ⟨statement_resolved s hs, block_resolved ss hss⟩
end

theorem program_resolved {entry : String} {p : Program Position} {r : Result} {log : List Event}
    (h : program entry p = .ok (r, log)) :
    ∀ F ∈ r.routines, ∀ e ∈ Stmt.exprsAll F.statements, Resolved e := by
  intro F hF
  obtain ⟨name, -, hb⟩ := program_made h F hF
  exact block_resolved _ hb

theorem Resolved.literals {e : Expr Typed} (h : Resolved e) : LiteralsHold e.literals := by
  cases h with
  | value h => exact value_literals _ h
  | alone h => exact alone_literals h

theorem arrayWith_eq_arrayOf_iff {known : Option Ty} {element : Ty} :
    Ty.arrayWith known = .arrayOf element ↔ known = some element := by
  cases known <;> simp [Ty.arrayWith]

/-- Every array literal of an accepted program knows of its elements what their types say. -/
theorem program_literals {entry : String} {p : Program Position} {r : Result} {log : List Event}
    (h : program entry p = .ok (r, log)) :
    ∀ F ∈ r.routines, ∀ a ∈ F.literals, ∃ types, a.Knows types := by
  intro F hF a ha
  obtain ⟨e, he, hae⟩ := List.mem_flatMap.mp ha
  obtain ⟨types, ht⟩ := (program_resolved h F hF e he).literals a hae
  have hknown (element : Ty) :
      a.type = some (.arrayOf element) ↔ commonType? types = some element := by
    rw [ht.type, Option.some.injEq, arrayWith_eq_arrayOf_iff]
  refine ⟨types, ht, fun element => ?_, fun element hk hc => ?_, known_in_every_order_iff⟩
  · rw [hknown, commonType?_eq_some_iff]
  · exact allAgree_of_isClosed hc ((hknown element).mp hk)

/-- Literals in an argument, in a condition and inside others: with and without a common type. -/
def rowsSource : List String :=
  ["function f(rows: array)", "while rows == [[1, 2], []]", "return", "end", "end",
    "f([1, \"a\"])"]

theorem rowsSource_literals : ∃ p r log, program "main" p = .ok (r, log) ∧
    (r.routines.map fun F => F.literals.map fun a => (a.type, a.elements)) =
      [[(some (.arrayOf .int), [some .int, some .int]), (some .array, []),
        (some (.arrayOf (.arrayOf .int)), [some (.arrayOf .int), some .array])],
        [(some .array, [some .int, some .string])]] ∧
    ∀ F ∈ r.routines, ∀ a ∈ F.literals, ∃ types, a.Knows types := by
  obtain ⟨p, r, ⟨_, log, -, -, h⟩, hs⟩ := resolves_of_any "main" rowsSource
    (fun (_, r) => (r.routines.map fun F => F.literals.map fun a => (a.type, a.elements)) =
      [[(some (.arrayOf .int), [some .int, some .int]), (some .array, []),
        (some (.arrayOf (.arrayOf .int)), [some (.arrayOf .int), some .array])],
        [(some .array, [some .int, some .string])]]) (by decide +kernel)
  exact ⟨p, r, log, h, of_decide_eq_true hs, program_literals h⟩

/-- An empty array in front of arrays that do not agree, and between them. -/
def partialRowsSource : List String := ["xs <- [[], [1], [1.5]]", "ys <- [[1], [], [1.5]]"]

/-- The first literal knows a type of its elements, though two of them do not agree, and the second
one with the same elements in another order knows none. -/
theorem partialRowsSource_ordered : ∃ p r, Resolves "main" partialRowsSource p r ∧
    ∃ F ∈ r.routines, ∃ a ∈ F.literals, ∃ a' ∈ F.literals,
      a.elements = [some .array, some (.arrayOf .int), some (.arrayOf .float)] ∧
      (Ty.arrayOf .int).agrees (.arrayOf .float) = false ∧ a.type = some (.arrayOf .array) ∧
      a'.elements.Perm a.elements ∧ a'.type = some .array := by
  obtain ⟨p, r, h, hd⟩ := resolves_of_any "main" partialRowsSource
    (fun (_, r) => ∃ F ∈ r.routines, ∃ a ∈ F.literals, ∃ a' ∈ F.literals,
      a.elements = [some .array, some (.arrayOf .int), some (.arrayOf .float)] ∧
      (Ty.arrayOf .int).agrees (.arrayOf .float) = false ∧ a.type = some (.arrayOf .array) ∧
      a'.elements.Perm a.elements ∧ a'.type = some .array) (by decide +kernel)
  exact ⟨p, r, h, of_decide_eq_true hd⟩

end Resolution
end AlgoFrontEnd
