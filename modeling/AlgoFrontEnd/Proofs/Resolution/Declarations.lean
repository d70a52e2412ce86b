import AlgoFrontEnd.Proofs.Resolution.Definitions
import AlgoFrontEnd.Proofs.Scope.History

/-! The definitions and headers of each scope of a program. Main statement: those of one signature
keep to a protocol in every scope, and the headers without a definition are the external functions
of the result. -/
namespace AlgoFrontEnd
open Resolution

/-- A definition or a header as a declaration of the scope that it stands in. -/
structure Declaration where
  implemented : Bool
  position : Position
  header : Header Position

/-- The symbol that is declared inside the functions of a path, if the types in it are known. -/
def Declaration.symbol? (path : List Signature) (d : Declaration) : Option Symbol := do
  let s ← d.header.signature?
  let result ← d.header.result.mapM TypeRef.type?
  return ⟨s, result, d.implemented, Signature.pathText (path ++ [s]), some d.position⟩

mutual
/-- What a statement declares in the scope that it stands in. Branches and loops have no scope of
their own. -/
def Stmt.declarations : Stmt Position → List Declaration
  | .function position header _ => [⟨true, position, header⟩]
  | .declare position header => [⟨false, position, header⟩]
  | .branch _ _ thenBody elseBody =>
    Stmt.declarationsAll thenBody ++ Stmt.declarationsAll elseBody
  | .loop _ _ body => Stmt.declarationsAll body
  | .give _ _ | .expr _ => []

def Stmt.declarationsAll : List (Stmt Position) → List Declaration
  | [] => []
  | s :: ss => s.declarations ++ Stmt.declarationsAll ss
end

/-- A scope of a program: the body of a function or the program itself, with the headers of the
functions that it lies in. -/
structure Region where
  around : List (Header Position)
  body : List (Stmt Position)

def Definition.region (d : Definition) : Region := ⟨d.around ++ [d.header], d.body⟩

/-- The scope outside of all functions and those of the functions. -/
def Program.regions (p : Program Position) : List Region :=
  ⟨[], p⟩ :: p.definitions.map Definition.region

/-- The symbols that are declared in a scope, if all types are known. -/
def Region.symbols? (g : Region) : Option (List Symbol) := do
  let path ← g.around.mapM Header.signature?
  (Stmt.declarationsAll g.body).mapM (Declaration.symbol? path)

/-- Under every signature a scope keeps to the protocol, and a function declares no headers. -/
def Region.Orderly (g : Region) : Prop :=
  ∃ fs, g.symbols? = some fs ∧ (∀ s : Signature, Protocol (s.among fs)) ∧
    (g.around ≠ [] → ∀ f ∈ fs, f.implemented = true)

namespace Resolution

theorem symbol?_of_headerTypes {position : Position} {h : Header Position} {s : Signature}
    {result : Option Ty} (hh : headerTypes position h = .ok (s, result)) (path : List Signature)
    (implemented : Bool) :
    Declaration.symbol? path ⟨implemented, position, h⟩ =
      some ⟨s, result, implemented, Signature.pathText (path ++ [s]), some position⟩ := by
  obtain ⟨hs, hr⟩ := headerTypes_spelled hh
  have hr : h.result.mapM TypeRef.type? = some result := by
    cases hw : h.result <;> cases result <;> simp_all
  simp [Declaration.symbol?, hs, hr]

theorem records_of_bare {l l' : Level} (h : l'.bare = l.bare) {fs : List Symbol}
    (hl : l.Records fs) : l'.Records fs := by
  obtain ⟨path, bindings, functions⟩ := l
  obtain ⟨path', bindings', functions'⟩ := l'
  simp only [Level.bare, Level.mk.injEq, true_and] at h
  obtain ⟨rfl, rfl⟩ := h
  exact ⟨hl.apart, hl.protocol, hl.last, hl.unimplemented⟩

/-- A level has got the symbols of these declarations, whatever it had got before. -/
structure Declares (path : List Signature) (outer : Scope) (l l' : Level) (ds : List Declaration) :
    Prop where
  path_eq : l'.path = l.path
  symbols : ∃ new, ds.mapM (Declaration.symbol? path) = some new ∧
    (∀ fs, l.Records fs → l'.Records (fs ++ new)) ∧ (outer ≠ [] → ∀ f ∈ new, f.implemented = true)

section
variable {path : List Signature} {outer : Scope} {l l₁ l₂ : Level} {ds ds' : List Declaration}

theorem Declares.append (h : Declares path outer l l₁ ds) (h' : Declares path outer l₁ l₂ ds') :
    Declares path outer l l₂ (ds ++ ds') := by
  obtain ⟨new, hd, hr, hi⟩ := h.symbols
  obtain ⟨new', hd', hr', hi'⟩ := h'.symbols
  refine ⟨h'.path_eq.trans h.path_eq, new ++ new', by simp [List.mapM_append, hd, hd'], ?_, ?_⟩
  · intro fs hfs
    rw [← List.append_assoc]
    exact hr' _ (hr fs hfs)
  · exact fun ho => List.forall_mem_append.mpr ⟨hi ho, hi' ho⟩

theorem Declares.of_bare (h : l₁.bare = l.bare) : Declares path outer l l₁ [] := by
  have hp := congrArg Level.path h
  refine ⟨hp, [], rfl, fun fs hfs => ?_, fun _ => List.forall_mem_nil _⟩
  rw [List.append_nil]
  exact records_of_bare h hfs

/-- A header or a definition is registered where it is admitted. -/
theorem Declares.enter {implemented : Bool} {position : Position} {h : Header Position}
    {s : Signature} {result : Option Ty} (hh : headerTypes position h = .ok (s, result))
    (hp : l.path = Signature.pathText path)
    (ha : ∀ known ∈ l.function? s, known.implemented = false ∧ implemented = true ∧
      sameResult known.result result = true) (ho : outer ≠ [] → implemented = true) :
    Declares path outer l (l.enter implemented position h) [⟨implemented, position, h⟩] := by
  have hs := symbol?_of_headerTypes hh path implemented
  refine ⟨path_enter .., [_], by rw [List.mapM_cons, hs]; rfl, fun fs hfs => ?_, ?_⟩
  · rw [enter_eq hh, Level.mangle_eq_pathText hp]
    exact hfs.register ha
  · exact fun hne => List.forall_mem_singleton.mpr (ho hne)

end

/-! ### Statements -/

/-- What a part of a program declares in the scope that it stands in, and the functions inside it,
the scopes of which are finished. -/
structure Surveys (path : List Signature) (outer : Scope) (p p' : Progress)
    (ds : List Declaration) (inside : List Definition) : Prop where
  own : Declares path outer p.body.level p'.body.level ds
  inside : ∀ d ∈ inside, d.region.Orderly

section
variable {path : List Signature} {outer : Scope}

theorem Surveys.append {p p₁ p₂ : Progress} {ds ds' : List Declaration}
    {inside inside' : List Definition} (h : Surveys path outer p p₁ ds inside)
    (h' : Surveys path outer p₁ p₂ ds' inside') :
    Surveys path outer p p₂ (ds ++ ds') (inside ++ inside') :=
  ⟨h.own.append h'.own, List.forall_mem_append.mpr ⟨h.inside, h'.inside⟩⟩

theorem Surveys.of_body {p : Progress} {b : Body} (h : b.level.bare = p.body.level.bare) :
    Surveys path outer p { p with body := b } [] [] :=
  ⟨.of_bare h, List.forall_mem_nil _⟩

end

theorem orderly_of_declares {g : Region} {path : List Signature} {outer : Scope} {l l' : Level}
    (ha : g.around.mapM Header.signature? = some path) (hl : l.Records [])
    (ho : g.around ≠ [] → outer ≠ [])
    (h : Declares path outer l l' (Stmt.declarationsAll g.body)) : g.Orderly := by
  obtain ⟨-, fs, hd, hr, hi⟩ := h
  exact ⟨fs, by simp [Region.symbols?, ha, hd], (hr [] hl).protocol, fun hg => hi (ho hg)⟩

mutual
/-- A statement that is resolved has registered what it declares, and the scopes inside it are
in order. -/
theorem statement_surveys {ctx : Context} {p p' : Progress} {out : List (Stmt Typed)}
    (around : List (Header Position)) {path : List Signature}
    (ha : around.mapM Header.signature? = some path) :
    (s : Stmt Position) → p.body.level.path = Signature.pathText path →
    statement ctx p s = .ok (p', out) →
    Surveys path ctx.outer p p' s.declarations (s.definitions around)
  | .function position header body, hp, h => by
    obtain ⟨s, result, bound, log, last, statements, hh, hc, hb, hbody, hl, -⟩ :=
      statement_function h
    have haround := mapM_signature?_concat ha hh
    have hbare := bare_of_bindParameters hp hh hb
    have hpath := congrArg Level.path hbare
    have hinner := block_surveys (around ++ [header]) haround body hpath hbody
    refine ⟨?_, List.forall_mem_append.mpr ⟨hinner.inside, List.forall_mem_singleton.mpr ?_⟩⟩
    · rw [hl]
      refine .enter hh hp (fun known hk => ?_) fun _ => rfl
      obtain ⟨hi, hr⟩ := checkDefinition_ok hc hk
      exact ⟨hi, rfl, hr⟩
    · have hrecords : bound.level.Records [] := .nil (congrArg Level.functions hbare)
      exact orderly_of_declares haround hrecords (fun _ => List.cons_ne_nil _ _) hinner.own
  | .declare position header, hp, h => by
    obtain ⟨s, result, hh, ho, hn, hl, -⟩ := statement_declare h
    refine ⟨?_, List.forall_mem_nil _⟩
    rw [hl]
    refine .enter hh hp (fun known hk => ?_) fun hne => absurd ho hne
    rw [hn] at hk
    cases hk
  | .branch _ condition thenBody elseBody, hp, h => by
    obtain ⟨b, condition', type, p₁, thenBody', elseBody', hc, ht, he, -⟩ := statement_branch h
    have h₀ : Surveys path ctx.outer p { p with body := b } [] [] :=
      .of_body (value_selected condition hc).1
    have h₁ := h₀.append (block_surveys around ha thenBody (h₀.own.path_eq.trans hp) ht)
    exact h₁.append (block_surveys around ha elseBody (h₁.own.path_eq.trans hp) he)
  | .loop _ condition body, hp, h => by
    obtain ⟨b, condition', type, body', hc, hb, -⟩ := statement_loop h
    have h₀ : Surveys path ctx.outer p { p with body := b } [] [] :=
      .of_body (value_selected condition hc).1
    exact h₀.append (block_surveys around ha body (h₀.own.path_eq.trans hp) hb)
  | .give _ e, _, h => by
    rcases statement_give h with ⟨-, -, rfl, -⟩ | ⟨e₁, b, e', type, _, -, hv, -, -, rfl, -⟩
    · exact .of_body rfl
    · exact .of_body (value_selected e₁ hv).1
  | .expr e, _, h => by
    obtain ⟨b, e', he, rfl, -⟩ := statement_expr h
    exact .of_body (alone_selected he).1

theorem block_surveys {ctx : Context} {p p' : Progress} {out : List (Stmt Typed)}
    (around : List (Header Position)) {path : List Signature}
    (ha : around.mapM Header.signature? = some path) :
    (ss : List (Stmt Position)) → p.body.level.path = Signature.pathText path →
    block ctx p ss = .ok (p', out) →
    Surveys path ctx.outer p p' (Stmt.declarationsAll ss) (Stmt.definitionsAll around ss)
  | [], _, h => by
    cases h
    exact .of_body rfl
  | s :: ss, hp, h => by
    obtain ⟨p₁, first, rest, hs, hss, -⟩ := block_cons h
    have h₁ := statement_surveys around ha s hp hs
    exact h₁.append (block_surveys around ha ss (h₁.own.path_eq.trans hp) hss)
end

/-! ### Results -/

theorem records_global : Level.global.Records [] := .nil rfl

/-- In every scope of an accepted program the declarations of one signature are a definition, a
header, or a header and then its definition with the same result, and only the outermost scope
has headers. The external functions are its headers without a definition there, in their order. -/
theorem declarations_orderly {entry : String} {p : Program Position} {r : Result}
    {log : List Event} (h : program entry p = .ok (r, log)) :
    (∀ g ∈ p.regions, g.Orderly) ∧
    ∃ fs, (Region.mk [] p).symbols? = some fs ∧ r.externals = fs.filter (·.isUnmet fs) ∧
      r.externals.Pairwise fun f g => f.signature.same g.signature = false := by
  obtain ⟨last, statements, hb, he, -⟩ := program_ok h
  obtain ⟨hown, hinside⟩ := block_surveys [] rfl p rfl hb
  refine ⟨List.forall_mem_cons.mpr ⟨?_, List.forall_mem_map.mpr hinside⟩, ?_⟩
  · exact orderly_of_declares rfl records_global (fun hg => absurd rfl hg) hown
  · obtain ⟨-, fs, hd, hr, -⟩ := hown
    have hlast := hr [] records_global
    refine ⟨fs, hd, he.trans hlast.unimplemented, ?_⟩
    rw [he]
    exact hlast.apart.sublist List.filter_sublist

/-- A header that is met in a branch, one that is met only inside a function, an overload, and a
definition inside a function under the signature of a header outside. -/
def protocolSource : List String :=
  ["declare function f(xs: int[]) : int[]", "declare function g()", "declare function h(x: int)",
    "f([1])", "while true", "function f(xs: float[]) : array", "function g()", "end", "g()",
    "return xs", "end", "function h(x: bool)", "function h(x: int)", "end", "end", "end", "g()"]

theorem protocolSource_orderly : ∃ p r log, program "main" p = .ok (r, log) ∧
    (p.regions.map fun g => g.symbols?.map fun fs =>
        fs.map fun f => (f.signature.text, f.implemented)) =
      [some [("f(array)", false), ("g()", false), ("h(int)", false), ("f(array)", true),
          ("h(bool)", true)], some [], some [("g()", true)], some [], some [("h(int)", true)]] ∧
    r.externals.map (·.signature.text) = ["g()", "h(int)"] ∧
    (∀ g ∈ p.regions, g.Orderly) ∧
    ∃ fs, (Region.mk [] p).symbols? = some fs ∧ r.externals = fs.filter (·.isUnmet fs) ∧
      r.externals.Pairwise fun f g => f.signature.same g.signature = false := by
  obtain ⟨p, r, ⟨_, log, -, -, h⟩, hs⟩ := resolves_of_any "main" protocolSource
    (fun (p, r) => (p.regions.map fun g => g.symbols?.map fun fs =>
        fs.map fun f => (f.signature.text, f.implemented)) =
      [some [("f(array)", false), ("g()", false), ("h(int)", false), ("f(array)", true),
          ("h(bool)", true)], some [], some [("g()", true)], some [], some [("h(int)", true)]] ∧
    r.externals.map (·.signature.text) = ["g()", "h(int)"]) (by decide +kernel)
  obtain ⟨hregions, hexternals⟩ := of_decide_eq_true hs
  exact ⟨p, r, log, h, hregions, hexternals, declarations_orderly h⟩

end Resolution
end AlgoFrontEnd
