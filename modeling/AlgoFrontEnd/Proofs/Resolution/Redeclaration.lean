import AlgoFrontEnd.Proofs.Resolution.Declarations
import AlgoFrontEnd.Proofs.Resolution.Faults

/-! Declarations that are refused because their scope has declared the signature before. Main
statement: which of the earlier declarations the fault points to. -/
namespace AlgoFrontEnd
open Resolution

/-- A declaration of a scope under a signature that the scope has declared before: first with one
symbol, and perhaps with more. -/
structure Repetition (g : Region) where
  before : List Declaration
  again : Declaration
  after : List Declaration
  path : List Signature
  known : List Symbol
  symbol : Symbol
  first : Symbol
  more : List Symbol
  split : Stmt.declarationsAll g.body = before ++ again :: after
  inside : g.around.mapM Header.signature? = some path
  spelled_before : before.mapM (Declaration.symbol? path) = some known
  spelled_again : again.symbol? path = some symbol
  earlier : symbol.signature.among known = first :: more

/-- What a fault on a repetition points to: the first symbol of the signature, or the definition
that has taken its place. -/
def Repetition.Cites {g : Region} (c : Repetition g) (cited : Symbol) : Prop :=
  c.more = [] ∧ cited = c.first ∨
    c.more = [cited] ∧ c.first.implemented = false ∧ cited.implemented = true

namespace Resolution

theorem false_of_use {α : Type} {x : Except Fault α} {f : Fault} (hx : Fails Fault.isOfUse x)
    (h : x = .error f) (hf : f.cause.kind = .redeclaration) : False :=
  Fault.ne_redeclaration_of_isOfUse (hx f h) hf

theorem enterFunction_ok {l level : Level} {position : Position} {h : Header Position}
    {symbol : Symbol} (he : enterFunction l position h = .ok (level, symbol)) :
    headerTypes position h = .ok (symbol.signature, symbol.result) ∧
      symbol.mangled = l.mangle symbol.signature := by
  simp only [enterFunction, bind_eq_ok, pure_eq_ok, Prod.mk.injEq] at he
  obtain ⟨⟨s, result⟩, hh, -, -, -, rfl⟩ := he
  exact ⟨hh, rfl⟩

/-- Of some declarations in a scope, one comes too late. The fault is at its position and points to
the last symbol of the signature before it. -/
def Clashes (path : List Signature) (fs : List Symbol) (ds : List Declaration) (f : Fault) :
    Prop :=
  ∃ before again after new symbol known, ds = before ++ again :: after ∧
    before.mapM (Declaration.symbol? path) = some new ∧ again.symbol? path = some symbol ∧
    Protocol (symbol.signature.among (fs ++ new)) ∧
    (symbol.signature.among (fs ++ new)).getLast? = some known ∧
    f = ⟨.redeclaration symbol.signature.text known.position, some again.position⟩

section
variable {path : List Signature} {fs : List Symbol} {ds : List Declaration} {f : Fault}

theorem Clashes.append (h : Clashes path fs ds f) (ds' : List Declaration) :
    Clashes path fs (ds ++ ds') f := by
  obtain ⟨before, again, after, new, symbol, known, rfl, h⟩ := h
  exact ⟨before, again, after ++ ds', new, symbol, known, by simp, h⟩

theorem Clashes.after {ds₀ : List Declaration} {new : List Symbol}
    (h : Clashes path (fs ++ new) ds f)
    (hd : ds₀.mapM (Declaration.symbol? path) = some new) : Clashes path fs (ds₀ ++ ds) f := by
  obtain ⟨before, again, after, new', symbol, known, rfl, hb, hs, h⟩ := h
  rw [List.append_assoc] at h
  exact ⟨ds₀ ++ before, again, after, new ++ new', symbol, known, by simp,
    by simp [List.mapM_append, hd, hb], hs, h⟩

/-- A signature that is known at a level is taken there. -/
theorem Clashes.of_function? {l : Level} (hl : l.Records fs) {implemented : Bool}
    {position : Position} {h : Header Position} {s : Signature} {result : Option Ty}
    {known : Symbol} (hh : headerTypes position h = .ok (s, result))
    (hk : l.function? s = some known) :
    Clashes path fs [⟨implemented, position, h⟩]
      ⟨.redeclaration s.text known.position, some position⟩ := by
  refine ⟨[], _, [], [], _, known, rfl, rfl, symbol?_of_headerTypes hh path implemented, ?_⟩
  rw [List.append_nil]
  exact ⟨hl.protocol s, (hl.last s).symm.trans hk, rfl⟩

end

/-- A definition is refused as a second one where its signature is known. -/
theorem clashes_of_enterFunction {l : Level} {fs : List Symbol} (hl : l.Records fs)
    {position : Position} {h : Header Position} {f : Fault}
    (he : enterFunction l position h = .error f) (hf : f.cause.kind = .redeclaration)
    (path : List Signature) : Clashes path fs [⟨true, position, h⟩] f := by
  obtain he | ⟨⟨s, result⟩, hh, he⟩ := bind_eq_error.mp he
  · exact (false_of_use (fails_headerTypes position h) he hf).elim
  obtain hc | ⟨⟨⟩, -, ⟨⟩⟩ := bind_eq_error.mp he
  unfold checkDefinition at hc
  split at hc
  · cases hc
  · rename_i known hk
    split at hc
    · cases hc
      exact .of_function? hl hh hk
    · split at hc <;> cases hc
      cases hf

/-- A header is refused as a second one where its signature is known. -/
theorem clashes_of_declareHeader {ctx : Context} {l : Level} {fs : List Symbol}
    (hl : l.Records fs) {position : Position} {h : Header Position} {f : Fault}
    (he : declareHeader ctx l position h = .error f) (hf : f.cause.kind = .redeclaration)
    (path : List Signature) : Clashes path fs [⟨false, position, h⟩] f := by
  unfold declareHeader at he
  simp only at he
  split at he
  · obtain he | ⟨⟨s, result⟩, hh, he⟩ := bind_eq_error.mp he
    · exact (false_of_use (fails_headerTypes position h) he hf).elim
    · split at he
      · rename_i known hk
        cases he
        exact .of_function? hl hh hk
      · cases he
  · obtain he | ⟨⟨⟩, he, -⟩ := bind_eq_error.mp he
    · cases he
      cases hf
    · exact absurd he fault_ne_ok

/-! ### Statements -/

/-- A scope in which some declaration clashes with those before it. -/
def HasClash (g : Region) (f : Fault) : Prop :=
  ∃ path, g.around.mapM Header.signature? = some path ∧
    Clashes path [] (Stmt.declarationsAll g.body) f

/-- A fault comes of what a part of a program declares in the scope that it stands in, or of a
declaration inside one of its functions. -/
def ClashesIn (path : List Signature) (fs : List Symbol) (ds : List Declaration)
    (inside : List Definition) (f : Fault) : Prop :=
  Clashes path fs ds f ∨ ∃ d ∈ inside, HasClash d.region f

section
variable {path : List Signature} {fs : List Symbol} {ds ds' : List Declaration}
  {inside inside' : List Definition} {f : Fault}

theorem ClashesIn.append (h : ClashesIn path fs ds inside f) :
    ClashesIn path fs (ds ++ ds') (inside ++ inside') f := by
  rcases h with h | ⟨d, hd, h⟩
  · exact .inl (h.append ds')
  · exact .inr ⟨d, List.mem_append_left _ hd, h⟩

theorem ClashesIn.after {new : List Symbol} (h : ClashesIn path (fs ++ new) ds' inside' f)
    (hd : ds.mapM (Declaration.symbol? path) = some new) :
    ClashesIn path fs (ds ++ ds') (inside ++ inside') f := by
  rcases h with h | ⟨d, hd, h⟩
  · exact .inl (h.after hd)
  · exact .inr ⟨d, List.mem_append_right _ hd, h⟩

/-- What clashes in the body of a function does so in the scope of that function. -/
theorem ClashesIn.region {around : List (Header Position)} {header : Header Position}
    {body : List (Stmt Position)}
    (h : ClashesIn path [] (Stmt.declarationsAll body) inside f)
    (ha : (around ++ [header]).mapM Header.signature? = some path) :
    ∃ d ∈ inside ++ [⟨around, header, body⟩], HasClash d.region f := by
  rcases h with h | ⟨d, hd, h⟩
  · exact ⟨_, List.mem_append_right _ (List.mem_singleton_self _), path, ha, h⟩
  · exact ⟨d, List.mem_append_left _ hd, h⟩

end

mutual
/-- A statement that is refused for a second declaration has one that clashes with what its scope
has declared up to there. -/
theorem statement_clash {ctx : Context} {p : Progress} {stop : Stop} {fs : List Symbol}
    (around : List (Header Position)) {path : List Signature}
    (ha : around.mapM Header.signature? = some path)
    (hf : stop.fault.cause.kind = .redeclaration) :
    (s : Stmt Position) → p.body.level.path = Signature.pathText path →
    p.body.level.Records fs → statement ctx p s = .error stop →
    ClashesIn path fs s.declarations (s.definitions around) stop.fault
  | .function position header body, hp, hl, h => by
    rw [statement] at h
    obtain h | ⟨⟨level, symbol⟩, he, h⟩ := bind_eq_error.mp h
    · exact .inl (clashes_of_enterFunction hl (attempt_eq_error h) hf path)
    obtain h | ⟨bound, hb, h⟩ := bind_eq_error.mp h
    · exact (false_of_use (fails_bindParameters _ _ _ _) (attempt_eq_error h) hf).elim
    obtain h | ⟨-, -, ⟨⟩⟩ := bind_eq_error.mp h
    obtain ⟨hh, hm⟩ := enterFunction_ok (attempt_eq_ok.mp he)
    have hb := attempt_eq_ok.mp hb
    rw [hm, ← inside_eq hh] at hb
    have hbare := bare_of_bindParameters hp hh hb
    have hpath := congrArg Level.path hbare
    have hrecords : bound.level.Records [] := .nil (congrArg Level.functions hbare)
    have haround := mapM_signature?_concat ha hh
    exact .inr ((block_clash (around ++ [header]) haround hf body hpath hrecords h).region haround)
  | .declare position header, hp, hl, h => by
    rw [statement] at h
    obtain h | ⟨-, -, ⟨⟩⟩ := bind_eq_error.mp h
    exact .inl (clashes_of_declareHeader hl (attempt_eq_error h) hf path)
  | .branch position condition thenBody elseBody, hp, hl, h => by
    rw [statement] at h
    obtain h | ⟨⟨b, condition', type⟩, hc, h⟩ := bind_eq_error.mp h
    · exact (false_of_use (fails_value _ _ _) (attempt_eq_error h) hf).elim
    have hbare := (value_selected condition (attempt_eq_ok.mp hc)).1
    have hp := (congrArg Level.path hbare).trans hp
    have hl := records_of_bare hbare hl
    obtain h | ⟨⟨p₁, thenBody'⟩, ht, h⟩ := bind_eq_error.mp h
    · exact (block_clash around ha hf thenBody hp hl h).append
    obtain h | ⟨-, -, ⟨⟩⟩ := bind_eq_error.mp h
    -- the first part has succeeded, so its symbols stand in the history of the second
    obtain ⟨hpath, new, hd, hr, -⟩ := (block_surveys around ha thenBody hp ht).own
    exact (block_clash around ha hf elseBody (hpath.trans hp) (hr fs hl) h).after hd
  | .loop position condition body, hp, hl, h => by
    rw [statement] at h
    obtain h | ⟨⟨b, condition', type⟩, hc, h⟩ := bind_eq_error.mp h
    · exact (false_of_use (fails_value _ _ _) (attempt_eq_error h) hf).elim
    obtain h | ⟨-, -, ⟨⟩⟩ := bind_eq_error.mp h
    have hbare := (value_selected condition (attempt_eq_ok.mp hc)).1
    exact block_clash around ha hf body ((congrArg Level.path hbare).trans hp)
      (records_of_bare hbare hl) h
  | .give position none, _, _, h => by
    rw [statement] at h
    split at h
    · cases h
    · exact (false_of_use (.fault rfl) (attempt_eq_error h) hf).elim
  | .give position (some e), _, _, h => by
    rw [statement] at h
    obtain h | ⟨⟨b, e', type⟩, -, h⟩ := bind_eq_error.mp h
    · exact (false_of_use (fails_value _ _ _) (attempt_eq_error h) hf).elim
    obtain h | ⟨-, -, ⟨⟩⟩ := bind_eq_error.mp h
    exact (false_of_use (fails_checkReturn _ _ _) (attempt_eq_error h) hf).elim
  | .expr e, _, _, h => by
    rw [statement] at h
    obtain h | ⟨-, -, ⟨⟩⟩ := bind_eq_error.mp h
    exact (false_of_use (fails_alone _ _ _) (attempt_eq_error h) hf).elim

theorem block_clash {ctx : Context} {p : Progress} {stop : Stop} {fs : List Symbol}
    (around : List (Header Position)) {path : List Signature}
    (ha : around.mapM Header.signature? = some path)
    (hf : stop.fault.cause.kind = .redeclaration) :
    (ss : List (Stmt Position)) → p.body.level.path = Signature.pathText path →
    p.body.level.Records fs → block ctx p ss = .error stop →
    ClashesIn path fs (Stmt.declarationsAll ss) (Stmt.definitionsAll around ss) stop.fault
  | [], _, _, h => by cases h
  | s :: ss, hp, hl, h => by
    rw [block] at h
    obtain h | ⟨⟨p₁, first⟩, hs, h⟩ := bind_eq_error.mp h
    · exact (statement_clash around ha hf s hp hl h).append
    obtain h | ⟨-, -, ⟨⟩⟩ := bind_eq_error.mp h
    obtain ⟨hpath, new, hd, hr, -⟩ := (statement_surveys around ha s hp hs).own
    exact (block_clash around ha hf ss (hpath.trans hp) (hr fs hl) h).after hd
end

/-! ### Programs -/

theorem symbols_position {path : List Signature} {ds : List Declaration} {fs : List Symbol}
    (h : ds.mapM (Declaration.symbol? path) = some fs) :
    fs.map (·.position) = ds.map (some ·.position) := by
  induction ds generalizing fs with
  | nil =>
    cases h
    rfl
  | cons d ds ih =>
    simp only [List.mapM_cons, Option.bind_eq_bind, Option.bind_eq_some_iff, Option.pure_def,
      Option.some.injEq] at h
    obtain ⟨f, hf, rest, hrest, rfl⟩ := h
    simp only [Declaration.symbol?, Option.bind_eq_bind, Option.bind_eq_some_iff, Option.pure_def,
      Option.some.injEq] at hf
    obtain ⟨s, -, result, -, rfl⟩ := hf
    rw [List.map_cons, List.map_cons, ih hrest]

theorem HasClash.repetition {g : Region} {f : Fault} (h : HasClash g f) :
    ∃ c : Repetition g, ∃ cited, c.Cites cited ∧ ∃ d ∈ c.before,
      cited.position = some d.position ∧
      f = ⟨.redeclaration c.symbol.signature.text (some d.position), some c.again.position⟩ := by
  obtain ⟨path, ha, before, again, after, fs, symbol, cited, hd, hb, hs, hp, hc, rfl⟩ := h
  rw [List.nil_append] at hp hc
  have hmem : cited ∈ fs := List.mem_of_mem_filter (List.mem_of_getLast? hc)
  obtain ⟨d, hbefore, hposition⟩ :=
    List.mem_map.mp (symbols_position hb ▸ List.mem_map_of_mem hmem)
  rw [← hposition]
  generalize hearlier : symbol.signature.among fs = gs at hp hc
  cases hp with
  | free => cases hc
  | once first =>
    cases hc
    exact ⟨⟨before, again, after, path, fs, symbol, first, [], hd, ha, hb, hs, hearlier⟩, first,
      .inl ⟨rfl, rfl⟩, d, hbefore, hposition.symm, rfl⟩
  | @met header definition hheader hdefinition _ =>
    cases hc
    exact ⟨⟨before, again, after, path, fs, symbol, header, [definition], hd, ha, hb, hs,
      hearlier⟩, definition, .inr ⟨rfl, hheader, hdefinition⟩, d, hbefore, hposition.symm, rfl⟩

theorem hasClash_of_program {entry : String} {p : Program Position} {stop : Stop}
    (h : program entry p = .error stop) (hf : stop.fault.cause.kind = .redeclaration) :
    ∃ g ∈ p.regions, HasClash g stop.fault := by
  obtain h | ⟨-, -, ⟨⟩⟩ := bind_eq_error.mp h
  rcases block_clash [] rfl hf p rfl records_global h with hc | ⟨d, hd, hc⟩
  · exact ⟨_, List.mem_cons_self .., [], rfl, hc⟩
  · exact ⟨_, List.mem_cons_of_mem _ (List.mem_map_of_mem hd), hc⟩

/-- A second declaration is refused where it stands. The fault points to the first declaration of
the signature in the same scope, unless that is a header which has got its definition since: then
it points to the definition. -/
theorem redeclaration_cites {entry : String} {p : Program Position} {stop : Stop}
    (h : program entry p = .error stop) (hf : stop.fault.cause.kind = .redeclaration) :
    ∃ g ∈ p.regions, ∃ c : Repetition g, ∃ cited, c.Cites cited ∧ ∃ d ∈ c.before,
      cited.position = some d.position ∧
      stop.fault =
        ⟨.redeclaration c.symbol.signature.text (some d.position), some c.again.position⟩ := by
  obtain ⟨g, hg, hc⟩ := hasClash_of_program h hf
  exact ⟨g, hg, hc.repetition⟩

/-- A source text with the program that it spells and the fault that ends its resolution. -/
def Refuses (entry : String) (lines : List String) (p : Program Position) (stop : Stop) : Prop :=
  ∃ tokens, Token.ofLines lines = .ok tokens ∧ Grammar.program tokens = .ok p ∧
    program entry p = .error stop

def refused? (entry : String) (lines : List String) : Option (Program Position × Stop) := do
  let tokens ← (Token.ofLines lines).toOption
  let p ← (Grammar.program tokens).toOption
  match program entry p with
  | .ok _ => none
  | .error stop => return (p, stop)

theorem refuses_of_any (entry : String) (lines : List String)
    (holds : Program Position × Stop → Bool) (h : (refused? entry lines).any holds = true) :
    ∃ p stop, Refuses entry lines p stop ∧ holds (p, stop) = true := by
  obtain ⟨⟨p, stop⟩, hr, hh⟩ := (Option.any_eq_true ..).mp h
  simp only [refused?, Option.bind_eq_bind, Option.bind_eq_some_iff] at hr
  obtain ⟨tokens, ht, q, hq, hr⟩ := hr
  split at hr
  · cases hr
  · rename_i hs
    cases hr
    exact ⟨p, stop, ⟨tokens, eq_ok_of_toOption ht, eq_ok_of_toOption hq, hs⟩, hh⟩

/-- A definition that is repeated in a branch inside a function, with other array elements. -/
def repeatedSource : List String :=
  ["function g()", "function f(xs: int[])", "end", "if true", "function f(ys: float[])", "end",
    "end", "end"]

theorem repeatedSource_cites : ∃ p stop, program "main" p = .error stop ∧
    stop.fault.cause.kind = .redeclaration ∧
    stop.fault = ⟨.redeclaration "f(array)" (some ⟨2, 1⟩), some ⟨5, 1⟩⟩ ∧
    ∃ g ∈ p.regions, ∃ c : Repetition g, ∃ cited, c.Cites cited ∧ ∃ d ∈ c.before,
      cited.position = some d.position ∧
      stop.fault =
        ⟨.redeclaration c.symbol.signature.text (some d.position), some c.again.position⟩ := by
  obtain ⟨p, stop, ⟨_, -, -, h⟩, hs⟩ := refuses_of_any "main" repeatedSource
    (fun (_, stop) => stop.fault = ⟨.redeclaration "f(array)" (some ⟨2, 1⟩), some ⟨5, 1⟩⟩)
    (by decide +kernel)
  have hs := of_decide_eq_true hs
  have hf : stop.fault.cause.kind = .redeclaration := by rw [hs]; rfl
  exact ⟨p, stop, h, hf, hs, redeclaration_cites h hf⟩

/-- A header, its definition, and the definition again. -/
def replacedSource : List String :=
  ["declare function f()", "function f()", "end", "function f()", "end"]

theorem replacedSource_cites_definition : ∃ p stop, Refuses "main" replacedSource p stop ∧
    ((Region.mk [] p).symbols?.map fun fs => fs.map fun f => (f.signature.text, f.position)) =
      some [("f()", some ⟨1, 1⟩), ("f()", some ⟨2, 1⟩), ("f()", some ⟨4, 1⟩)] ∧
    stop.fault = ⟨.redeclaration "f()" (some ⟨2, 1⟩), some ⟨4, 1⟩⟩ := by
  obtain ⟨p, stop, h, hs⟩ := refuses_of_any "main" replacedSource
    (fun (p, stop) =>
      ((Region.mk [] p).symbols?.map fun fs => fs.map fun f => (f.signature.text, f.position)) =
        some [("f()", some ⟨1, 1⟩), ("f()", some ⟨2, 1⟩), ("f()", some ⟨4, 1⟩)] ∧
      stop.fault = ⟨.redeclaration "f()" (some ⟨2, 1⟩), some ⟨4, 1⟩⟩) (by decide +kernel)
  exact ⟨p, stop, h, of_decide_eq_true hs⟩

end Resolution
end AlgoFrontEnd
