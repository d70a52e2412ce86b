import AlgoFrontEnd.Proofs.Resolution.Weakening

/-! Functions added to a program outside of all others. Main statement: if no header there spells
the signature of the new function, the result keeps all functions and gains the new one and those
inside it. -/
namespace AlgoFrontEnd
open Resolution

/-- A program under other positions, with a statement added somewhere outside of functions: between
two statements of the program, or of a branch or a loop there. -/
inductive Inserts (f : Position → Position) (new : Stmt Position) :
    Program Position → Program Position → Prop where
  | here (ss : List (Stmt Position)) : Inserts f new ss (new :: Stmt.mapAll f ss)
  | later (s : Stmt Position) {ss ss' : List (Stmt Position)} (h : Inserts f new ss ss') :
    Inserts f new (s :: ss) (s.map f :: ss')
  | thenBody (position : Position) (condition : Expr Position)
    {thenBody thenBody' : List (Stmt Position)} (elseBody ss : List (Stmt Position))
    (h : Inserts f new thenBody thenBody') :
    Inserts f new (.branch position condition thenBody elseBody :: ss)
      (.branch (f position) (condition.map f) thenBody' (Stmt.mapAll f elseBody) ::
        Stmt.mapAll f ss)
  | elseBody (position : Position) (condition : Expr Position) (thenBody : List (Stmt Position))
    {elseBody elseBody' : List (Stmt Position)} (ss : List (Stmt Position))
    (h : Inserts f new elseBody elseBody') :
    Inserts f new (.branch position condition thenBody elseBody :: ss)
      (.branch (f position) (condition.map f) (Stmt.mapAll f thenBody) elseBody' ::
        Stmt.mapAll f ss)
  | loop (position : Position) (condition : Expr Position) {body body' : List (Stmt Position)}
    (ss : List (Stmt Position)) (h : Inserts f new body body') :
    Inserts f new (.loop position condition body :: ss)
      (.loop (f position) (condition.map f) body' :: Stmt.mapAll f ss)

namespace Resolution

section
variable {f : Position → Position}

/-- A run has come as far as another, at other positions, and a function that has been added has
been defined besides. -/
def Gained (f : Position → Position) (position : Position) (header : Header Position)
    (body : List (Stmt Position)) (p p' : Progress) : Prop :=
  ∃ d own fs done log, d.implemented = true ∧
    List.Forall₂ Definition.Emitted (Stmt.definitions [] (.function position header body)) own ∧
    Mirrors f header.signature? [d] own p fs done ∧ p' = ⟨p.body.hold fs, done, log⟩

section
variable {ctx : Context} {position : Position} {header : Header Position}
  {body : List (Stmt Position)}

/-- What follows the function that has been added means what it meant. -/
theorem Gained.block {p p₁ p' p₁' : Progress} {out out' : List (Stmt Typed)}
    {ss : List (Stmt Position)} (hg : Gained f position header body p p') (hc : ctx.outer = [])
    (ha : ∀ h ∈ Stmt.enteredAll ss, h.Avoids header.signature?)
    (h : block ctx p ss = .ok (p₁, out)) (h' : block ctx p' (Stmt.mapAll f ss) = .ok (p₁', out')) :
    Gained f position header body p₁ p₁' ∧ out' = Stmt.mapAll (Typed.move f) out := by
  obtain ⟨sig, result, outer⟩ := ctx
  obtain rfl : outer = [] := hc
  obtain ⟨d, own, fs, done, log, hd, hown, hm, rfl⟩ := hg
  obtain ⟨fs₁, done₁, log₁, hm₁, hss⟩ := block_mirrors widens_nil (.inr rfl) hm log ss ha h
  cases hss.symm.trans h'
  exact ⟨⟨d, own, fs₁, done₁, log₁, hd, hown, hm₁, rfl⟩, rfl⟩

/-- A function with a new signature comes behind all functions of the level, and it and those inside
it behind all that are finished. -/
theorem gained_of_function {fs : List Symbol} {done : List Routine} {log : List Event}
    {p p' : Progress} {out : List (Stmt Typed)}
    (hm : Mirrors f header.signature? [] [] p fs done)
    (hp : p.body.level.path = Signature.pathText [])
    (h : statement ctx ⟨p.body.hold fs, done, log⟩ (.function position header body) =
      .ok (p', out)) :
    Gained f position header body p p' ∧ out = [] := by
  have hp : (⟨p.body.hold fs, done, log⟩ : Progress).body.level.path = Signature.pathText [] := hp
  obtain ⟨-, own, hdone, hown⟩ := statement_emitted [] rfl _ hp h
  obtain ⟨s, result, -, -, -, -, hh, -, -, -, hlevel, -, hlocals, hbytes, rfl⟩ :=
    statement_function h
  obtain ⟨hregister, hl⟩ := hm.level.register_free
    (d := ⟨s, result, true, p.body.level.mangle s, some position⟩) (headerTypes_spelled hh).1
  obtain ⟨⟨level', locals', bytes'⟩, finished', log'⟩ := p'
  simp only at hlevel hlocals hbytes hdone
  subst hlevel hlocals hbytes hdone
  refine ⟨⟨_, own, _, _, log', rfl, hown, ⟨hl, hm.finished.add own⟩, ?_⟩, rfl⟩
  rw [enter_eq hh]
  exact congrArg (fun l => (⟨⟨l, p.body.locals, p.body.bytes⟩, done ++ own, log'⟩ : Progress))
    hregister

/-- A condition in front of the function that is added has the value that it had. -/
theorem condition_moved {fs : List Symbol} {done : List Routine} {p : Progress} {b b' : Body}
    {e : Expr Position} {c c' : Expr Typed} {type type' : Ty}
    (hm : Mirrors f header.signature? [] [] p fs done)
    (hp : p.body.level.path = Signature.pathText []) (hv : value [] p.body e = .ok (b, c, type))
    (hv' : value [] (p.body.hold fs) (e.map f) = .ok (b', c', type')) :
    b' = b.hold fs ∧ c' = c.map (Typed.move f) ∧
      Mirrors f header.signature? [] [] { p with body := b } fs done ∧
      b.level.path = Signature.pathText [] := by
  have hb := (value_selected e hv).1
  have hpath := congrArg Level.path hb
  cases (value_move (widens_nil.cons hm.level (.inr rfl)) e hv).symm.trans hv'
  exact ⟨rfl, rfl, hm.of_body hb, hpath.trans hp⟩

/-- Up to the function that is added nothing has changed, and then only that it is known. -/
theorem block_gained (hc : ctx.outer = []) {ss ss' : List (Stmt Position)}
    (hi : Inserts f (.function position header body) ss ss')
    (ha : ∀ h ∈ Stmt.enteredAll ss, h.Avoids header.signature?) {fs : List Symbol}
    {done : List Routine} {log : List Event} {p p₁ p₁' : Progress} {out out' : List (Stmt Typed)}
    (hm : Mirrors f header.signature? [] [] p fs done)
    (hp : p.body.level.path = Signature.pathText []) (h : block ctx p ss = .ok (p₁, out))
    (h' : block ctx ⟨p.body.hold fs, done, log⟩ ss' = .ok (p₁', out')) :
    Gained f position header body p₁ p₁' ∧ out' = Stmt.mapAll (Typed.move f) out := by
  obtain ⟨sig, result, outer⟩ := ctx
  obtain rfl : outer = [] := hc
  -- along the way to the function: what stands in front of it resolves before it is known, what
  -- stands behind it afterwards, and either way as in the program without it
  induction hi generalizing p p₁ p₁' fs done log out out' with
  | here ss =>
    obtain ⟨q', first', rest', hfirst', hrest', rfl⟩ := block_cons h'
    obtain ⟨hg, rfl⟩ := gained_of_function hm hp hfirst'
    exact hg.block rfl ha h hrest'
  | later s hi ih =>
    obtain ⟨hs, hss⟩ := List.forall_mem_append.mp ha
    obtain ⟨q, first, rest, hfirst, hrest, rfl⟩ := block_cons h
    obtain ⟨q', first', rest', hfirst', hrest', rfl⟩ := block_cons h'
    have hq := (statement_emitted [] rfl s hp hfirst).path.trans hp
    obtain ⟨fs₁, done₁, log₁, hm₁, hmove⟩ :=
      statement_mirrors widens_nil (.inr rfl) hm log s hs hfirst
    cases hmove.symm.trans hfirst'
    obtain ⟨hg, rfl⟩ := ih hss hm₁ hq hrest hrest'
    exact ⟨hg, (mapAll_append _ _ _).symm⟩
  | thenBody position condition elseBody ss hi ih =>
    obtain ⟨hs, hss⟩ := List.forall_mem_append.mp ha
    obtain ⟨hthen, helse⟩ := List.forall_mem_append.mp hs
    obtain ⟨q, first, rest, hfirst, hrest, rfl⟩ := block_cons h
    obtain ⟨q', first', rest', hfirst', hrest', rfl⟩ := block_cons h'
    obtain ⟨b, c, type, q₁, out₁, out₂, hc, ht, he, rfl⟩ := statement_branch hfirst
    obtain ⟨b', c', type', q₁', out₁', out₂', hc', ht', he', rfl⟩ := statement_branch hfirst'
    obtain ⟨rfl, rfl, hm₁, hp₁⟩ := condition_moved hm hp hc hc'
    obtain ⟨hg, rfl⟩ := ih hthen hm₁ hp₁ ht ht'
    obtain ⟨hg, rfl⟩ := hg.block rfl helse he he'
    obtain ⟨hg, rfl⟩ := hg.block rfl hss hrest hrest'
    exact ⟨hg, rfl⟩
  | elseBody position condition thenBody ss hi ih =>
    obtain ⟨hs, hss⟩ := List.forall_mem_append.mp ha
    obtain ⟨hthen, helse⟩ := List.forall_mem_append.mp hs
    obtain ⟨q, first, rest, hfirst, hrest, rfl⟩ := block_cons h
    obtain ⟨q', first', rest', hfirst', hrest', rfl⟩ := block_cons h'
    obtain ⟨b, c, type, q₁, out₁, out₂, hc, ht, he, rfl⟩ := statement_branch hfirst
    obtain ⟨b', c', type', q₁', out₁', out₂', hc', ht', he', rfl⟩ := statement_branch hfirst'
    obtain ⟨rfl, rfl, hm₁, hp₁⟩ := condition_moved hm hp hc hc'
    have hp₂ := (block_emitted [] rfl thenBody hp₁ ht).path.trans hp₁
    obtain ⟨fs₁, done₁, log₁, hm₂, hmove⟩ :=
      block_mirrors widens_nil (.inr rfl) hm₁ log thenBody hthen ht
    cases hmove.symm.trans ht'
    obtain ⟨hg, rfl⟩ := ih helse hm₂ hp₂ he he'
    obtain ⟨hg, rfl⟩ := hg.block rfl hss hrest hrest'
    exact ⟨hg, rfl⟩
  | loop position condition ss hi ih =>
    obtain ⟨hbody, hss⟩ := List.forall_mem_append.mp ha
    obtain ⟨q, first, rest, hfirst, hrest, rfl⟩ := block_cons h
    obtain ⟨q', first', rest', hfirst', hrest', rfl⟩ := block_cons h'
    obtain ⟨b, c, type, out₁, hc, hb, rfl⟩ := statement_loop hfirst
    obtain ⟨b', c', type', out₁', hc', hb', rfl⟩ := statement_loop hfirst'
    obtain ⟨rfl, rfl, hm₁, hp₁⟩ := condition_moved hm hp hc hc'
    obtain ⟨hg, rfl⟩ := ih hbody hm₁ hp₁ hb hb'
    obtain ⟨hg, rfl⟩ := hg.block rfl hss hrest hrest'
    exact ⟨hg, rfl⟩

/-- A function that is added anywhere outside of all others, and whose signature no header there
spells, changes nothing in the functions of a program, their order or the headers without a body.
It and those inside it come together, somewhere in front of the entry function. -/
theorem definition_added {entry : String} {p p' : Program Position} {r r' : Result}
    {log log' : List Event} (h : program entry p = .ok (r, log))
    (hi : Inserts f (.function position header body) p p')
    (ha : ∀ known ∈ Stmt.enteredAll p, known.Avoids header.signature?)
    (h' : program entry p' = .ok (r', log')) :
    ∃ before own after, r.routines = before ++ after ∧ after ≠ [] ∧
      r'.routines = before.map (Routine.move f) ++ own ++ after.map (Routine.move f) ∧
      List.Forall₂ Definition.Emitted (Stmt.definitions [] (.function position header body)) own ∧
      r'.externals = r.externals.map (Symbol.move f) := by
  obtain ⟨last, statements, hb, hx, hr⟩ := program_ok h
  obtain ⟨last', statements', hb', hx', hr'⟩ := program_ok h'
  have hm : Mirrors f header.signature? [] [] ⟨⟨.global, [], 0⟩, [], []⟩ [] [] :=
    ⟨⟨.here [], fun _ _ => rfl, nofun⟩, .here []⟩
  obtain ⟨⟨d, own, fs, done, log₁, hd, hown, hm, rfl⟩, rfl⟩ := block_gained rfl hi ha hm rfl hb hb'
  obtain ⟨main, hmain, hmain'⟩ : ∃ main, r.routines = last.finished ++ [main] ∧
      r'.routines = done ++ [main.move f] := ⟨_, hr, hr'⟩
  obtain ⟨before, after, hbefore, hafter⟩ := hm.finished.split
  refine ⟨before, own, after ++ [main], ?_, by simp, ?_, hown, ?_⟩
  · rw [hmain, hbefore, List.append_assoc]
  · rw [hmain', hafter, List.map_append, ← List.append_assoc]
    rfl
  · rw [hx, hx']
    exact hm.level.unimplemented (by simpa using hd)

end

end

/-- A header, a function with another inside it, and a call of the header in a branch. -/
def guardedProgram : Program Position :=
  [.declare ⟨1, 1⟩ ⟨"log", [⟨⟨1, 22⟩, "x", some ⟨"int", false⟩⟩], none⟩,
    .function ⟨2, 1⟩ ⟨"f", [⟨⟨2, 12⟩, "n", some ⟨"int", false⟩⟩], some ⟨"int", false⟩⟩
      [.function ⟨3, 1⟩ ⟨"g", [], none⟩ [.expr (.call ⟨4, 1⟩ "log" [.int ⟨4, 5⟩ 1])],
        .expr (.call ⟨6, 1⟩ "g" []),
        .give ⟨7, 1⟩ (some (.place (.whole ⟨7, 8⟩ "n" none)))],
    .branch ⟨9, 1⟩ (.binary ⟨9, 9⟩ .greater (.call ⟨9, 4⟩ "f" [.int ⟨9, 6⟩ 1]) (.int ⟨9, 11⟩ 0))
      [.expr (.call ⟨10, 1⟩ "log" [.int ⟨10, 5⟩ 2])] []]

/-- What stands behind the condition makes room for six lines. -/
def guardedMove (p : Position) : Position := if p.line < 10 then p else ⟨p.line + 6, p.column⟩

/-- The header of the function inside, and another function inside the new one. -/
def guardedHeader : Header Position := ⟨"g", [], none⟩

def guardedBody : List (Stmt Position) :=
  [.function ⟨11, 1⟩ ⟨"f", [⟨⟨11, 12⟩, "n", some ⟨"int", false⟩⟩], none⟩
      [.expr (.call ⟨12, 1⟩ "log" [.place (.whole ⟨12, 5⟩ "n" none)])],
    .expr (.call ⟨14, 1⟩ "f" [.int ⟨14, 3⟩ 3])]

def grownProgram : Program Position :=
  guardedProgram.take 2 ++
    [.branch ⟨9, 1⟩ (.binary ⟨9, 9⟩ .greater (.call ⟨9, 4⟩ "f" [.int ⟨9, 6⟩ 1]) (.int ⟨9, 11⟩ 0))
      [.function ⟨10, 1⟩ guardedHeader guardedBody,
        .expr (.call ⟨16, 1⟩ "log" [.int ⟨16, 5⟩ 2])] []]

theorem guardedProgram_added : ∃ r r' log log', program "main" guardedProgram = .ok (r, log) ∧
    program "main" grownProgram = .ok (r', log') ∧
    Inserts guardedMove (.function ⟨10, 1⟩ guardedHeader guardedBody) guardedProgram grownProgram ∧
    r'.routines.map (·.name) = ["f(int).g()", "f(int)", "g().f(int)", "g()", "main"] ∧
    ∃ before own after, r.routines = before ++ after ∧ after ≠ [] ∧
      r'.routines =
        before.map (Routine.move guardedMove) ++ own ++ after.map (Routine.move guardedMove) ∧
      List.Forall₂ Definition.Emitted
        (Stmt.definitions [] (.function ⟨10, 1⟩ guardedHeader guardedBody)) own ∧
      r'.externals = r.externals.map (Symbol.move guardedMove) := by
  obtain ⟨⟨r, log⟩, h⟩ := Option.isSome_iff_exists.mp
    (show (program "main" guardedProgram).toOption.isSome = true by decide +kernel)
  obtain ⟨⟨r', log'⟩, h', hnames⟩ := (Option.any_eq_true ..).mp
    (show (program "main" grownProgram).toOption.any (fun x => x.1.routines.map (·.name) =
      ["f(int).g()", "f(int)", "g().f(int)", "g()", "main"]) = true by decide +kernel)
  have hi : Inserts guardedMove (.function ⟨10, 1⟩ guardedHeader guardedBody) guardedProgram
      grownProgram :=
    .later _ (.later _ (.thenBody ⟨9, 1⟩ _ _ _ (.here _)))
  have ha : ∀ known ∈ Stmt.enteredAll guardedProgram,
      known.Avoids guardedHeader.signature? := by decide +kernel
  exact ⟨r, r', log, log', eq_ok_of_toOption h, eq_ok_of_toOption h', hi,
    of_decide_eq_true hnames, definition_added (eq_ok_of_toOption h) hi ha (eq_ok_of_toOption h')⟩

end Resolution
end AlgoFrontEnd
