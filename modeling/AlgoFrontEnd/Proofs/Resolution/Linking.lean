import AlgoFrontEnd.Proofs.Resolution.Consistency

/-! Every call of a result names a function of the result, or a header that never got a body. -/
namespace AlgoFrontEnd.Resolution

/-- A source text with the program that it spells and the result of resolving that program. -/
def Resolves (entry : String) (lines : List String) (p : Program Position) (r : Result) : Prop :=
  ∃ tokens log, Token.ofLines lines = .ok tokens ∧ Grammar.program tokens = .ok p ∧
    program entry p = .ok (r, log)

def resolved? (entry : String) (lines : List String) : Option (Program Position × Result) := do
  let tokens ← (Token.ofLines lines).toOption
  let p ← (Grammar.program tokens).toOption
  let (r, _) ← (program entry p).toOption
  return (p, r)

theorem resolves_of_any (entry : String) (lines : List String)
    (holds : Program Position × Result → Bool) (h : (resolved? entry lines).any holds = true) :
    ∃ p r, Resolves entry lines p r ∧ holds (p, r) = true := by
  obtain ⟨⟨p, r⟩, hr, hh⟩ := (Option.any_eq_true ..).mp h
  simp only [resolved?, Option.bind_eq_bind, Option.bind_eq_some_iff, Option.pure_def,
    Option.some.injEq, Prod.mk.injEq] at hr
  obtain ⟨tokens, ht, p, hp, ⟨r, log⟩, hl, rfl, rfl⟩ := hr
  exact ⟨p, r, ⟨tokens, log, eq_ok_of_toOption ht, eq_ok_of_toOption hp, eq_ok_of_toOption hl⟩, hh⟩

/-- A symbol with a body among the functions, or among the headers left without one. -/
def Settled (functions : List Routine) (headers : List Symbol) (f : Symbol) : Prop :=
  (∃ F ∈ functions, Implements F f) ∨ f ∈ headers

def SettledAt (functions : List Routine) (headers : List Symbol) (scope : Scope) : Prop :=
  ∀ l ∈ scope, ∀ f ∈ l.functions, Settled functions headers f

/-- What a call links to in a result: the function or the header, but not both, that the nearest
symbol for its name and the types of its arguments stands for. -/
def Linked (r : Result) (s : Site) (c : Call) : Prop :=
  ∃ types symbol, Selects s c types symbol ∧
    ((∃ F ∈ r.routines.dropLast, F.name = c.name ∧ Implements F symbol ∧
        F.signature.same ⟨s.function, types⟩ = true) ∧ (∀ x ∈ r.externals, x.mangled ≠ c.name) ∨
      symbol ∈ r.externals ∧ ∀ F ∈ r.routines.dropLast, F.name ≠ c.name)

section
variable {functions : List Routine} {headers : List Symbol}

theorem settledAt_cons {l : Level} {outer : Scope} :
    SettledAt functions headers (l :: outer) ↔
      (∀ f ∈ l.functions, Settled functions headers f) ∧ SettledAt functions headers outer :=
  List.forall_mem_cons

theorem settledAt_map_bare {scope : Scope} :
    SettledAt functions headers (scope.map Level.bare) ↔ SettledAt functions headers scope := by
  simp only [SettledAt, List.forall_mem_map]
  rfl

/-- The body of a definition is also that of the header before it. -/
theorem settled_of_extends {l l' : Level} (he : Extends l l')
    (hh : ∀ x ∈ headers, x.implemented = false)
    (hl : ∀ f ∈ l'.functions, Settled functions headers f) :
    ∀ f ∈ l.functions, Settled functions headers f := by
  intro f hf
  obtain ⟨g, hg, rfl | ⟨hn, hi, hs, hm, hr⟩⟩ := he.kept f hf
  · exact hl _ hg
  · rcases hl g hg with ⟨F, hF, hFg⟩ | hx
    · refine .inl ⟨F, hF, hFg.name.trans hm, same_trans hFg.signature hs, ?_, ?_⟩
      · rw [(hFg.exact hi).2]
        exact hr
      · rw [hn]
        simp
    · rw [hh g hx] at hi
      cases hi

/-- All definitions of a level are settled by the functions finished with it. -/
theorem settled_of_consistent {outer : Scope} {l : Level} {finished : List Routine}
    (hc : Consistent outer l finished) (hf : ∀ F ∈ finished, F ∈ functions) {f : Symbol}
    (hl : f ∈ l.functions) (hi : f.implemented = true) : Settled functions headers f := by
  obtain ⟨F, hF, hFf⟩ := hc.emitted f hl hi
  exact .inl ⟨F, hf F hF, hFf⟩

theorem Advances.finished {outer : Scope} {p p' : Progress} (h : Advances outer p p') :
    ∀ F ∈ p.finished, F ∈ p'.finished := by
  obtain ⟨new, hn, -⟩ := h.added
  intro F hF
  rw [hn]
  exact List.mem_append_left _ hF

mutual
theorem scope_of_mem_sites {scope : Scope} :
    (e : Expr Position) → ∀ s ∈ e.sites scope, s.scope = scope
  | .int _ _ | .float _ _ | .bool _ _ | .string _ _ | .place _ => by simp [Expr.sites]
  | .array _ elements => scope_of_mem_sitesAll elements
  | .call _ _ arguments => by
    rw [Expr.sites, List.forall_mem_append]
    exact ⟨scope_of_mem_sitesAll arguments, by simp⟩
  | .binary _ _ left right => by
    rw [Expr.sites, List.forall_mem_append]
    exact ⟨scope_of_mem_sites left, scope_of_mem_sites right⟩
  | .sign _ _ operand => scope_of_mem_sites operand
  | .assign _ _ value => scope_of_mem_sites value

theorem scope_of_mem_sitesAll {scope : Scope} :
    (es : List (Expr Position)) → ∀ s ∈ Expr.sitesAll scope es, s.scope = scope
  | [] => by simp [Expr.sitesAll]
  | e :: es => by
    rw [Expr.sitesAll, List.forall_mem_append]
    exact ⟨scope_of_mem_sites e, scope_of_mem_sitesAll es⟩
end

/-! ### Symbols at call sites -/

/-- All symbols known at the calls of a part of a program are settled. -/
def SitesSettled (functions : List Routine) (headers : List Symbol) (sites : List Site)
    (bodies : List (List Site)) : Prop :=
  (∀ s ∈ sites, SettledAt functions headers s.scope) ∧
    ∀ ss ∈ bodies, ∀ s ∈ ss, SettledAt functions headers s.scope

theorem SitesSettled.append {sites sites' : List Site} {bodies bodies' : List (List Site)}
    (h : SitesSettled functions headers sites bodies)
    (h' : SitesSettled functions headers sites' bodies') :
    SitesSettled functions headers (sites ++ sites') (bodies ++ bodies') :=
  ⟨List.forall_mem_append.mpr ⟨h.1, h'.1⟩, List.forall_mem_append.mpr ⟨h.2, h'.2⟩⟩

theorem SitesSettled.of_expr {l : Level} {outer : Scope}
    (hl : ∀ f ∈ l.functions, Settled functions headers f) (ho : SettledAt functions headers outer)
    (e : Expr Position) :
    SitesSettled functions headers (e.sites (l.bare :: outer.map Level.bare)) [] := by
  refine ⟨?_, by simp⟩
  intro s hs
  rw [scope_of_mem_sites e s hs]
  exact settledAt_cons.mpr ⟨hl, settledAt_map_bare.mpr ho⟩

mutual
theorem statement_settled {ctx : Context} {p p' : Progress} {out : List (Stmt Typed)}
    (hh : ∀ x ∈ headers, x.implemented = false) (ho : SettledAt functions headers ctx.outer) :
    (s : Stmt Position) → (∀ h ∈ s.headers, Plain h.name) →
    Consistent ctx.outer p.body.level p.finished → statement ctx p s = .ok (p', out) →
    (∀ F ∈ p'.finished, F ∈ functions) →
    (∀ f ∈ p'.body.level.functions, Settled functions headers f) →
    SitesSettled functions headers (s.sites (ctx.outer.map Level.bare) p.body.level.bare)
      (s.bodies (ctx.outer.map Level.bare) p.body.level.bare)
  | .function position header body, hn, hc, h, hf, hl => by
    obtain ⟨s, result, bound, log, last, statements, hht, hd, hp, hb, hlevel, hfin, -⟩ :=
      statement_function h
    obtain ⟨hname, hbody⟩ := List.forall_mem_cons.mp hn
    have hs : Plain s.name := (headerTypes_ok hht).1 ▸ hname
    have hi := bindParameters_bare hp
    rw [bare_inside] at hi
    have hin := (hc.enter hs hd (p.body.level.enter true position header :: ctx.outer) []).of_bare
      bound.level (by rw [hi, inside_eq hht]; rfl)
    have hlast := block_advances body hbody hin hb
    have houter := settledAt_cons.mpr ⟨hlevel ▸ hl, ho⟩
    have hin' := block_settled hh houter body hbody hin hb
      (fun F hF => hf F (hfin ▸ List.mem_append_left _ hF))
      (fun f hm => settled_of_consistent hlast.consistent
        (fun F hF => hf F (hfin ▸ List.mem_append_left _ hF)) hm
        (hlast.consistent.closed (by simp) f hm))
    simp only [List.map_cons, hi, bare_enter] at hin'
    exact ⟨by simp [Stmt.sites],
      List.forall_mem_append.mpr ⟨hin'.2, List.forall_mem_singleton.mpr hin'.1⟩⟩
  | .declare _ _, _, _, _, _, _ => ⟨by simp [Stmt.sites], by simp [Stmt.bodies]⟩
  | .branch _ condition thenBody elseBody, hn, hc, h, hf, hl => by
    obtain ⟨b, condition', type, p₁, thenBody', elseBody', hv, ht, he, -⟩ := statement_branch h
    obtain ⟨hthen, helse⟩ := List.forall_mem_append.mp hn
    have hb := (value_selected condition hv).1
    have h₀ := Advances.of_body hc hb
    have h₁ := block_advances thenBody hthen h₀.consistent ht
    have h₂ := block_advances elseBody helse h₁.consistent he
    have hl₁ := settled_of_extends h₂.level hh hl
    have hs₁ := block_settled hh ho thenBody hthen h₀.consistent ht
      (fun F hF => hf F (h₂.finished F hF)) hl₁
    have hs₂ := block_settled hh ho elseBody helse h₁.consistent he hf hl
    rw [(block_traced thenBody ht).level] at hs₂
    rw [hb] at hs₁ hs₂
    have hs₀ := SitesSettled.of_expr (settled_of_extends (h₀.level.trans h₁.level) hh hl₁) ho
      condition
    exact (hs₀.append hs₁).append hs₂
  | .loop _ condition body, hn, hc, h, hf, hl => by
    obtain ⟨b, condition', type, body', hv, hbody, -⟩ := statement_loop h
    have hb := (value_selected condition hv).1
    have h₀ := Advances.of_body hc hb
    have h₁ := block_advances body hn h₀.consistent hbody
    have hs₁ := block_settled hh ho body hn h₀.consistent hbody hf hl
    rw [hb] at hs₁
    have hs₀ := SitesSettled.of_expr (settled_of_extends (h₀.level.trans h₁.level) hh hl) ho
      condition
    exact hs₀.append hs₁
  | .give _ none, _, _, _, _, _ => ⟨by simp [Stmt.sites], by simp [Stmt.bodies]⟩
  | .give position (some e), hn, hc, h, _, hl =>
    .of_expr (settled_of_extends (statement_advances (.give position (some e)) hn hc h).level hh
      hl) ho e
  | .expr e, hn, hc, h, _, hl =>
    .of_expr (settled_of_extends (statement_advances (.expr e) hn hc h).level hh hl) ho e

theorem block_settled {ctx : Context} {p p' : Progress} {out : List (Stmt Typed)}
    (hh : ∀ x ∈ headers, x.implemented = false) (ho : SettledAt functions headers ctx.outer) :
    (ss : List (Stmt Position)) → PlainHeaders ss →
    Consistent ctx.outer p.body.level p.finished → block ctx p ss = .ok (p', out) →
    (∀ F ∈ p'.finished, F ∈ functions) →
    (∀ f ∈ p'.body.level.functions, Settled functions headers f) →
    SitesSettled functions headers
      (Stmt.sitesAll (ctx.outer.map Level.bare) p.body.level.bare ss)
      (Stmt.bodiesAll (ctx.outer.map Level.bare) p.body.level.bare ss)
  | [], _, _, _, _, _ => ⟨by simp [Stmt.sitesAll], by simp [Stmt.bodiesAll]⟩
  | s :: ss, hn, hc, h, hf, hl => by
    obtain ⟨hs, hss⟩ := plainHeaders_cons.mp hn
    obtain ⟨p₁, first, rest, hfirst, hrest, -⟩ := block_cons h
    have h₁ := statement_advances s hs hc hfirst
    have h₂ := block_advances ss hss h₁.consistent hrest
    have hs₁ := statement_settled hh ho s hs hc hfirst (fun F hF => hf F (h₂.finished F hF))
      (settled_of_extends h₂.level hh hl)
    have hs₂ := block_settled hh ho ss hss h₁.consistent hrest hf hl
    rw [(statement_traced s hfirst).level] at hs₂
    exact hs₁.append hs₂
end

end

/-! ### Results -/

section
variable {entry : String} {p : Program Position} {r : Result} {log : List Event}

/-- A result holds what has been finished at the end of the program, and the headers that are
still open there. -/
theorem program_consistent (hn : PlainHeaders p) (h : program entry p = .ok (r, log)) :
    ∃ l, Consistent [] l r.routines.dropLast ∧ r.externals = l.unimplemented := by
  obtain ⟨last, statements, hb, hx, hr⟩ := program_ok h
  have ha := block_advances p hn consistent_global hb
  refine ⟨last.body.level, ?_, hx⟩
  rw [hr, List.dropLast_concat]
  exact ha.consistent

theorem mem_unimplemented {l : Level} {f : Symbol} :
    f ∈ l.unimplemented ↔ f ∈ l.functions ∧ f.implemented = false := by
  simp [Level.unimplemented]

/-- No function has the name of a header that is left without a body. -/
theorem external_ne_name (hn : PlainHeaders p) (h : program entry p = .ok (r, log)) {x : Symbol}
    (hx : x ∈ r.externals) {F : Routine} (hF : F ∈ r.routines.dropLast) : F.name ≠ x.mangled := by
  obtain ⟨l, hc, he⟩ := program_consistent hn h
  obtain ⟨hxl, hi⟩ := mem_unimplemented.mp (he ▸ hx)
  intro heq
  rw [hc.mangled x hxl] at heq
  obtain ⟨f, hf, hfi, hs⟩ := hc.owned F hF _ (hc.plain x hxl) (.inl heq)
  rw [hc.apart.eq_of_same hf hxl hs, hi] at hfi
  cases hfi

theorem program_settled (hn : PlainHeaders p) (h : program entry p = .ok (r, log)) :
    ∀ ss ∈ p.sites, ∀ s ∈ ss, SettledAt r.routines.dropLast r.externals s.scope := by
  obtain ⟨last, statements, hb, hx, hr⟩ := program_ok h
  have ha := block_advances p hn consistent_global hb
  have hf : r.routines.dropLast = last.finished := by rw [hr, List.dropLast_concat]
  have hh : ∀ x ∈ r.externals, x.implemented = false :=
    fun x hm => (mem_unimplemented.mp (hx ▸ hm)).2
  have ho : SettledAt r.routines.dropLast r.externals [] := by simp [SettledAt]
  have hs := block_settled hh ho p hn
    consistent_global hb (fun F hF => hf ▸ hF) (fun f hm => by
      cases hi : f.implemented with
      | true => exact settled_of_consistent ha.consistent (fun F hF => hf ▸ hF) hm hi
      | false => exact .inr (hx ▸ mem_unimplemented.mpr ⟨hm, hi⟩))
  exact List.forall_mem_append.mpr ⟨hs.2, List.forall_mem_singleton.mpr hs.1⟩

theorem linked_of_selected (hn : PlainHeaders p) (h : program entry p = .ok (r, log)) {s : Site}
    (hs : SettledAt r.routines.dropLast r.externals s.scope) {c : Call} (hc : Selected s c) :
    Linked r s c := by
  obtain ⟨types, symbol, hsel⟩ := hc
  obtain ⟨inner, level, further, hscope, -, hm, hsame⟩ := hsel.nearest
  refine ⟨types, symbol, hsel, ?_⟩
  rw [hsel.name]
  rcases hs level (by simp [hscope]) symbol hm with ⟨F, hF, hFs⟩ | hx
  · refine .inl ⟨⟨F, hF, hFs.name, hFs, same_trans hFs.signature hsame⟩, ?_⟩
    intro x hx
    rw [← hFs.name]
    exact (external_ne_name hn h hx hF).symm
  · exact .inr ⟨hx, fun F hF => external_ne_name hn h hx hF⟩

/-- Call linking is closed: the functions of a result have different names, and every call in
them names one of these functions or a header without a body, never both. -/
theorem calls_linked {lines : List String} (h : Resolves entry lines p r) :
    (r.routines.dropLast.map (·.name)).Nodup ∧
      List.Forall₂ (List.Forall₂ (Linked r)) p.sites (r.routines.map Routine.calls) := by
  obtain ⟨tokens, log, ht, hp, h⟩ := h
  have hn := Grammar.plainHeaders_program ht hp
  obtain ⟨l, hc, -⟩ := program_consistent hn h
  refine ⟨hc.distinct, ?_⟩
  have hs := program_settled hn h
  refine List.Forall₂.imp ?_ ((List.forall₂_and_left _ _).mpr ⟨hs, program_selected h⟩)
  intro ss cs hss
  refine List.Forall₂.imp ?_ ((List.forall₂_and_left _ _).mpr hss)
  rintro s c ⟨hsettled, hselected⟩
  exact linked_of_selected hn h hsettled hselected

end

/-- A header that is defined later, one that never is, and a function hidden by one inside. -/
def linkedSource : List String :=
  ["declare function print(x: int)", "declare function step()", "function run()", "step()",
    "function step()", "end", "step()", "end", "function step()", "end", "run()", "print(1)"]

theorem linkedSource_linked : ∃ p r, Resolves "main" linkedSource p r ∧
    (r.routines.map fun F => (F.name, F.calls.map (·.name))) =
      [("run().step()", []), ("run()", ["step()", "run().step()"]), ("step()", []),
        ("main", ["run()", "print(int)"])] ∧
    r.externals.map (·.mangled) = ["print(int)"] ∧
    (r.routines.dropLast.map (·.name)).Nodup ∧
    List.Forall₂ (List.Forall₂ (Linked r)) p.sites (r.routines.map Routine.calls) := by
  obtain ⟨p, r, h, hn⟩ := resolves_of_any "main" linkedSource
    (fun (_, r) =>
      (r.routines.map fun F => (F.name, F.calls.map (·.name))) =
        [("run().step()", []), ("run()", ["step()", "run().step()"]), ("step()", []),
          ("main", ["run()", "print(int)"])] ∧
      r.externals.map (·.mangled) = ["print(int)"]) (by decide +kernel)
  obtain ⟨hr, hx⟩ := of_decide_eq_true hn
  exact ⟨p, r, h, hr, hx, calls_linked h⟩

end AlgoFrontEnd.Resolution
