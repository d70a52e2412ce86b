import AlgoFrontEnd.Proofs.Grammar.Names
import AlgoFrontEnd.Proofs.Resolution.Selection

/-! The functions known at a level and the functions finished so far. -/
namespace AlgoFrontEnd

namespace Resolution

theorem sameResult_refl (r : Option Ty) : sameResult r r = true := by
  cases r with
  | none => rfl
  | some t => exact t.agrees_refl

/-- A finished function is what a symbol stands for. A header fixes neither the elements of
arrays in the parameters nor those in the result. -/
structure Implements (F : Routine) (f : Symbol) : Prop where
  name : F.name = f.mangled
  signature : F.signature.same f.signature = true
  result : sameResult f.result F.result = true
  exact : f.implemented = true → F.signature = f.signature ∧ F.result = f.result

/-- Symbols of a level and finished functions fit together. No function inside one that is still
to be defined has been finished. -/
structure Consistent (outer : Scope) (l : Level) (finished : List Routine) : Prop where
  apart : l.Apart
  plain : ∀ f ∈ l.functions, Plain f.signature.name
  mangled : ∀ f ∈ l.functions, f.mangled = l.mangle f.signature
  closed : outer ≠ [] → ∀ f ∈ l.functions, f.implemented = true
  emitted : ∀ f ∈ l.functions, f.implemented = true → ∃ F ∈ finished, Implements F f
  owned : ∀ F ∈ finished, ∀ s, Plain s.name → l.Under s F.name →
    ∃ f ∈ l.functions, f.implemented = true ∧ f.signature.same s = true
  distinct : (finished.map (·.name)).Nodup
  typed : ∀ F ∈ finished, F.parameters.map (·.type) = F.signature.parameters

theorem Consistent.of_bare {outer : Scope} {l : Level} {finished : List Routine}
    (h : Consistent outer l finished) (l' : Level) (hb : l'.bare = l.bare) :
    Consistent outer l' finished := by
  obtain ⟨path, bindings, functions⟩ := l
  obtain ⟨path', bindings', functions'⟩ := l'
  simp only [Level.bare, Level.mk.injEq, true_and] at hb
  obtain ⟨rfl, rfl⟩ := hb
  exact ⟨h.apart, h.plain, h.mangled, h.closed, h.emitted, h.owned, h.distinct, h.typed⟩

theorem consistent_global : Consistent [] .global [] where
  apart := .nil
  plain := by simp [Level.global]
  mangled := by simp [Level.global]
  closed := by simp
  emitted := by simp [Level.global]
  owned := by simp
  distinct := .nil
  typed := by simp

/-! ### Growth of a level -/

/-- Symbols stay, unless a header is replaced by its definition. -/
structure Extends (l l' : Level) : Prop where
  path : l'.path = l.path
  kept : ∀ f ∈ l.functions, ∃ g ∈ l'.functions, g = f ∨
    f.implemented = false ∧ g.implemented = true ∧ g.signature.same f.signature = true ∧
      g.mangled = f.mangled ∧ sameResult f.result g.result = true

theorem Extends.of_bare {l l' : Level} (h : l'.bare = l.bare) : Extends l l' := by
  obtain ⟨path, bindings, functions⟩ := l
  obtain ⟨path', bindings', functions'⟩ := l'
  simp only [Level.bare, Level.mk.injEq, true_and] at h
  obtain ⟨rfl, rfl⟩ := h
  exact ⟨rfl, fun f hf => ⟨f, hf, .inl rfl⟩⟩

theorem Extends.implemented {l l' : Level} (h : Extends l l') {f : Symbol}
    (hf : f ∈ l.functions) (hi : f.implemented = true) : f ∈ l'.functions := by
  obtain ⟨g, hg, rfl | ⟨hn, -⟩⟩ := h.kept f hf
  · exact hg
  · rw [hi] at hn
    cases hn

theorem Extends.trans {l₁ l₂ l₃ : Level} (h : Extends l₁ l₂) (h' : Extends l₂ l₃) :
    Extends l₁ l₃ := by
  refine ⟨h'.path.trans h.path, ?_⟩
  intro f hf
  obtain ⟨g, hg, rfl | ⟨hn, hi, hs⟩⟩ := h.kept f hf
  · exact h'.kept g hg
  · exact ⟨g, h'.implemented hg hi, .inr ⟨hn, hi, hs⟩⟩

theorem under_of_path {l l' : Level} (h : l'.path = l.path) {s : Signature} {name : String} :
    l'.Under s name ↔ l.Under s name := by
  simp only [Level.Under, Level.mangle, h]

/-- What a part of a program adds: functions under those it has defined at the level. -/
structure Advances (outer : Scope) (p p' : Progress) : Prop where
  consistent : Consistent outer p'.body.level p'.finished
  level : Extends p.body.level p'.body.level
  added : ∃ new, p'.finished = p.finished ++ new ∧ ∀ F ∈ new, ∃ f ∈ p'.body.level.functions,
    f.implemented = true ∧ p'.body.level.Under f.signature F.name

theorem Advances.trans {outer : Scope} {p₁ p₂ p₃ : Progress} (h : Advances outer p₁ p₂)
    (h' : Advances outer p₂ p₃) : Advances outer p₁ p₃ := by
  obtain ⟨new, hn, hu⟩ := h.added
  obtain ⟨new', hn', hu'⟩ := h'.added
  refine ⟨h'.consistent, h.level.trans h'.level, new ++ new',
    by rw [hn', hn, List.append_assoc], ?_⟩
  refine List.forall_mem_append.mpr ⟨?_, hu'⟩
  intro F hF
  obtain ⟨f, hf, hi, hF⟩ := hu F hF
  exact ⟨f, h'.level.implemented hf hi, hi, (under_of_path h'.level.path).mpr hF⟩

theorem Advances.of_body {outer : Scope} {p : Progress} {b : Body}
    (hc : Consistent outer p.body.level p.finished) (hb : b.level.bare = p.body.level.bare) :
    Advances outer p { p with body := b } :=
  ⟨hc.of_bare _ hb, .of_bare hb, [], by simp, by simp⟩

/-! ### Headers and definitions -/

/-- A signature without a symbol takes a header. -/
theorem Consistent.header {l : Level} {finished : List Routine} (h : Consistent [] l finished)
    {s : Signature} (hs : Plain s.name) (hn : l.function? s = none) (result : Option Ty)
    (position : Option Position) :
    Consistent [] (l.register ⟨s, result, false, l.mangle s, position⟩) finished where
  apart := h.apart.register _
  plain f hf := by
    rcases Level.mem_of_mem_register hf with rfl | hf
    · exact hs
    · exact h.plain f hf
  mangled f hf := by
    rcases Level.mem_of_mem_register hf with rfl | hf
    · rfl
    · exact h.mangled f hf
  closed ho := absurd rfl ho
  emitted f hf hi := by
    rcases Level.mem_of_mem_register hf with rfl | hf
    · cases hi
    · exact h.emitted f hf hi
  owned F hF t ht hu := by
    obtain ⟨f, hf, hi, hs⟩ := h.owned F hF t ht hu
    exact ⟨f, Level.mem_register_of_mem hf (Level.not_same_of_function?_none hn hf), hi, hs⟩
  distinct := h.distinct
  typed := h.typed

theorem extends_header {l : Level} {s : Signature} (hn : l.function? s = none)
    (result : Option Ty) (position : Option Position) :
    Extends l (l.register ⟨s, result, false, l.mangle s, position⟩) :=
  ⟨rfl, fun f hf =>
    ⟨f, Level.mem_register_of_mem hf (Level.not_same_of_function?_none hn hf), .inl rfl⟩⟩

section
variable {outer : Scope} {l : Level} {finished : List Routine} {s : Signature}
  {result : Option Ty} {position : Position}

/-- A signature that may be defined has no definition yet. -/
theorem Consistent.not_same (h : Consistent outer l finished)
    (hd : checkDefinition l s result position = .ok ()) {f : Symbol} (hf : f ∈ l.functions)
    (hi : f.implemented = true) : f.signature.same s = false := by
  cases hs : f.signature.same s with
  | false => rfl
  | true =>
    have := (checkDefinition_ok hd (h.apart.function? hf hs)).1
    rw [hi] at this
    cases this

theorem Consistent.not_under (h : Consistent outer l finished) (hs : Plain s.name)
    (hd : checkDefinition l s result position = .ok ()) {F : Routine} (hF : F ∈ finished) :
    ¬ l.Under s F.name := by
  intro hu
  obtain ⟨f, hf, hi, hfs⟩ := h.owned F hF s hs hu
  rw [h.not_same hd hf hi] at hfs
  cases hfs

/-- The level inside a function starts empty, and nothing under it has been finished. -/
theorem Consistent.enter (h : Consistent outer l finished) (hs : Plain s.name)
    (hd : checkDefinition l s result position = .ok ()) (scope : Scope)
    (bindings : List Binding) : Consistent scope ⟨l.mangle s, bindings, []⟩ finished where
  apart := .nil
  plain := by simp
  mangled := by simp
  closed := by simp
  emitted := by simp
  owned F hF t _ hu := absurd (Level.under_of_inside rfl hu).1 (h.not_under hs hd hF)
  distinct := h.distinct
  typed := h.typed

theorem Consistent.extends_define (h : Consistent outer l finished)
    (hd : checkDefinition l s result position = .ok ()) (at? : Option Position) :
    Extends l (l.register ⟨s, result, true, l.mangle s, at?⟩) := by
  refine ⟨rfl, ?_⟩
  intro f hf
  cases hs : f.signature.same s with
  | false => exact ⟨f, Level.mem_register_of_mem hf hs, .inl rfl⟩
  | true =>
    obtain ⟨hi, hr⟩ := checkDefinition_ok hd (h.apart.function? hf hs)
    refine ⟨_, Level.mem_register, .inr ⟨hi, rfl, same_symm hs, ?_, hr⟩⟩
    rw [h.mangled f hf]
    exact (Level.mangle_of_same hs).symm

/-- A defined function is finished after those inside it. -/
theorem Consistent.define {scope : Scope} {new : List Routine} {inner : Level} {F : Routine}
    (h : Consistent outer l finished) (hs : Plain s.name)
    (hd : checkDefinition l s result position = .ok ())
    (hi : Consistent scope inner (finished ++ new)) (hp : inner.path = l.mangle s)
    (hnew : ∀ F ∈ new, ∃ f ∈ inner.functions, f.implemented = true ∧
      inner.Under f.signature F.name)
    (hF : F.name = l.mangle s) (hFs : F.signature = s) (hFr : F.result = result)
    (hFp : F.parameters.map (·.type) = s.parameters) (at? : Option Position) :
    Consistent outer (l.register ⟨s, result, true, l.mangle s, at?⟩)
      (finished ++ new ++ [F]) := by
  have inside : ∀ G ∈ new, l.Under s G.name ∧ G.name ≠ l.mangle s := by
    intro G hG
    obtain ⟨f, -, -, hu⟩ := hnew G hG
    exact Level.under_of_inside hp hu
  have under : ∀ G ∈ new ++ [F], l.Under s G.name := by
    simp only [List.forall_mem_append, List.forall_mem_singleton]
    exact ⟨fun G hG => (inside G hG).1, .inl hF⟩
  constructor
  case apart => exact h.apart.register _
  case plain =>
    intro f hf
    rcases Level.mem_of_mem_register hf with rfl | hf
    · exact hs
    · exact h.plain f hf
  case mangled =>
    intro f hf
    rcases Level.mem_of_mem_register hf with rfl | hf
    · rfl
    · exact h.mangled f hf
  case closed =>
    intro ho f hf
    rcases Level.mem_of_mem_register hf with rfl | hf
    · rfl
    · exact h.closed ho f hf
  case emitted =>
    intro f hf hi
    rcases Level.mem_of_mem_register hf with rfl | hf
    · exact ⟨F, by simp, hF, hFs ▸ same_refl s, hFr ▸ sameResult_refl result, fun _ => ⟨hFs, hFr⟩⟩
    · obtain ⟨G, hG, hGf⟩ := h.emitted f hf hi
      exact ⟨G, by simp [hG], hGf⟩
  case owned =>
    intro G hG t ht hu
    have hu : l.Under t G.name := hu
    rw [List.append_assoc, List.mem_append] at hG
    rcases hG with hG | hG
    · obtain ⟨f, hf, hi, hft⟩ := h.owned G hG t ht hu
      exact ⟨f, Level.mem_register_of_mem hf (h.not_same hd hf hi), hi, hft⟩
    · exact ⟨_, Level.mem_register, rfl, Level.same_of_under hs ht (under G hG) hu⟩
  case distinct =>
    rw [List.map_append, List.map_singleton]
    refine List.nodup_append.mpr ⟨hi.distinct, by simp, ?_⟩
    intro name hn name' hn' heq
    obtain ⟨G, hG, rfl⟩ := List.mem_map.mp hn
    rw [List.mem_singleton.mp hn', hF] at heq
    rcases List.mem_append.mp hG with hG | hG
    · exact h.not_under hs hd hG (.inl heq)
    · exact (inside G hG).2 heq
  case typed =>
    refine List.forall_mem_append.mpr ⟨hi.typed, List.forall_mem_singleton.mpr ?_⟩
    rw [hFp, hFs]

end

/-! ### Statements -/

mutual
theorem statement_advances {ctx : Context} {p p' : Progress} {out : List (Stmt Typed)} :
    (s : Stmt Position) → (∀ h ∈ s.headers, Plain h.name) →
    Consistent ctx.outer p.body.level p.finished → statement ctx p s = .ok (p', out) →
    Advances ctx.outer p p'
  | .function position header body, hn, hc, h => by
    obtain ⟨s, result, bound, log, last, statements, hh, hd, hp, hb, hl, hf, -⟩ :=
      statement_function h
    obtain ⟨hname, hbody⟩ := List.forall_mem_cons.mp hn
    have hs : Plain s.name := (headerTypes_ok hh).1 ▸ hname
    have htypes := bindParameters_types (parameterTypes_length (headerTypes_ok hh).2) hp
    have hi := bindParameters_bare hp
    rw [inside_eq hh] at htypes
    rw [bare_inside, inside_eq hh] at hi
    have hin := (hc.enter hs hd (p.body.level.enter true position header :: ctx.outer) []).of_bare
      bound.level hi
    obtain ⟨hlast, hext, new, hnew, hunder⟩ := block_advances body hbody hin hb
    have hpath : last.body.level.path = p.body.level.mangle s :=
      hext.path.trans (congrArg Level.path hi)
    rw [hnew] at hlast hf
    refine ⟨?_, ?_, new ++ [_], by rw [hf, List.append_assoc], ?_⟩
    · rw [hf, hl, enter_eq hh]
      exact hc.define hs hd hlast hpath hunder rfl rfl rfl htypes _
    · rw [hl, enter_eq hh]
      exact hc.extends_define hd _
    · rw [hl, enter_eq hh]
      refine List.forall_mem_append.mpr ⟨?_, List.forall_mem_singleton.mpr ?_⟩
      · intro F hF
        obtain ⟨f, -, -, hu⟩ := hunder F hF
        exact ⟨_, Level.mem_register, rfl, (Level.under_of_inside hpath hu).1⟩
      · exact ⟨_, Level.mem_register, rfl, .inl rfl⟩
  | .declare position header, hn, hc, h => by
    obtain ⟨s, result, hh, ho, hnone, hl, hf, -⟩ := statement_declare h
    have hs : Plain s.name := (headerTypes_ok hh).1 ▸ hn header (List.mem_singleton.mpr rfl)
    refine ⟨?_, ?_, [], by simpa using hf, by simp⟩
    · rw [hf, hl, enter_eq hh, ho]
      exact (ho ▸ hc).header hs hnone result _
    · rw [hl, enter_eq hh]
      exact extends_header hnone result _
  | .branch _ condition thenBody elseBody, hn, hc, h => by
    obtain ⟨b, condition', type, p₁, thenBody', elseBody', hv, ht, he, -⟩ := statement_branch h
    obtain ⟨hthen, helse⟩ := List.forall_mem_append.mp hn
    have h₀ := Advances.of_body hc (value_selected condition hv).1
    have h₁ := block_advances thenBody hthen h₀.consistent ht
    exact (h₀.trans h₁).trans (block_advances elseBody helse h₁.consistent he)
  | .loop _ condition body, hn, hc, h => by
    obtain ⟨b, condition', type, body', hv, hbody, -⟩ := statement_loop h
    have h₀ := Advances.of_body hc (value_selected condition hv).1
    exact h₀.trans (block_advances body hn h₀.consistent hbody)
  | .give _ e, _, hc, h => by
    rcases statement_give h with ⟨-, -, rfl, -⟩ | ⟨e₁, b, e', type, -, -, hv, -, -, rfl, -⟩
    · exact .of_body hc rfl
    · exact .of_body hc (value_selected e₁ hv).1
  | .expr e, _, hc, h => by
    obtain ⟨b, e', ha, rfl, -⟩ := statement_expr h
    exact .of_body hc (alone_selected ha).1

theorem block_advances {ctx : Context} {p p' : Progress} {out : List (Stmt Typed)} :
    (ss : List (Stmt Position)) → PlainHeaders ss →
    Consistent ctx.outer p.body.level p.finished → block ctx p ss = .ok (p', out) →
    Advances ctx.outer p p'
  | [], _, hc, h => by
    cases h
    exact .of_body hc rfl
  | s :: ss, hn, hc, h => by
    obtain ⟨hs, hss⟩ := plainHeaders_cons.mp hn
    obtain ⟨p₁, first, rest, hfirst, hrest, -⟩ := block_cons h
    have h₁ := statement_advances s hs hc hfirst
    exact h₁.trans (block_advances ss hss h₁.consistent hrest)
end

end Resolution
end AlgoFrontEnd
