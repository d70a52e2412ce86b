import AlgoFrontEnd.Proofs.Resolution.Linking
import Mathlib.Data.List.Nodup

/-! Arguments of calls and the parameters of the function that finally receives them. -/
namespace AlgoFrontEnd.Resolution

/-- An argument has a type, and it agrees with that of the parameter. -/
def Fits (argument : Option Ty) (parameter : Binding) : Prop :=
  argument.any (·.agrees parameter.type) = true

instance (argument : Option Ty) (parameter : Binding) : Decidable (Fits argument parameter) :=
  inferInstanceAs (Decidable (_ = true))

/-- A call agrees with the body of a function in all arguments and in the result. -/
def Accepts (F : Routine) (c : Call) : Prop :=
  List.Forall₂ Fits c.arguments F.parameters ∧ sameResult c.type F.result = true

instance (F : Routine) (c : Call) : Decidable (Accepts F c) :=
  inferInstanceAs (Decidable (_ ∧ _))

/-- Where a call has seen a header only, some argument that agrees with the header does not agree
with the body, which spells the type of that parameter differently. -/
def Drifts (types : List Ty) (symbol : Symbol) (F : Routine) : Prop :=
  symbol.implemented = false ∧ ∃ (i : Nat) (actual header body : Ty), types[i]? = some actual ∧
    symbol.signature.parameters[i]? = some header ∧ F.signature.parameters[i]? = some body ∧
    header ≠ body ∧ actual.agrees body = false

/-- When a call agrees with the functions of its name. The entry function, which may have been
given the name of another one, has neither parameters nor a result. -/
def Received (r : Result) (s : Site) (c : Call) : Prop :=
  (∃ types symbol, Selects s c types symbol ∧
      ∀ F ∈ r.routines.dropLast, F.name = c.name →
        sameResult c.type F.result = true ∧ (Accepts F c ↔ ¬ Drifts types symbol F)) ∧
    ∀ F ∈ r.routines.getLast?, F.name = c.name →
      (Accepts F c ↔ c.arguments = [] ∧ c.type = none)

theorem fits_map_iff {types : List Ty} {parameters : List Binding} :
    List.Forall₂ Fits (types.map some) parameters ↔
      List.Forall₂ (fun actual body => actual.agrees body = true) types
        (parameters.map (·.type)) := by
  rw [List.forall₂_map_left_iff, List.forall₂_map_right_iff]
  rfl

/-- Lists agree if their entries do, wherever both have one. -/
theorem forall₂_of_getElem? {α β : Type} {R : α → β → Prop} {xs : List α} {ys : List β}
    (hl : xs.length = ys.length)
    (h : ∀ (i : Nat) x y, xs[i]? = some x → ys[i]? = some y → R x y) : List.Forall₂ R xs ys := by
  refine List.forall₂_iff_get.mpr ⟨hl, ?_⟩
  intro i hx hy
  exact h i _ _ (List.getElem?_eq_getElem hx) (List.getElem?_eq_getElem hy)

theorem getElem?_of_forall₂ {α β : Type} {R : α → β → Prop} {xs : List α} {ys : List β}
    (h : List.Forall₂ R xs ys) {i : Nat} {x : α} {y : β} (hx : xs[i]? = some x)
    (hy : ys[i]? = some y) : R x y := by
  obtain ⟨hi, rfl⟩ := List.getElem?_eq_some_iff.mp hx
  obtain ⟨hj, rfl⟩ := List.getElem?_eq_some_iff.mp hy
  exact h.get hi hj

/-- A body accepts a call that selects its symbol unless its parameters have drifted away from
the header. -/
theorem accepts_iff_not_drifts {s : Site} {c : Call} {types : List Ty} {symbol : Symbol}
    {F : Routine} (hc : Selects s c types symbol) (hF : Implements F symbol)
    (hp : F.parameters.map (·.type) = F.signature.parameters) :
    Accepts F c ↔ ¬ Drifts types symbol F := by
  have hresult : sameResult c.type F.result = true := hc.type ▸ hF.result
  have hl : F.signature.parameters.length = symbol.signature.parameters.length := by
    simpa using congrArg List.length (same_iff.mp hF.signature).2
  have hargs : Accepts F c ↔ List.Forall₂ (fun actual body => actual.agrees body = true) types
      F.signature.parameters := by
    rw [Accepts, hc.arguments, fits_map_iff, hp]
    exact and_iff_left hresult
  rw [hargs]
  constructor
  · rintro h ⟨-, i, actual, header, body, ha, -, hb, -, hn⟩
    rw [getElem?_of_forall₂ h ha hb] at hn
    cases hn
  · intro h
    refine forall₂_of_getElem? (hc.agree.length_eq.trans hl.symm) ?_
    intro i actual body ha hb
    obtain ⟨hi, -⟩ := List.getElem?_eq_some_iff.mp hb
    obtain ⟨header, hh⟩ : ∃ header, symbol.signature.parameters[i]? = some header :=
      ⟨_, List.getElem?_eq_getElem (hl ▸ hi)⟩
    by_cases he : header = body
    · subst he
      exact getElem?_of_forall₂ hc.agree ha hh
    · cases hm : symbol.implemented with
      | true =>
        rw [← (hF.exact hm).1, hb] at hh
        exact absurd (Option.some.inj hh).symm he
      | false =>
        by_contra hn
        exact h ⟨hm, i, actual, header, body, ha, hh, hb, he, Bool.eq_false_iff.mpr hn⟩

theorem accepts_entry_iff {F : Routine} {c : Call} (hp : F.parameters = [])
    (hr : F.result = none) : Accepts F c ↔ c.arguments = [] ∧ c.type = none := by
  rw [Accepts, hp, hr, List.forall₂_nil_right_iff]
  cases c.type <;> simp [sameResult]

section
variable {entry : String} {p : Program Position} {r : Result} {log : List Event}

/-- A function of a result is what the symbol of a call stands for, if the call has its name. -/
theorem implements_of_name (hn : PlainHeaders p) (h : program entry p = .ok (r, log)) {s : Site}
    {c : Call} (hs : SettledAt r.routines.dropLast r.externals s.scope) {types : List Ty}
    {symbol : Symbol} (hc : Selects s c types symbol) {F : Routine}
    (hF : F ∈ r.routines.dropLast) (hname : F.name = c.name) : Implements F symbol := by
  obtain ⟨inner, level, further, hscope, -, hm, -⟩ := hc.nearest
  rcases hs level (by simp [hscope]) symbol hm with ⟨G, hG, hGs⟩ | hx
  · obtain ⟨l, hl, -⟩ := program_consistent hn h
    have heq : G.name = F.name := hGs.name.trans (hc.name.symm.trans hname.symm)
    rwa [List.inj_on_of_nodup_map hl.distinct hG hF heq] at hGs
  · exact absurd (hname.trans hc.name) (external_ne_name hn h hx hF)

/-- Every call agrees in its result with the function of its name, and in its arguments too
unless the parameters have drifted away from the header that the call has seen. -/
theorem calls_accepted {lines : List String} (h : Resolves entry lines p r) :
    List.Forall₂ (List.Forall₂ (Received r)) p.sites (r.routines.map Routine.calls) := by
  obtain ⟨tokens, log, ht, hp, h⟩ := h
  have hn := Grammar.plainHeaders_program ht hp
  obtain ⟨l, hl, -⟩ := program_consistent hn h
  refine List.Forall₂.imp ?_
    ((List.forall₂_and_left _ _).mpr ⟨program_settled hn h, program_selected h⟩)
  intro ss cs hss
  refine List.Forall₂.imp ?_ ((List.forall₂_and_left _ _).mpr hss)
  rintro s c ⟨hs, types, symbol, hc⟩
  refine ⟨⟨types, symbol, hc, ?_⟩, ?_⟩
  · intro F hF hname
    have hFs := implements_of_name hn h hs hc hF hname
    exact ⟨hc.type ▸ hFs.result, accepts_iff_not_drifts hc hFs (hl.typed F hF)⟩
  · intro F hF _
    obtain ⟨last, statements, -, -, hr⟩ := program_ok h
    rw [hr, List.getLast?_concat, Option.mem_some_iff] at hF
    subst hF
    exact accepts_entry_iff rfl rfl

end

/-- A header and a body that spell different array elements, and a call between them. -/
def driftingSource : List String :=
  ["declare function f(xs: int[])", "f([1])", "function f(xs: float[])", "end"]

theorem driftingSource_refuses : ∃ p r, Resolves "main" driftingSource p r ∧
    ∃ G ∈ r.routines, ∃ c ∈ G.calls, ∃ F ∈ r.routines.dropLast, F.name = c.name ∧
      ¬ Accepts F c := by
  obtain ⟨p, r, h, hd⟩ := resolves_of_any "main" driftingSource
    (fun (_, r) => ∃ G ∈ r.routines, ∃ c ∈ G.calls, ∃ F ∈ r.routines.dropLast,
      F.name = c.name ∧ ¬ Accepts F c) (by decide +kernel)
  exact ⟨p, r, h, of_decide_eq_true hd⟩

/-- A header and a body that agree, called on either side of the body. -/
def settledSource : List String :=
  ["declare function f(xs: int[], n: int) : int", "f([1], 2)",
    "function f(xs: int[], n: int) : int", "return n", "end", "y <- f([1, 2], 3)"]

theorem settledSource_accepted : ∃ p r, Resolves "main" settledSource p r ∧
    (∀ G ∈ r.routines, ∀ c ∈ G.calls, ∀ F ∈ r.routines.dropLast, F.name = c.name → Accepts F c) ∧
    List.Forall₂ (List.Forall₂ (Received r)) p.sites (r.routines.map Routine.calls) := by
  obtain ⟨p, r, h, ha⟩ := resolves_of_any "main" settledSource
    (fun (_, r) => ∀ G ∈ r.routines, ∀ c ∈ G.calls, ∀ F ∈ r.routines.dropLast,
      F.name = c.name → Accepts F c) (by decide +kernel)
  exact ⟨p, r, h, of_decide_eq_true ha, calls_accepted h⟩

end AlgoFrontEnd.Resolution
