import AlgoFrontEnd.Proofs.Resolution.Definitions

/-! Names of functions and of headers without a body. Main statement: no two of them are the same,
and each can be read back to the signatures of the functions around its own and to that one. -/
namespace AlgoFrontEnd
open Resolution

/-- A name is the text of a path, and of no other path but those that are spelled alike. -/
structure Signature.Spells (name : String) (path : List Signature) : Prop where
  plain : ∀ s ∈ path, Plain s.name
  spells : name = pathText path
  only : ∀ other : List Signature, (∀ s ∈ other, Plain s.name) → pathText other = name →
    other.map spelled = path.map spelled

theorem Signature.spells_pathText {path : List Signature} (h : ∀ s ∈ path, Plain s.name) :
    Spells (pathText path) path :=
  ⟨h, rfl, fun _ ho he => map_spelled_of_pathText_eq ho h he⟩

/-- The signatures of the functions around a definition, and behind them its own. -/
def Definition.path? (d : Definition) : Option (List Signature) :=
  (d.around ++ [d.header]).mapM Header.signature?

namespace Resolution

/-! ### Plain paths -/

mutual
theorem plain_of_mem_definitions {around : List (Header Position)}
    (ha : ∀ h ∈ around, Plain h.name) :
    (s : Stmt Position) → (∀ h ∈ s.headers, Plain h.name) →
    ∀ d ∈ s.definitions around, ∀ h ∈ d.around ++ [d.header], Plain h.name
  | .function _ header body, hs => by
    obtain ⟨hheader, hbody⟩ := List.forall_mem_cons.mp hs
    have hself : ∀ h ∈ around ++ [header], Plain h.name :=
      List.forall_mem_append.mpr ⟨ha, List.forall_mem_singleton.mpr hheader⟩
    exact List.forall_mem_append.mpr
      ⟨plain_of_mem_definitionsAll hself body hbody, List.forall_mem_singleton.mpr hself⟩
  | .branch _ _ thenBody elseBody, hs => by
    obtain ⟨hthen, helse⟩ := List.forall_mem_append.mp hs
    exact List.forall_mem_append.mpr ⟨plain_of_mem_definitionsAll ha thenBody hthen,
      plain_of_mem_definitionsAll ha elseBody helse⟩
  | .loop _ _ body, hs => plain_of_mem_definitionsAll ha body hs
  | .declare _ _, _ | .give _ _, _ | .expr _, _ => List.forall_mem_nil _

theorem plain_of_mem_definitionsAll {around : List (Header Position)}
    (ha : ∀ h ∈ around, Plain h.name) :
    (ss : List (Stmt Position)) → PlainHeaders ss →
    ∀ d ∈ Stmt.definitionsAll around ss, ∀ h ∈ d.around ++ [d.header], Plain h.name
  | [], _ => List.forall_mem_nil _
  | s :: ss, hs => by
    obtain ⟨hfirst, hrest⟩ := plainHeaders_cons.mp hs
    exact List.forall_mem_append.mpr
      ⟨plain_of_mem_definitions ha s hfirst, plain_of_mem_definitionsAll ha ss hrest⟩
end

theorem name_of_signature? {h : Header Position} {s : Signature} (hs : h.signature? = some s) :
    s.name = h.name := by
  obtain ⟨types, -, rfl⟩ := Option.map_eq_some_iff.mp hs
  rfl

theorem plain_of_mapM_signature? {hs : List (Header Position)} {path : List Signature}
    (hn : ∀ h ∈ hs, Plain h.name) (hp : hs.mapM Header.signature? = some path) :
    ∀ s ∈ path, Plain s.name := by
  induction hs generalizing path with
  | nil =>
    cases hp
    exact List.forall_mem_nil _
  | cons h hs ih =>
    obtain ⟨hfirst, hrest⟩ := List.forall_mem_cons.mp hn
    simp only [List.mapM_cons, Option.bind_eq_bind, Option.bind_eq_some_iff, Option.pure_def,
      Option.some.injEq] at hp
    obtain ⟨s, hs, rest, hr, rfl⟩ := hp
    exact List.forall_mem_cons.mpr ⟨name_of_signature? hs ▸ hfirst, ih hrest hr⟩

/-- A definition with plain headers around it has a name that spells its path. -/
theorem spells_of_emitted {d : Definition} {F : Routine} (h : d.Emitted F)
    (hn : ∀ h ∈ d.around ++ [d.header], Plain h.name) :
    ∃ path, d.path? = some path ∧ Signature.Spells F.name path := by
  obtain ⟨path, hp, hname⟩ := h.name
  have hpath : d.path? = some (path ++ [F.signature]) := by
    simp [Definition.path?, List.mapM_append, hp, h.signature]
  refine ⟨_, hpath, ?_⟩
  rw [hname]
  exact Signature.spells_pathText (plain_of_mapM_signature? hn hpath)

/-! ### Headers without a body -/

/-- Functions of a level have different mangled names. -/
theorem Consistent.nodup_mangled {outer : Scope} {l : Level} {finished : List Routine}
    (h : Consistent outer l finished) : (l.functions.map (·.mangled)).Nodup := by
  refine List.pairwise_map.mpr (h.apart.imp_of_mem ?_)
  intro f g hf hg hs heq
  rw [h.mangled f hf, h.mangled g hg] at heq
  rw [Level.same_of_under (h.plain f hf) (h.plain g hg) (.inl rfl) (.inl heq)] at hs
  cases hs

section
variable {entry : String} {p : Program Position} {r : Result} {log : List Event}

/-- Headers stand outside of functions, so their path is their own signature. -/
theorem spells_external (hn : PlainHeaders p) (h : program entry p = .ok (r, log)) {x : Symbol}
    (hx : x ∈ r.externals) : Signature.Spells x.mangled [x.signature] := by
  obtain ⟨last, statements, hb, he, -⟩ := program_ok h
  have hc := (block_advances p hn consistent_global hb).consistent
  have hpath : last.body.level.path = Signature.pathText [] :=
    (block_emitted [] rfl p rfl hb).path
  have hl := (mem_unimplemented.mp (he ▸ hx)).1
  rw [hc.mangled x hl, Level.mangle_eq_pathText hpath, List.nil_append]
  exact Signature.spells_pathText (List.forall_mem_singleton.mpr (hc.plain x hl))

theorem nodup_externals (hn : PlainHeaders p) (h : program entry p = .ok (r, log)) :
    (r.externals.map (·.mangled)).Nodup := by
  obtain ⟨l, hc, he⟩ := program_consistent hn h
  rw [he]
  exact hc.nodup_mangled.sublist (List.filter_sublist.map _)

theorem openParen_mem_external (hn : PlainHeaders p) (h : program entry p = .ok (r, log))
    {x : Symbol} (hx : x ∈ r.externals) : '(' ∈ x.mangled.toList := by
  rw [(spells_external hn h hx).spells]
  exact Signature.openParen_mem_pathText [] x.signature

/-- All functions but the entry function have a bracket in their names. -/
theorem openParen_mem_name (h : program entry p = .ok (r, log)) :
    ∀ F ∈ r.routines.dropLast, '(' ∈ F.name.toList := by
  refine ((List.forall₂_and_left (R := flip Definition.Emitted) _ p.definitions).mp
    ((program_emitted h).flip.imp ?_)).1
  intro F d hd
  obtain ⟨path, -, hname⟩ := hd.name
  refine ⟨?_, hd⟩
  rw [hname]
  exact Signature.openParen_mem_pathText path F.signature

theorem nodup_names (hn : PlainHeaders p) (h : program entry p = .ok (r, log))
    (he : '(' ∉ entry.toList) :
    (r.routines.map (·.name) ++ r.externals.map (·.mangled)).Nodup := by
  obtain ⟨l, hc, -⟩ := program_consistent hn h
  obtain ⟨last, statements, -, -, hr⟩ := program_ok h
  have hlast : r.routines.map (·.name) = r.routines.dropLast.map (·.name) ++ [entry] := by
    simp [hr]
  rw [hlast, List.append_assoc, List.singleton_append]
  -- Only the entry name has no bracket, so it differs from the names on both sides of it.
  refine List.nodup_append.mpr ⟨hc.distinct, List.nodup_cons.mpr ⟨?_, nodup_externals hn h⟩, ?_⟩
  · intro hm
    obtain ⟨x, hx, rfl⟩ := List.mem_map.mp hm
    exact he (openParen_mem_external hn h hx)
  · rintro _ hm _ hm' rfl
    obtain ⟨F, hF, rfl⟩ := List.mem_map.mp hm
    rcases List.mem_cons.mp hm' with rfl | hx
    · exact he (openParen_mem_name h F hF)
    · obtain ⟨x, hx, heq⟩ := List.mem_map.mp hx
      exact external_ne_name hn h hx hF heq.symm

end

/-! ### Results -/

/-- Functions and headers without a body have different names, and each name can be read back to
the path of its definition. A header is at the outermost level, so its path is its signature. -/
theorem names_spell_paths {entry : String} {lines : List String} {p : Program Position}
    {r : Result} (h : Resolves entry lines p r) (he : '(' ∉ entry.toList) :
    (r.routines.map (·.name) ++ r.externals.map (·.mangled)).Nodup ∧
    List.Forall₂ (fun d F => ∃ path, d.path? = some path ∧ Signature.Spells F.name path)
      p.definitions r.routines.dropLast ∧
    ∀ x ∈ r.externals, Signature.Spells x.mangled [x.signature] := by
  obtain ⟨tokens, log, ht, hp, h⟩ := h
  have hn := Grammar.plainHeaders_program ht hp
  refine ⟨nodup_names hn h he, ?_, fun x hx => spells_external hn h hx⟩
  have hplain := plain_of_mem_definitionsAll (List.forall_mem_nil _) p hn
  refine List.Forall₂.imp ?_ ((List.forall₂_and_left _ _).mpr ⟨hplain, program_emitted h⟩)
  rintro d F ⟨hd, hF⟩
  exact spells_of_emitted hF hd

/-- Overloads, a function hidden by one inside, one in each part of a branch, and two headers. -/
def overloadedSource : List String :=
  ["declare function g(a: int)", "declare function h()", "function f(a: int, b: int[])",
    "function f(a: int)", "end", "if a > 1", "function g(a: int)", "end", "else",
    "while true", "function g()", "function f(a: int)", "end", "end", "end", "end", "end",
    "function f(a: int)", "end", "function g(a: int)", "end"]

theorem overloadedSource_spells : ∃ p r, Resolves "main" overloadedSource p r ∧
    r.routines.map (·.name) = ["f(int,array).f(int)", "f(int,array).g(int)",
      "f(int,array).g().f(int)", "f(int,array).g()", "f(int,array)", "f(int)", "g(int)", "main"] ∧
    r.externals.map (·.mangled) = ["h()"] ∧
    (r.routines.map (·.name) ++ r.externals.map (·.mangled)).Nodup ∧
    List.Forall₂ (fun d F => ∃ path, d.path? = some path ∧ Signature.Spells F.name path)
      p.definitions r.routines.dropLast ∧
    ∀ x ∈ r.externals, Signature.Spells x.mangled [x.signature] := by
  obtain ⟨p, r, h, hn⟩ := resolves_of_any "main" overloadedSource
    (fun (_, r) => r.routines.map (·.name) = ["f(int,array).f(int)", "f(int,array).g(int)",
        "f(int,array).g().f(int)", "f(int,array).g()", "f(int,array)", "f(int)", "g(int)",
        "main"] ∧
      r.externals.map (·.mangled) = ["h()"]) (by decide +kernel)
  obtain ⟨hr, hx⟩ := of_decide_eq_true hn
  exact ⟨p, r, h, hr, hx, names_spell_paths h (by decide)⟩

end Resolution
end AlgoFrontEnd
