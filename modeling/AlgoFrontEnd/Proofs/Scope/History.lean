import AlgoFrontEnd.Proofs.Scope.Bindings
import AlgoFrontEnd.Resolution.Program

/-! The symbols that a level has got one after the other, replaced headers among them. Main
statement: if each of them is admitted when it comes, those of one signature are a header, a
definition, or a header and then its definition, and the level knows the last of them. -/
namespace AlgoFrontEnd
open Resolution

theorem same_comm (s t : Signature) : s.same t = t.same s := by
  rw [Bool.eq_iff_iff]
  exact ⟨same_symm, same_symm⟩

theorem same_congr_left {s t : Signature} (h : s.same t = true) (u : Signature) :
    s.same u = t.same u := by
  rw [Bool.eq_iff_iff]
  exact ⟨same_trans (same_symm h), same_trans h⟩

theorem same_congr_right {s t : Signature} (h : s.same t = true) (u : Signature) :
    u.same s = u.same t := by
  rw [same_comm u, same_comm u, same_congr_left h]

/-- The symbols of a signature, in their order. -/
def Signature.among (s : Signature) (fs : List Symbol) : List Symbol :=
  fs.filter (·.signature.same s)

theorem among_congr {s t : Signature} (h : s.same t = true) (fs : List Symbol) :
    s.among fs = t.among fs :=
  List.filter_congr fun f _ => same_congr_right h f.signature

theorem among_concat_of_same {s : Signature} {f : Symbol} (h : f.signature.same s = true)
    (fs : List Symbol) : s.among (fs ++ [f]) = f.signature.among fs ++ [f] := by
  rw [among_congr h, Signature.among, Signature.among, List.filter_append]
  simp [h]

theorem among_concat_of_not_same {s : Signature} {f : Symbol} (h : f.signature.same s = false)
    (fs : List Symbol) : s.among (fs ++ [f]) = s.among fs := by
  rw [Signature.among, List.filter_append]
  simp [h, Signature.among]

/-- What may be declared under one signature in one scope: nothing, a definition or a header
alone, or a header and then a definition with the same result. -/
inductive Protocol : List Symbol → Prop where
  | free : Protocol []
  | once (f : Symbol) : Protocol [f]
  | met {header definition : Symbol} : header.implemented = false →
      definition.implemented = true → sameResult header.result definition.result = true →
      Protocol [header, definition]

/-- A header that none of the symbols defines. -/
def Symbol.isUnmet (fs : List Symbol) (f : Symbol) : Bool :=
  !f.implemented && !(f.signature.among fs).any (·.implemented)

theorem isUnmet_concat (fs : List Symbol) (f g : Symbol) :
    g.isUnmet (fs ++ [f]) =
      (g.isUnmet fs && !(f.implemented && f.signature.same g.signature)) := by
  unfold Symbol.isUnmet
  cases hs : f.signature.same g.signature with
  | false => rw [among_concat_of_not_same hs, Bool.and_false, Bool.not_false, Bool.and_true]
  | true =>
    rw [among_concat_of_same hs, among_congr hs, List.any_append]
    simp [Bool.and_assoc]

namespace Level
variable {l : Level} {f : Symbol} {fs : List Symbol}

theorem function?_register (l : Level) (f : Symbol) (s : Signature) :
    (l.register f).function? s = if f.signature.same s then some f else l.function? s := by
  simp only [function?, register]
  induction l.functions with
  | nil => cases hf : f.signature.same s <;> simp [putEntry, hf]
  | cons k ks ih =>
    rw [putEntry]
    cases hk : k.signature.same f.signature with
    | true =>
      have hs := same_congr_left hk s
      cases hf : f.signature.same s <;> simp [hs, hf]
    | false =>
      cases hs : k.signature.same s with
      | false => simpa [List.find?_cons, hs] using ih
      | true =>
        have hf : f.signature.same s = false := by
          rwa [same_comm, ← same_congr_left hs]
        simp [hs, hf]

theorem unimplemented_register_of_header (h : l.function? f.signature = none)
    (hf : f.implemented = false) : (l.register f).unimplemented = l.unimplemented ++ [f] := by
  have hn : ∀ g ∈ l.functions, g.signature.same f.signature = false :=
    fun g hg => not_same_of_function?_none h hg
  rw [unimplemented, register, putEntry_eq_append hn, List.filter_append]
  simp [hf, unimplemented]

/-- A definition takes the place of the header that it meets. -/
theorem unimplemented_register_of_definition (h : l.Apart) (hf : f.implemented = true) :
    (l.register f).unimplemented =
      l.unimplemented.filter (!·.signature.same f.signature) := by
  simp only [unimplemented, register, List.filter_filter]
  unfold Apart at h
  generalize l.functions = ks at h
  induction ks with
  | nil => simp [putEntry, hf]
  | cons k ks ih =>
    obtain ⟨hk, hks⟩ := List.pairwise_cons.mp h
    rw [putEntry]
    cases hs : k.signature.same f.signature with
    | false => simp [List.filter_cons, hs, ih hks]
    | true =>
      -- no other entry has the signature, so the rest loses nothing
      have hrest : ∀ g ∈ ks,
          (!g.implemented) = (!g.signature.same f.signature && !g.implemented) := by
        intro g hg
        rw [same_comm, ← same_congr_left hs, hk g hg, Bool.not_false, Bool.true_and]
      simp [hs, hf, List.filter_congr hrest]

/-! ### Histories -/

/-- A new signature takes any symbol, and an open header takes a definition with its result. -/
def Admits (l : Level) (f : Symbol) : Prop :=
  ∀ known ∈ l.function? f.signature,
    known.implemented = false ∧ f.implemented = true ∧ sameResult known.result f.result = true

/-- A level that has got these symbols, each of which it admitted. -/
structure Records (l : Level) (fs : List Symbol) : Prop where
  apart : l.Apart
  protocol : ∀ s : Signature, Protocol (s.among fs)
  last : ∀ s : Signature, l.function? s = (s.among fs).getLast?
  unimplemented : l.unimplemented = fs.filter (·.isUnmet fs)

theorem Records.nil {l : Level} (h : l.functions = []) : l.Records [] := by
  refine ⟨?_, fun s => .free, fun s => ?_, ?_⟩
  · rw [Apart, h]
    exact .nil
  · rw [function?, h]
    rfl
  · rw [Level.unimplemented, h]
    rfl

theorem Records.among_of_function?_none (h : l.Records fs) {s : Signature}
    (hn : l.function? s = none) : s.among fs = [] :=
  List.getLast?_eq_none_iff.mp (h.last s ▸ hn)

theorem Records.protocol_concat (h : l.Records fs) (ha : l.Admits f) :
    Protocol (f.signature.among fs ++ [f]) := by
  have hl := h.last f.signature
  have hp := h.protocol f.signature
  generalize f.signature.among fs = gs at hl hp
  cases hp with
  | free => exact .once f
  | once g =>
    obtain ⟨hg, hf, hr⟩ := ha g hl
    exact .met hg hf hr
  | met hheader hdefinition hr =>
    obtain ⟨hg, -⟩ := ha _ hl
    exact absurd hg (by simp [hdefinition])

theorem Records.register (h : l.Records fs) (ha : l.Admits f) :
    (l.register f).Records (fs ++ [f]) := by
  refine ⟨h.apart.register f, fun s => ?_, fun s => ?_, ?_⟩
  · cases hs : f.signature.same s with
    | true =>
      rw [among_concat_of_same hs]
      exact h.protocol_concat ha
    | false =>
      rw [among_concat_of_not_same hs]
      exact h.protocol s
  · rw [function?_register]
    cases hs : f.signature.same s with
    | true => simp [among_concat_of_same hs]
    | false => simp [among_concat_of_not_same hs, h.last s]
  · simp only [List.filter_append, List.filter_singleton, isUnmet_concat]
    cases hi : f.implemented with
    | true =>
      rw [unimplemented_register_of_definition h.apart hi, h.unimplemented, List.filter_filter]
      simp [Symbol.isUnmet, hi, same_comm, Bool.and_comm]
    | false =>
      have hn : l.function? f.signature = none := by
        by_contra hk
        obtain ⟨known, hk⟩ := Option.ne_none_iff_exists'.mp hk
        exact absurd (ha known hk).2.1 (by simp [hi])
      rw [unimplemented_register_of_header hn hi, h.unimplemented]
      simp [Symbol.isUnmet, hi, h.among_of_function?_none hn]

end Level
end AlgoFrontEnd
