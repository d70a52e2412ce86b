import AlgoFrontEnd.Scope.Basic

/-! Functions of a level, one for each signature. -/
namespace AlgoFrontEnd

theorem same_iff {s t : Signature} : s.same t = true ↔
    s.name = t.name ∧ s.parameters.map Ty.outline = t.parameters.map Ty.outline := by
  simp [Signature.same]

theorem same_refl (s : Signature) : s.same s = true := by
  simp [Signature.same]

theorem same_symm {s t : Signature} (h : s.same t = true) : t.same s = true := by
  rw [same_iff] at h ⊢
  exact ⟨h.1.symm, h.2.symm⟩

theorem same_trans {s t u : Signature} (hs : s.same t = true) (ht : t.same u = true) :
    s.same u = true := by
  rw [same_iff] at hs ht ⊢
  exact ⟨hs.1.trans ht.1, hs.2.trans ht.2⟩

/-! ### Entries -/

section
variable {α : Type} {replaces : α → Bool} {entry x : α} {xs : List α}

theorem entry_mem_putEntry : entry ∈ putEntry replaces entry xs := by
  induction xs with
  | nil => simp [putEntry]
  | cons old rest ih =>
    rw [putEntry]
    split
    · exact List.mem_cons_self ..
    · exact List.mem_cons_of_mem _ ih

theorem mem_of_mem_putEntry (h : x ∈ putEntry replaces entry xs) : x = entry ∨ x ∈ xs := by
  induction xs with
  | nil => exact .inl (List.mem_singleton.mp h)
  | cons old rest ih =>
    rw [putEntry] at h
    split at h
    · exact (List.mem_cons.mp h).imp_right (List.mem_cons_of_mem _)
    · rcases List.mem_cons.mp h with rfl | h
      · exact .inr (List.mem_cons_self ..)
      · exact (ih h).imp_right (List.mem_cons_of_mem _)

theorem mem_putEntry_of_mem (h : x ∈ xs) (hx : replaces x = false) :
    x ∈ putEntry replaces entry xs := by
  induction xs with
  | nil => cases h
  | cons old rest ih =>
    rw [putEntry]
    rcases List.mem_cons.mp h with rfl | h
    · simp [hx]
    · split
      · exact List.mem_cons_of_mem _ h
      · exact List.mem_cons_of_mem _ (ih h)

end

namespace Level
variable {l : Level} {f g symbol : Symbol} {s : Signature}

/-- No two functions have the same signature. -/
def Apart (l : Level) : Prop :=
  l.functions.Pairwise fun f g => f.signature.same g.signature = false

theorem mem_of_function? (h : l.function? s = some f) :
    f ∈ l.functions ∧ f.signature.same s = true :=
  ⟨List.mem_of_find?_eq_some h,
    List.find?_some (p := fun f : Symbol => f.signature.same s) h⟩

theorem not_same_of_function?_none (h : l.function? s = none) (hf : f ∈ l.functions) :
    f.signature.same s = false := by
  simpa using List.find?_eq_none.mp h f hf

theorem Apart.eq_of_same (h : l.Apart) (hf : f ∈ l.functions) (hg : g ∈ l.functions)
    (hs : f.signature.same g.signature = true) : f = g := by
  unfold Apart at h
  generalize l.functions = fs at *
  induction fs with
  | nil => cases hf
  | cons k fs ih =>
    obtain ⟨hk, h⟩ := List.pairwise_cons.mp h
    rcases List.mem_cons.mp hf with rfl | hf' <;> rcases List.mem_cons.mp hg with rfl | hg'
    · rfl
    · exact absurd hs (by simp [hk g hg'])
    · exact absurd (same_symm hs) (by simp [hk f hf'])
    · exact ih h hf' hg'

theorem Apart.function? (h : l.Apart) (hf : f ∈ l.functions) (hs : f.signature.same s = true) :
    l.function? s = some f := by
  cases hk : l.function? s with
  | none => simp [not_same_of_function?_none hk hf] at hs
  | some k =>
    obtain ⟨hm, hks⟩ := mem_of_function? hk
    rw [h.eq_of_same hm hf (same_trans hks (same_symm hs))]

theorem Apart.register (h : l.Apart) (symbol : Symbol) : (l.register symbol).Apart := by
  unfold Apart Level.register at *
  generalize l.functions = fs at *
  induction fs with
  | nil => simp [putEntry]
  | cons k fs ih =>
    obtain ⟨hk, h⟩ := List.pairwise_cons.mp h
    rw [putEntry]
    split
    · rename_i hs
      refine List.pairwise_cons.mpr ⟨?_, h⟩
      intro g hg
      cases hsg : symbol.signature.same g.signature with
      | false => rfl
      | true => exact absurd (same_trans hs hsg) (by simp [hk g hg])
    · rename_i hs
      refine List.pairwise_cons.mpr ⟨?_, ih h⟩
      intro g hg
      rcases mem_of_mem_putEntry hg with rfl | hg
      · exact Bool.eq_false_iff.mpr hs
      · exact hk g hg

theorem mem_register : symbol ∈ (l.register symbol).functions := entry_mem_putEntry

theorem mem_of_mem_register (h : f ∈ (l.register symbol).functions) :
    f = symbol ∨ f ∈ l.functions :=
  mem_of_mem_putEntry h

theorem mem_register_of_mem (h : f ∈ l.functions)
    (hs : f.signature.same symbol.signature = false) : f ∈ (l.register symbol).functions :=
  mem_putEntry_of_mem h hs

end Level
end AlgoFrontEnd
