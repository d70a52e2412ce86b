import AlgoFrontEnd.Scope.Basic
import AlgoFrontEnd.Token.Piece

/-! Texts of signatures and mangled names, and what can be read back from them. -/
namespace AlgoFrontEnd

/-- A name as it stands in source, without dots and parentheses. -/
def Plain (name : String) : Prop := ∀ c ∈ name.toList, Token.isNameChar c = true

theorem not_mem_of_plain {name : String} {c : Char} (h : Plain name)
    (hc : Token.isNameChar c = false) : c ∉ name.toList := by
  intro hm
  rw [h c hm] at hc
  cases hc

/-! ### Texts cut at a character -/

theorem takeWhile_ne_append {c : Char} {cs tail : List Char} (h : c ∉ cs)
    (ht : ∀ x ∈ tail.head?, x = c) : (cs ++ tail).takeWhile (· ≠ c) = cs := by
  have hcs : ∀ x ∈ cs, decide (x ≠ c) = true := by
    intro x hx
    simpa using ne_of_mem_of_not_mem hx h
  rw [List.takeWhile_append_of_pos hcs]
  cases tail with
  | nil => simp
  | cons x rest =>
    have := ht x rfl
    simp [this]

/-- What stands before a character that occurs in neither part can be read back. -/
theorem eq_of_append_eq {c : Char} {a b u v : List Char} (ha : c ∉ a) (hb : c ∉ b)
    (hu : ∀ x ∈ u.head?, x = c) (hv : ∀ x ∈ v.head?, x = c) (h : a ++ u = b ++ v) :
    a = b ∧ u = v := by
  have hab : a = b := by
    rw [← takeWhile_ne_append ha hu, h, takeWhile_ne_append hb hv]
  subst hab
  exact ⟨rfl, List.append_cancel_left h⟩

theorem mem_intercalate {c : Char} {sep : List Char} {xs : List (List Char)}
    (h : c ∈ List.intercalate sep xs) : c ∈ sep ∨ ∃ x ∈ xs, c ∈ x := by
  induction xs with
  | nil => simp at h
  | cons x xs ih =>
    cases xs with
    | nil => exact .inr ⟨x, by simp, by simpa using h⟩
    | cons y ys =>
      rw [List.intercalate_cons_cons, List.mem_append, List.mem_append] at h
      rcases h with (h | h) | h
      · exact .inr ⟨x, by simp, h⟩
      · exact .inl h
      · rcases ih h with h | ⟨z, hz, h⟩
        · exact .inl h
        · exact .inr ⟨z, by simp [hz], h⟩

/-- Parts joined by a character that none of them contains can be read back. -/
theorem intercalate_injective {c : Char} {xs ys : List (List Char)}
    (hx : ∀ x ∈ xs, x ≠ [] ∧ c ∉ x) (hy : ∀ y ∈ ys, y ≠ [] ∧ c ∉ y)
    (h : List.intercalate [c] xs = List.intercalate [c] ys) : xs = ys := by
  have tail (zs : List (List Char)) (z : List Char) : ∃ tail,
      List.intercalate [c] (z :: zs) = z ++ tail ∧ (∀ x ∈ tail.head?, x = c) ∧
        (zs = [] ∧ tail = [] ∨ zs ≠ [] ∧ tail = c :: List.intercalate [c] zs) := by
    cases zs with
    | nil => exact ⟨[], by simp, by simp, .inl ⟨rfl, rfl⟩⟩
    | cons w zs =>
      refine ⟨c :: List.intercalate [c] (w :: zs), ?_, by simp, .inr ⟨by simp, rfl⟩⟩
      rw [List.intercalate_cons_cons]
      simp
  induction xs generalizing ys with
  | nil =>
    cases ys with
    | nil => rfl
    | cons y ys =>
      obtain ⟨t, ht, -⟩ := tail ys y
      rw [ht] at h
      exact absurd (List.append_eq_nil_iff.mp h.symm).1 (hy y (by simp)).1
  | cons x xs ih =>
    obtain ⟨t, ht, hh, hc⟩ := tail xs x
    cases ys with
    | nil =>
      rw [ht] at h
      exact absurd (List.append_eq_nil_iff.mp h).1 (hx x (by simp)).1
    | cons y ys =>
      obtain ⟨t', ht', hh', hc'⟩ := tail ys y
      rw [ht, ht'] at h
      obtain ⟨rfl, rfl⟩ := eq_of_append_eq (hx x (by simp)).2 (hy y (by simp)).2 hh hh' h
      congr 1
      rcases hc with ⟨rfl, rfl⟩ | ⟨-, rfl⟩ <;> rcases hc' with ⟨rfl, hn⟩ | ⟨-, hn⟩
      · rfl
      · cases hn
      · cases hn
      · exact ih (fun z hz => hx z (by simp [hz])) (fun z hz => hy z (by simp [hz]))
          (List.cons.inj hn).2

/-! ### Signatures -/

theorem Ty.name_eq_iff (t u : Ty) : t.name = u.name ↔ t.outline = u.outline := by
  cases t <;> cases u <;> simp [Ty.name, Ty.outline]

theorem Ty.map_name_eq_iff (ts us : List Ty) :
    ts.map Ty.name = us.map Ty.name ↔ ts.map Ty.outline = us.map Ty.outline := by
  induction ts generalizing us with
  | nil => cases us <;> simp
  | cons t ts ih =>
    cases us with
    | nil => simp
    | cons u us => simp only [List.map_cons, List.cons.injEq, t.name_eq_iff, ih]

theorem Ty.name_ne_nil (t : Ty) : t.name.toList ≠ [] := by
  cases t <;> simp [name]

theorem Ty.comma_not_mem_name (t : Ty) : ',' ∉ t.name.toList := by
  cases t <;> simp [name]

theorem Ty.dot_not_mem_name (t : Ty) : '.' ∉ t.name.toList := by
  cases t <;> simp [name]

namespace Signature

theorem toList_text (s : Signature) : s.text.toList = s.name.toList ++
    '(' :: (List.intercalate [','] ((s.parameters.map Ty.name).map String.toList) ++ [')']) := by
  simp [text]

/-- Overloads that differ have different texts. -/
theorem same_of_text_eq {s t : Signature} (hs : Plain s.name) (ht : Plain t.name)
    (h : s.text = t.text) : s.same t = true := by
  have h := congrArg String.toList h
  rw [toList_text, toList_text] at h
  obtain ⟨hn, hp⟩ := eq_of_append_eq (c := '(') (not_mem_of_plain hs (by decide))
    (not_mem_of_plain ht (by decide)) (by simp) (by simp) h
  have names (ts : List Ty) : ∀ x ∈ (ts.map Ty.name).map String.toList, x ≠ [] ∧ ',' ∉ x := by
    simp only [List.map_map, List.mem_map, Function.comp_apply]
    rintro x ⟨t, -, rfl⟩
    exact ⟨t.name_ne_nil, t.comma_not_mem_name⟩
  have hp := List.append_cancel_right (List.cons.inj hp).2
  have hp := intercalate_injective (names _) (names _) hp
  have hp := (List.map_inj_right fun _ _ => String.toList_inj.mp).mp hp
  simp [same, String.toList_inj.mp hn, (Ty.map_name_eq_iff _ _).mp hp]

theorem text_eq_of_same {s t : Signature} (h : s.same t = true) : s.text = t.text := by
  simp only [same, Bool.and_eq_true, decide_eq_true_eq] at h
  rw [text, text, h.1, (Ty.map_name_eq_iff _ _).mpr h.2]

theorem dot_not_mem_text {s : Signature} (hs : Plain s.name) : '.' ∉ s.text.toList := by
  have hp : ∀ cs ∈ (s.parameters.map Ty.name).map String.toList, '.' ∉ cs := by
    simp only [List.map_map, List.mem_map, Function.comp_apply]
    rintro x ⟨t, -, rfl⟩
    exact t.dot_not_mem_name
  have hn : '.' ∉ s.name.toList := not_mem_of_plain hs (by decide)
  have hj : '.' ∉ List.intercalate [','] ((s.parameters.map Ty.name).map String.toList) := by
    intro hm
    rcases mem_intercalate hm with hm | ⟨cs, hcs, hm⟩
    · simp at hm
    · exact hp cs hcs hm
  simp [toList_text, hn, -List.map_map, hj]

end Signature

/-! ### Mangled names -/

namespace Level

/-- The mangled name of a function of a level, or of one inside it. -/
def Under (l : Level) (s : Signature) (name : String) : Prop :=
  name = l.mangle s ∨ ∃ rest, name = l.mangle s ++ "." ++ rest

theorem mangle_of_same {l : Level} {s t : Signature} (h : s.same t = true) :
    l.mangle s = l.mangle t := by
  rw [mangle, mangle, Signature.text_eq_of_same h]

theorem mangle_ne_empty (l : Level) (s : Signature) : l.mangle s ≠ "" := by
  intro h
  have h := congrArg String.toList h
  unfold mangle at h
  split at h <;> simp [Signature.toList_text] at h

/-- Where the part of a name for one level starts. -/
def stem (l : Level) : List Char := if l.path = "" then [] else l.path.toList ++ ['.']

theorem toList_mangle (l : Level) (s : Signature) :
    (l.mangle s).toList = l.stem ++ s.text.toList := by
  unfold mangle stem
  split <;> simp

/-- A name belongs to one overload of a level at most. -/
theorem same_of_under {l : Level} {s t : Signature} {name : String} (hs : Plain s.name)
    (ht : Plain t.name) (h₁ : l.Under s name) (h₂ : l.Under t name) : s.same t = true := by
  have read {s : Signature} (h : l.Under s name) :
      ∃ tail : List Char, name.toList = l.stem ++ (s.text.toList ++ tail) ∧
        ∀ x ∈ tail.head?, x = '.' := by
    rcases h with rfl | ⟨rest, rfl⟩
    · exact ⟨[], by simp [toList_mangle], by simp⟩
    · exact ⟨'.' :: rest.toList, by simp [toList_mangle], by simp⟩
  obtain ⟨u, hu, hu'⟩ := read h₁
  obtain ⟨v, hv, hv'⟩ := read h₂
  have h := List.append_cancel_left (hu.symm.trans hv)
  have := (eq_of_append_eq (Signature.dot_not_mem_text hs) (Signature.dot_not_mem_text ht) hu' hv'
    h).1
  exact Signature.same_of_text_eq hs ht (String.toList_inj.mp this)

/-- Names of functions inside a function lie under its name, and differ from it. -/
theorem under_of_inside {l inner : Level} {s t : Signature} {name : String}
    (hp : inner.path = l.mangle s) (h : inner.Under t name) :
    l.Under s name ∧ name ≠ l.mangle s := by
  have hm : inner.mangle t = l.mangle s ++ "." ++ t.text := by
    rw [mangle, hp, if_neg (mangle_ne_empty l s)]
  have hr : ∃ rest, name = l.mangle s ++ "." ++ rest := by
    rcases h with rfl | ⟨rest, rfl⟩
    · exact ⟨t.text, hm⟩
    · exact ⟨t.text ++ "." ++ rest, by simp [hm, String.append_assoc]⟩
  obtain ⟨rest, rfl⟩ := hr
  refine ⟨.inr ⟨rest, rfl⟩, ?_⟩
  intro h
  have h := congrArg (fun n => n.toList.length) h
  simp at h

end Level
end AlgoFrontEnd
