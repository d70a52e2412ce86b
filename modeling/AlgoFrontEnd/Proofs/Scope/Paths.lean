import AlgoFrontEnd.Proofs.Scope.Mangling

/-! Mangled names as paths: the signatures of the functions around a function and its own, from the
outermost inwards. Main statement: a path of plain names can be read back from its text. -/
namespace AlgoFrontEnd

namespace Signature
variable {s t : Signature} {path : List Signature}

/-- What a text shows of a signature: its name and the names of its parameter types. -/
def spelled (s : Signature) : String × List String := (s.name, s.parameters.map Ty.name)

/-- The signatures of a path with dots between them. -/
def pathText (path : List Signature) : String := ".".intercalate (path.map text)

theorem spelled_of_same (h : s.same t = true) : s.spelled = t.spelled := by
  simp only [same, Bool.and_eq_true, decide_eq_true_eq] at h
  rw [spelled, spelled, h.1, (Ty.map_name_eq_iff _ _).mpr h.2]

theorem openParen_mem_text (s : Signature) : '(' ∈ s.text.toList := by
  simp [toList_text]

theorem text_ne_empty (s : Signature) : s.text ≠ "" := by
  intro h
  have := openParen_mem_text s
  simp [h] at this

theorem pathText_concat (h : path ≠ []) (s : Signature) :
    pathText (path ++ [s]) = pathText path ++ "." ++ s.text := by
  have hm : path.map text ≠ [] := by simpa using h
  rw [pathText, List.map_append, String.intercalate_append_of_ne_nil hm (by simp)]
  simp [pathText]

theorem openParen_mem_pathText (path : List Signature) (s : Signature) :
    '(' ∈ (pathText (path ++ [s])).toList := by
  have := openParen_mem_text s
  by_cases h : path = []
  · simpa [h, pathText] using this
  · simp [pathText_concat h, this]

theorem pathText_ne_empty (h : path ≠ []) : pathText path ≠ "" := by
  intro he
  rw [← List.dropLast_concat_getLast h] at he
  have := openParen_mem_pathText path.dropLast (path.getLast h)
  simp [he] at this

/-- Signatures with plain names that have the same texts are spelled alike. -/
theorem map_spelled_of_map_text {ss ts : List Signature} (hs : ∀ s ∈ ss, Plain s.name)
    (ht : ∀ t ∈ ts, Plain t.name) (h : ss.map text = ts.map text) :
    ss.map spelled = ts.map spelled := by
  induction ss generalizing ts with
  | nil =>
    rw [List.map_nil, eq_comm, List.map_eq_nil_iff] at h
    rw [h]
  | cons s ss ih =>
    cases ts with
    | nil => cases h
    | cons t ts =>
      obtain ⟨hs₁, hss⟩ := List.forall_mem_cons.mp hs
      obtain ⟨ht₁, hts⟩ := List.forall_mem_cons.mp ht
      obtain ⟨htext, h⟩ := List.cons.inj h
      rw [List.map_cons, List.map_cons, spelled_of_same (same_of_text_eq hs₁ ht₁ htext),
        ih hss hts h]

/-- The text of a path tells every signature of it apart from others, up to array elements. -/
theorem map_spelled_of_pathText_eq {ss ts : List Signature} (hs : ∀ s ∈ ss, Plain s.name)
    (ht : ∀ t ∈ ts, Plain t.name) (h : pathText ss = pathText ts) :
    ss.map spelled = ts.map spelled := by
  have parts {us : List Signature} (hu : ∀ u ∈ us, Plain u.name) :
      ∀ cs ∈ (us.map text).map String.toList, cs ≠ [] ∧ '.' ∉ cs := by
    simp only [List.map_map, List.mem_map, Function.comp_apply]
    rintro cs ⟨u, hm, rfl⟩
    exact ⟨by simpa using u.text_ne_empty, dot_not_mem_text (hu u hm)⟩
  have h := congrArg String.toList h
  rw [pathText, pathText, String.toList_intercalate, String.toList_intercalate] at h
  have h := intercalate_injective (parts hs) (parts ht) h
  exact map_spelled_of_map_text hs ht
    ((List.map_inj_right fun _ _ => String.toList_inj.mp).mp h)

end Signature

/-- The mangled name of a function ends in its signature, behind the path of its level. -/
theorem Level.mangle_eq_pathText {l : Level} {path : List Signature}
    (h : l.path = Signature.pathText path) (s : Signature) :
    l.mangle s = Signature.pathText (path ++ [s]) := by
  by_cases hp : path = []
  · subst hp
    simp [mangle, h, Signature.pathText]
  · rw [mangle, h, if_neg (Signature.pathText_ne_empty hp), Signature.pathText_concat hp]

end AlgoFrontEnd
