import AlgoFrontEnd.Ty

/-! When two partially known types agree, and when the results of arithmetic on them do. -/
namespace AlgoFrontEnd

namespace Ty

theorem agrees_refl (t : Ty) : t.agrees t = true := by
  induction t with
  | arrayOf element ih => rwa [agrees]
  | _ => rfl

theorem agrees_comm (s t : Ty) : s.agrees t = t.agrees s := by
  induction s generalizing t with
  | arrayOf element ih =>
    cases t with
    | arrayOf element' => exact ih element'
    | _ => rfl
  | _ => cases t <;> rfl

/-- Everything is known about the elements of arrays. -/
def isClosed : Ty → Bool
  | array => false
  | arrayOf element => element.isClosed
  | _ => true

/-- Agreement passes through a type that leaves nothing open. -/
theorem agrees_trans_of_isClosed {s t u : Ty} (ht : t.isClosed = true)
    (hs : s.agrees t = true) (hu : t.agrees u = true) : s.agrees u = true := by
  induction t generalizing s u with
  | array => cases ht
  | arrayOf element ih =>
    cases s with
    | arrayOf left =>
      cases u with
      | arrayOf right => exact @ih left right ht hs hu
      | _ => exact hu
    | array => cases u <;> first | rfl | exact hu
    | _ => cases hs
  | _ => cases s <;> first | exact hu | cases hs

/-- The type of arithmetic is that of both operands, or float for an integer and a float. -/
theorem arithmetic?_eq_some {left right type : Ty} (h : left.arithmetic? right = some type) :
    left.outline = right.outline ∧ type = left ∨
      (left = int ∧ right = float ∨ left = float ∧ right = int) ∧ type = float := by
  unfold arithmetic? at h
  split at h
  · cases h
    exact .inl ⟨‹_›, rfl⟩
  · split at h
    · cases h
      exact .inr ⟨.inl ⟨rfl, rfl⟩, rfl⟩
    · cases h
      exact .inr ⟨.inr ⟨rfl, rfl⟩, rfl⟩
    · cases h

theorem isNumeric_iff {t : Ty} : t.isNumeric = true ↔ t = int ∨ t = float := by
  cases t <;> simp [isNumeric]

/-! ### Operands of arithmetic -/

/-- Arrays whose elements do not agree. -/
def Clash (left right : Ty) : Prop :=
  left.isArray = true ∧ right.isArray = true ∧ left.agrees right = false

theorem isArray_iff_outline {t : Ty} : t.isArray = true ↔ t.outline = array := by
  cases t <;> simp [isArray, outline]

/-- Types of the same outline agree, unless they are arrays of different elements. -/
theorem agrees_iff_not_clash {left right : Ty} (h : left.outline = right.outline) :
    left.agrees right = true ↔ ¬ Clash left right := by
  by_cases ha : left.isArray = true
  · have hr : right.isArray = true := by
      rw [isArray_iff_outline] at ha ⊢
      exact h ▸ ha
    simp [Clash, ha, hr]
  · have hagree : left.agrees right = true := by
      cases left with
      | array => exact absurd rfl ha
      | arrayOf element => exact absurd rfl ha
      | _ => exact decide_eq_true h
    simp [Clash, ha, hagree]

/-- Arithmetic treats its operands alike, but for arrays of different elements: like all arrays
these are accepted in either order, and the result has the type of the left one. -/
theorem arithmetic_symmetric (left right : Ty) :
    Option.Rel (fun s t => s.agrees t = true ↔ ¬ Clash left right)
      (left.arithmetic? right) (right.arithmetic? left) ∧
    (left.isArray = true → right.isArray = true → left.arithmetic? right = some left) := by
  have same {s t : Ty} (h : s.outline = t.outline) : s.arithmetic? t = some s := if_pos h
  constructor
  · by_cases h : left.outline = right.outline
    · rw [same h, same h.symm]
      exact .some (agrees_iff_not_clash h)
    · have hclash : ¬ Clash left right := fun ⟨hl, hr, _⟩ =>
        h ((isArray_iff_outline.mp hl).trans (isArray_iff_outline.mp hr).symm)
      unfold arithmetic?
      rw [if_neg h, if_neg (Ne.symm h)]
      -- what is left is an integer with a float, or nothing
      cases left <;> cases right <;> first
        | exact .none
        | exact .some (by simp [hclash, agrees_refl])
  · intro hl hr
    exact same ((isArray_iff_outline.mp hl).trans (isArray_iff_outline.mp hr).symm)

theorem nestedArrays_arithmetic :
    (arrayOf (arrayOf int)).arithmetic? (arrayOf array) = some (arrayOf (arrayOf int)) ∧
    Option.Rel (fun s t => s.agrees t = true ↔ ¬ Clash (arrayOf (arrayOf int)) (arrayOf array))
      ((arrayOf (arrayOf int)).arithmetic? (arrayOf array))
      ((arrayOf array).arithmetic? (arrayOf (arrayOf int))) :=
  ⟨(arithmetic_symmetric _ _).2 rfl rfl, (arithmetic_symmetric _ _).1⟩

/-- Integers and floats in arrays do not agree, but the arrays are added all the same, and which of
the types comes out depends on the order. -/
theorem mixedArrays_arithmetic : Clash (arrayOf int) (arrayOf float) ∧
    (arrayOf int).arithmetic? (arrayOf float) = some (arrayOf int) ∧
    (arrayOf float).arithmetic? (arrayOf int) = some (arrayOf float) ∧
    (arrayOf int).agrees (arrayOf float) = false :=
  ⟨⟨rfl, rfl, by decide⟩, rfl, rfl, by decide⟩

end Ty

/-- Only the plain array type leaves elements open. -/
theorem TypeRef.isClosed_of_type? {a : TypeRef} {t : Ty} (h : a.type? = some t)
    (ha : a.name ≠ Ty.array.name) : t.isClosed = true := by
  obtain ⟨base, hb, rfl⟩ := Option.map_eq_some_iff.mp h
  have hname : base.name = a.name := by simpa using List.find?_some hb
  have hbase : base.isClosed = true := by
    cases base with
    | array => exact absurd hname.symm ha
    | arrayOf element => exact absurd hname.symm ha
    | _ => rfl
  split
  · exact hbase
  · exact hbase

end AlgoFrontEnd
