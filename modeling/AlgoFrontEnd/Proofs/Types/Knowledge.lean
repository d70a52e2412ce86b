import AlgoFrontEnd.Proofs.Types.Agreement
import Mathlib.Order.Defs.PartialOrder

/-! Types in the order of what is known of them. Main statement: two types agree exactly if some
type is above both. -/
namespace AlgoFrontEnd.Ty

/-- Less is known of the first type than of the second, or as much. An array whose elements are
open is below every array, and other arrays are compared by their elements. -/
inductive Below : Ty → Ty → Prop
  | base {t : Ty} (h : t.isArray = false) : Below t t
  | openArray {t : Ty} (h : t.isArray = true) : Below array t
  | arrayOf {s t : Ty} (h : Below s t) : Below (arrayOf s) (arrayOf t)

namespace Below
variable {s t u : Ty}

theorem refl : ∀ t : Ty, Below t t
  | array => .openArray rfl
  | .arrayOf element => .arrayOf (refl element)
  | int | float | bool | string => .base rfl

/-- Knowing more of an array leaves it an array. -/
theorem isArray_eq (h : Below s t) : t.isArray = s.isArray := by
  cases h with
  | base _ => rfl
  | openArray ht => exact ht
  | arrayOf _ => rfl

theorem trans (hs : Below s t) (ht : Below t u) : Below s u := by
  induction hs generalizing u with
  | base _ => exact ht
  | openArray h => exact .openArray (ht.isArray_eq.trans h)
  | arrayOf _ ih =>
    cases ht with
    | base h => cases h
    | arrayOf ht => exact .arrayOf (ih ht)

theorem antisymm (hs : Below s t) (ht : Below t s) : s = t := by
  induction hs with
  | base _ => rfl
  | openArray _ =>
    cases ht with
    | base _ => rfl
    | openArray _ => rfl
  | arrayOf _ ih =>
    cases ht with
    | base _ => rfl
    | arrayOf ht => exact congrArg Ty.arrayOf (ih ht)

end Below

instance : PartialOrder Ty where
  le := Below
  le_refl := .refl
  le_trans _ _ _ := .trans
  le_antisymm _ _ h h' := h.antisymm h'

/-! ### Types above two others -/

/-- A type that is no array agrees only with itself. -/
theorem eq_of_agrees {l r : Ty} (hl : l.isArray = false) (h : l.agrees r = true) : l = r := by
  cases l with
  | array | arrayOf _ => cases hl
  | _ => cases r <;> first | rfl | cases h

/-- Types that agree differ only where one of them is open; filling these places in gives a type
above both. -/
theorem exists_above {l r : Ty} (h : l.agrees r = true) : ∃ u, l ≤ u ∧ r ≤ u := by
  induction l generalizing r with
  | arrayOf element ih =>
    cases r with
    | arrayOf element' =>
      obtain ⟨u, hl, hr⟩ := ih h
      exact ⟨.arrayOf u, .arrayOf hl, .arrayOf hr⟩
    | array => exact ⟨.arrayOf element, le_refl _, .openArray rfl⟩
    | _ => cases h
  | array =>
    have hr : r.isArray = true := isArray_iff_outline.mpr (of_decide_eq_true h).symm
    exact ⟨r, .openArray hr, le_refl r⟩
  | _ =>
    obtain rfl := eq_of_agrees rfl h
    exact ⟨_, le_refl _, le_refl _⟩

/-- Two parts of the knowledge about one type do not contradict each other. -/
theorem agrees_of_le {l r u : Ty} (hl : l ≤ u) (hr : r ≤ u) : l.agrees r = true := by
  induction hl generalizing r with
  | @base t h =>
    cases hr with
    | base _ => exact t.agrees_refl
    | openArray ht => rw [h] at ht; cases ht
    | arrayOf _ => cases h
  | openArray h =>
    have hr : r.outline = array := isArray_iff_outline.mp (hr.isArray_eq ▸ h)
    exact decide_eq_true hr.symm
  | arrayOf _ ih =>
    cases hr with
    | base h => cases h
    | openArray _ => rfl
    | arrayOf hr => exact ih hr

/-- Agreement is compatibility of what is known: two types agree exactly if some type is above
both. Therefore every type agrees with itself, the order of two types does not matter, and two
types still agree when less is known of them. -/
theorem agrees_iff_exists_above (l r : Ty) :
    (l.agrees r = true ↔ ∃ u, l ≤ u ∧ r ≤ u) ∧
    l.agrees l = true ∧ (l.agrees r = true ↔ r.agrees l = true) ∧
    ∀ l' r', l' ≤ l → r' ≤ r → l.agrees r = true → l'.agrees r' = true := by
  refine ⟨⟨exists_above, fun ⟨_, hl, hr⟩ => agrees_of_le hl hr⟩, l.agrees_refl, ?_, ?_⟩
  · rw [agrees_comm]
  · intro l' r' hl hr h
    obtain ⟨u, hlu, hru⟩ := exists_above h
    exact agrees_of_le (hl.trans hlu) (hr.trans hru)

/-- Rows of integers agree with rows of which nothing is known, and with an array of which even
less is known. -/
theorem openRows_agree : array.agrees (arrayOf (arrayOf int)) = true ∧
    ∃ u, arrayOf array ≤ u ∧ arrayOf (arrayOf int) ≤ u := by
  have hrows : (arrayOf array).agrees (arrayOf (arrayOf int)) = true := rfl
  obtain ⟨habove, -, -, hless⟩ := agrees_iff_exists_above (arrayOf array) (arrayOf (arrayOf int))
  exact ⟨hless array _ (.openArray rfl) (le_refl _) hrows, habove.mp hrows⟩

/-- The relation is not transitive: both integers and floats may be in an open array. -/
example : (arrayOf int).agrees array = true ∧ array.agrees (arrayOf float) = true ∧
    (arrayOf int).agrees (arrayOf float) = false := by decide

end AlgoFrontEnd.Ty
