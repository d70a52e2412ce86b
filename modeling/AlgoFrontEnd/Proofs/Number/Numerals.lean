import AlgoFrontEnd.Number.Shortest
import Mathlib.Algebra.Order.Ring.Nat
import Mathlib.Data.List.TakeWhile

/-! Texts of binary64 values. Main statement: the text of a finite value begins with a digit,
perhaps behind a minus, and a point or an exponent tells it from that of a whole number. -/
namespace AlgoFrontEnd.Number

/-- The characters of a number's text, unless the number is infinite or none at all. -/
def isNumberChar (c : Char) : Bool := c.isDigit || ['.', 'e', '+', '-'].contains c

/-- Texts that begin with a digit and are not all digits. -/
structure Marked (cs : List Char) : Prop where
  begins : ∃ c more, cs = c :: more ∧ c.isDigit = true
  mark : '.' ∈ cs ∨ 'e' ∈ cs

/-! ### Digits -/

/-- Without its zeros at the end a positive number still has digits. -/
theorem dropZeros_ne_nil {n : Nat} (h : 0 < n) :
    ((Nat.toDigits 10 n).reverse.dropWhile (· = '0')).reverse ≠ [] := by
  intro hnil
  rw [List.reverse_eq_nil_iff, List.dropWhile_eq_nil_iff] at hnil
  have hzeros : Nat.toDigits 10 n = List.replicate (Nat.toDigits 10 n).length '0' :=
    List.eq_replicate_of_mem fun c hc =>
      of_decide_eq_true (hnil c (List.mem_reverse.mpr hc))
  have hvalue := Nat.ofDigitChars_ten_toDigits (n := n)
  rw [hzeros, Nat.ofDigitChars_replicate_zero] at hvalue
  omega

namespace Decimal

/-- A number with at least one digit. -/
structure Proper (d : Decimal) : Prop where
  nonempty : d.digits ≠ []
  isDigit : ∀ c ∈ d.digits, c.isDigit = true

theorem Proper.begins {d : Decimal} (h : d.Proper) (rest : List Char) :
    ∃ c more, d.digits ++ rest = c :: more ∧ c.isDigit = true := by
  obtain ⟨c, more, hc⟩ := List.exists_cons_of_ne_nil h.nonempty
  exact ⟨c, more ++ rest, by rw [hc]; rfl, h.isDigit c (by simp [hc])⟩

theorem Proper.positional {d : Decimal} (h : d.Proper) : Marked d.positional := by
  unfold Decimal.positional
  split
  · exact ⟨⟨'0', _, rfl, rfl⟩, .inl (by simp)⟩
  · rename_i hpoint
    dsimp only
    split
    · rw [List.append_assoc]
      exact ⟨h.begins _, .inl (by simp)⟩
    · obtain ⟨c, more, hc⟩ := List.exists_cons_of_ne_nil h.nonempty
      obtain ⟨k, hk⟩ : ∃ k, d.point.toNat = k + 1 := ⟨d.point.toNat - 1, by omega⟩
      refine ⟨⟨c, _, by rw [hk, hc]; rfl, h.isDigit c (by simp [hc])⟩, .inl (by simp)⟩

theorem Proper.scientific {d : Decimal} (h : d.Proper) (exponentDigits : Nat) :
    Marked (d.scientific exponentDigits) := by
  obtain ⟨c, more, hc⟩ := List.exists_cons_of_ne_nil h.nonempty
  have hd : c.isDigit = true := h.isDigit c (by simp [hc])
  unfold Decimal.scientific
  rw [hc]
  cases more with
  | nil => exact ⟨⟨c, _, rfl, hd⟩, .inr (by simp)⟩
  | cons c' more => exact ⟨⟨c, _, rfl, hd⟩, .inr (by simp)⟩

theorem Proper.text {d : Decimal} (h : d.Proper) (style : NumeralStyle) :
    Marked (d.text style) := by
  unfold Decimal.text
  split
  · exact h.positional
  · exact h.scientific style.exponentDigits

end Decimal

namespace Interval

/-- Only positive numbers read back as a positive value. -/
theorem pos_of_onGrid? {i : Interval} (hlow : 0 < i.low) {spacing : Int} {n : Nat}
    (h : i.onGrid? spacing = some n) : 0 < n := by
  have hnone : i.contains 0 (tenTo (-spacing).toNat) = false := by
    have hten : 0 < tenTo (-spacing).toNat := Nat.pow_pos (by decide)
    unfold Interval.contains
    split <;> simp [hlow.ne', hten.ne']
  unfold Interval.onGrid? at h
  dsimp only at h
  split at h
  · rename_i hin
    cases h
    refine Nat.pos_of_ne_zero fun hzero => ?_
    rw [hzero, Nat.zero_mul, hnone] at hin
    cases hin
  · split at h
    · cases h
      exact Nat.succ_pos _
    · cases h

theorem proper_shortest {i : Interval} (hlow : 0 < i.low) : i.shortest.Proper := by
  unfold Interval.shortest
  dsimp only
  split
  · rename_i d hd
    obtain ⟨extra, -, hextra⟩ := List.exists_of_findSome?_eq_some hd
    obtain ⟨n, hn, rfl⟩ := Option.map_eq_some_iff.mp hextra
    refine ⟨dropZeros_ne_nil (pos_of_onGrid? hlow hn), fun c hc => ?_⟩
    have hc := (List.dropWhile_suffix _).mem (List.mem_reverse.mp hc)
    exact Nat.isDigit_of_mem_toDigits (by decide) (by decide) (List.mem_reverse.mp hc)
  · exact ⟨List.cons_ne_nil _ _, List.forall_mem_singleton.mpr rfl⟩

theorem low_pos {bits : Nat} (h : 0 < bits) (hlt : bits < twoTo 63) :
    0 < (Interval.ofBits bits).low := by
  have hunit (k : Nat) : 0 < twoTo k := Nat.pow_pos (by decide)
  have hpow : twoTo 63 = 2048 * twoTo 52 := rfl
  refine Nat.mul_pos (Nat.sub_pos_of_lt ?_) (hunit _)
  have hsignificand : 0 < if bits / twoTo 52 % 2048 = 0 then bits % twoTo 52
      else bits % twoTo 52 + twoTo 52 := by
    split
    · rename_i hexponent
      have hq : bits / twoTo 52 < 2048 := Nat.div_lt_of_lt_mul (by rwa [Nat.mul_comm, ← hpow])
      rw [Nat.mod_eq_of_lt hq, Nat.div_eq_zero_iff] at hexponent
      rw [Nat.mod_eq_of_lt (hexponent.resolve_left (hunit 52).ne')]
      exact h
    · exact Nat.add_pos_right _ (hunit 52)
  split <;> omega

end Interval

/-- The text of a finite value, perhaps behind a minus, begins with a digit and has a point or an
exponent. -/
theorem exists_marked_text {x : Float} (h : ∀ c ∈ (text x).toList, isNumberChar c = true) :
    ∃ sign cs, (text x).toList = sign ++ cs ∧ (sign = [] ∨ sign = ['-']) ∧ Marked cs := by
  have hsign (p : Prop) [Decidable p] :
      (if p then ['-'] else []) = ([] : List Char) ∨ (if p then ['-'] else []) = ['-'] := by
    split <;> simp
  unfold text at h ⊢
  dsimp only at h ⊢
  split at h
  · exact absurd (h 'n' (by decide)) (by decide)
  · rw [if_neg ‹_›]
    split at h
    · exact absurd (h 'n' (by simp)) (by decide)
    · rw [if_neg ‹_›]
      split
      · exact ⟨_, _, String.toList_ofList, hsign _, ⟨'0', _, rfl, rfl⟩, .inl (by simp)⟩
      · rename_i hzero
        have hlow := Interval.low_pos (Nat.pos_of_ne_zero hzero)
          (Nat.mod_lt _ (Nat.pow_pos (by decide)))
        exact ⟨_, _, String.toList_ofList, hsign _, (Interval.proper_shortest hlow).text _⟩

end AlgoFrontEnd.Number
