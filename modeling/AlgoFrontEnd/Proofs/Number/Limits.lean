import AlgoFrontEnd.Number.Decimal
import Mathlib.Algebra.Order.Ring.Nat

/-! Which natural numbers have a binary64 value. Main statement: all up to half way between the
largest finite value and the one that would follow it. -/
namespace AlgoFrontEnd.Number

/-- Whole parts from here on round past the largest finite binary64 value. -/
def overflow : Nat := 2 ^ 1024 - 2 ^ 970

theorem roundShift_eq (n shift : Nat) :
    roundShift n shift =
      if 2 * (n % 2 ^ shift) < 2 ^ shift ∨
        2 * (n % 2 ^ shift) = 2 ^ shift ∧ n / 2 ^ shift % 2 = 0 then n / 2 ^ shift
      else n / 2 ^ shift + 1 := by
  change (if decide (2 * (n % 2 ^ shift) < 2 ^ shift) ||
    (2 * (n % 2 ^ shift) == 2 ^ shift && n / 2 ^ shift % 2 == 0) then n / 2 ^ shift
    else n / 2 ^ shift + 1) = _
  simp only [Bool.or_eq_true, decide_eq_true_eq, Bool.and_eq_true, beq_iff_eq]

theorem overflow_eq : overflow = (2 ^ 54 - 1) * 2 ^ 970 := by
  simp only [overflow, Nat.sub_mul, Nat.one_mul, ← Nat.pow_add]

theorem roundShift_bounds (n shift : Nat) :
    n / 2 ^ shift ≤ roundShift n shift ∧ roundShift n shift ≤ n / 2 ^ shift + 1 := by
  rw [roundShift_eq]
  split <;> omega

/-- Between the last two neighbours, halves and more round up. -/
theorem roundShift_last {n : Nat} (h : n < 2 ^ 1024) :
    roundShift n 971 = 2 ^ 53 ↔ overflow ≤ n := by
  have hd : 0 < 2 ^ 970 := Nat.two_pow_pos 970
  have hm : n / 2 ^ 970 < 2 ^ 54 := by
    rw [Nat.div_lt_iff_lt_mul hd, ← Nat.pow_add]
    exact h
  have hquot : n / 2 ^ 971 = n / 2 ^ 970 / 2 := by rw [Nat.div_div_eq_div_mul, ← Nat.pow_succ]
  have hrem : n % 2 ^ 971 = n % 2 ^ 970 + 2 ^ 970 * (n / 2 ^ 970 % 2) := by
    rw [Nat.pow_succ, Nat.mod_mul]
  have hlt : n % 2 ^ 970 < 2 ^ 970 := Nat.mod_lt n hd
  have htwice : 2 ^ 971 = 2 * 2 ^ 970 := by rw [Nat.pow_succ, Nat.mul_comm]
  rw [roundShift_eq, hquot, hrem, htwice, overflow_eq, ← Nat.le_div_iff_mul_le hd]
  generalize n / 2 ^ 970 = m at *
  generalize n % 2 ^ 970 = r at *
  generalize 2 ^ 970 = d at *
  obtain hzero | hone := Nat.mod_two_eq_zero_or_one m
  · rw [hzero]
    split <;> omega
  · rw [hone]
    split <;> omega

/-- The exponent field is that of the number, and one more where the significand carries. -/
theorem binary64Bits_eq {n : Nat} (hn : n ≠ 0) :
    ∃ significand, 2 ^ 52 ≤ significand ∧ significand ≤ 2 ^ 53 ∧
      (n.log2 = 1023 → significand = roundShift n 971) ∧
      binary64Bits n = (n.log2 + 1023) * 2 ^ 52 + (significand - 2 ^ 52) := by
  have hlow := Nat.log2_self_le hn
  have hhigh := Nat.lt_log2_self (n := n)
  by_cases he : n.log2 ≤ 52
  · refine ⟨n * 2 ^ (52 - n.log2), ?_, ?_, by omega, by simp [binary64Bits, hn, he, twoTo]⟩
    · have := Nat.mul_le_mul_right (2 ^ (52 - n.log2)) hlow
      rwa [← Nat.pow_add, Nat.add_sub_of_le he] at this
    · have := Nat.mul_le_mul_right (2 ^ (52 - n.log2)) (Nat.le_of_lt hhigh)
      rwa [← Nat.pow_add, Nat.add_right_comm, Nat.add_sub_of_le he] at this
  · have hpos : 0 < 2 ^ (n.log2 - 52) := Nat.two_pow_pos _
    have hquot : 2 ^ 52 ≤ n / 2 ^ (n.log2 - 52) := by
      rwa [Nat.le_div_iff_mul_le hpos, ← Nat.pow_add, Nat.add_sub_of_le (by omega)]
    have hquot' : n / 2 ^ (n.log2 - 52) < 2 ^ 53 := by
      rwa [Nat.div_lt_iff_lt_mul hpos, ← Nat.pow_add, Nat.add_comm 53,
        ← Nat.sub_add_comm (by omega), Nat.add_sub_assoc (by decide)]
    obtain ⟨hge, hle⟩ := roundShift_bounds n (n.log2 - 52)
    refine ⟨roundShift n (n.log2 - 52), Nat.le_trans hquot hge, by omega, ?_, ?_⟩
    · intro h
      rw [h]
    · simp [binary64Bits, hn, he, twoTo]

/-- A number has a nearest binary64 value unless it rounds past the largest finite one. -/
theorem toBinary64?_eq_none {n : Nat} : toBinary64? n = none ↔ overflow ≤ n := by
  have hbits : toBinary64? n = none ↔ 2047 * 2 ^ 52 ≤ binary64Bits n := by
    simp [toBinary64?, twoTo]
  have hover : 2 ^ 1023 ≤ overflow ∧ overflow ≤ 2 ^ 1024 := by
    refine ⟨?_, Nat.sub_le _ _⟩
    rw [overflow_eq]
    have h : 2 ^ 1023 = 2 ^ 53 * 2 ^ 970 := by rw [← Nat.pow_add]
    rw [h]
    exact Nat.mul_le_mul_right _ (by decide)
  rw [hbits]
  by_cases hn : n = 0
  · subst hn
    have : 0 < overflow := Nat.lt_of_lt_of_le (Nat.two_pow_pos _) hover.1
    simp only [binary64Bits, if_true]
    omega
  obtain ⟨significand, hlow, hhigh, hlast, h⟩ := binary64Bits_eq hn
  have hn₁ := Nat.log2_self_le hn
  have hn₂ := Nat.lt_log2_self (n := n)
  rcases Nat.lt_trichotomy n.log2 1023 with he | he | he
  · have : n < overflow := calc
      n < 2 ^ (n.log2 + 1) := hn₂
      _ ≤ 2 ^ 1023 := Nat.pow_le_pow_right (by decide) he
      _ ≤ overflow := hover.1
    omega
  · rw [he] at hn₂ h
    rw [← roundShift_last hn₂, ← hlast he]
    omega
  · have : overflow ≤ n := calc
      overflow ≤ 2 ^ 1024 := hover.2
      _ ≤ 2 ^ n.log2 := Nat.pow_le_pow_right (by decide) he
      _ ≤ n := hn₁
    omega

end AlgoFrontEnd.Number
