import Mathlib.Tactic.Common
import AlgoFrontEnd.Text.Utf8

/-! Texts and their bytes. Main statement: decoding gives back every text from its bytes. -/
namespace AlgoFrontEnd.Text.Utf8

theorem encode_eq_flatMap (text : String) :
    encode text = text.toList.flatMap String.utf8EncodeChar := by
  obtain ⟨cs, rfl⟩ : ∃ cs, text = String.ofList cs := ⟨text.toList, String.ofList_toList.symm⟩
  rw [encode, String.toUTF8_eq_toByteArray, String.toByteArray_ofList, List.utf8Encode,
    List.toList_data_toByteArray, String.toList_ofList]

/-! ### First bytes -/

theorem toNat_ofNat {n : Nat} (h : n < 256) : (UInt8.ofNat n).toNat = n := by
  rw [UInt8.toNat_ofNat', Nat.mod_eq_of_lt h]

namespace Begun

theorem first?_one {v : Nat} (h : v < 0x80) :
    first? (UInt8.ofNat v) = some ⟨[UInt8.ofNat v], 0, 0, 0, v⟩ := by
  rw [first?, toNat_ofNat (by omega)]
  exact if_pos h

/-- From two on, since a smaller number fits into one byte. -/
theorem first?_two {v : Nat} (h : 2 ≤ v) (h' : v < 0x20) :
    first? (UInt8.ofNat (v + 0xC0)) = some ⟨[UInt8.ofNat (v + 0xC0)], 1, 0x80, 0xBF, v⟩ := by
  rw [first?, toNat_ofNat (by omega), if_neg (by omega), if_neg (by omega), if_pos (by omega),
    Nat.add_sub_cancel]

theorem first?_three {v : Nat} (h : v < 0x10) :
    first? (UInt8.ofNat (v + 0xE0)) = some ⟨[UInt8.ofNat (v + 0xE0)], 2,
      if v = 0 then 0xA0 else 0x80, if v = 0xD then 0x9F else 0xBF, v⟩ := by
  rw [first?, toNat_ofNat (by omega), if_neg (by omega), if_neg (by omega), if_neg (by omega),
    if_pos (by omega), Nat.add_sub_cancel]
  simp only [Nat.add_eq_right, Nat.reduceEqDiff]

theorem first?_four {v : Nat} (h : v < 5) :
    first? (UInt8.ofNat (v + 0xF0)) = some ⟨[UInt8.ofNat (v + 0xF0)], 3,
      if v = 0 then 0x90 else 0x80, if v = 4 then 0x8F else 0xBF, v⟩ := by
  rw [first?, toNat_ofNat (by omega), if_neg (by omega), if_neg (by omega), if_neg (by omega),
    if_neg (by omega), if_pos (by omega), Nat.add_sub_cancel]
  simp only [Nat.add_eq_right, Nat.reduceEqDiff]

/-! ### Further bytes -/

/-- The byte for the last six bits of a number. -/
def further (n : Nat) : UInt8 := UInt8.ofNat (n % 64 + 0x80)

/-- A character begun, and six more bits. -/
def grow (c : Begun) (n : Nat) : Begun :=
  ⟨c.read ++ [further n], c.owed - 1, 0x80, 0xBF, c.value * 64 + n % 64⟩

theorem next?_further {c : Begun} {n : Nat} (hlow : c.low ≤ n % 64 + 0x80)
    (hhigh : n % 64 + 0x80 ≤ c.high) : c.next? (further n) = some (c.grow n) := by
  have hn : (further n).toNat = n % 64 + 0x80 := toNat_ofNat (by omega)
  have hin : (c.low ≤ n % 64 + 0x80 && n % 64 + 0x80 ≤ c.high) = true := by
    rw [decide_eq_true hlow, decide_eq_true hhigh, Bool.and_self]
  simp only [next?, hn, hin, if_true, Nat.add_sub_cancel]
  rfl

end Begun

open Begun

/-- A byte that is not the last of its character. -/
theorem decodeFrom_further {c : Begun} {n : Nat} (hlow : c.low ≤ n % 64 + 0x80)
    (hhigh : n % 64 + 0x80 ≤ c.high) (howed : 1 < c.owed) (position : Nat) (rest : List UInt8) :
    decodeFrom position (some c) (further n :: rest) =
      decodeFrom position (some (c.grow n)) rest := by
  have hmore : (c.grow n).owed ≠ 0 := Nat.sub_ne_zero_of_lt howed
  simp only [decodeFrom, next?_further hlow hhigh, if_neg hmore]

theorem decodeFrom_last {c : Begun} {n : Nat} (hlow : c.low ≤ n % 64 + 0x80)
    (hhigh : n % 64 + 0x80 ≤ c.high) (howed : c.owed = 1) (position : Nat) (rest : List UInt8) :
    decodeFrom position (some c) (further n :: rest) =
      (Char.ofNat (c.value * 64 + n % 64) :: ·) <$>
        decodeFrom (position + c.read.length + 1) none rest := by
  have hdone : (c.grow n).owed = 0 := Nat.sub_eq_zero_of_le (Nat.le_of_eq howed)
  have hread : (c.grow n).read.length = c.read.length + 1 := List.length_append
  simp only [decodeFrom, next?_further hlow hhigh, if_pos hdone, hread]
  rfl

theorem decodeFrom_first {byte : UInt8} {c : Begun} (h : first? byte = some c) (howed : c.owed ≠ 0)
    (position : Nat) (rest : List UInt8) :
    decodeFrom position none (byte :: rest) = decodeFrom position (some c) rest := by
  simp only [decodeFrom, h, if_neg howed]

/-! ### Characters -/

section
variable {v : Nat} (position : Nat) (rest : List UInt8)

theorem decodeFrom_one (h : v < 0x80) :
    decodeFrom position none (UInt8.ofNat v :: rest) =
      (Char.ofNat v :: ·) <$> decodeFrom (position + 1) none rest := by
  simp only [decodeFrom, first?_one h, if_true]

theorem decodeFrom_two (h : 0x80 ≤ v) (h' : v < 0x800) :
    decodeFrom position none (UInt8.ofNat (v / 64 + 0xC0) :: further v :: rest) =
      (Char.ofNat v :: ·) <$> decodeFrom (position + 2) none rest := by
  have hv : v / 64 * 64 + v % 64 = v := by omega
  rw [decodeFrom_first (first?_two (by omega) (by omega)) (by simp),
    decodeFrom_last (by simp) (by simp; omega) rfl, hv]
  rfl

/-- The second byte is in its range, since the number is neither small nor a surrogate. -/
theorem decodeFrom_three (h : 0x800 ≤ v) (h' : v < 0xD800 ∨ 0xDFFF < v ∧ v < 0x10000) :
    decodeFrom position none
        (UInt8.ofNat (v / 4096 + 0xE0) :: further (v / 64) :: further v :: rest) =
      (Char.ofNat v :: ·) <$> decodeFrom (position + 3) none rest := by
  have hv : (v / 4096 * 64 + v / 64 % 64) * 64 + v % 64 = v := by omega
  have hlow : (if v / 4096 = 0 then 0xA0 else 0x80) ≤ v / 64 % 64 + 0x80 := by
    split <;> omega
  have hhigh : v / 64 % 64 + 0x80 ≤ (if v / 4096 = 0xD then 0x9F else 0xBF) := by
    split <;> omega
  rw [decodeFrom_first (first?_three (by omega)) (by simp),
    decodeFrom_further hlow hhigh (by simp),
    decodeFrom_last (by simp [grow]) (by simp [grow]; omega) rfl]
  simp only [grow, hv]
  rfl

theorem decodeFrom_four (h : 0x10000 ≤ v) (h' : v < 0x110000) :
    decodeFrom position none (UInt8.ofNat (v / 262144 + 0xF0) :: further (v / 4096) ::
        further (v / 64) :: further v :: rest) =
      (Char.ofNat v :: ·) <$> decodeFrom (position + 4) none rest := by
  have hv : ((v / 262144 * 64 + v / 4096 % 64) * 64 + v / 64 % 64) * 64 + v % 64 = v := by omega
  have hlow : (if v / 262144 = 0 then 0x90 else 0x80) ≤ v / 4096 % 64 + 0x80 := by
    split <;> omega
  have hhigh : v / 4096 % 64 + 0x80 ≤ (if v / 262144 = 4 then 0x8F else 0xBF) := by
    split <;> omega
  rw [decodeFrom_first (first?_four (by omega)) (by simp),
    decodeFrom_further hlow hhigh (by simp),
    decodeFrom_further (by simp [grow]) (by simp [grow]; omega) (by simp [grow]),
    decodeFrom_last (by simp [grow]) (by simp [grow]; omega) rfl]
  simp only [grow, hv]
  rfl

end

/-- The bytes of a character are read as this character, whatever follows. -/
theorem decodeFrom_utf8EncodeChar (c : Char) (position : Nat) (rest : List UInt8) :
    decodeFrom position none (String.utf8EncodeChar c ++ rest) =
      (c :: ·) <$> decodeFrom (position + (String.utf8EncodeChar c).length) none rest := by
  have hc : Char.ofNat c.val.toNat = c := Char.ofNat_toNat c
  have hbounds : c.val.toNat < 0xD800 ∨ 0xDFFF < c.val.toNat ∧ c.val.toNat < 0x110000 := c.valid
  unfold String.utf8EncodeChar
  generalize c.val.toNat = v at hc hbounds
  subst hc
  simp only
  -- One case for each number of bytes; the first byte has no bits to cut off.
  split_ifs with hone htwo hthree
  · exact decodeFrom_one position rest (by omega)
  · rw [Nat.mod_eq_of_lt (by omega)]
    exact decodeFrom_two position rest (by omega) (by omega)
  · rw [Nat.mod_eq_of_lt (a := v / 4096) (by omega)]
    exact decodeFrom_three position rest (by omega) (by omega)
  · rw [Nat.mod_eq_of_lt (a := v / 262144) (by omega)]
    exact decodeFrom_four position rest (by omega) (by omega)

theorem decode_encode (text : String) : decode (encode text) = .ok text.toList := by
  rw [encode_eq_flatMap, decode]
  generalize 0 = position
  induction text.toList generalizing position with
  | nil => rfl
  | cons c cs ih =>
    rw [List.flatMap_cons, decodeFrom_utf8EncodeChar, ih]
    rfl

end AlgoFrontEnd.Text.Utf8
