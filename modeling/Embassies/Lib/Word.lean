import Mathlib.Data.Nat.Size
import Mathlib.Tactic.Linarith

/-! 32-bit words as natural numbers: the reductions that `uint32_t` arithmetic performs, and the
    bit-length facts the shifting loops of the sources compute. -/

namespace Embassies

/-- Reduction of an unsigned 32-bit result. -/
def u32 (n : ℕ) : ℕ := n % 2 ^ 32

/-- Unsigned 32-bit subtraction. -/
def sub32 (a b : ℕ) : ℕ := (a + 2 ^ 32 - b) % 2 ^ 32

lemma u32_of_lt {n : ℕ} (h : n < 2 ^ 32) : u32 n = n := Nat.mod_eq_of_lt h

lemma u32_lt (n : ℕ) : u32 n < 2 ^ 32 := Nat.mod_lt _ (by norm_num)

lemma sub32_of_le {a b : ℕ} (ha : a < 2 ^ 32) (h : b ≤ a) : sub32 a b = a - b := by
  unfold sub32; omega

lemma sub32_lt (a b : ℕ) : sub32 a b < 2 ^ 32 := Nat.mod_lt _ (by norm_num)

/-- Reduction of an unsigned 64-bit result. -/
def u64 (n : ℕ) : ℕ := n % 2 ^ 64

/-- Unsigned 64-bit subtraction. -/
def sub64 (a b : ℕ) : ℕ := (a + 2 ^ 64 - b) % 2 ^ 64

/-- A word read as a signed `int`. -/
def int32 (n : ℕ) : ℤ := if n < 2 ^ 31 then n else (n : ℤ) - 2 ^ 32

lemma int32_sub32 {a b : ℕ} (hab : a < b + 2 ^ 31) (hba : b ≤ a + 2 ^ 31) : int32 (sub32 a b) = (a : ℤ) - b := by
  unfold int32 sub32
  split <;> omega

/-- The bits of two numbers, with those they share counted twice, are their sum. -/
lemma or_add_and (a b : ℕ) : (a ||| b) + (a &&& b) = a + b := by
  induction a using Nat.strong_induction_on generalizing b with
  | _ a ih =>
    rcases Nat.eq_zero_or_pos a with rfl | ha
    · simp
    · have hdiv := ih (a / 2) (Nat.div_lt_self ha (by norm_num)) (b / 2)
      rw [← Nat.or_div_two, ← Nat.and_div_two] at hdiv
      have hor : (a ||| b) % 2 = 1 ↔ a % 2 = 1 ∨ b % 2 = 1 := Nat.or_mod_two_eq_one
      have hand : (a &&& b) % 2 = 1 ↔ a % 2 = 1 ∧ b % 2 = 1 := Nat.and_mod_two_eq_one
      omega

/-- Setting the low bits rounds up to the last number with those high bits. -/
lemma or_mask (n k : ℕ) : n ||| (2 ^ k - 1) = n / 2 ^ k * 2 ^ k + (2 ^ k - 1) := by
  have hlt : 2 ^ k - 1 < 2 ^ k := Nat.sub_lt (by positivity) one_pos
  rw [Nat.mul_comm, Nat.two_pow_add_eq_or_of_lt hlt]
  apply Nat.eq_of_testBit_eq
  intro i
  simp only [Nat.testBit_or, Nat.testBit_two_pow_sub_one, Nat.testBit_two_pow_mul, Nat.testBit_div_two_pow]
  by_cases h : i < k
  · simp [h]
  · simp [h, Nat.not_lt.mp h]

/-- Clearing the low bits of a word rounds down. -/
lemma and_mask {n k w : ℕ} (hk : k ≤ w) (h : n < 2 ^ w) : n &&& (2 ^ w - 2 ^ k) = n / 2 ^ k * 2 ^ k := by
  apply Nat.eq_of_testBit_eq
  intro i
  have hmask : 2 ^ w - 2 ^ k = 2 ^ k * (2 ^ (w - k) - 1) := by
    rw [Nat.mul_sub, ← pow_add, Nat.add_sub_cancel' hk, mul_one]
  rw [hmask, Nat.mul_comm (n / 2 ^ k)]
  simp only [Nat.testBit_and, Nat.testBit_two_pow_mul, Nat.testBit_two_pow_sub_one, Nat.testBit_div_two_pow]
  by_cases hi : k ≤ i
  · have : i - k + k = i := by omega
    simp only [hi, decide_true, Bool.true_and, this]
    by_cases hiw : i - k < w - k
    · simp [hiw]
    · simp [hiw, Nat.testBit_lt_two_pow (h.trans_le (Nat.pow_le_pow_right (by norm_num) (by omega : w ≤ i)))]
  · simp [hi]

/-- Halving a positive number drops one bit. -/
lemma size_div_two {n : ℕ} (h : 0 < n) : Nat.size (n / 2) + 1 = Nat.size n := by
  apply le_antisymm
  · have hpos : 0 < Nat.size n := Nat.size_pos.mpr h
    have : Nat.size (n / 2) ≤ Nat.size n - 1 := by
      rw [Nat.size_le]
      have hlt : n < 2 ^ Nat.size n := Nat.lt_size_self n
      have hpow : 2 ^ Nat.size n = 2 * 2 ^ (Nat.size n - 1) := by
        rw [← pow_succ', Nat.sub_add_cancel hpos]
      omega
    omega
  · rw [Nat.size_le, pow_succ]
    have hlt : n / 2 < 2 ^ Nat.size (n / 2) := Nat.lt_size_self _
    omega

lemma size_eq_of_pow_le_lt {n k : ℕ} (hlo : 2 ^ k ≤ n) (hhi : n < 2 ^ (k + 1)) : Nat.size n = k + 1 :=
  le_antisymm (Nat.size_le.mpr hhi) (Nat.lt_size.mpr hlo)

end Embassies
