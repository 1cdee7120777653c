import Embassies.Lib.Bytes
import Mathlib.Data.Nat.Digits.Lemmas

/-! Numbers as text.

    `numeral b v` is `v` in base `b`, with no leading zeros; `fixedDigits b k v` is its last `k` digits, zeros included, and
    the two agree up to zeros on the left. -/

namespace Embassies

open List

variable {b : ℕ}

/-- The character of a digit below sixteen. -/
def digitChar (d : ℕ) : UInt8 := UInt8.ofNat (if d < 10 then 48 + d else 87 + d)

/-- `v` in base `b`, the most significant digit first. -/
def numeral (b v : ℕ) : Bytes := if v = 0 then [digitChar 0] else (Nat.digits b v).reverse.map digitChar

/-- The last `k` digits of `v` in base `b`. -/
def fixedDigits (b : ℕ) : ℕ → ℕ → Bytes
  | 0, _ => []
  | k + 1, v => digitChar (v / b ^ k % b) :: fixedDigits b k v

/-- `s` with `c` in front of it until it has `k` characters. -/
def padLeft (c : UInt8) (k : ℕ) (s : Bytes) : Bytes := List.replicate (k - s.length) c ++ s

@[simp] lemma length_fixedDigits (b : ℕ) : ∀ k v, (fixedDigits b k v).length = k
  | 0, _ => rfl
  | k + 1, v => by rw [fixedDigits, length_cons, length_fixedDigits b k v]

lemma fixedDigits_succ (b : ℕ) : ∀ k v, fixedDigits b (k + 1) v = fixedDigits b k (v / b) ++ [digitChar (v % b)]
  | 0, v => by simp [fixedDigits]
  | k + 1, v => by
    rw [fixedDigits, fixedDigits_succ b k v, fixedDigits, cons_append, pow_succ', ← Nat.div_div_eq_div_mul]

lemma fixedDigits_pad {k v : ℕ} (hb : 0 < b) (hv : v < b ^ k) : ∀ j, fixedDigits b (j + k) v =
    List.replicate j (digitChar 0) ++ fixedDigits b k v
  | 0 => by rw [Nat.zero_add, replicate_zero, nil_append]
  | j + 1 => by
    have hlt : v < b ^ (j + k) := hv.trans_le (Nat.pow_le_pow_right hb (Nat.le_add_left k j))
    rw [show j + 1 + k = j + k + 1 by omega, fixedDigits, fixedDigits_pad hb hv j, Nat.div_eq_of_lt hlt, Nat.zero_mod,
      replicate_succ, cons_append]

lemma map_digits_reverse (hb : 1 < b) (v : ℕ) :
    (Nat.digits b v).reverse.map digitChar = fixedDigits b (Nat.digits b v).length v := by
  induction v using Nat.strong_induction_on with
  | _ v ih =>
    rcases Nat.eq_zero_or_pos v with rfl | hv
    · simp [fixedDigits]
    · rw [Nat.digits_def' hb hv, reverse_cons, map_append, ih _ (Nat.div_lt_self hv hb), length_cons, fixedDigits_succ]
      rfl

/-- How many digits a number has. -/
def numDigits (b v : ℕ) : ℕ := max 1 (Nat.digits b v).length

lemma numeral_eq_fixedDigits (hb : 1 < b) (v : ℕ) : numeral b v = fixedDigits b (numDigits b v) v := by
  unfold numeral numDigits
  split
  case isTrue hv => simp [hv, fixedDigits]
  case isFalse hv =>
    have hpos : 0 < (Nat.digits b v).length := length_pos_iff.mpr (Nat.digits_ne_nil_iff_ne_zero.mpr hv)
    rw [map_digits_reverse hb, max_eq_right hpos]

lemma length_numeral (hb : 1 < b) (v : ℕ) : (numeral b v).length = numDigits b v := by
  rw [numeral_eq_fixedDigits hb, length_fixedDigits]

lemma numDigits_le_iff {k v : ℕ} (hb : 1 < b) (hk : 0 < k) : numDigits b v ≤ k ↔ v < b ^ k := by
  rw [numDigits, max_le_iff, Nat.digits_length_le_iff hb]
  exact and_iff_right hk

lemma lt_pow_numDigits (hb : 1 < b) (v : ℕ) : v < b ^ numDigits b v :=
  (numDigits_le_iff hb (by unfold numDigits; omega)).mp (Nat.le_refl _)

lemma padLeft_numeral (hb : 1 < b) (k v : ℕ) :
    padLeft (digitChar 0) k (numeral b v) = fixedDigits b (max k (numDigits b v)) v := by
  have hlen : max k (numDigits b v) = k - numDigits b v + numDigits b v := by omega
  rw [hlen, fixedDigits_pad (by omega) (lt_pow_numDigits hb v), padLeft, length_numeral hb, numeral_eq_fixedDigits hb]

lemma mem_fixedDigits (hb : 1 < b) {c : UInt8} : ∀ {k v : ℕ}, c ∈ fixedDigits b k v → ∃ d < b, c = digitChar d
  | k + 1, v, hc => by
    rcases mem_cons.mp hc with rfl | hc
    · exact ⟨_, Nat.mod_lt _ (by omega), rfl⟩
    · exact mem_fixedDigits hb hc

end Embassies
