import Mathlib.Data.List.Induction
import Mathlib.Tactic.Linarith

/-! Network-order words and fields of a byte string.

    `toBE k n` is the `k`-byte big-endian form of `n` (its low `8 k` bits, as storing into a `k`-byte field keeps),
    `ofBE` reads one back, and `field b off len` is the slice a packed struct member occupies. The lemmas are the codec
    laws: lengths, both inverses, and reading a field that lies inside one part of a concatenation. -/

namespace Embassies

open List

variable (b : Bytes) {a c : Bytes} {off len : ℕ}

abbrev Bytes := List UInt8

/-- The `k`-byte big-endian form of `n`. -/
def toBE : ℕ → ℕ → Bytes
  | 0, _ => []
  | k + 1, n => toBE k (n / 256) ++ [UInt8.ofNat n]

/-- The value of a big-endian byte string. -/
def ofBE (b : Bytes) : ℕ := b.foldl (fun acc x => acc * 256 + x.toNat) 0

/-- The `len` bytes of `b` at offset `off`. -/
def field (b : Bytes) (off len : ℕ) : Bytes := (b.drop off).take len

@[simp] lemma length_toBE : ∀ k n, (toBE k n).length = k
  | 0, _ => rfl
  | k + 1, n => by simp [toBE, length_toBE k]

lemma ofBE_concat (x : UInt8) : ofBE (b ++ [x]) = ofBE b * 256 + x.toNat := by
  simp [ofBE]

/-- Reading back a stored word gives its low bits. -/
lemma ofBE_toBE : ∀ k n, ofBE (toBE k n) = n % 256 ^ k
  | 0, n => by simp [toBE, ofBE, Nat.mod_one]
  | k + 1, n => by
      have hsplit : n % 256 ^ (k + 1) = n % 256 + 256 * (n / 256 % 256 ^ k) := by
        rw [pow_succ' 256 k, Nat.mod_mul]
      rw [toBE, ofBE_concat, ofBE_toBE k, UInt8.toNat_ofNat', hsplit]
      omega

lemma ofBE_toBE_of_lt {k n : ℕ} (h : n < 256 ^ k) : ofBE (toBE k n) = n := by
  rw [ofBE_toBE, Nat.mod_eq_of_lt h]

lemma toBE_inj {k m n : ℕ} (hm : m < 256 ^ k) (hn : n < 256 ^ k) (h : toBE k m = toBE k n) : m = n := by
  rw [← ofBE_toBE_of_lt hm, h, ofBE_toBE_of_lt hn]

lemma ofBE_lt : ofBE b < 256 ^ b.length := by
  induction b using List.reverseRecOn with
  | nil => simp [ofBE]
  | append_singleton b x ih =>
    have hx : x.toNat < 256 := x.toNat_lt
    rw [ofBE_concat, length_append, length_singleton, pow_succ]
    omega

lemma field_append (ha : a.length = off) : field (a ++ c) off len = c.take len := by
  rw [field, ← ha, drop_left]

lemma field_middle {m : Bytes} (ha : a.length = off) (hm : m.length = len) : field (a ++ (m ++ c)) off len = m := by
  rw [field_append ha, ← hm, take_left]

lemma field_skip (ha : a.length ≤ off) : field (a ++ c) off len = field c (off - a.length) len := by
  rw [field, field, drop_append, drop_of_length_le ha, nil_append]

lemma field_head {m : Bytes} (hm : m.length = len) : field (m ++ c) 0 len = m := by
  rw [field, drop_zero, ← hm, take_left]

lemma length_field {b : Bytes} (h : off + len ≤ b.length) : (field b off len).length = len := by
  rw [field, length_take, length_drop]
  omega

end Embassies
