import Mathlib.Data.List.Basic
import Mathlib.Tactic.Linarith

/-! Writing into a buffer.

    `splice b off x` is the buffer `b` after `x` was written at `off`. A run of adjacent writes is one
    write of the concatenation (`splice_splice`), which is all that a serializer needs; what lies
    behind a write is as it was (`drop_splice`). -/

namespace Embassies

open List

variable {α : Type}
variable {b x : List α} {off : ℕ}

/-- The buffer `b` with `x` written at `off`. -/
def splice (b : List α) (off : ℕ) (x : List α) : List α :=
  b.take off ++ (x ++ b.drop (off + x.length))

@[simp] lemma splice_nil (b : List α) (off : ℕ) : splice b off [] = b := by simp [splice]

lemma length_splice (h : off + x.length ≤ b.length) : (splice b off x).length = b.length := by
  simp only [splice, length_append, length_take, length_drop]
  omega

/-- What lies behind a write is as it was. -/
lemma drop_splice {k : ℕ} (h : off + x.length ≤ b.length) (hk : off + x.length ≤ k) :
    (splice b off x).drop k = b.drop k := by
  obtain ⟨d, rfl⟩ := Nat.exists_eq_add_of_le hk
  have hlen : (b.take off ++ x).length = off + x.length := by
    rw [length_append, length_take]
    omega
  rw [splice, ← append_assoc, ← drop_drop, drop_left' hlen, drop_drop]

/-- Two adjacent writes are one write. -/
lemma splice_splice (y : List α) (h : off + x.length ≤ b.length) :
    splice (splice b off x) (off + x.length) y = splice b off (x ++ y) := by
  have hlen : (b.take off ++ x).length = off + x.length := by
    rw [length_append, length_take]
    omega
  have htake : (splice b off x).take (off + x.length) = b.take off ++ x := by
    rw [splice, ← append_assoc, take_left' hlen]
  have hdrop := drop_splice (k := off + x.length + y.length) h (by omega)
  rw [splice, htake, hdrop, splice, length_append, append_assoc, append_assoc, Nat.add_assoc]

/-- A write just in front of another makes one write with it. -/
lemma splice_splice_before {y : List α} (h : off + x.length + y.length ≤ b.length) :
    splice (splice b (off + x.length) y) off x = splice b off (x ++ y) := by
  have hlen : (b.take (off + x.length)).length = off + x.length := length_take_of_le (by omega)
  have htake : (splice b (off + x.length) y).take off = b.take off := by
    rw [splice, take_append_of_le_length (by omega), take_take, min_eq_left (by omega)]
  have hdrop : (splice b (off + x.length) y).drop (off + x.length) = y ++ b.drop (off + x.length + y.length) := by
    rw [splice, drop_left' hlen]
  rw [splice, htake, hdrop, splice, length_append, append_assoc, Nat.add_assoc]

/-- Writing what is there changes nothing. -/
lemma splice_self (b : List α) (off n : ℕ) : splice b off ((b.drop off).take n) = b := by
  have hmin : ((b.drop off).take n).length = min n (b.length - off) := by
    rw [length_take, length_drop]
  rw [splice, hmin]
  rcases le_total n (b.length - off) with hn | hn
  · rw [min_eq_left hn, ← drop_drop, take_append_drop, take_append_drop]
  · have hall : (b.drop off).take n = b.drop off := by
      apply take_of_length_le
      rw [length_drop]
      exact hn
    have hnone : b.drop (off + (b.length - off)) = [] := by
      apply drop_of_length_le
      omega
    rw [min_eq_right hn, hall, hnone, append_nil, take_append_drop]

lemma slice_splice_self (h : off ≤ b.length) : ((splice b off x).drop off).take x.length = x := by
  have hlen : (b.take off).length = off := length_take_of_le h
  rw [splice, drop_left' hlen, take_left]

/-- What lies in front of a write is as it was. -/
lemma slice_splice_before {k n : ℕ} (h : off ≤ b.length) (hk : k + n ≤ off) :
    ((splice b off x).drop k).take n = (b.drop k).take n := by
  have hlen : n ≤ ((b.take off).drop k).length := by
    rw [length_drop, length_take_of_le h]
    omega
  rw [splice, drop_append_of_le_length (by rw [length_take_of_le h]; omega), take_append_of_le_length hlen,
    drop_take, take_take, min_eq_left (by omega)]

lemma splice_zero : splice b 0 x = x ++ b.drop x.length := by
  simp [splice]

end Embassies
