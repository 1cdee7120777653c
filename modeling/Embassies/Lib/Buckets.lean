import Mathlib.Data.List.Perm.Basic
import Mathlib.Data.List.Flatten

/-! Lists of buckets.

    A bucket array is a list of lists, and what it holds is their concatenation. Putting an element
    into a bucket and taking one out of it are described up to order, so that a table built on this
    file reasons about its contents and not about where they lie. -/

namespace Embassies

open List

variable {α : Type}
variable {b : List (List α)} {i : ℕ}

/-- The bucket at `i`; past the end there is none. -/
def bucketAt (b : List (List α)) (i : ℕ) : List α := b.getD i []

/-- Put an element at the head of a bucket. -/
def pushBucket (b : List (List α)) (i : ℕ) (x : α) : List (List α) := b.set i (x :: bucketAt b i)

/-- Take the element at position `k` out of a bucket. -/
def eraseBucket (b : List (List α)) (i k : ℕ) : List (List α) := b.set i ((bucketAt b i).eraseIdx k)

@[simp] lemma length_pushBucket (b : List (List α)) (i : ℕ) (x : α) :
    (pushBucket b i x).length = b.length := length_set

@[simp] lemma length_eraseBucket (b : List (List α)) (i k : ℕ) :
    (eraseBucket b i k).length = b.length := length_set

lemma bucketAt_set (hi : i < b.length) (x : List α) (j : ℕ) :
    bucketAt (b.set i x) j = if j = i then x else bucketAt b j := by
  rcases eq_or_ne j i with rfl | hne
  · simp [bucketAt, hi]
  · simp [bucketAt, List.getElem?_set_ne (Ne.symm hne), hne]

lemma mem_flatten_iff {x : α} : x ∈ b.flatten ↔ ∃ i < b.length, x ∈ bucketAt b i := by
  constructor
  · intro h
    obtain ⟨l, hl, hx⟩ := mem_flatten.mp h
    obtain ⟨i, hi, rfl⟩ := getElem_of_mem hl
    exact ⟨i, hi, by simpa [bucketAt, hi] using hx⟩
  · rintro ⟨i, hi, hx⟩
    refine mem_flatten.mpr ⟨bucketAt b i, ?_, hx⟩
    simp [bucketAt, hi]

/-- SWAP: replacing a bucket exchanges its contents for the new ones. -/
lemma flatten_set_perm (b : List (List α)) : ∀ {i : ℕ} (x : List α), i < b.length →
    (bucketAt b i ++ (b.set i x).flatten).Perm (x ++ b.flatten) := by
  induction b with
  | nil => intro i x hi; exact absurd hi (Nat.not_lt_zero _)
  | cons l b ih =>
    intro i x hi
    cases i with
    | zero =>
      simp only [bucketAt, getD_cons_zero, set_cons_zero, flatten_cons]
      exact perm_append_comm_assoc l x b.flatten
    | succ i =>
      have hi' : i < b.length := Nat.lt_of_succ_lt_succ hi
      have hget : bucketAt (l :: b) (i + 1) = bucketAt b i := by simp [bucketAt]
      rw [hget, set_cons_succ, flatten_cons, flatten_cons]
      refine (perm_append_comm_assoc _ _ _).trans ?_
      exact ((ih x hi').append_left l).trans (perm_append_comm_assoc _ _ _)

lemma pushBucket_perm (hi : i < b.length) (x : α) : (pushBucket b i x).flatten.Perm (x :: b.flatten) := by
  have hswap := flatten_set_perm b (x :: bucketAt b i) hi
  exact (perm_append_left_iff _).mp (hswap.trans perm_middle.symm)

lemma eraseBucket_perm {k : ℕ} {x : α} (hi : i < b.length) (hk : (bucketAt b i)[k]? = some x) :
    b.flatten.Perm (x :: (eraseBucket b i k).flatten) := by
  obtain ⟨hlt, rfl⟩ := List.getElem?_eq_some_iff.mp hk
  have hswap := flatten_set_perm b ((bucketAt b i).eraseIdx k) hi
  have hbucket := (getElem_cons_eraseIdx_perm hlt).append_right (eraseBucket b i k).flatten
  exact (perm_append_left_iff _).mp ((hbucket.trans hswap).symm.trans perm_middle.symm)

end Embassies
