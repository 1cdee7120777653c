import Embassies.Lib.Checked
import Embassies.Lib.LittleEndian
import Embassies.Lib.Splice

/-! Checked reads and writes of a byte buffer.

    A read that leaves the buffer is a fault, and so is a write. `readBE` reads a network-order word, `readLE` a word
    as the machine has it, `readAt` plain bytes. -/

namespace Embassies

/-- The network-order word of `k` bytes at `off`. -/
def readBE (b : Bytes) (off k : ℕ) : Checked ℕ :=
  if off + k ≤ b.length then .ok (ofBE (field b off k)) else .error .outOfRange

/-- The bytes at `off`. -/
def readAt (b : Bytes) (off k : ℕ) : Checked Bytes :=
  if off + k ≤ b.length then .ok (field b off k) else .error .outOfRange

/-- The little-endian word of `k` bytes at `off`. -/
def readLE (b : Bytes) (off k : ℕ) : Checked ℕ := do
  let x ← readAt b off k
  pure (ofLE x)

/-- Write `x` at `off`. -/
def writeAt (b : Bytes) (off : ℕ) (x : Bytes) : Checked Bytes :=
  if off + x.length ≤ b.length then .ok (splice b off x) else .error .outOfRange

variable {b x : Bytes} {off k : ℕ} {b' : Bytes}

lemma readBE_eq_ok {w : ℕ} : readBE b off k = .ok w ↔ off + k ≤ b.length ∧ w = ofBE (field b off k) := by
  rw [readBE]
  split
  case isTrue h => simp [h, eq_comm]
  case isFalse h => simp [h]

lemma readBE_of_fits (h : off + k ≤ b.length) : readBE b off k = .ok (ofBE (field b off k)) := if_pos h

lemma readAt_of_fits (h : off + k ≤ b.length) : readAt b off k = .ok (field b off k) := if_pos h

lemma readAt_eq_ok {x : Bytes} : readAt b off k = .ok x ↔ off + k ≤ b.length ∧ x = field b off k := by
  rw [readAt]
  split
  case isTrue h => simp [h, eq_comm]
  case isFalse h => simp [h]

lemma readLE_of_fits (h : off + k ≤ b.length) : readLE b off k = .ok (ofLE (field b off k)) := by
  rw [readLE, readAt_of_fits h, Checked.ok_bind, Checked.pure_eq_ok]

lemma writeAt_of_fits (h : off + x.length ≤ b.length) : writeAt b off x = .ok (splice b off x) := if_pos h

lemma writeAt_eq_ok : writeAt b off x = .ok b' ↔ off + x.length ≤ b.length ∧ b' = splice b off x := by
  rw [writeAt]
  split
  case isTrue h => simp [h, eq_comm]
  case isFalse h => simp [h]

/-- What is written behind a piece is joined to it. -/
lemma writeAt_splice {done : Bytes} {pos : ℕ} (hpos : pos = off + done.length)
    (hfits : off + (done ++ x).length ≤ b.length) :
    writeAt (splice b off done) pos x = .ok (splice b off (done ++ x)) := by
  rw [List.length_append] at hfits
  have hdone : off + done.length ≤ b.length := by omega
  rw [hpos, writeAt_of_fits (by rw [length_splice hdone]; omega), splice_splice x hdone]

lemma length_of_writeAt (h : writeAt b off x = .ok b') : b'.length = b.length := by
  obtain ⟨hfits, rfl⟩ := writeAt_eq_ok.mp h
  exact length_splice hfits

end Embassies
