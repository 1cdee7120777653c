import Embassies.Lib.Checked
import Embassies.Lib.Word

/-! `DataRange`: a half-open range of file bytes. Both ends are words; nothing in the class orders
    them, and its size is a 32-bit difference. -/

namespace Embassies.Zftp

/-- `DataRange`, from `start` up to `stop`. -/
structure DataRange where
  start : ℕ
  stop : ℕ
  deriving DecidableEq

namespace DataRange

/-- The default constructor. -/
def empty : DataRange := ⟨0, 0⟩

/-- `size()`. -/
def size (r : DataRange) : ℕ := sub32 r.stop r.start

/-- `is_empty()`. -/
def isEmpty (r : DataRange) : Bool := r.start = r.stop

/-- `maybe_accumulate(other)`: the union, if this class can represent it. -/
def maybeAccumulate (r other : DataRange) : Option DataRange :=
  if r.isEmpty then some other
  else if other.stop = r.start then some ⟨other.start, r.stop⟩
  else if other.start = r.stop then some ⟨r.start, other.stop⟩
  else if r.start ≤ other.start ∧ other.stop ≤ r.stop then some r -- already in the set
  else none

/-- `accumulate(other)`. -/
def accumulate (r other : DataRange) : Checked DataRange :=
  match r.maybeAccumulate other with
  | some u => pure u
  | none => .error .liteAssert

/-- `intersect(other)`. -/
def intersect (r other : DataRange) : DataRange :=
  if r.isEmpty || other.isEmpty then empty
  else if max r.start other.start > min r.stop other.stop then empty
  else ⟨max r.start other.start, min r.stop other.stop⟩

end DataRange

end Embassies.Zftp
