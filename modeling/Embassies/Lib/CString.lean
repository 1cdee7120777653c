import Embassies.Lib.Bytes

/-! C strings: the bytes up to a NUL. -/

namespace Embassies

/-- The string that starts at an offset of a buffer, up to its NUL. -/
def cstringAt (b : Bytes) (off : ℕ) : Bytes := (b.drop off).takeWhile (· ≠ 0)

lemma cstringAt_middle {a s rest : Bytes} {off : ℕ} (ha : a.length = off) (hs : 0 ∉ s) :
    cstringAt (a ++ (s ++ 0 :: rest)) off = s := by
  rw [cstringAt, ← ha, List.drop_left, List.takeWhile_append_of_pos]
  · simp
  · intro x hx
    simpa using fun h : x = 0 => hs (h ▸ hx)

end Embassies
