import Embassies.Lib.Bytes

/-! Little-endian numbers, as an i386 keeps them. -/

namespace Embassies

/-- The `k`-byte little-endian form of `n`. -/
def toLE (k n : ℕ) : Bytes := (toBE k n).reverse

/-- The value of a little-endian byte string. -/
def ofLE (b : Bytes) : ℕ := ofBE b.reverse

@[simp] lemma length_toLE (k n : ℕ) : (toLE k n).length = k := by simp [toLE]

lemma ofLE_toLE_of_lt {k n : ℕ} (h : n < 256 ^ k) : ofLE (toLE k n) = n := by
  rw [ofLE, toLE, List.reverse_reverse, ofBE_toBE_of_lt h]

lemma ofLE_lt (b : Bytes) : ofLE b < 256 ^ b.length := by
  simpa [ofLE] using ofBE_lt b.reverse

lemma ofLE_cons (x : UInt8) (b : Bytes) : ofLE (x :: b) = ofLE b * 256 + x.toNat := by
  rw [ofLE, List.reverse_cons, ofBE_concat, ofLE]

lemma ofLE_inj : ∀ {a b : Bytes}, a.length = b.length → ofLE a = ofLE b → a = b
  | [], [], _, _ => rfl
  | x :: a, y :: b, hlen, h => by
    have hx : x.toNat < 256 := x.toNat_lt
    have hy : y.toNat < 256 := y.toNat_lt
    rw [ofLE_cons, ofLE_cons] at h
    obtain rfl := UInt8.toNat_inj.mp (show x.toNat = y.toNat by omega)
    rw [ofLE_inj (Nat.succ.inj hlen) (by omega)]

def wordAt (b : Bytes) (off : ℕ) : ℕ := ofLE (field b off 4)

end Embassies
