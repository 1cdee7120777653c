import Embassies.Lib.Buffer
import Embassies.Lib.Throwing

/-! Serializers.

    A serializer writes into a buffer at an offset. `Writes f x` says that `f` writes the bytes `x` and nothing
    else, wherever they fit, and stops where they do not. What the buffer held before has no part in it. -/

namespace Embassies

variable {ε : Type} {f g : Bytes → ℕ → Throwing ε Bytes} {x y : Bytes}

/-- `f` writes `x`. -/
def Writes (f : Bytes → ℕ → Throwing ε Bytes) (x : Bytes) : Prop :=
  ∀ b off b', f b off = .ok b' ↔ off + x.length ≤ b.length ∧ b' = splice b off x

lemma writes_writeAt (x : Bytes) : Writes (fun b off => (Throwing.lift (writeAt b off x) : Throwing ε Bytes)) x := by
  intro b off b'
  rw [Throwing.lift_eq_ok, writeAt_eq_ok]

/-- SEQUENCE: what is written behind `x` comes after it. -/
lemma Writes.seq (hf : Writes f x) (hg : Writes g y) :
    Writes (fun b off => f b off >>= fun b => g b (off + x.length)) (x ++ y) := by
  intro b off b'
  simp only [Throwing.bind_eq_ok, List.length_append]
  constructor
  · rintro ⟨b1, hx, hy⟩
    obtain ⟨hfits, rfl⟩ := (hf b off b1).mp hx
    obtain ⟨hfits', rfl⟩ := (hg _ _ b').mp hy
    rw [length_splice hfits] at hfits'
    exact ⟨by omega, splice_splice y hfits⟩
  · rintro ⟨hfits, rfl⟩
    have hx : off + x.length ≤ b.length := by omega
    refine ⟨splice b off x, (hf _ _ _).mpr ⟨hx, rfl⟩, (hg _ _ _).mpr ⟨?_, (splice_splice y hx).symm⟩⟩
    rw [length_splice hx]
    omega

end Embassies
