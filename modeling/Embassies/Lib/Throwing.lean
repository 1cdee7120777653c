import Embassies.Lib.Checked

/-! Computations that throw or fault.

    Code that rejects its input by an exception stops in one of two ways: it throws, which its caller can
    see, or it faults. `Throwing` keeps the two apart. -/

namespace Embassies

/-- How a throwing computation stops. -/
inductive Stop (ε : Type) where
  | thrown (exception : ε)
  | fault (fault : Fault)
  deriving DecidableEq, Repr

/-- A computation that can throw or fault. -/
abbrev Throwing (ε α : Type) := Except (Stop ε) α

namespace Throwing

variable {ε α β : Type}

/-- Code that cannot throw. -/
def lift : Checked α → Throwing ε α
  | .ok a => .ok a
  | .error f => .error (.fault f)

lemma bind_eq_ok {x : Throwing ε α} {f : α → Throwing ε β} {b : β} : (x >>= f) = .ok b ↔ ∃ a, x = .ok a ∧ f a = .ok b :=
  ⟨of_bind, fun ⟨_, h, hf⟩ => h ▸ hf⟩

@[simp] lemma ok_bind (a : α) (f : α → Throwing ε β) : ((.ok a : Throwing ε α) >>= f) = f a := by
  simp only [bind, Except.bind]

@[simp] lemma error_bind (e : Stop ε) (f : α → Throwing ε β) : ((.error e : Throwing ε α) >>= f) = .error e := by
  simp only [bind, Except.bind]

@[simp] lemma pure_eq_ok (a : α) : (pure a : Throwing ε α) = .ok a := rfl

@[simp] lemma lift_eq_ok {x : Checked α} {a : α} : (lift x : Throwing ε α) = .ok a ↔ x = .ok a := by
  cases x with
  | error f => exact iff_of_false nofun nofun
  | ok b => exact ⟨fun h => by rw [Except.ok.inj h], fun h => by rw [Except.ok.inj h]; rfl⟩

end Throwing

end Embassies
