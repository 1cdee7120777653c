import Mathlib.Data.List.Basic
import Mathlib.Tactic.Linarith

/-! Checked computations and their runs.

    C++ that calls `lite_assert`, indexes an array or follows a pointer either goes on or stops the
    process there. `Checked` is the result of such code: a value, or the fault that stopped it. A
    system is a step function into `Checked`; `run` feeds it a list of inputs, and `Along` says that
    a condition on (state, input) is met at every step of such a run. The two rules at the end are
    the only inductions over runs that the developments built on this file need. -/

namespace Embassies

/-- Why a checked computation stopped. -/
inductive Fault where | liteAssert | outOfRange | nullDeref | outOfFuel
  deriving DecidableEq, Repr

/-- A computation that can stop with a fault. -/
abbrev Checked (α : Type) := Except Fault α

/-- `lite_assert(c)`. -/
def liteAssert (c : Prop) [Decidable c] : Checked Unit :=
  if c then .ok () else .error .liteAssert

@[simp] lemma liteAssert_eq_ok (c : Prop) [Decidable c] (u : Unit) : liteAssert c = .ok u ↔ c := by
  unfold liteAssert; split <;> simp_all

lemma liteAssert_pos {c : Prop} [Decidable c] (h : c) : liteAssert c = .ok () := if_pos h

lemma liteAssert_neg {c : Prop} [Decidable c] (h : ¬c) : liteAssert c = .error .liteAssert := if_neg h

lemma of_bind {ε α β : Type} {x : Except ε α} {f : α → Except ε β} {b : β} (h : (x >>= f) = .ok b) :
    ∃ a, x = .ok a ∧ f a = .ok b := by
  rcases x with e | a
  · cases h
  · exact ⟨a, rfl, h⟩

section
variable {ε α β γ δ : Type} {x : Except ε α} {f : α → Except ε β} {g : α → β → Except ε γ}

lemma of_bind2 {c : γ} (h : (x >>= fun a => f a >>= g a) = .ok c) :
    ∃ a, x = .ok a ∧ ∃ b, f a = .ok b ∧ g a b = .ok c := by
  obtain ⟨a, ha, h⟩ := of_bind h
  exact ⟨a, ha, of_bind h⟩

lemma of_bind3 {k : α → β → γ → Except ε δ} {d : δ} (h : (x >>= fun a => f a >>= fun b => g a b >>= k a b) = .ok d) :
    ∃ a, x = .ok a ∧ ∃ b, f a = .ok b ∧ ∃ c, g a b = .ok c ∧ k a b c = .ok d := by
  obtain ⟨a, ha, h⟩ := of_bind h
  exact ⟨a, ha, of_bind2 h⟩

end

namespace Checked

variable {α β : Type}

lemma bind_eq_ok {x : Checked α} {f : α → Checked β} {b : β} : (x >>= f) = .ok b ↔ ∃ a, x = .ok a ∧ f a = .ok b :=
  ⟨of_bind, fun ⟨_, h, hf⟩ => h ▸ hf⟩

/-- The computation returns `a` when `P` holds, and nothing otherwise. -/
def Yields (x : Checked α) (P : Prop) (a : α) : Prop := ∀ b, x = .ok b ↔ P ∧ b = a

lemma Yields.ok (a : α) : Yields (.ok a) True a := by
  intro b
  rw [Except.ok.injEq, true_and, eq_comm]

lemma Yields.error {P : Prop} {e : Fault} {a : α} (h : ¬P) : Yields (.error e) P a :=
  fun _ => ⟨nofun, fun hP => absurd hP.1 h⟩

lemma Yields.congr {P Q : Prop} {x : Checked α} {a : α} (h : Yields x P a) (hPQ : P ↔ Q) : Yields x Q a :=
  fun b => by rw [h b, hPQ]

/-- SEQUENCE RULE: the conditions of the two parts add up. -/
lemma Yields.bind {P Q : Prop} {x : Checked α} {f : α → Checked β} {a : α} {b : β} (hx : Yields x P a)
    (hf : P → Yields (f a) Q b) : Yields (x >>= f) (P ∧ Q) b := by
  intro b'
  rw [bind_eq_ok]
  constructor
  · rintro ⟨a', ha, hb⟩
    obtain ⟨hP, rfl⟩ := (hx a').mp ha
    obtain ⟨hQ, rfl⟩ := (hf hP b').mp hb
    exact ⟨⟨hP, hQ⟩, rfl⟩
  · rintro ⟨⟨hP, hQ⟩, rfl⟩
    exact ⟨a, (hx a).mpr ⟨hP, rfl⟩, (hf hP b').mpr ⟨hQ, rfl⟩⟩

-- Not proved by rfl: as definitional rewrites these two make the kernel compare whole programs.
@[simp] lemma ok_bind (a : α) (f : α → Checked β) : ((.ok a : Checked α) >>= f) = f a := by
  simp only [bind, Except.bind]

@[simp] lemma error_bind (e : Fault) (f : α → Checked β) : ((.error e : Checked α) >>= f) = .error e := by
  simp only [bind, Except.bind]

@[simp] lemma pure_eq_ok (a : α) : (pure a : Checked α) = .ok a := rfl

end Checked

section Runs

variable {σ ι : Type} (step : σ → ι → Checked σ)
variable {α β : Type} {R : α → β → Prop} {y : Checked β}

/-- Feed the inputs to the step function in order. -/
def run : σ → List ι → Checked σ
  | s, [] => .ok s
  | s, i :: is => step s i >>= fun s' => run s' is

/-- Every step of the run from `s` on the inputs is taken in a state and on an input that meet `C`. -/
def Along (C : σ → ι → Prop) : σ → List ι → Prop
  | _, [] => True
  | s, i :: is => C s i ∧ ∀ s', step s i = .ok s' → Along C s' is

variable {step} {C : σ → ι → Prop} {I : σ → Prop}

lemma run_append : ∀ (is js : List ι) (s : σ),
    run step s (is ++ js) = (run step s is >>= fun s' => run step s' js)
  | [], js, s => by simp [run]
  | i :: is, js, s => by
      simp only [List.cons_append, run]
      cases h : step s i with
      | error e => simp
      | ok s₁ => simp only [Checked.ok_bind]; exact run_append is js s₁

lemma Along.of_append : ∀ {is js : List ι} {s : σ}, Along step C s (is ++ js) →
    Along step C s is
  | [], _, _, _ => trivial
  | _ :: _, _, _, ⟨hC, hrest⟩ => ⟨hC, fun s' hs' => (hrest s' hs').of_append⟩

lemma Along.append : ∀ {is js : List ι} {s s' : σ}, Along step C s (is ++ js) →
    run step s is = .ok s' → Along step C s' js
  | [], _, _, _, h, hr => by
      simp only [run, Except.ok.injEq] at hr
      exact hr ▸ h
  | i :: is, js, s, s', ⟨_, hrest⟩, hr => by
      obtain ⟨s₁, h₁, hr⟩ := Checked.bind_eq_ok.mp hr
      exact (hrest s₁ h₁).append hr

/-- INVARIANT RULE: what every step meeting `C` preserves holds of every state such a run reaches. -/
lemma run_invariant (hstep : ∀ s i s', I s → C s i → step s i = .ok s' → I s') :
    ∀ (is : List ι) (s s' : σ), I s → Along step C s is → run step s is = .ok s' → I s'
  | [], s, s', hs, _, hr => by
      simp only [run, Except.ok.injEq] at hr
      exact hr ▸ hs
  | i :: is, s, s', hs, ⟨hC, hrest⟩, hr => by
      obtain ⟨s₁, h₁, hr⟩ := Checked.bind_eq_ok.mp hr
      exact run_invariant hstep is s₁ s' (hstep s i s₁ hs hC h₁) (hrest s₁ h₁) hr

/-- PROGRESS RULE: when no step meeting `C` faults and each preserves `I`, no such run faults. -/
lemma run_progress (hstep : ∀ s i, I s → C s i → ∃ s', step s i = .ok s' ∧ I s') :
    ∀ (is : List ι) (s : σ), I s → Along step C s is → ∃ s', run step s is = .ok s' ∧ I s'
  | [], s, hs, _ => ⟨s, rfl, hs⟩
  | i :: is, s, hs, ⟨hC, hrest⟩ => by
      obtain ⟨s₁, h₁, hs₁⟩ := hstep s i hs hC
      obtain ⟨s', hr, hs'⟩ := run_progress hstep is s₁ hs₁ (hrest s₁ h₁)
      exact ⟨s', by simp only [run, h₁, Checked.ok_bind, hr], hs'⟩

lemma Along.of_forall (h : ∀ s i, C s i) : ∀ (is : List ι) (s : σ), Along step C s is
  | [], _ => trivial
  | i :: is, s => ⟨h s i, fun s' _ => Along.of_forall h is s'⟩

/-- A condition that every input meets in every state is met along the run. -/
lemma Along.of_mem : ∀ {is : List ι} (_ : ∀ i ∈ is, ∀ s, C s i) (s : σ), Along step C s is
  | [], _, _ => trivial
  | i :: _, h, s => ⟨h i (.head _) s, fun s' _ => Along.of_mem (fun j hj => h j (.tail _ hj)) s'⟩

lemma Along.mono {D : σ → ι → Prop} (h : ∀ s i, C s i → D s i) :
    ∀ {is : List ι} {s : σ}, Along step C s is → Along step D s is
  | [], _, _ => trivial
  | _ :: _, _, ⟨hC, hrest⟩ => ⟨h _ _ hC, fun s' hs' => (hrest s' hs').mono h⟩

lemma run_preserves (hstep : ∀ s i s', I s → step s i = .ok s' → I s') (is : List ι) (s s' : σ) (hs : I s)
    (hr : run step s is = .ok s') : I s' :=
  run_invariant (C := fun _ _ => True) (fun s i s' hs _ h => hstep s i s' hs h) is s s' hs
    (Along.of_forall (fun _ _ => trivial) is s) hr

/-- Two checked results that stop for the same reason, or give related values. -/
def Related {α β : Type} (R : α → β → Prop) : Checked α → Checked β → Prop
  | .ok a, .ok b => R a b
  | .error e, .error e' => e = e'
  | _, _ => False

lemma Related.ok {a : α} (h : Related R (.ok a) y) : ∃ b, y = .ok b ∧ R a b := by
  cases y with
  | error e => exact h.elim
  | ok b => exact ⟨b, rfl, h⟩

lemma Related.error {e : Fault} (h : Related R (.error e) y) : y = .error e := by
  cases y with
  | error e' => exact congrArg Except.error (Eq.symm h)
  | ok b => exact h.elim

lemma Related.mono {Q : α → β → Prop} (hmono : ∀ a b, R a b → Q a b) {x : Checked α} (h : Related R x y) :
    Related Q x y := by
  cases x with
  | error e =>
    rw [h.error]
    exact rfl
  | ok a =>
    obtain ⟨b, rfl, hab⟩ := h.ok
    exact hmono a b hab

/-- SIMULATION RULE: systems whose steps keep states related have related runs. -/
lemma run_related {τ : Type} {step' : τ → ι → Checked τ} {R : σ → τ → Prop}
    (hstep : ∀ s t i, R s t → Related R (step s i) (step' t i)) :
    ∀ (is : List ι) (s : σ) (t : τ), R s t → Related R (run step s is) (run step' t is)
  | [], _, _, h => h
  | i :: is, s, t, h => by
      have hi := hstep s t i h
      simp only [run]
      cases hs : step s i with
      | error e =>
        rw [hs] at hi
        rw [hi.error]
        exact rfl
      | ok s' =>
        rw [hs] at hi
        obtain ⟨t', ht, hrel⟩ := hi.ok
        rw [ht, Checked.ok_bind, Checked.ok_bind]
        exact run_related hstep is s' t' hrel

end Runs

end Embassies
