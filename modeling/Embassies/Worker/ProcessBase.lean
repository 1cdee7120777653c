import Mathlib.Data.Int.Notation
import Mathlib.Data.Nat.Notation
import Mathlib.Logic.Function.Basic
import Mathlib.Logic.Relation

/-! Child processes of the worker: `ProcessBase` in `worker.py`.

    The handler of SIGCHLD reaps one child, and looks for its object in a table. Signals that are pending are one signal.
    An object is put into the table after its child has been started, and a query of its return code reaps the child
    as well. -/

namespace Embassies.Worker

open Function Relation

/-- What the system knows of a child. One that has exited waits until it is reaped. -/
inductive Life where
  | running
  | exited (status : ℤ)
  | reaped (status : ℤ)
  deriving DecidableEq, Repr

/-- `ProcessBase`, once its child has been started. `notified` counts how often the stop listeners and the stop callback
    have run for it. -/
structure ProcessBase where
  pid : ℕ
  life : Life := .running
  added : Bool := false
  returncode : Option ℤ := none
  notified : ℕ := 0
  deriving DecidableEq, Repr

/-- The objects, `_processes`, and whether a SIGCHLD is pending. -/
structure State where
  objects : ℕ → Option ProcessBase
  processes : ℕ → Option ℕ
  pending : Bool

def init : State := ⟨fun _ => none, fun _ => none, false⟩

/-- What can happen: `_execute` starts a child and adds its object, a child exits, the handler runs and `waitpid` returns
    a child or none, and `stopped` or `returncode` is asked for. -/
inductive Event where
  | popen (p pid : ℕ)
  | addProcess (p : ℕ)
  | exit (p : ℕ) (status : ℤ)
  | sigchld (p : Option ℕ)
  | returncode (p : ℕ)

/-- `sigchld_handler`, behind `waitpid`. -/
def sigchldHandler (s : State) (pid : ℕ) (rc : ℤ) : State :=
  match s.processes pid with
  | none => s
  | some p => { s with
      objects := update s.objects p
        ((s.objects p).map fun o => { o with returncode := some rc, notified := o.notified + 1 })
      processes := update s.processes pid none }

/-- What `Popen` makes of a status of `waitpid`: the exit code, or the number of the signal, negated. -/
def exitstatus (status : ℤ) : ℤ :=
  if status % 128 = 0 then status / 256 else -(status % 128)

/-- `returncode`: `poll` reaps the child if it has exited, and finds nothing out about one that is reaped. -/
def ProcessBase.poll (o : ProcessBase) : ProcessBase :=
  match o.returncode, o.life with
  | none, .exited status => { o with life := .reaped status, returncode := some (exitstatus status) }
  | _, _ => o

/-- One step. The system gives a new child a number that no child has until it is reaped. -/
inductive Step : State → Event → State → Prop
  | popen {s : State} {p pid : ℕ} (hnew : s.objects p = none)
      (hpid : ∀ q o, s.objects q = some o → o.pid = pid → ∃ status, o.life = .reaped status) :
      Step s (.popen p pid) { s with objects := update s.objects p (some { pid := pid }) }
  | addProcess {s : State} {p : ℕ} {o : ProcessBase} (ho : s.objects p = some o) (hnew : o.added = false) :
      Step s (.addProcess p) { s with
        objects := update s.objects p (some { o with added := true })
        processes := update s.processes o.pid (some p) }
  | exit {s : State} {p : ℕ} {o : ProcessBase} {status : ℤ} (ho : s.objects p = some o) (hlife : o.life = .running) :
      Step s (.exit p status) { s with
        objects := update s.objects p (some { o with life := .exited status })
        pending := true }
  | reaps {s : State} {p : ℕ} {o : ProcessBase} {status : ℤ} (hpending : s.pending = true) (ho : s.objects p = some o)
      (hlife : o.life = .exited status) :
      Step s (.sigchld (some p)) (sigchldHandler { s with
        objects := update s.objects p (some { o with life := .reaped status })
        pending := false } o.pid status)
  | reapsNone {s : State} (hpending : s.pending = true)
      (hnone : ∀ p o status, s.objects p = some o → o.life ≠ .exited status) :
      Step s (.sigchld none) { s with pending := false }
  | returncode {s : State} {p : ℕ} {o : ProcessBase} (ho : s.objects p = some o) :
      Step s (.returncode p) { s with objects := update s.objects p (some o.poll) }

/-- The states that are reached by steps that meet `C`. -/
def Reached (C : State → Event → Prop) (s : State) : Prop :=
  ReflTransGen (fun s s' => ∃ e, C s e ∧ Step s e s') init s

/-- SETTLED: a child that has exited has its status recorded, is not in the table, and was told of once. -/
def Settled (s : State) : Prop :=
  ∀ p o status, s.objects p = some o → o.life = .exited status ∨ o.life = .reaped status →
    o.returncode = some status ∧ s.processes o.pid ≠ some p ∧ o.notified = 1

/-- The steps that go well: a child exits when its object is in the table and no signal is pending, and a child that has
    exited is not asked for its return code before it is reaped. -/
def Calm (s : State) : Event → Prop
  | .exit p _ => (∀ o, s.objects p = some o → o.added = true) ∧ s.pending = false
  | .returncode p => ∀ o status, s.objects p = some o → o.life ≠ .exited status
  | _ => True

/-- What is known of an object. -/
def Known (s : State) (p : ℕ) (o : ProcessBase) : Prop :=
  match o.life with
  | .running => o.returncode = none ∧ o.notified = 0 ∧ (o.added = true → s.processes o.pid = some p)
  | .exited _ => o.returncode = none ∧ o.notified = 0 ∧ o.added = true ∧ s.processes o.pid = some p ∧ s.pending = true
  | .reaped status => o.returncode = some status ∧ o.notified = 1 ∧ o.added = true ∧ s.processes o.pid ≠ some p

/-- The invariant: at most one child has exited and is not reaped, and numbers are of one child. -/
structure Inv (s : State) : Prop where
  known : ∀ p o, s.objects p = some o → Known s p o
  single : ∀ p q o o' st st', s.objects p = some o → s.objects q = some o' → o.life = .exited st →
    o'.life = .exited st' → p = q
  distinct : ∀ p q o o', s.objects p = some o → s.objects q = some o' → o.pid = o'.pid →
    (∀ st, o.life ≠ .reaped st) → (∀ st, o'.life ≠ .reaped st) → p = q
  table : ∀ pid p, s.processes pid = some p → ∃ o, s.objects p = some o ∧ o.pid = pid ∧ o.added = true

lemma inv_init : Inv init where
  known _ _ h := nomatch h
  single _ _ _ _ _ _ h := nomatch h
  distinct _ _ _ _ h := nomatch h
  table _ _ h := nomatch h

variable {s s' : State} {e : Event} {p : ℕ} {o : ProcessBase} {status : ℤ}

lemma sigchldHandler_reaps (htable : s.processes o.pid = some p) :
    sigchldHandler { s with objects := update s.objects p (some { o with life := .reaped status }), pending := false }
      o.pid status =
      ⟨update s.objects p (some { o with
        life := .reaped status, returncode := some status, notified := o.notified + 1 }),
        update s.processes o.pid none, false⟩ := by
  simp only [sigchldHandler, htable, update_self, Option.map_some, update_idem]

lemma poll_eq (h : ∀ status, o.life ≠ .exited status) : o.poll = o := by
  unfold ProcessBase.poll
  split
  · exact absurd ‹_› (h _)
  · rfl

/-- STEP: a child that exits is the only one that is not reaped, its object is found in the table, and each object is told
    of once. -/
lemma Inv.step (h : Inv s) (hcalm : Calm s e) (hstep : Step s e s') : Inv s' := by
  obtain ⟨hknown, hsingle, hdistinct, htable⟩ := h
  cases hstep with
  | popen hnew hpid => refine ⟨fun q o hq => ?_, ?_, ?_, ?_⟩ <;> grind [Known]
  | addProcess ho hnew => refine ⟨fun q o hq => ?_, ?_, ?_, ?_⟩ <;> grind [Known]
  | exit ho hlife =>
    obtain ⟨hadded, hpending⟩ := hcalm
    -- a child that exited before would have left a signal
    have hnone : ∀ q o st, s.objects q = some o → o.life ≠ .exited st := by
      intro q o st hq hl
      have hk := hknown q o hq
      simp only [Known, hl, hpending, Bool.false_eq_true, and_false] at hk
    clear hsingle
    refine ⟨fun q o hq => ?_, ?_, ?_, ?_⟩ <;> grind [Known]
  | reaps hpending ho hlife =>
    have hk := hknown _ _ ho
    simp only [Known, hlife] at hk
    rewrite [sigchldHandler_reaps hk.2.2.2.1]
    -- the signal was for this child alone
    have hothers : ∀ q o' st, s.objects q = some o' → o'.life = .exited st → q = _ :=
      fun q o' st hq hl => hsingle q _ o' _ st _ hq ho hl hlife
    clear hsingle
    refine ⟨fun q o hq => ?_, ?_, ?_, ?_⟩ <;> grind [Known]
  | reapsNone hpending hnone => refine ⟨fun q o hq => ?_, ?_, ?_, ?_⟩ <;> grind [Known]
  | returncode ho =>
    rewrite [poll_eq fun status => hcalm _ status ho, ← ho, update_eq_self]
    exact ⟨hknown, hsingle, hdistinct, htable⟩

/-- RUN. -/
lemma Reached.inv (h : Reached Calm s) : Inv s := by
  induction h with
  | refl => exact inv_init
  | tail _ hstep ih =>
    obtain ⟨e, hcalm, hstep⟩ := hstep
    exact ih.step hcalm hstep

def child (s : State) (p pid : ℕ) : State :=
  ⟨update s.objects p (some { pid := pid, added := true }), update s.processes pid (some p), s.pending⟩

lemma Reached.child {C : State → Event → Prop} (h : Reached C s) (hnew : s.objects p = none) {pid : ℕ}
    (hpid : ∀ q o, s.objects q = some o → o.pid ≠ pid) (hC : ∀ s, C s (.popen p pid) ∧ C s (.addProcess p)) :
    Reached C (child s p pid) := by
  have hadd := Step.addProcess (s := { s with objects := update s.objects p (some { pid := pid }) })
    (update_self p _ _) rfl
  simp only [update_idem] at hadd
  exact (h.tail ⟨_, (hC _).1, .popen hnew fun q o hq hp => absurd hp (hpid q o hq)⟩).tail ⟨_, (hC _).2, hadd⟩

end Embassies.Worker
