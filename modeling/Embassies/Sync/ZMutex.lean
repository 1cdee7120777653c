import Embassies.Lib.Word
import Mathlib.Tactic.IntervalCases

/-! The mutex of `zutex_sync.c`.

    Its word is 0 when the mutex is free, 1 when it is locked, and 2 when it is locked and someone may be asleep. A
    thread that unlocks counts the word down and, unless it was 1, stores 0 and wakes one thread. Every locked
    instruction, load and store is a step of its own, and so are a zutex wait and a zutex wake; threads lock and unlock
    in turn.

        free ──▶ locked ──▶ load ──▶ dec ──▶ (1) free └───▶ (2) store ──▶ wake ──▶ free -/

namespace Embassies.ZMutex

open Function

/-- `cmpxchg(ptr, old, new)`: what was there, and what is there now. -/
def cmpxchg (val old new : ℕ) : ℕ × ℕ := (val, if val = old then new else val)

/-- Where a thread is. -/
inductive Pc where
  | idle
  /-- in `zmutex_lock`: before the first `cmpxchg`, before the one that marks the mutex as contended, before the zutex
      wait, in it, and before the `cmpxchg` of the loop's condition -/
  | enter | mark | wait | asleep | retry
  /-- between lock and unlock -/
  | locked
  /-- in `zmutex_unlock`: in the loop of `atomic_dec`, before the store, and before the zutex wake -/
  | load | dec (oldVal : ℕ) | store | wake
  deriving DecidableEq, Repr

/-- The head of the loop in `zmutex_lock`: `c==2` spares the `cmpxchg`. -/
def contend (c : ℕ) : Pc := if c = 2 then .wait else .mark

/-- The next instruction of a thread, apart from the zutex wake: the word and where the thread is after it. -/
def instruction (val : ℕ) : Pc → Option (ℕ × Pc)
  | .idle => some (val, .enter)
  | .enter => let (c, val) := cmpxchg val 0 1; some (val, if c ≠ 0 then contend c else .locked)
  | .mark => let (c, val) := cmpxchg val 1 2; some (val, if c ≠ 0 then .wait else .retry)
  | .wait => some (val, if val = 2 then .asleep else .retry)
  | .asleep => none
  | .retry => let (c, val) := cmpxchg val 0 2; some (val, if c ≠ 0 then contend c else .locked)
  | .locked => some (val, .load)
  | .load => some (val, .dec val)
  | .dec oldVal =>
    let (replacedVal, val) := cmpxchg val oldVal (sub32 oldVal 1)
    some (val, if oldVal ≠ replacedVal then .load else if oldVal ≠ 1 then .store else .idle)
  | .store => some (0, .wake)
  | .wake => none

/-- The word and the threads. -/
structure State (T : Type) where
  val : ℕ
  pc : T → Pc

variable {T : Type}

/-- `zmutex_init`. -/
def State.init : State T := ⟨0, fun _ => .idle⟩

/-- One step of one thread. A zutex wake takes any one of the sleepers. -/
inductive Step [DecidableEq T] (s : State T) : State T → Prop
  | run (t : T) (val : ℕ) (pc : Pc) (h : instruction s.val (s.pc t) = some (val, pc)) :
      Step s ⟨val, update s.pc t pc⟩
  | wakeOne (t sleeper : T) (h : s.pc t = .wake) (hasleep : s.pc sleeper = .asleep) :
      Step s { s with pc := update (update s.pc sleeper .retry) t .idle }
  | wakeNobody (t : T) (h : s.pc t = .wake) (hnobody : ∀ t', s.pc t' ≠ .asleep) :
      Step s { s with pc := update s.pc t .idle }

namespace Pc

/-- The thread has the mutex. -/
def Owns : Pc → Prop
  | locked | load | dec _ | store => True
  | _ => False

/-- The thread is inside `zmutex_lock` or `zmutex_unlock`, and not asleep. -/
def Busy : Pc → Prop
  | idle | locked | asleep => False
  | _ => True

/-- The thread will wake a sleeper, or mark the mutex as contended. -/
def Attends : Pc → Prop
  | mark | retry | store | wake => True
  | _ => False

lemma Attends.busy {pc : Pc} (h : pc.Attends) : pc.Busy := by cases pc <;> trivial

end Pc

variable {s s' : State T} {val val' : ℕ} {pc' pc : Pc}

/-- The invariant: the word is zero if and only if nobody has the mutex; and when someone is asleep the word says so,
    or a thread is about to deal with it. -/
structure State.Inv (s : State T) : Prop where
  val_le : s.val ≤ 2
  free : s.val = 0 ↔ ∀ t, ¬(s.pc t).Owns
  unique : ∀ t t', (s.pc t).Owns → (s.pc t').Owns → t = t'
  attended : ∀ t, s.pc t = .asleep → s.val = 2 ∨ ∃ t', (s.pc t').Attends

lemma instruction_dec {oldVal : ℕ} (h : instruction val (.dec oldVal) = some (val', pc')) (hle : val ≤ 2)
    (hne : val ≠ 0) :
    (val' = val ∧ pc' = .load) ∨ (val = 1 ∧ val' = 0 ∧ pc' = .idle) ∨ val = 2 ∧ val' = 1 ∧ pc' = .store := by
  obtain ⟨rfl, rfl⟩ := Prod.mk.inj (Option.some.inj h)
  by_cases hold : oldVal = val
  · subst hold
    interval_cases oldVal
    · exact absurd rfl hne
    · exact .inr (.inl ⟨rfl, rfl, rfl⟩)
    · exact .inr (.inr ⟨rfl, rfl, rfl⟩)
  · exact .inl ⟨if_neg (Ne.symm hold), if_pos (by simpa [cmpxchg] using hold)⟩

lemma instruction_owns (h : instruction val pc = some (val', pc')) (hle : val ≤ 2) (howns : pc.Owns → val ≠ 0) :
    (val' = 0 ↔ val = 0) ∧ (pc'.Owns ↔ pc.Owns) ∨ val = 0 ∧ val' ≠ 0 ∧ pc'.Owns ∨ pc.Owns ∧ val' = 0 ∧ ¬pc'.Owns := by
  cases pc with
  | dec oldVal =>
    rcases instruction_dec h hle (howns trivial) with ⟨rfl, rfl⟩ | ⟨-, rfl, rfl⟩ | ⟨rfl, rfl, rfl⟩
    · exact .inl ⟨.rfl, .rfl⟩
    · exact .inr (.inr ⟨trivial, rfl, id⟩)
    · exact .inl ⟨by omega, .rfl⟩
  | _ =>
    interval_cases val <;> simp [instruction, cmpxchg, contend, Pc.Owns] at h howns <;> obtain ⟨rfl, rfl⟩ := h <;>
      simp [Pc.Owns]

lemma instruction_attends (h : instruction val pc = some (val', pc')) (hle : val ≤ 2) (howns : pc.Owns → val ≠ 0)
    : val' ≤ 2 ∧ (val = 2 ∨ pc.Attends → val' = 2 ∨ pc'.Attends) ∧ (pc' = .asleep → val' = 2) := by
  cases pc with
  | dec oldVal =>
    rcases instruction_dec h hle (howns trivial) with ⟨rfl, rfl⟩ | ⟨rfl, rfl, rfl⟩ | ⟨-, rfl, rfl⟩
    · exact ⟨hle, fun hA => .inl (hA.resolve_right id), nofun⟩
    · exact ⟨by omega, fun hA => absurd (hA.resolve_right id) (by omega), nofun⟩
    · exact ⟨by omega, fun _ => .inr trivial, nofun⟩
  | _ =>
    interval_cases val <;> simp [instruction, cmpxchg, contend] at h <;> obtain ⟨rfl, rfl⟩ := h <;> simp [Pc.Attends]

lemma State.Inv.same_owners (h : s.Inv) {pc : T → Pc} (howns : ∀ t, (pc t).Owns ↔ (s.pc t).Owns)
    (hval : val = 0 ↔ s.val = 0) : (val = 0 ↔ ∀ t, ¬(pc t).Owns) ∧ ∀ t t', (pc t).Owns → (pc t').Owns → t = t' := by
  simp only [howns, hval]
  exact ⟨h.free, h.unique⟩

variable [DecidableEq T]

lemma State.Inv.owners_run (h : s.Inv) {t : T} (hinstr : instruction s.val (s.pc t) = some (val, pc)) :
    (val = 0 ↔ ∀ t', ¬(update s.pc t pc t').Owns) ∧
      ∀ t1 t2, (update s.pc t pc t1).Owns → (update s.pc t pc t2).Owns → t1 = t2 := by
  have hself : update s.pc t pc t = pc := update_self ..
  have hother : ∀ t', t' ≠ t → update s.pc t pc t' = s.pc t' := fun t' hne => update_of_ne hne _ _
  have howned : (s.pc t).Owns → s.val ≠ 0 := fun ho hzero => h.free.mp hzero t ho
  rcases instruction_owns hinstr h.val_le howned with ⟨hval, howns⟩ | ⟨hzero, hval, howns⟩ | ⟨howns, hval, hnot⟩
  · refine h.same_owners (fun t' => ?_) hval
    rcases eq_or_ne t' t with rfl | hne
    · rwa [hself]
    · exact iff_of_eq (congrArg Pc.Owns (hother t' hne))
  · -- nobody had the mutex
    have honly : ∀ t', (update s.pc t pc t').Owns → t' = t := fun t' ho => by
      by_contra hne
      exact h.free.mp hzero t' (hother t' hne ▸ ho)
    exact ⟨iff_of_false hval fun hnobody => hnobody t (hself.symm ▸ howns), fun t1 t2 h1 h2 =>
      (honly t1 h1).trans (honly t2 h2).symm⟩
  · -- nobody but this thread had it
    have hnobody : ∀ t', ¬(update s.pc t pc t').Owns := fun t' ho => by
      rcases eq_or_ne t' t with rfl | hne
      · exact hnot (hself ▸ ho)
      · exact hne (h.unique t' t (hother t' hne ▸ ho) howns)
    exact ⟨iff_of_true hval hnobody, fun t1 _ h1 => absurd h1 (hnobody t1)⟩

/-- STEP: the invariant is kept. -/
lemma Step.inv (hstep : Step s s') (h : s.Inv) : s'.Inv := by
  cases hstep with
  | run t val pc hinstr =>
    obtain ⟨hle, hkept, hsleeps⟩ := instruction_attends hinstr h.val_le fun ho hzero => h.free.mp hzero t ho
    have hself : update s.pc t pc t = pc := update_self ..
    obtain ⟨hfree, hunique⟩ := h.owners_run hinstr
    refine ⟨hle, hfree, hunique, fun t' hasleep => ?_⟩
    -- it is this thread that has gone to sleep, or one that slept before
    rcases eq_or_ne t' t with rfl | hne
    · exact .inl (hsleeps (hself ▸ hasleep))
    · have hbefore : s.pc t' = .asleep := (update_of_ne hne _ _).symm.trans hasleep
      have hstill : s.val = 2 ∨ (s.pc t).Attends → val = 2 ∨ ∃ t'', (update s.pc t pc t'').Attends := fun hA =>
        (hkept hA).imp_right fun ha => ⟨t, hself.symm ▸ ha⟩
      rcases h.attended t' hbefore with htwo | ⟨t'', hattends⟩
      · exact hstill (.inl htwo)
      · rcases eq_or_ne t'' t with rfl | hne'
        · exact hstill (.inr hattends)
        · refine .inr ⟨t'', ?_⟩
          change (update s.pc t pc t'').Attends
          rwa [update_of_ne hne']
  | wakeOne t sleeper hwake hasleep =>
    have hne : sleeper ≠ t := fun heq => by
      rw [heq, hwake] at hasleep
      cases hasleep
    have hretry : update (update s.pc sleeper .retry) t .idle sleeper = .retry := by
      rw [update_of_ne hne, update_self]
    have howns : ∀ t', (update (update s.pc sleeper .retry) t .idle t').Owns ↔ (s.pc t').Owns := by
      intro t'
      rcases eq_or_ne t' t with rfl | hne'
      · simp only [update_self, hwake, Pc.Owns]
      rcases eq_or_ne t' sleeper with rfl | hne''
      · simp only [hretry, hasleep, Pc.Owns]
      · rw [update_of_ne hne', update_of_ne hne'']
    obtain ⟨hfree, hunique⟩ := h.same_owners howns .rfl
    refine ⟨h.val_le, hfree, hunique, fun _ _ => .inr ⟨sleeper, ?_⟩⟩
    change (update (update s.pc sleeper .retry) t .idle sleeper).Attends
    rw [hretry]
    trivial
  | wakeNobody t hwake hnobody =>
    have howns : ∀ t', (update s.pc t .idle t').Owns ↔ (s.pc t').Owns := by
      intro t'
      rcases eq_or_ne t' t with rfl | hne
      · simp only [update_self, hwake, Pc.Owns]
      · rw [update_of_ne hne]
    obtain ⟨hfree, hunique⟩ := h.same_owners howns .rfl
    refine ⟨h.val_le, hfree, hunique, fun t' hasleep => ?_⟩
    rcases eq_or_ne t' t with rfl | hne
    · exact absurd ((update_self ..).symm.trans hasleep) nofun
    · exact absurd ((update_of_ne hne _ _).symm.trans hasleep) (hnobody t')

omit [DecidableEq T] in
lemma State.inv_init : (State.init : State T).Inv :=
  ⟨Nat.zero_le _, iff_of_true rfl fun _ => id, fun _ _ h => absurd h id, nofun⟩

/-- RUN: in every state that is reached. -/
lemma inv_of_run (hrun : Relation.ReflTransGen Step State.init s) : s.Inv := by
  induction hrun with
  | refl => exact State.inv_init
  | tail _ hstep ih => exact hstep.inv ih

/-- LOST: the mutex is free and someone is asleep, but nobody is left to wake them. -/
def State.Lost (s : State T) : Prop := s.val = 0 ∧ (∃ t, s.pc t = .asleep) ∧ ∀ t, ¬(s.pc t).Busy

/-- MUTEX: whatever the threads do, one at most has the mutex, and no wakeup is lost. -/
theorem zmutex_correct (hrun : Relation.ReflTransGen Step State.init s) :
    (∀ t t', (s.pc t).Owns → (s.pc t').Owns → t = t') ∧ ¬s.Lost := by
  have h := inv_of_run hrun
  refine ⟨h.unique, ?_⟩
  rintro ⟨hzero, ⟨t, hasleep⟩, hnobody⟩
  rcases h.attended t hasleep with htwo | ⟨t', hattends⟩
  · omega
  · exact hnobody t' hattends.busy

/-- One thread has the mutex and another one goes to sleep for it. -/
lemma run_asleep : Relation.ReflTransGen Step (State.init : State Bool) ⟨2, fun t => if t then .locked else .asleep⟩ := by
  have hpc : ∀ {val : ℕ} {f : Bool → Pc} {a b : Pc}, f true = a → f false = b →
      (⟨val, f⟩ : State Bool) = ⟨val, fun t => if t then a else b⟩ := by
    rintro val f a b rfl rfl
    congr 1
    funext t
    cases t <;> rfl
  have h := (((((Relation.ReflTransGen.refl (r := Step) (a := (State.init : State Bool))).tail
    (.run true 0 .enter rfl)).tail (.run true 1 .locked rfl)).tail (.run false 1 .enter rfl)).tail
    (.run false 1 .mark rfl)).tail (.run false 2 .wait rfl)
  have hasleep := h.tail (.run false 2 .asleep rfl)
  rwa [hpc (a := .locked) (b := .asleep) rfl rfl] at hasleep

/-- The owner unlocks and wakes the sleeper, who then has the mutex. -/
theorem zmutex_correct_woken : ∃ s : State Bool, (s.pc false).Owns ∧ ¬(s.pc true).Owns ∧ ¬s.Lost := by
  have hwake := (((run_asleep.tail (.run true 2 .load rfl)).tail (.run true 2 (.dec 2) rfl)).tail
    (.run true 1 .store rfl)).tail (.run true 0 .wake rfl)
  have hlocked := (hwake.tail (.wakeOne true false rfl rfl)).tail (.run false 2 .locked rfl)
  have h := zmutex_correct hlocked
  refine ⟨_, ?_, ?_, h.2⟩
  · exact (trivial : Pc.Owns .locked)
  · exact (id : ¬Pc.Owns .idle)

end Embassies.ZMutex
