import Embassies.Lib.Zip
import Embassies.Sync.ZasSystem
import Mathlib.Data.Fintype.Basic
import Mathlib.Tactic.FinCases

/-! No lost wakeups, for threads that do not share what they wait on.

    A signal wakes one thread, and is not repeated while the object stays ready. So whoever is woken has to deal with the
    object: consume the signal, or take an entry and wake the next. A thread that waits on several objects may find
    another one ready first and leave. `Devoted` waits are those that cannot: on one event only, or in `zq_consume`. If
    threads that are asleep on a common object are devoted to it, then whenever an object is ready and a thread is asleep
    on it, some devoted thread is on its way to it (`InFlight`). -/

namespace Embassies.Sync

open List Function State

variable {E Q T α ρ : Type} {consumeMethod : Q → α → ρ → Bool × α} {s s' : State E Q T α ρ} {t : T} {o : Obj E Q}
  {w : Wait E Q ρ} {threads threads' : T → Thread E Q ρ}
variable {specs : List ℕ} {v : ℕ} {z : ZQueue α} {m : α → ρ → Bool × α} {request : ρ} {n : Option WakeCount}

/-- A wait that ends only by dealing with the object. -/
def Devoted : Wait E Q ρ → Obj E Q → Prop
  | .any zasses, .event e => zasses = [.event e]
  | .consume q _, .queue q' => q = q'
  | _, _ => False

lemma Devoted.array (h : Devoted w o) : w.array = [o] := by
  cases w with
  | any zasses =>
    cases o with
    | event e => exact h
    | queue q => exact h.elim
  | consume q request =>
    cases o with
    | event e => exact h.elim
    | queue q' => exact congrArg (fun q => [Obj.queue q]) h

/-- The object is a queue, or an event that a check resets. -/
def State.Guarded (s : State E Q T α ρ) : Obj E Q → Prop
  | .event e => (s.events e).autoReset = true
  | .queue _ => True

def Quiescent (s : State E Q T α ρ) : Prop := ∀ t, s.threads t = .finished ∨ ∃ w, s.threads t = .asleep w

/-- A thread is asleep on an auto-reset event that is signalled or on a queue that is not empty. -/
def LostWakeup (s : State E Q T α ρ) : Prop :=
  ∃ t w o, s.threads t = .asleep w ∧ o ∈ w.array ∧ s.Guarded o ∧ s.Ready o

/-- The condition on a step: the words do not wrap around, and a thread that goes to sleep on an object on which another
    is asleep is devoted to it, as that one is. -/
def Meets (s : State E Q T α ρ) (t : T) : Act E Q α ρ → Prop
  | .signal e => (s.events e).signal = false → (s.events e).seqZutex + 1 < 2 ^ 32
  | .insert q _ => (s.queues q).seqZutex + 1 < 2 ^ 32
  | .go => ∀ w, s.threads t = .checking w (w.array.map s.seq) → ∀ t' w' o, t' ≠ t → s.threads t' = .asleep w' →
      o ∈ w.array → o ∈ w'.array → Devoted w o ∧ Devoted w' o
  | _ => True

/-! ### What the objects do -/

lemma zeventCheck_seq (z : ZEvent) : (zeventCheck z).1.seqZutex = z.seqZutex := by
  unfold zeventCheck
  split
  · split <;> rfl
  · rfl

lemma zeventCheck_autoReset (z : ZEvent) : (zeventCheck z).1.autoReset = z.autoReset := by
  unfold zeventCheck
  split
  · split <;> rfl
  · rfl

lemma zeventCheck_signal {z : ZEvent} (h : (zeventCheck z).1.signal = true) : z.signal = true := by
  unfold zeventCheck at h
  split at h
  case isTrue hsignal => exact hsignal
  case isFalse hsignal => exact absurd h hsignal

lemma zeventCheck_resets {z : ZEvent} (hauto : z.autoReset = true) : (zeventCheck z).1.signal = false := by
  cases hsignal : z.signal <;> simp [zeventCheck, hsignal, hauto]

lemma zeventCheck_eq_some {z : ZEvent} (h : (zeventCheck z).2 = some v) : z.signal = false ∧ v = z.seqZutex := by
  unfold zeventCheck at h
  split at h
  case isTrue => cases h
  case isFalse hsignal =>
    cases h
    exact ⟨Bool.eq_false_iff.mpr hsignal, rfl⟩

lemma zqCheck_eq_some (h : zqCheck z = some v) : z.entries = [] ∧ v = z.seqZutex := by
  unfold zqCheck at h
  split at h
  case isTrue hempty =>
    cases h
    exact ⟨isEmpty_iff.mp hempty, rfl⟩
  case isFalse => cases h

/-- INVERSION of the section of `zq_consume`. -/
lemma zqTake_eq_some {z' : ZQueue α} (h : zqTake m z request = some (z', n)) :
    z.entries ≠ [] ∧ z'.seqZutex = z.seqZutex ∧ (z'.entries ≠ [] → n = some .one) := by
  unfold zqTake at h
  split at h
  case h_1 => cases h
  case h_2 zqe rest hentries =>
    cases h
    refine ⟨by rw [hentries]; exact cons_ne_nil _ _, rfl, fun hne => ?_⟩
    exact if_neg (fun hempty => hne (isEmpty_iff.mp hempty))

/-- The word of the object stays, and the object does not become ready. -/
def Calm (s s' : State E Q T α ρ) (o : Obj E Q) : Prop :=
  s'.seq o = s.seq o ∧ (s'.Ready o → s.Ready o) ∧ (s'.Guarded o → s.Guarded o)

namespace State

lemma check_eq_some {v : ℕ} (h : s.check o = some v) : ¬s.Ready o ∧ v = s.seq o := by
  cases o with
  | event e =>
    obtain ⟨hsignal, hv⟩ := zeventCheck_eq_some h
    exact ⟨fun hready => Bool.false_ne_true (hsignal.symm.trans hready), hv⟩
  | queue q =>
    obtain ⟨hempty, hv⟩ := zqCheck_eq_some h
    exact ⟨fun hready => hready hempty, hv⟩

lemma calm_same_event {e : E} (h : s'.events e = s.events e) : Calm s s' (.event e) := by
  rw [Calm, seq, seq, Ready, Ready, Guarded, Guarded, h]
  exact ⟨rfl, id, id⟩

lemma calm_same_queue {q : Q} (h : s'.queues q = s.queues q) : Calm s s' (.queue q) := by
  rw [Calm, seq, seq, Ready, Ready, h]
  exact ⟨rfl, id, id⟩

variable [DecidableEq E]

lemma calm_event {e : E} {z : ZEvent} (hevents : s'.events = update s.events e z) (hqueues : s'.queues = s.queues)
    (hseq : z.seqZutex = (s.events e).seqZutex)
    (hsignal : z.signal = true → (s.events e).signal = true) (hauto : z.autoReset = (s.events e).autoReset)
    (o : Obj E Q) : Calm s s' o := by
  cases o with
  | queue q => exact calm_same_queue (by rw [hqueues])
  | event e' =>
    by_cases heq : e' = e
    · subst heq
      rw [Calm, seq, seq, Ready, Ready, Guarded, Guarded, hevents, update_self]
      exact ⟨hseq, hsignal, fun h => hauto.symm.trans h⟩
    · exact calm_same_event (by rw [hevents, update_of_ne heq])

lemma calm_other_event {e : E} {z : ZEvent} (hevents : s'.events = update s.events e z) (hqueues : s'.queues = s.queues)
    (ho : o ≠ .event e) : Calm s s' o := by
  cases o with
  | queue q => exact calm_same_queue (by rw [hqueues])
  | event e' => exact calm_same_event (by rw [hevents, update_of_ne (fun heq => ho (congrArg Obj.event heq))])

omit [DecidableEq E] in
lemma calm_other_queue [DecidableEq Q] {q : Q} {z : ZQueue α} (hevents : s'.events = s.events)
    (hqueues : s'.queues = update s.queues q z) (ho : o ≠ .queue q) : Calm s s' o := by
  cases o with
  | event e => exact calm_same_event (by rw [hevents])
  | queue q' => exact calm_same_queue (by rw [hqueues, update_of_ne (fun heq => ho (congrArg Obj.queue heq))])

lemma checked_calm (s : State E Q T α ρ) (o1 o : Obj E Q) : Calm s (s.checked o1) o := by
  cases o1 with
  | queue q => exact ⟨rfl, id, id⟩
  | event e =>
    have hevents : (s.checked (.event e)).events = update s.events e (zeventCheck (s.events e)).1 := rfl
    exact calm_event hevents rfl (zeventCheck_seq _) zeventCheck_signal (zeventCheck_autoReset _) o

lemma checked_threads (s : State E Q T α ρ) (o : Obj E Q) : (s.checked o).threads = s.threads := by
  cases o <;> rfl

end State

/-! ### Wakes -/

namespace Wakes

variable [DecidableEq T] {n : Option WakeCount}

section

variable (h : Wakes o threads n threads')
include h

lemma same_or (t : T) : threads' t = threads t ∨ ∃ w, threads' t = .checking w [] := by
  cases h with
  | none => exact .inl rfl
  | nobody => exact .inl rfl
  | one t1 w1 h1 ho =>
    by_cases heq : t = t1
    · exact .inr ⟨w1, by rw [heq, update_self]⟩
    · exact .inl (update_of_ne heq _ _)
  | all _ hwoken hsame =>
    by_cases hon : ∃ w', threads t = .asleep w' ∧ o ∈ w'.array
    · obtain ⟨w', hw', ho⟩ := hon
      exact .inr ⟨w', hwoken t w' hw' ho⟩
    · exact .inl (hsame t fun w' hw' ho => hon ⟨w', hw', ho⟩)

lemma of_asleep (ht : threads' t = .asleep w) : threads t = .asleep w := by
  rcases h.same_or t with heq | ⟨w', hw'⟩
  · exact heq ▸ ht
  · cases hw'.symm.trans ht

lemma of_awake (ht : ∀ w, threads t ≠ .asleep w) : threads' t = threads t := by
  cases h with
  | none => rfl
  | nobody => rfl
  | one t1 w1 h1 ho =>
    refine update_of_ne ?_ _ _
    rintro rfl
    exact ht w1 h1
  | all _ hwoken hsame => exact hsame t fun w hw => absurd hw (ht w)

lemma of_checking {specs : List ℕ} (ht : threads' t = .checking w specs) :
    specs = [] ∨ threads t = .checking w specs := by
  rcases h.same_or t with heq | ⟨w', hw'⟩
  · exact .inr (heq ▸ ht)
  · cases hw'.symm.trans ht
    exact .inl rfl

end

end Wakes

/-! ### The invariant -/

/-- Threads that are asleep on one object are devoted to it. -/
def Shared (threads : T → Thread E Q ρ) : Prop :=
  ∀ t t' w w' o, t ≠ t' → threads t = .asleep w → threads t' = .asleep w' → o ∈ w.array → o ∈ w'.array →
    Devoted w o ∧ Devoted w' o

lemma Shared.mono (h : Shared threads) (hmono : ∀ t w, threads' t = .asleep w → threads t = .asleep w) :
    Shared threads' := fun t t' w w' o hne ht ht' => h t t' w w' o hne (hmono t w ht) (hmono t' w' ht')

lemma Wakes.devoted [DecidableEq T] {n : WakeCount} (h : Wakes o threads (some n) threads') (hshared : Shared threads)
    (ht : threads' t = .asleep w) (ho : o ∈ w.array) : ∃ t' w', threads' t' = .checking w' [] ∧ Devoted w' o := by
  have hbefore := h.of_asleep ht
  cases h with
  | nobody hnobody => exact absurd ho (hnobody t w hbefore)
  | one t1 w1 h1 ho1 =>
    have hne : t1 ≠ t := by
      rintro rfl
      rw [update_self] at ht
      cases ht
    exact ⟨t1, w1, update_self .., (hshared t1 t w1 w o hne h1 hbefore ho1 ho).1⟩
  | all _ hwoken hsame =>
    rw [hwoken t w hbefore ho] at ht
    cases ht

/-- The words that were noted are not those of now, or the object is not ready. -/
def Noted (s : State E Q T α ρ) (w : Wait E Q ρ) (specs : List ℕ) : Prop :=
  ∀ o v, (o, v) ∈ w.array.zip specs → v ≤ s.seq o ∧ (v = s.seq o → ¬s.Ready o)

/-- A devoted thread that will look at the object before it sleeps. -/
def InFlight (o : Obj E Q) (seq : ℕ) : Thread E Q ρ → Prop
  | .checking w specs => Devoted w o ∧ specs.head? ≠ some seq
  | .head q _ _ => o = .queue q
  | .taking q _ _ => o = .queue q
  | _ => False

/-- Nobody is asleep on the object, or someone is on the way to it. -/
def Served (s : State E Q T α ρ) (o : Obj E Q) : Prop :=
  s.Guarded o → s.Ready o → ∀ t w, s.threads t = .asleep w → o ∈ w.array →
    ∃ t', InFlight o (s.seq o) (s.threads t')

/-- The invariant. -/
structure Inv (s : State E Q T α ρ) : Prop where
  noted : ∀ t w specs, s.threads t = .checking w specs → Noted s w specs
  shared : Shared s.threads
  served : ∀ o, Served s o

lemma noted_nil (s : State E Q T α ρ) (w : Wait E Q ρ) : Noted s w [] := by
  intro o v h
  rw [zip_nil_right] at h
  cases h

lemma Noted.mono (h : Noted s w specs) (hseq : ∀ o, s.seq o ≤ s'.seq o)
    (hready : ∀ o, s'.seq o = s.seq o → s'.Ready o → s.Ready o) : Noted s' w specs := by
  intro o v hmem
  obtain ⟨hle, hnot⟩ := h o v hmem
  refine ⟨hle.trans (hseq o), fun heq hr => ?_⟩
  have hsame : s'.seq o = s.seq o := le_antisymm (heq ▸ hle) (hseq o)
  exact hnot (heq.trans hsame) (hready o hsame hr)

lemma Noted.concat (h : Noted s w specs) (ho : w.array[specs.length]? = some o) (hcheck : s.check o = some v) :
    Noted s w (specs ++ [v]) := by
  intro o' v' hmem
  rcases mem_zip_concat ho hmem with hold | hnew
  · exact h o' v' hold
  · cases hnew
    obtain ⟨hnot, rfl⟩ := check_eq_some hcheck
    exact ⟨le_rfl, fun _ => hnot⟩

lemma inv_init (autoReset : E → Bool) (seq : Q → ℕ) : Inv (init autoReset seq : State E Q T α ρ) := by
  refine ⟨fun t w specs h => ?_, fun t t' w w' o _ h => ?_, fun o _ _ t w h => ?_⟩
  · cases h
  · cases h
  · cases h

/-! ### Steps -/

lemma eq_of_devoted {o1 : Obj E Q} (hdevoted : Devoted w o) (ho : w.array[specs.length]? = some o1) : o1 = o := by
  rw [hdevoted.array] at ho
  exact mem_singleton.mp (mem_of_getElem? ho)

lemma Served.frame (h : Served s o) (hcalm : Calm s s' o)
    (hasleep : ∀ t w, s'.threads t = .asleep w → s.threads t = .asleep w)
    (hflight : ∀ t, s'.Guarded o → s'.Ready o → InFlight o (s.seq o) (s.threads t) →
      InFlight o (s.seq o) (s'.threads t)) : Served s' o := by
  intro hg hr t w ht ho
  obtain ⟨hseq, hready, hguarded⟩ := hcalm
  obtain ⟨t', ht'⟩ := h (hguarded hg) (hready hr) t w (hasleep t w ht) ho
  exact ⟨t', by rw [hseq]; exact hflight t' hg hr ht'⟩

section Steps

variable [DecidableEq T] {thread : Thread E Q ρ}

/-- LOCAL: a step that touches no word and makes nothing ready, of a thread that does not go to sleep. -/
lemma Inv.local (h : Inv s) (hthreads : s'.threads = update s.threads t thread) (hcalm : ∀ o, Calm s s' o)
    (hawake : ∀ w, thread ≠ .asleep w) (hnoted : ∀ w specs, thread = .checking w specs → Noted s w specs)
    (hflight : ∀ o, s'.Guarded o → s'.Ready o → InFlight o (s.seq o) (s.threads t) → InFlight o (s.seq o) thread) :
    Inv s' := by
  have hasleep : ∀ t' w, s'.threads t' = .asleep w → s.threads t' = .asleep w := by
    intro t' w ht'
    rw [hthreads] at ht'
    by_cases heq : t' = t
    · subst heq
      rw [update_self] at ht'
      exact absurd ht' (hawake w)
    · rwa [update_of_ne heq] at ht'
  refine ⟨fun t' w specs ht' => ?_, h.shared.mono hasleep, fun o => ?_⟩
  · refine Noted.mono ?_ (fun o => (hcalm o).1.ge) (fun o _ => (hcalm o).2.1)
    rw [hthreads] at ht'
    by_cases heq : t' = t
    · subst heq
      rw [update_self] at ht'
      exact hnoted w specs ht'
    · rw [update_of_ne heq] at ht'
      exact h.noted t' w specs ht'
  · refine (h.served o).frame (hcalm o) hasleep fun t' hg hr hin => ?_
    rw [hthreads]
    by_cases heq : t' = t
    · subst heq
      rw [update_self]
      exact hflight o hg hr hin
    · rw [update_of_ne heq]
      exact hin

/-- RAISE: a step of an idle thread that counts up one word and wakes. -/
lemma Inv.raise (h : Inv s) {o1 : Obj E Q} {n : Option WakeCount} (hwakes : Wakes o1 s.threads n s'.threads)
    (hframe : ∀ o, o ≠ o1 → Calm s s' o) (hseq : s'.seq o1 = s.seq o1 + 1) (hserved : Served s' o1) : Inv s' := by
  refine ⟨fun t w specs ht => ?_, h.shared.mono fun t w => hwakes.of_asleep, fun o => ?_⟩
  · rcases hwakes.of_checking ht with rfl | hbefore
    · exact noted_nil s' w
    · refine (h.noted t w specs hbefore).mono (fun o => ?_) (fun o heq => ?_)
      · by_cases ho : o = o1
        · rw [ho, hseq]
          exact Nat.le_succ _
        · exact (hframe o ho).1.ge
      · refine (hframe o ?_).2.1
        rintro rfl
        omega
  · by_cases ho : o = o1
    · exact ho ▸ hserved
    · refine (h.served o).frame (hframe o ho) (fun t w => hwakes.of_asleep) fun t _ _ hin => ?_
      rwa [hwakes.of_awake]
      intro w hw
      rw [hw] at hin
      exact hin

omit [DecidableEq T] in
lemma InFlight.succ (h : InFlight o (s.seq o) thread) (hnoted : ∀ w specs, thread = .checking w specs → Noted s w specs)
    : InFlight o (s.seq o + 1) thread := by
  cases thread with
  | checking w specs =>
    refine ⟨h.1, fun hhead => ?_⟩
    cases specs with
    | nil => cases hhead
    | cons v specs =>
      have hmem : (o, v) ∈ w.array.zip (v :: specs) := by
        rw [h.1.array, zip_cons_cons]
        exact mem_cons_self
      have hle := (hnoted w _ rfl o v hmem).1
      have hv : v = s.seq o + 1 := Option.some.inj hhead
      omega
  | idle => exact h
  | finished => exact h
  | asleep w => exact h
  | head q request block => exact h
  | taking q request block => exact h

lemma Wakes.served {n : WakeCount} (h : Wakes o threads (some n) threads') (hshared : Shared threads) (seq : ℕ)
    (ht : threads' t = .asleep w) (ho : o ∈ w.array) : ∃ t', InFlight o seq (threads' t') := by
  obtain ⟨t', w', ht', hdevoted⟩ := h.devoted hshared ht ho
  exact ⟨t', by rw [ht']; exact ⟨hdevoted, by rintro ⟨⟩⟩⟩

end Steps

variable [DecidableEq T]

lemma Inv.signal [DecidableEq E] (h : Inv s) {e : E} (hwrap : (s.events e).signal = false → (s.events e).seqZutex + 1 < 2 ^ 32)
    (hwakes : Wakes (.event e) s.threads (zeventSignal (s.events e)).2 threads) :
    Inv { s with events := update s.events e (zeventSignal (s.events e)).1, threads := threads } := by
  cases hsignal : (s.events e).signal with
  | true =>
    have hskip : zeventSignal (s.events e) = (s.events e, none) := by
      rw [zeventSignal, if_pos hsignal]
    rw [hskip] at hwakes ⊢
    cases hwakes
    rwa [update_eq_self]
  | false =>
    have hraise : zeventSignal (s.events e) = ({ s.events e with
        signal := true, seqZutex := (s.events e).seqZutex + 1 }, some (if (s.events e).autoReset then .one else .all)) := by
      rw [zeventSignal, if_neg (by rw [hsignal]; exact Bool.false_ne_true), u32_of_lt (hwrap hsignal)]
    rw [hraise] at hwakes ⊢
    refine h.raise hwakes (fun o ho => calm_other_event rfl rfl ho) ?_ fun hg _ t w ht hmem => ?_
    · simp only [seq, update_self]
    · exact hwakes.served h.shared _ ht hmem

lemma Inv.insert [DecidableEq Q] (h : Inv s) {q : Q} {x : α} (hwrap : (s.queues q).seqZutex + 1 < 2 ^ 32)
    (hwakes : Wakes (.queue q) s.threads (zqInsert (s.queues q) x).2 threads) :
    Inv { s with queues := update s.queues q (zqInsert (s.queues q) x).1, threads := threads } := by
  have hseq : (zqInsert (s.queues q) x).1.seqZutex = (s.queues q).seqZutex + 1 := u32_of_lt hwrap
  refine h.raise hwakes (fun o ho => calm_other_queue rfl rfl ho) ?_ fun _ _ t w ht hmem => ?_
  · simp only [seq, update_self, hseq]
  · by_cases hempty : (s.queues q).entries = []
    · have hone : (zqInsert (s.queues q) x).2 = some .one := if_pos (isEmpty_iff.mpr hempty)
      rw [hone] at hwakes
      exact hwakes.served h.shared _ ht hmem
    · have hnone : (zqInsert (s.queues q) x).2 = none := if_neg fun h => hempty (isEmpty_iff.mp h)
      rw [hnone] at hwakes
      cases hwakes
      obtain ⟨t', ht'⟩ := h.served (.queue q) trivial hempty t w ht hmem
      refine ⟨t', ?_⟩
      simp only [seq, update_self, hseq]
      exact InFlight.succ ht' (h.noted t')

/-- Whoever takes an entry wakes the next, if there is another. -/
lemma Inv.take [DecidableEq Q] (h : Inv s) {q : Q} {block : Bool} (ht : s.threads t = .taking q request block)
    (htake : zqTake m (s.queues q) request = some (z, n)) (hwakes : Wakes (.queue q) s.threads n threads) :
    Inv { s with queues := update s.queues q z, threads := update threads t .idle } := by
  obtain ⟨hne, hseq, hwake⟩ := zqTake_eq_some htake
  have htaking : threads t = .taking q request block := by
    rw [hwakes.of_awake (by rw [ht]; rintro w ⟨⟩), ht]
  have hasleep : ∀ t' w, update threads t .idle t' = .asleep w → threads t' = .asleep w ∧ t' ≠ t := by
    intro t' w ht'
    by_cases heq : t' = t
    · subst heq
      rw [update_self] at ht'
      cases ht'
    · rw [update_of_ne heq] at ht'
      exact ⟨ht', heq⟩
  have hcalm : ∀ o, Calm s { s with
      queues := update s.queues q z, threads := update threads t .idle } o := by
    intro o
    by_cases ho : o = .queue q
    · subst ho
      simp only [Calm, seq, State.Ready, State.Guarded, update_self]
      exact ⟨hseq, fun _ => hne, id⟩
    · exact calm_other_queue rfl rfl ho
  refine ⟨fun t' w specs ht' => ?_, h.shared.mono fun t' w ht' => hwakes.of_asleep (hasleep t' w ht').1, fun o => ?_⟩
  · dsimp only at ht'
    have hchecking : threads t' = .checking w specs := by
      by_cases heq : t' = t
      · subst heq
        rw [update_self] at ht'
        cases ht'
      · rwa [update_of_ne heq] at ht'
    rcases hwakes.of_checking hchecking with rfl | hbefore
    · exact noted_nil _ w
    · exact (h.noted t' w specs hbefore).mono (fun o => (hcalm o).1.ge) (fun o _ => (hcalm o).2.1)
  · by_cases ho : o = .queue q
    · subst ho
      intro _ hready t' w ht' hmem
      simp only [State.Ready, update_self] at hready
      rw [hwake hready] at hwakes
      obtain ⟨t'', w'', ht'', hdevoted⟩ := hwakes.devoted h.shared (hasleep t' w ht').1 hmem
      have hother : t'' ≠ t := by
        rintro rfl
        rw [htaking] at ht''
        cases ht''
      refine ⟨t'', ?_⟩
      dsimp only
      rw [update_of_ne hother, ht'']
      exact ⟨hdevoted, by rintro ⟨⟩⟩
    · refine (h.served o).frame (hcalm o) (fun t' w ht' => hwakes.of_asleep (hasleep t' w ht').1) fun t' _ _ hin => ?_
      have hother : t' ≠ t := by
        rintro rfl
        rw [ht] at hin
        exact ho hin
      dsimp only
      rw [update_of_ne hother, hwakes.of_awake]
      · exact hin
      · intro w hw
        rw [hw] at hin
        exact hin

/-- A thread goes to sleep on objects that are not ready, and that it shares as it may. -/
lemma Inv.sleep (h : Inv s) (ht : s.threads t = .checking w (w.array.map s.seq))
    (hmeets : ∀ t' w' o, t' ≠ t → s.threads t' = .asleep w' → o ∈ w.array → o ∈ w'.array → Devoted w o ∧ Devoted w' o) :
    Inv (s.setThread t (.asleep w)) := by
  have hasleep : ∀ t' w', (s.setThread t (.asleep w)).threads t' = .asleep w' →
      t' = t ∧ w' = w ∨ t' ≠ t ∧ s.threads t' = .asleep w' := by
    intro t' w' ht'
    by_cases heq : t' = t
    · subst heq
      simp only [setThread, update_self] at ht'
      cases ht'
      exact .inl ⟨rfl, rfl⟩
    · simp only [setThread, update_of_ne heq] at ht'
      exact .inr ⟨heq, ht'⟩
  have hnot : ∀ o ∈ w.array, ¬s.Ready o := fun o ho => (h.noted t w _ ht o (s.seq o) (mem_zip_map ho)).2 rfl
  refine ⟨fun t' w' specs ht' => ?_, fun t1 t2 w1 w2 o hne h1 h2 ho1 ho2 => ?_, fun o hg hr t' w' ht' ho => ?_⟩
  · have hother : t' ≠ t := by
      rintro rfl
      simp only [setThread, update_self] at ht'
      cases ht'
    simp only [setThread, update_of_ne hother] at ht'
    exact h.noted t' w' specs ht'
  · rcases hasleep t1 w1 h1 with ⟨rfl, rfl⟩ | ⟨hn1, hs1⟩ <;> rcases hasleep t2 w2 h2 with ⟨rfl, rfl⟩ | ⟨hn2, hs2⟩
    · exact absurd rfl hne
    · exact hmeets t2 w2 o hn2 hs2 ho1 ho2
    · exact (hmeets t1 w1 o hn1 hs1 ho2 ho1).symm
    · exact h.shared t1 t2 w1 w2 o hne hs1 hs2 ho1 ho2
  · rcases hasleep t' w' ht' with ⟨rfl, rfl⟩ | ⟨hother, ht'⟩
    · exact absurd hr (hnot o ho)
    · obtain ⟨t'', hin⟩ := h.served o hg hr t' w' ht' ho
      have hne : t'' ≠ t := by
        rintro rfl
        rw [ht] at hin
        refine hin.2 ?_
        rw [hin.1.array]
        rfl
      refine ⟨t'', ?_⟩
      simp only [setThread, update_of_ne hne]
      exact hin

omit [DecidableEq T] in
lemma InFlight.after [DecidableEq E] {seq : ℕ} (h : InFlight o seq (.checking w specs)) (hg : (s.checked o).Guarded o)
    (hr : (s.checked o).Ready o) : InFlight o seq w.after := by
  cases w with
  | any zasses =>
    cases o with
    | event e =>
      simp only [checked, State.Guarded, State.Ready, update_self] at hg hr
      rw [zeventCheck_autoReset] at hg
      exact absurd hr (Bool.eq_false_iff.mp (zeventCheck_resets hg))
    | queue q => exact h.1.elim
  | consume q request =>
    cases o with
    | event e => exact h.1.elim
    | queue q' => exact congrArg Obj.queue (Eq.symm h.1)

variable [DecidableEq E] [DecidableEq Q]

/-- STEP: a step that meets the condition keeps the invariant. -/
lemma Inv.step {a : Act E Q α ρ} (h : Inv s) (hmeets : Meets s t a) (hstep : Step consumeMethod s t a s') : Inv s' := by
  have hquiet : ∀ o, Calm s s o := fun o => ⟨rfl, id, id⟩
  cases hstep with
  | wait zasses ht =>
    refine h.local rfl hquiet (by rintro w ⟨⟩) ?_ fun o _ _ hin => ?_
    · rintro w specs ⟨⟩
      exact noted_nil s _
    · rw [ht] at hin
      exact hin.elim
  | consume q request block ht =>
    refine h.local rfl hquiet (by rintro w ⟨⟩) (by rintro w specs ⟨⟩) fun o _ _ hin => ?_
    rw [ht] at hin
    exact hin.elim
  | finish ht =>
    refine h.local rfl hquiet (by rintro w ⟨⟩) (by rintro w specs ⟨⟩) fun o _ _ hin => ?_
    rw [ht] at hin
    exact hin.elim
  | signal e threads ht hwakes => exact h.signal hmeets hwakes
  | reset e ht =>
    refine h.local (update_eq_self t s.threads).symm ?_ ?_ (h.noted t) fun o _ _ hin => hin
    · exact calm_event rfl rfl rfl (by rintro ⟨⟩) rfl
    · rw [ht]
      rintro w ⟨⟩
  | insert q x threads ht hwakes => exact h.insert hmeets hwakes
  | ready w specs o1 ht ho1 hcheck =>
    refine h.local (by rw [setThread, checked_threads]) (s.checked_calm o1) ?_ ?_ fun o hg hr hin => ?_
    · cases w <;> rintro w' ⟨⟩
    · cases w <;> rintro w' specs' ⟨⟩
    · rw [ht] at hin
      obtain rfl := eq_of_devoted hin.1 ho1
      exact hin.after hg hr
  | notReady w specs o1 v ht ho1 hcheck =>
    refine h.local (by rw [setThread, checked_threads]) (s.checked_calm o1) (by rintro w' ⟨⟩) ?_ fun o _ hr hin => ?_
    · rintro w' specs' ⟨⟩
      exact (h.noted t w specs ht).concat ho1 hcheck
    · rw [ht] at hin
      obtain rfl := eq_of_devoted hin.1 ho1
      exact absurd ((s.checked_calm o1 o1).2.1 hr) (check_eq_some hcheck).1
  | sleep w ht => exact h.sleep ht (hmeets w ht)
  | stale w specs ht hlen hne =>
    refine h.local rfl hquiet (by rintro w' ⟨⟩) ?_ fun o _ _ hin => ?_
    · rintro w' specs' ⟨⟩
      exact noted_nil s w
    · rw [ht] at hin
      exact ⟨hin.1, by rintro ⟨⟩⟩
  | headReady q request block ht hcheck =>
    refine h.local rfl hquiet (by rintro w ⟨⟩) (by rintro w specs ⟨⟩) fun o _ _ hin => ?_
    rw [ht] at hin
    exact hin
  | headEmpty q request block v ht hcheck =>
    refine h.local rfl hquiet ?_ ?_ fun o _ hr hin => ?_
    · cases block <;> rintro w ⟨⟩
    · cases block
      · rintro w specs ⟨⟩
      · rintro w specs ⟨⟩
        exact noted_nil s _
    · rw [ht] at hin
      obtain rfl : o = .queue q := hin
      exact absurd (zqCheck_eq_some hcheck).1 hr
  | takeNone q request block ht htake =>
    refine h.local rfl hquiet (by rintro w ⟨⟩) (by rintro w specs ⟨⟩) fun o _ _ hin => ?_
    rw [ht] at hin
    exact hin
  | take q request block z n threads ht htake hwakes => exact h.take ht htake hwakes

def Permitted (consumeMethod : Q → α → ρ → Bool × α) (s s' : State E Q T α ρ) : Prop :=
  ∃ t a, Step consumeMethod s t a s' ∧ Meets s t a

/-- RUN: the invariant holds in every state that a run of such steps reaches. -/
lemma inv_of_run {autoReset : E → Bool} {seq : Q → ℕ}
    (hrun : Relation.ReflTransGen (Permitted consumeMethod) (init autoReset seq) s) : Inv s := by
  induction hrun with
  | refl => exact inv_init autoReset seq
  | tail _ hstep ih =>
    obtain ⟨t, a, hstep, hmeets⟩ := hstep
    exact ih.step hmeets hstep

/-- WAKEUPS: in a run whose steps meet the condition, no wakeup is lost. -/
theorem not_lostWakeup {autoReset : E → Bool} {seq : Q → ℕ}
    (hrun : Relation.ReflTransGen (Permitted consumeMethod) (State.init autoReset seq) s) (hquiescent : Quiescent s) :
    ¬LostWakeup s := by
  rintro ⟨t, w, o, ht, ho, hguarded, hready⟩
  obtain ⟨t', hin⟩ := (inv_of_run hrun).served o hguarded hready t w ht ho
  -- whoever is on the way is neither finished nor asleep
  rcases hquiescent t' with hfinished | ⟨w', hasleep⟩
  · rw [hfinished] at hin
    exact hin
  · rw [hasleep] at hin
    exact hin

/-! ### Two waiters -/

/-- Two auto-reset events and three threads. -/
abbrev Pair := State (Fin 2) (Fin 0) (Fin 3) Unit Unit

/-- A method that is never called: there is no queue. -/
def noMethod : Fin 0 → Unit → Unit → Bool × Unit := fun _ _ _ => (true, ())

/-- Where all is before the first call. -/
def pairInit : Pair := State.init (fun _ => true) (fun _ => 9)

lemma quiescent_pair {s : Pair} (h0 : s.threads 0 = .finished) (h1 : s.threads 1 = .asleep (.any [.event 0]))
    (h2 : s.threads 2 = .finished) : Quiescent s := by
  intro t
  fin_cases t
  · exact .inl h0
  · exact .inr ⟨_, h1⟩
  · exact .inl h2

/-- Two threads wait on one event; a signal wakes the first, which consumes it, and the second sleeps on. -/
theorem not_lostWakeup_pair : ∃ s : Pair, Relation.ReflTransGen (Permitted noMethod) pairInit s ∧ Quiescent s ∧
    s.threads 1 = .asleep (.any [.event 0]) ∧ ¬LostWakeup s := by
  have hrun := Relation.ReflTransGen.refl (r := Permitted noMethod) (a := pairInit)
  have hrun := hrun.tail ⟨0, _, .wait [.event 0] rfl, trivial⟩
  have hrun := hrun.tail ⟨0, _, .notReady (.any [.event 0]) [] (.event 0) 0 rfl rfl rfl, by rintro w ⟨⟩⟩
  have hrun := hrun.tail ⟨0, _, .sleep (.any [.event 0]) rfl, by
    rintro w - t' w' o hne ht'
    fin_cases t' <;> cases ht'⟩
  have hrun := hrun.tail ⟨1, _, .wait [.event 0] rfl, trivial⟩
  have hrun := hrun.tail ⟨1, _, .notReady (.any [.event 0]) [] (.event 0) 0 rfl rfl rfl, by rintro w ⟨⟩⟩
  have hrun := hrun.tail ⟨1, _, .sleep (.any [.event 0]) rfl, by
    rintro w ⟨⟩ t' w' o hne ht' ho ho'
    obtain rfl := mem_singleton.mp ho
    fin_cases t'
    · cases ht'
      exact ⟨rfl, rfl⟩
    · exact absurd rfl hne
    · cases ht'⟩
  have hrun := hrun.tail ⟨2, _, .signal 0 _ rfl (.one 0 (.any [.event 0]) rfl (mem_singleton_self _)), by
    intro _
    decide⟩
  have hrun := hrun.tail ⟨0, _, .ready (.any [.event 0]) [] (.event 0) rfl rfl rfl, by rintro w ⟨⟩⟩
  have hrun := hrun.tail ⟨0, _, .finish rfl, trivial⟩
  have hrun := hrun.tail ⟨2, _, .finish rfl, trivial⟩
  exact ⟨_, hrun, quiescent_pair rfl rfl rfl, rfl, not_lostWakeup hrun (quiescent_pair rfl rfl rfl)⟩

/-- LOST: the first thread waits on events 1 and 0, the second on event 0. A signal of event 0 wakes the first, which
    then finds event 1 signalled and leaves. Event 0 stays signalled, and the second thread asleep. -/
theorem lostWakeup_pair : ¬∀ (E Q T α ρ : Type) (_ : DecidableEq E) (_ : DecidableEq Q) (_ : DecidableEq T)
      (consumeMethod : Q → α → ρ → Bool × α) (autoReset : E → Bool) (seq : Q → ℕ) (s : State E Q T α ρ),
      Relation.ReflTransGen (fun s s' => ∃ t a, Step consumeMethod s t a s') (State.init autoReset seq) s →
      Quiescent s → ¬LostWakeup s := by
  intro hclaim
  have hrun := Relation.ReflTransGen.refl (r := fun s s' => ∃ t a, Step noMethod s t a s') (a := pairInit)
  have hrun := hrun.tail ⟨0, _, .wait [.event 1, .event 0] rfl⟩
  have hrun := hrun.tail ⟨0, _, .notReady (.any [.event 1, .event 0]) [] (.event 1) 0 rfl rfl rfl⟩
  have hrun := hrun.tail ⟨0, _, .notReady (.any [.event 1, .event 0]) [0] (.event 0) 0 rfl rfl rfl⟩
  have hrun := hrun.tail ⟨0, _, .sleep (.any [.event 1, .event 0]) rfl⟩
  have hrun := hrun.tail ⟨1, _, .wait [.event 0] rfl⟩
  have hrun := hrun.tail ⟨1, _, .notReady (.any [.event 0]) [] (.event 0) 0 rfl rfl rfl⟩
  have hrun := hrun.tail ⟨1, _, .sleep (.any [.event 0]) rfl⟩
  have hrun := hrun.tail ⟨2, _, .signal 0 _ rfl (.one 0 (.any [.event 1, .event 0]) rfl (by simp [Wait.array]))⟩
  have hrun := hrun.tail ⟨2, _, .signal 1 _ rfl (.nobody (by
    intro t w ht
    fin_cases t
    · cases ht
    · cases ht
      simp [Wait.array]
    · cases ht))⟩
  have hrun := hrun.tail ⟨0, _, .ready (.any [.event 1, .event 0]) [] (.event 1) rfl rfl rfl⟩
  have hrun := hrun.tail ⟨0, _, .finish rfl⟩
  have hrun := hrun.tail ⟨2, _, .finish rfl⟩
  exact hclaim _ _ _ _ _ _ _ _ _ _ _ _ hrun (quiescent_pair rfl rfl rfl)
    ⟨1, .any [.event 0], .event 0, rfl, mem_singleton_self _, rfl, rfl⟩

end Embassies.Sync
