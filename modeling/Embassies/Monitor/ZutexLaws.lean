import Embassies.Monitor.ZutexTable
import Mathlib.Data.List.Dedup
import Mathlib.Data.List.Count

/-! Waiters and queues refer to each other.

    `Orderly` is the invariant of the table: a waiter is in a queue as often as the queue is in the waiter's list, which
    is at most once, and no queue is empty. `Waking` is what holds while the victims of a wake are taken out of their
    other queues: a victim has left the queue being woken but has it in its list still. -/

namespace Embassies.Monitor

open Checked List Function

variable {W : Type} [DecidableEq W]

namespace ZutexTable

variable {s s' : ZutexTable W} {zq : ℕ}

/-- The waiters in the queue of a handle. -/
def queue (s : ZutexTable W) (q : ℕ) : List W := (s.table q).getD []

/-- The invariant of the table. -/
structure Orderly (s : ZutexTable W) : Prop where
  counts : ∀ w q, (s.queue q).count w = (s.zqList w).count q
  nonempty : ∀ q ws, s.table q = some ws → ws ≠ []
  nodup : ∀ w, (s.zqList w).Nodup
  awake : ∀ w, s.asleep w = false → s.zqList w = []

lemma orderly_empty : Orderly (empty : ZutexTable W) :=
  ⟨fun _ _ => rfl, by rintro _ _ ⟨⟩, fun _ => nodup_nil, fun _ _ => rfl⟩

lemma Orderly.queue_nodup (h : Orderly s) (q : ℕ) : (s.queue q).Nodup := by
  refine nodup_iff_count_le_one.mpr ?_
  intro w
  rw [h.counts w q]
  exact nodup_iff_count_le_one.mp (h.nodup w) q

/-! ### Waiting -/

lemma queue_enqueue (s : ZutexTable W) (w : W) (z q : ℕ) :
    (s.enqueue w z).queue q = if q = z then s.queue q ++ [w] else s.queue q := by
  by_cases hq : q = z
  · subst hq
    simp [queue, enqueue]
  · simp [queue, enqueue, hq]

lemma zqList_enqueue (s : ZutexTable W) (w w' : W) (z : ℕ) :
    (s.enqueue w z).zqList w' = if w' = w then s.zqList w' ++ [z] else s.zqList w' := by
  by_cases hw : w' = w
  · subst hw
    simp [enqueue]
  · simp [enqueue, hw]

/-- What queueing a waiter for a list of zutexes does. -/
structure Enqueued (s s' : ZutexTable W) (w : W) (zs : List ℕ) : Prop where
  counts : ∀ w' q, (s'.queue q).count w' = (s'.zqList w').count q
  nonempty : ∀ q ws, s'.table q = some ws → ws ≠ []
  own : s'.zqList w = s.zqList w ++ zs
  others : ∀ w', w' ≠ w → s'.zqList w' = s.zqList w'
  asleep : s'.asleep = s.asleep

lemma enqueued_foldl (w : W) (specs : List ZutexWaitSpec) : ∀ {s : ZutexTable W},
    (∀ w' q, (s.queue q).count w' = (s.zqList w').count q) → (∀ q ws, s.table q = some ws → ws ≠ []) →
    Enqueued s (specs.foldl (fun s spec => s.enqueue w spec.zutex) s) w (specs.map (·.zutex)) := by
  induction specs with
  | nil =>
    intro s hcounts hnonempty
    exact ⟨hcounts, hnonempty, by simp, fun _ _ => rfl, rfl⟩
  | cons spec specs ih =>
    intro s hcounts hnonempty
    have hcounts' : ∀ w' q, ((s.enqueue w spec.zutex).queue q).count w' =
        ((s.enqueue w spec.zutex).zqList w').count q := by
      intro w' q
      have hold := hcounts w' q
      rw [queue_enqueue, zqList_enqueue]
      by_cases hq : q = spec.zutex
      · subst hq
        by_cases hw : w' = w
        · subst hw
          rw [if_pos rfl, if_pos rfl, count_append, count_append, hold, count_singleton_self, count_singleton_self]
        · have hnot : w' ∉ [w] := fun hmem => hw (mem_singleton.mp hmem)
          rw [if_pos rfl, if_neg hw, count_append, count_eq_zero.mpr hnot, hold, Nat.add_zero]
      · have hnot : q ∉ [spec.zutex] := fun hmem => hq (mem_singleton.mp hmem)
        rw [if_neg hq]
        by_cases hw : w' = w
        · rw [if_pos hw, count_append, count_eq_zero.mpr hnot, hold, Nat.add_zero]
        · rw [if_neg hw, hold]
    have hnonempty' : ∀ q ws, (s.enqueue w spec.zutex).table q = some ws → ws ≠ [] := by
      intro q ws hq
      by_cases heq : q = spec.zutex
      · subst heq
        simp only [enqueue, update_self, Option.some.injEq] at hq
        rw [← hq]
        exact append_ne_nil_of_right_ne_nil _ (cons_ne_nil _ _)
      · simp only [enqueue, update_of_ne heq] at hq
        exact hnonempty q ws hq
    have hrest := ih hcounts' hnonempty'
    refine ⟨hrest.counts, hrest.nonempty, ?_, ?_, ?_⟩
    · rw [foldl_cons, hrest.own, zqList_enqueue, if_pos rfl, append_assoc]
      rfl
    · intro w' hw
      rw [foldl_cons, hrest.others w' hw, zqList_enqueue, if_neg hw]
    · rw [foldl_cons, hrest.asleep]
      rfl

/-- WAIT: a wait whose zutexes are distinct leaves the table in order. -/
lemma Orderly.wait (h : Orderly s) {w : W} {memory : ℕ → Option ℕ} {specs : List ZutexWaitSpec}
    (hdistinct : s.asleep w = false → allMatch memory specs = true → (specs.map (·.zutex)).Nodup) :
    Orderly (s.wait w memory specs) := by
  rw [ZutexTable.wait]
  split
  case isTrue => exact h
  case isFalse hawake =>
    split
    case isTrue => exact h
    case isFalse hmatch =>
      have hawake : s.asleep w = false := Bool.eq_false_iff.mpr hawake
      have hdone := enqueued_foldl w specs h.counts h.nonempty
      have hnodup := hdistinct hawake (Bool.not_eq_false _ ▸ hmatch)
      refine ⟨hdone.counts, hdone.nonempty, ?_, ?_⟩
      · intro w'
        by_cases hw : w' = w
        · subst hw
          simp only [hdone.own, h.awake w' hawake, nil_append]
          exact hnodup
        · simp only [hdone.others w' hw]
          exact h.nodup w'
      · intro w' hw'
        by_cases hw : w' = w
        · subst hw
          simp at hw'
        · simp only [update_of_ne hw, hdone.asleep] at hw'
          simp only [hdone.others w' hw]
          exact h.awake w' hw'

/-! ### Waking -/

/-- LEAVE: a waiter that is in the queues of its list leaves all of them but the one being woken. -/
lemma leaveQueues_ok (w : W) (L : List ℕ) : ∀ {table : ℕ → Option (List W)} {E : List ℕ}, L.Nodup →
    E.Nodup → (∀ q ∈ L, ∃ ws, table q = some ws ∧ (q ≠ zq → w ∈ ws)) →
    ∃ table' E', leaveQueues zq w L table E = .ok (table', E') ∧ E'.Nodup ∧
      (∀ q, table' q = if q ∈ L ∧ q ≠ zq then (table q).map (·.erase w) else table q) ∧
      (∀ q, q ∈ E' ↔ q ∈ E ∨ (q ∈ L ∧ table' q = some [])) := by
  induction L with
  | nil =>
    intro table E _ hE _
    exact ⟨table, E, rfl, hE, by simp, by simp⟩
  | cons wq L ih =>
    intro table E hL hE hin
    obtain ⟨hfresh, hL⟩ := nodup_cons.mp hL
    obtain ⟨ws, hws, hmem⟩ := hin wq mem_cons_self
    -- the queue of this round, with the waiter gone
    obtain ⟨ws', hws', hremove⟩ : ∃ ws', leaveQueue zq wq ws w = .ok ws' ∧
        ws' = if wq ≠ zq then ws.erase w else ws := by
      rw [leaveQueue]
      by_cases hne : wq ≠ zq
      · exact ⟨ws.erase w, by rw [if_pos hne, queueRemove, if_pos (hmem hne)], (if_pos hne).symm⟩
      · exact ⟨ws, by rw [if_neg hne]; rfl, (if_neg hne).symm⟩
    let E1 := if ws'.isEmpty = true then if wq ∈ E then E else E ++ [wq] else E
    have hE1 : E1.Nodup ∧ ∀ q, q ∈ E1 ↔ q ∈ E ∨ (q = wq ∧ ws' = []) := by
      simp only [E1]
      by_cases hempty : ws'.isEmpty = true
      · by_cases hwq : wq ∈ E
        · rw [if_pos hempty, if_pos hwq]
          refine ⟨hE, fun q => ⟨.inl, ?_⟩⟩
          rintro (hq | ⟨rfl, -⟩)
          · exact hq
          · exact hwq
        · rw [if_pos hempty, if_neg hwq]
          refine ⟨nodup_append.mpr ⟨hE, nodup_singleton _, ?_⟩, ?_⟩
          · intro a ha b hb
            rw [mem_singleton.mp hb]
            rintro rfl
            exact hwq ha
          · intro q
            simp [isEmpty_iff.mp hempty]
      · rw [if_neg hempty]
        refine ⟨hE, fun q => ⟨.inl, ?_⟩⟩
        rintro (hq | ⟨-, hnil⟩)
        · exact hq
        · exact absurd (isEmpty_iff.mpr hnil) hempty
    have hin' : ∀ q ∈ L, ∃ ws, update table wq (some ws') q = some ws ∧ (q ≠ zq → w ∈ ws) := by
      intro q hq
      have hne : q ≠ wq := fun heq => hfresh (heq ▸ hq)
      rw [update_of_ne hne]
      exact hin q (mem_cons_of_mem _ hq)
    obtain ⟨table', E', hok, hE', htable, hmem'⟩ := ih hL hE1.1 hin'
    have hwq : table' wq = some ws' := by
      rw [htable wq, if_neg (fun hand => hfresh hand.1), update_self]
    refine ⟨table', E', ?_, hE', ?_, ?_⟩
    · rw [leaveQueues, hws]
      simp only [hws', ok_bind]
      exact hok
    · intro q
      by_cases heq : q = wq
      · subst heq
        rw [hwq, hremove, hws]
        by_cases hne : q ≠ zq
        · rw [if_pos hne, if_pos ⟨mem_cons_self, hne⟩]
          rfl
        · rw [if_neg hne, if_neg fun hand => hne hand.2]
      · rw [htable q, update_of_ne heq]
        simp [heq]
    · intro q
      rw [hmem' q, hE1.2 q]
      by_cases heq : q = wq
      · subst heq
        simp [hwq, hfresh]
      · simp [heq]

/-- What holds while the victims of a wake, of which `rest` are left, leave their queues. -/
structure Waking (zq : ℕ) (rest : List W) (s : ZutexTable W) (E : List ℕ) : Prop where
  counts : ∀ w q, q ≠ zq ∨ w ∉ rest → (s.queue q).count w = (s.zqList w).count q
  popped : ∀ w ∈ rest, w ∉ s.queue zq ∧ zq ∈ s.zqList w
  rest_nodup : rest.Nodup
  nodup : ∀ w, (s.zqList w).Nodup
  awake : ∀ w, s.asleep w = false → s.zqList w = []
  present : ∃ ws, s.table zq = some ws
  empties : ∀ q, s.table q = some [] → q ∈ E ∨ (q = zq ∧ rest ≠ [])
  collected : ∀ q ∈ E, s.table q = some []
  collected_nodup : E.Nodup

omit [DecidableEq W] in
lemma mem_queue_iff (s : ZutexTable W) (w : W) (q : ℕ) : w ∈ s.queue q ↔ ∃ ws, s.table q = some ws ∧ w ∈ ws := by
  rw [queue]
  cases s.table q with
  | none => simp
  | some ws => simp

/-- ONE VICTIM: a woken waiter is in no queue any more. -/
lemma Waking.next {w : W} {rest : List W} {E : List ℕ} (h : Waking zq (w :: rest) s E) :
    ∃ table' E', leaveQueues zq w (s.zqList w) s.table E = .ok (table', E') ∧
      Waking zq rest { table := table'
                       zqList := update s.zqList w []
                       asleep := update s.asleep w false } E' := by
  obtain ⟨hfresh, hrest⟩ := nodup_cons.mp h.rest_nodup
  obtain ⟨hgone, hlisted⟩ := h.popped w mem_cons_self
  have hin : ∀ q ∈ s.zqList w, ∃ ws, s.table q = some ws ∧ (q ≠ zq → w ∈ ws) := by
    intro q hq
    by_cases hne : q = zq
    · obtain ⟨ws, hws⟩ := h.present
      exact ⟨ws, hne ▸ hws, fun hno => absurd hne hno⟩
    · have hcount := h.counts w q (.inl hne)
      have hmem : w ∈ s.queue q := by
        rw [← count_pos_iff, hcount, count_pos_iff]
        exact hq
      obtain ⟨ws, hws, hmem⟩ := (mem_queue_iff s w q).mp hmem
      exact ⟨ws, hws, fun _ => hmem⟩
  obtain ⟨table', E', hok, hE', htable, hmem⟩ := leaveQueues_ok w (s.zqList w) (h.nodup w)
    h.collected_nodup hin
  refine ⟨table', E', hok, ?_⟩
  -- a queue after the round is the queue before it, without the victim
  have hqueue : ∀ q, (table' q).getD [] = if q ∈ s.zqList w ∧ q ≠ zq then (s.queue q).erase w
      else s.queue q := by
    intro q
    rw [htable q, queue]
    split
    case isTrue => cases s.table q <;> rfl
    case isFalse => rfl
  have hzq : table' zq = s.table zq := by
    rw [htable zq, if_neg fun hand => hand.2 rfl]
  refine ⟨?_, ?_, hrest, ?_, ?_, ?_, ?_, ?_, hE'⟩
  · intro w' q hcase
    show ((table' q).getD []).count w' = (update s.zqList w [] w').count q
    rw [hqueue q]
    by_cases hw : w' = w
    · subst hw
      rw [update_self, count_nil]
      by_cases hne : q = zq
      · subst hne
        rw [if_neg fun hand => hand.2 rfl]
        exact count_eq_zero.mpr hgone
      · have hcount := h.counts w' q (.inl hne)
        by_cases hq : q ∈ s.zqList w'
        · rw [if_pos ⟨hq, hne⟩, count_erase_self, hcount,
            count_eq_one_of_mem (h.nodup w') hq]
        · rw [if_neg fun hand => hq hand.1, hcount, count_eq_zero.mpr hq]
    · rw [update_of_ne hw]
      have hcount := h.counts w' q (hcase.imp_right fun hnot hmem' => by
        rcases mem_cons.mp hmem' with heq | hin'
        · exact hw heq
        · exact hnot hin')
      split
      case isTrue => rw [count_erase_of_ne hw, hcount]
      case isFalse => exact hcount
  · intro w' hw'
    have hne : w' ≠ w := fun heq => hfresh (heq ▸ hw')
    obtain ⟨hout, hin'⟩ := h.popped w' (mem_cons_of_mem _ hw')
    refine ⟨?_, ?_⟩
    · show w' ∉ (table' zq).getD []
      rw [hzq]
      exact hout
    · show zq ∈ update s.zqList w [] w'
      rw [update_of_ne hne]
      exact hin'
  · intro w'
    by_cases hw : w' = w
    · subst hw
      simp
    · simp only [update_of_ne hw]
      exact h.nodup w'
  · intro w' hw'
    by_cases hw : w' = w
    · subst hw
      simp
    · simp only [update_of_ne hw] at hw' ⊢
      exact h.awake w' hw'
  · obtain ⟨ws, hws⟩ := h.present
    exact ⟨ws, hzq.trans hws⟩
  · intro q hq
    have hq : table' q = some [] := hq
    by_cases hmemL : q ∈ s.zqList w
    · exact .inl ((hmem q).mpr (.inr ⟨hmemL, hq⟩))
    · rw [htable q, if_neg fun hand => hmemL hand.1] at hq
      rcases h.empties q hq with hE | ⟨rfl, -⟩
      · exact .inl ((hmem q).mpr (.inl hE))
      · exact absurd hlisted hmemL
  · intro q hq
    rcases (hmem q).mp hq with hE | ⟨-, hnil⟩
    · have hempty := h.collected q hE
      show table' q = some []
      rw [htable q]
      split
      case isTrue hand =>
        obtain ⟨ws, hws, hin'⟩ := hin q hand.1
        rw [hempty] at hws
        cases hws
        cases hin' hand.2
      case isFalse => exact hempty
    · exact hnil

/-- ALL VICTIMS: they are awake and in no queue; the others keep their lists. -/
lemma wakeEach_ok (victims : List W) : ∀ {s : ZutexTable W} {E : List ℕ}, Waking zq victims s E →
    ∃ s' E', wakeEach zq victims s E = .ok (s', E') ∧ Waking zq [] s' E' ∧
      (∀ w ∈ victims, s'.zqList w = []) ∧ ∀ w, s.zqList w = [] → s'.zqList w = [] := by
  induction victims with
  | nil =>
    intro s E h
    exact ⟨s, E, rfl, h, by rintro w ⟨⟩, fun _ hw => hw⟩
  | cons w rest ih =>
    intro s E h
    obtain ⟨table', E', hleave, hnext⟩ := h.next
    obtain ⟨s'', E'', hrest, hdone, hvictims, hkeep⟩ := ih hnext
    refine ⟨s'', E'', ?_, hdone, ?_, ?_⟩
    · rw [wakeEach, hleave, ok_bind]
      exact hrest
    · intro w' hw'
      rcases mem_cons.mp hw' with rfl | hin
      · exact hkeep w' (update_self _ _ _)
      · exact hvictims w' hin
    · intro w' hw'
      refine hkeep w' ?_
      by_cases hw : w' = w
      · subst hw
        exact update_self _ _ _
      · show update s.zqList w [] w' = []
        rw [update_of_ne hw, hw']

omit [DecidableEq W] in
/-- FREE: queues that are empty are freed. -/
lemma freeEach_ok (E : List ℕ) : ∀ {table : ℕ → Option (List W)}, E.Nodup → (∀ q ∈ E, table q = some []) →
    ∃ table', freeEach E table = .ok table' ∧ ∀ q, table' q = if q ∈ E then none else table q := by
  induction E with
  | nil =>
    intro table _ _
    exact ⟨table, rfl, by simp⟩
  | cons zq E ih =>
    intro table hE hempty
    obtain ⟨hfresh, hE⟩ := nodup_cons.mp hE
    have hrest : ∀ q ∈ E, update table zq none q = some [] := by
      intro q hq
      have hne : q ≠ zq := fun heq => hfresh (heq ▸ hq)
      rw [update_of_ne hne]
      exact hempty q (mem_cons_of_mem _ hq)
    obtain ⟨table', hok, htable⟩ := ih hE hrest
    refine ⟨table', ?_, ?_⟩
    · rw [freeEach, hempty zq mem_cons_self]
      exact hok
    · intro q
      rw [htable q]
      by_cases heq : q = zq
      · subst heq
        simp [hfresh]
      · simp [heq]

/-- What a wake is to do: it wakes as many distinct waiters as it is asked to and finds, each once, and
    leaves them in no queue. -/
def WakesRight (s : ZutexTable W) (guestZutex nWake : ℕ) : Prop :=
  ∃ s' woken, s.wake guestZutex nWake = .ok (s', woken.length, woken) ∧ woken.Nodup ∧
    (∀ w ∈ woken, ∀ q, w ∉ s'.queue q) ∧ woken.length = min nWake (s.queue guestZutex).dedup.length

lemma Orderly.waking (h : Orderly s) {ws : List W} (hws : s.table zq = some ws) (n : ℕ) :
    Waking zq (ws.take n) { s with table := update s.table zq (some (ws.drop n)) } [] := by
  have hqueue : s.queue zq = ws := by rw [queue, hws]; rfl
  have hnodup : ws.Nodup := hqueue ▸ h.queue_nodup zq
  have hsplit : ∀ w, ws.count w = (ws.take n).count w + (ws.drop n).count w := by
    intro w
    rw [← count_append, take_append_drop]
  have hself : (ZutexTable.mk (update s.table zq (some (ws.drop n))) s.zqList s.asleep).queue zq = ws.drop n := by
    simp [queue]
  have hother : ∀ q, q ≠ zq → (ZutexTable.mk (update s.table zq (some (ws.drop n))) s.zqList s.asleep).queue q =
      s.queue q := by
    intro q hq
    simp [queue, hq]
  refine ⟨?_, ?_, hnodup.sublist (take_sublist n ws), h.nodup, h.awake, ?_, ?_, by rintro _ ⟨⟩, nodup_nil⟩
  · intro w q hcase
    by_cases hq : q = zq
    · subst hq
      have hnot : w ∉ ws.take n := hcase.resolve_left fun hne => hne rfl
      have hcount := hsplit w
      rw [count_eq_zero.mpr hnot, Nat.zero_add] at hcount
      rw [hself, ← hcount, ← hqueue]
      exact h.counts w q
    · rw [hother q hq]
      exact h.counts w q
  · intro w hw
    have hmem : w ∈ ws := mem_of_mem_take hw
    refine ⟨?_, ?_⟩
    · rw [hself]
      exact disjoint_take_drop hnodup le_rfl hw
    · rw [← count_pos_iff]
      show 0 < (s.zqList w).count zq
      rw [← h.counts w zq, hqueue]
      exact count_pos_iff.mpr hmem
  · exact ⟨ws.drop n, update_self _ _ _⟩
  · intro q hq
    refine .inr ?_
    by_cases heq : q = zq
    · subst heq
      refine ⟨rfl, ?_⟩
      have hq : update s.table q (some (ws.drop n)) q = some [] := hq
      rw [update_self] at hq
      intro hnil
      have hall := take_append_drop n ws
      rw [hnil, Option.some.inj hq, nil_append] at hall
      exact h.nonempty q ws hws hall.symm
    · have hq : s.table q = some [] := (update_of_ne heq _ _).symm.trans hq
      exact absurd rfl (h.nonempty q [] hq)

/-- WAKE: it does what it is to do, and leaves the table in order. -/
lemma Orderly.wake (h : Orderly s) (guestZutex nWake : ℕ) : WakesRight s guestZutex nWake ∧
    ∃ s' r woken, s.wake guestZutex nWake = .ok (s', r, woken) ∧ Orderly s' := by
  cases hws : s.table guestZutex with
  | none =>
    have hwake : s.wake guestZutex nWake = .ok (s, 0, []) := by rw [ZutexTable.wake, hws]; rfl
    refine ⟨⟨s, [], hwake, nodup_nil, by rintro _ ⟨⟩, ?_⟩, s, 0, [], hwake, h⟩
    rw [queue, hws]
    simp
  | some ws =>
    have hqueue : s.queue guestZutex = ws := by rw [queue, hws]; rfl
    have hnodup : ws.Nodup := hqueue ▸ h.queue_nodup guestZutex
    obtain ⟨s', E, hwakeEach, hdone, hvictims, -⟩ := wakeEach_ok _ (h.waking hws nWake)
    obtain ⟨table', hfree, htable⟩ := freeEach_ok E hdone.collected_nodup hdone.collected
    have hwake : s.wake guestZutex nWake =
        .ok ({ s' with table := table' }, (ws.take nWake).length, ws.take nWake) := by
      rw [ZutexTable.wake, hws]
      simp only [hwakeEach, ok_bind, hfree, pure_eq_ok]
    -- freeing an empty queue changes no queue
    have hkeeps : ∀ q, (table' q).getD [] = s'.queue q := by
      intro q
      rw [htable q, queue]
      split
      case isTrue hq => rw [hdone.collected q hq]; rfl
      case isFalse => rfl
    have horderly : Orderly { s' with table := table' } := by
      refine ⟨?_, ?_, hdone.nodup, hdone.awake⟩
      · intro w q
        show ((table' q).getD []).count w = _
        rw [hkeeps q]
        exact hdone.counts w q (.inr (not_mem_nil))
      · intro q ws' hws' hnil
        have hws' : table' q = some ws' := hws'
        rw [htable q] at hws'
        split at hws'
        case isTrue => cases hws'
        case isFalse hq =>
          rcases hdone.empties q (hnil ▸ hws') with hE | ⟨-, hrest⟩
          · exact hq hE
          · exact hrest rfl
    refine ⟨⟨_, _, hwake, hnodup.sublist (take_sublist nWake ws), ?_, ?_⟩, _, _, _, hwake, horderly⟩
    · intro w hw q
      have hcount := horderly.counts w q
      rw [show ({ s' with table := table' } : ZutexTable W).zqList w = [] from hvictims w hw, count_nil] at hcount
      exact count_eq_zero.mp hcount
    · rw [hqueue, hnodup.dedup, length_take]

/-- A wait that puts its waiter to sleep names no zutex twice. -/
def Distinct (s : ZutexTable W) : Call W → Prop
  | .wait waiter memory specs =>
    s.asleep waiter = false → allMatch memory specs = true → (specs.map (·.zutex)).Nodup
  | .wake _ _ => True

lemma Orderly.call (h : Orderly s) {c : Call W} (hc : Distinct s c) : ∃ s', s.call c = .ok s' ∧ Orderly s' := by
  cases c with
  | wait waiter memory specs => exact ⟨_, rfl, h.wait hc⟩
  | wake guestZutex nWake =>
    obtain ⟨-, s', r, woken, hwake, horderly⟩ := h.wake guestZutex nWake
    refine ⟨s', ?_, horderly⟩
    rw [ZutexTable.call, hwake]
    rfl

/-- RUNS: calls whose waits name no zutex twice never fault; in every state they reach, a waiter is in a queue as often
    as the queue is in the waiter's list, no queue is empty, and every wake does what it is to do. -/
theorem zutex_orderly (calls : List (Call W)) (hC : Along call Distinct (empty : ZutexTable W) calls) :
    ∃ s, run call (empty : ZutexTable W) calls = .ok s ∧ (∀ w q, (s.queue q).count w = (s.zqList w).count q) ∧
      (∀ q ws, s.table q = some ws → ws ≠ []) ∧ ∀ guestZutex nWake, WakesRight s guestZutex nWake := by
  obtain ⟨s, hr, hs⟩ := run_progress (fun s c hs hc => hs.call hc) calls empty orderly_empty hC
  exact ⟨s, hr, hs.counts, hs.nonempty, fun guestZutex nWake => (hs.wake guestZutex nWake).1⟩

def zeroMemory : ℕ → Option ℕ := fun _ => some 0

/-- Two threads wait, one of them on two zutexes. -/
theorem zutex_orderly_two : ∃ s, run call (empty : ZutexTable ℕ)
    [.wait 1 zeroMemory [⟨4, 0⟩, ⟨8, 0⟩], .wait 2 zeroMemory [⟨4, 0⟩]] = .ok s ∧
      s.queue 4 = [1, 2] ∧ WakesRight s 4 1 := by
  have hC : Along call Distinct (empty : ZutexTable ℕ)
      [.wait 1 zeroMemory [⟨4, 0⟩, ⟨8, 0⟩], .wait 2 zeroMemory [⟨4, 0⟩]] :=
    ⟨fun _ _ => by decide, fun _ _ => ⟨fun _ _ => by decide, fun _ _ => trivial⟩⟩
  obtain ⟨s, hr, -, -, hwake⟩ := zutex_orderly _ hC
  refine ⟨s, hr, ?_, hwake 4 1⟩
  cases hr
  decide

/-- REPEATED ZUTEX: a waiter that names a zutex twice is woken and left in its queue. -/
theorem not_zutex_orderly : ¬∀ (calls : List (Call ℕ)) (s : ZutexTable ℕ),
    run call (empty : ZutexTable ℕ) calls = .ok s → ∀ guestZutex nWake, WakesRight s guestZutex nWake := by
  intro hclaim
  obtain ⟨s', woken, hwake, -, hgone, -⟩ := hclaim [.wait 1 zeroMemory [⟨4, 0⟩, ⟨4, 0⟩]] _ rfl 4 1
  let view : Checked (ZutexTable ℕ × ℕ × List ℕ) → Option (List ℕ × List ℕ) :=
    fun r => r.toOption.map fun result => (result.2.2, result.1.queue 4)
  have hview : some ([1], [1]) = some (woken, s'.queue 4) := congrArg view hwake
  obtain ⟨hwoken, hleft⟩ := Prod.mk.inj (Option.some.inj hview)
  exact hgone 1 (hwoken ▸ mem_singleton_self 1) 4 (hleft ▸ mem_singleton_self 1)

end ZutexTable

end Embassies.Monitor
