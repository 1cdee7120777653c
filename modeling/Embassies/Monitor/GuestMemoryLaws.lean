import Embassies.Monitor.GuestMemory
import Embassies.Utils.CoalescingRefs

/-! The states of guest memory that guest calls reach.

    Every allocated range is a part of the range of its slot, whose host address is that of the range; the
    guest addresses all lie below `2^31`. This survives calls with any arguments. -/

namespace Embassies.Monitor

open Utils CoalescingAllocator Function MemSlot

namespace MemSlot

lemma roundUpToPage_eq {x : ℕ} (h : x < 2 ^ 32) : roundUpToPage x = u32 ((x + 4095) / 4096 * 4096) := by
  have hor := or_mask (sub32 x 1) 12
  norm_num at hor
  unfold roundUpToPage pageSize
  norm_num
  rw [hor]
  unfold u32 sub32
  omega

lemma roundDownToPage_eq {x : ℕ} (h : x < 2 ^ 32) : roundDownToPage x = x / 4096 * 4096 := by
  have hand := and_mask (n := x) (k := 12) (w := 32) (by norm_num) h
  norm_num at hand
  exact hand

end MemSlot

def Paged (S : Set ℕ) : Prop := ∀ x, x ∈ S ↔ x / 4096 * 4096 ∈ S

lemma Paged.Ico {a b : ℕ} (ha : 4096 ∣ a) (hb : 4096 ∣ b) : Paged (Set.Ico a b) := by
  obtain ⟨k, rfl⟩ := ha
  obtain ⟨l, rfl⟩ := hb
  intro x
  rw [Set.mem_Ico, Set.mem_Ico]
  omega

lemma Paged.diff {S T : Set ℕ} (hS : Paged S) (hT : Paged T) : Paged (S \ T) :=
  fun x => and_congr (hS x) (not_congr (hT x))

lemma Paged.dvd_start {F : Set Range} {r : Range} (hpaged : Paged (freeSpace F))
    (hF : Coalesced Range.start Range.stop F) (hr : r ∈ F) : 4096 ∣ r.start := by
  have hne := hF.nonempty r hr
  by_contra hnot
  -- otherwise the address before it is in the same page, so some free range touches this one
  have hbase : r.start / 4096 * 4096 ∈ freeSpace F := (hpaged r.start).mp ⟨r, hr, le_rfl, hne⟩
  have hsame : (r.start - 1) / 4096 * 4096 = r.start / 4096 * 4096 := by omega
  rw [← hsame] at hbase
  obtain ⟨q, hq, hlo, hhi⟩ := (hpaged (r.start - 1)).mpr hbase
  have hqr : q ≠ r := by
    rintro rfl
    omega
  have := hF.gap q hq r hr hqr
  omega

lemma dvd_roundUpToPage {x : ℕ} (hx : x < 2 ^ 32) : 4096 ∣ roundUpToPage x := by
  rw [roundUpToPage_eq hx, u32]
  omega

namespace GuestMemory

variable {reqSize : ℕ} {a : CoalescingAllocator ℕ} {r : Range} {F' : Set Range} {size : ℕ}

def guestSpace : Set ℕ := Set.Ico guestAddrStart hostPhysMemorySize

/-- A part of the range of its slot. -/
structure Backs (slot : MemSlot) (range : Range) : Prop where
  configured : slot.configured = true
  start : slot.guestRange.start ≤ range.start
  stop : range.stop ≤ slot.guestRange.stop
  bound : slot.guestRange.stop ≤ hostPhysMemorySize
  hostAddr : slot.hostAddr = hostPhysMemory + slot.guestRange.start

/-- THE INVARIANT of guest memory. -/
structure Sound (m : GuestMemory) (F : Set Range) (A : Set (RangeByStartElt ℕ)) : Prop where
  layout : m.allocator.Layout F A
  redundant : m.allocator.allowRedundantFrees = true
  space : freeSpace F ∪ allocatedSpace A = guestSpace
  backed : ∀ e ∈ A, ∃ o, e.refcountedUserObj = some o ∧ o.obj < m.nextSlot ∧ Backs (m.slots o.obj) e.range

variable {m : GuestMemory} {F : Set Range} {A : Set (RangeByStartElt ℕ)}
  {e : RangeByStartElt ℕ} {range : Range} {A' : Set (RangeByStartElt ℕ)}

lemma Sound.stop_le (h : m.Sound F A) (he : e ∈ A) : e.range.stop ≤ hostPhysMemorySize := by
  obtain ⟨o, -, -, hback⟩ := h.backed e he
  exact hback.stop.trans hback.bound

lemma memSlotAt_live {memSlot : ℕ} (hlive : memSlot ∉ m.allocator.destroyed) :
    m.memSlotAt memSlot = .ok (m.slots memSlot) := if_neg hlive

lemma hostPhysMemorySize_lt : hostPhysMemorySize < 2 ^ 31 := by decide

lemma Sound.free_le (h : m.Sound F A) (hr : r ∈ F) : r.stop ≤ hostPhysMemorySize := by
  have hne := h.layout.free.coalesced.nonempty r hr
  have hlast : r.stop - 1 ∈ guestSpace := by
    rw [← h.space]
    exact .inl ⟨r, hr, by omega, by omega⟩
  have := (Set.mem_Ico.mp hlast).2
  omega

/-- What no call changes: the pages of the monitor, and the slots there are. -/
structure Extends (m m' : GuestMemory) : Prop where
  hostAlarmsPage : m'.hostAlarmsPage = m.hostAlarmsPage
  idtPage : m'.idtPage = m.idtPage
  nextSlot : m.nextSlot ≤ m'.nextSlot
  slots : ∀ k < m.nextSlot, m'.slots k = m.slots k

lemma Extends.backed {m' : GuestMemory} (hext : m.Extends m')
    (h : ∃ o, e.refcountedUserObj = some o ∧ o.obj < m.nextSlot ∧ Backs (m.slots o.obj) e.range) :
    ∃ o, e.refcountedUserObj = some o ∧ o.obj < m'.nextSlot ∧ Backs (m'.slots o.obj) e.range := by
  obtain ⟨o, ho, hlt, hback⟩ := h
  exact ⟨o, ho, hlt.trans_le hext.nextSlot, hext.slots o.obj hlt ▸ hback⟩

lemma configureSlot_spec {slot roundSize : ℕ} (hstop : range.stop ≤ hostPhysMemorySize) (hsize : range.size = roundSize)
    (hfresh : m.slots slot = .unconfigured) : m.configureSlot slot roundSize range =
      .ok { m with slots := update m.slots slot ⟨true, range, hostPhysMemory + range.start⟩ } := by
  have hconfigure : unconfigured.configure range (hostPhysMemory + range.start) =
      .ok ⟨true, range, hostPhysMemory + range.start⟩ := rfl
  simp [configureSlot, liteAssert_pos hstop, liteAssert_pos hsize, hfresh, hconfigure]

/-- The memory with a new slot, which has a range unless the allocator had none. -/
def withSlot (m : GuestMemory) (allocator : CoalescingAllocator ℕ) (slot : MemSlot) : GuestMemory :=
  { m with allocator, nextSlot := m.nextSlot + 1, slots := update m.slots m.nextSlot slot }

lemma extends_withSlot (allocator : CoalescingAllocator ℕ) (slot : MemSlot) : m.Extends (m.withSlot allocator slot) :=
  ⟨rfl, rfl, Nat.le_succ _, fun _ hk => update_of_ne hk.ne _ _⟩

lemma Sound.withSlot_unconfigured (h : m.Sound F A) : (m.withSlot m.allocator .unconfigured).Sound F A :=
  ⟨h.layout, h.redundant, h.space, fun e he => (extends_withSlot _ _).backed (h.backed e he)⟩

lemma allocateGuestMemory_none
    (hrun : m.allocator.allocateRange (roundUpToPage reqSize) m.nextSlot = .ok (m.allocator, none)) :
    m.allocateGuestMemory reqSize = .ok (m.withSlot m.allocator .unconfigured, none) := by
  simp [allocateGuestMemory, hrun, withSlot]

lemma allocateGuestMemory_some
    (hrun : m.allocator.allocateRange (roundUpToPage reqSize) m.nextSlot = .ok (a, some range))
    (hstop : range.stop ≤ hostPhysMemorySize) (hsize : range.size = roundUpToPage reqSize) :
    m.allocateGuestMemory reqSize =
      .ok (m.withSlot a ⟨true, range, hostPhysMemory + range.start⟩, some m.nextSlot) := by
  have hconfigure := configureSlot_spec (m := m.withSlot a .unconfigured) hstop hsize (update_self _ _ _)
  simp only [allocateGuestMemory, hrun, Checked.ok_bind]
  rw [show configureSlot { m with allocator := a, nextSlot := m.nextSlot + 1, slots := _ } _ _ _ = _ from hconfigure]
  simp [withSlot]

/-- ALLOCATE at most `2^31` bytes: some free pages get a slot of their own, if there are enough in a row. -/
lemma allocateGuestMemory_fits (h : m.Sound F A) (hround : size = roundUpToPage reqSize) (hsize : size ≤ 2 ^ 31) :
    (m.allocateGuestMemory reqSize = .ok (m.withSlot m.allocator .unconfigured, none) ∧
      (m.withSlot m.allocator .unconfigured).Sound F A ∧ (size = 0 ∨ ∀ r ∈ F, r.size < size)) ∨
    ∃ a F' r, r ∈ F ∧ 0 < size ∧ r.start + size ≤ r.stop ∧
      m.allocator.allocateRange size m.nextSlot = .ok (a, some ⟨r.start, r.start + size⟩) ∧
      m.allocateGuestMemory reqSize =
        .ok (m.withSlot a ⟨true, ⟨r.start, r.start + size⟩, hostPhysMemory + r.start⟩, some m.nextSlot) ∧
      (m.withSlot a ⟨true, ⟨r.start, r.start + size⟩, hostPhysMemory + r.start⟩).Sound F'
        (insert ⟨⟨r.start, r.start + size⟩, some ⟨m.allocator.nextObj, m.nextSlot⟩⟩ A) ∧
      freeSpace F' = freeSpace F \ Set.Ico r.start (r.start + size) := by
  rcases allocateRange_spec h.layout hsize m.nextSlot with
    ⟨hrun, hnone⟩ | ⟨r, a, F', hr, hpos, hsize, -, hrun, hlayout, hspace, hredundant⟩
  · exact .inl ⟨allocateGuestMemory_none (hround ▸ hrun), h.withSlot_unconfigured, hnone⟩
  · rw [Range.size_eq] at hsize
    have hrne := h.layout.free.coalesced.nonempty r hr
    have hfront : r.start + size ≤ r.stop := by omega
    have hstop := hfront.trans (h.free_le hr)
    have hsub : Set.Ico r.start (r.start + size) ⊆ freeSpace F :=
      (Set.Ico_subset_Ico_right hfront).trans fun x hx => ⟨r, hr, hx⟩
    have hmanaged := managed_allocate (A := A)
      (e := ⟨⟨r.start, r.start + size⟩, some ⟨m.allocator.nextObj, m.nextSlot⟩⟩) hsub hspace
    refine .inr ⟨a, F', r, hr, hpos, hfront, hrun, ?_,
      ⟨hlayout, hredundant.trans h.redundant, hmanaged.trans h.space, ?_⟩, hspace⟩
    · refine allocateGuestMemory_some (hround ▸ hrun) hstop ?_
      rw [← hround, Range.size_eq]
      exact Nat.add_sub_cancel_left _ _
    · rintro e (rfl | he)
      · refine ⟨_, rfl, Nat.lt_succ_self _, ?_⟩
        simp only [withSlot, update_self]
        exact ⟨rfl, le_rfl, le_rfl, hstop, rfl⟩
      · exact (extends_withSlot _ _).backed (h.backed e he)

/-- ALLOCATE: what was allocated stays so, whatever the request. -/
lemma allocateGuestMemory_extends (h : m.Sound F A) {m' : GuestMemory} {out : Option ℕ}
    (hrun : m.allocateGuestMemory reqSize = .ok (m', out)) : ∃ F' A', m'.Sound F' A' ∧ A ⊆ A' ∧ m.Extends m' := by
  obtain ⟨size, hround⟩ : ∃ size, size = roundUpToPage reqSize := ⟨_, rfl⟩
  by_cases hlarge : 2 ^ 31 < size
  · rcases allocateRange_large h.layout hlarge m.nextSlot with hnone | herr
    · cases hrun.symm.trans (allocateGuestMemory_none (hround ▸ hnone))
      exact ⟨F, A, h.withSlot_unconfigured, subset_rfl, extends_withSlot _ _⟩
    · simp [allocateGuestMemory, ← hround, herr] at hrun
  rcases allocateGuestMemory_fits h hround (Nat.not_lt.mp hlarge) with
    ⟨hok, hsound, -⟩ | ⟨a, F', r, -, -, -, -, hok, hsound, -⟩
  · cases hrun.symm.trans hok
    exact ⟨F, A, hsound, subset_rfl, extends_withSlot _ _⟩
  · cases hrun.symm.trans hok
    exact ⟨F', _, hsound, Set.subset_insert _ _, extends_withSlot _ _⟩

lemma Sound.not_has_nextSlot (h : m.Sound F A) : ¬Has A m.nextSlot := by
  rintro ⟨e, he, hobj⟩
  obtain ⟨o, ho, hlt, -⟩ := h.backed e he
  rw [userObjOf, ho] at hobj
  exact absurd (Option.some.inj hobj) hlt.ne

lemma Sound.freeSpace_eq (h : m.Sound F A) : freeSpace F = guestSpace \ allocatedSpace A := by
  rw [← h.space, Set.union_sdiff_right, h.layout.disjoint.sdiff_eq_left]

/-- TIDY: whole pages are allocated, and the references to slots are counted. -/
structure Tidy (m : GuestMemory) (F : Set Range) (A : Set (RangeByStartElt ℕ)) : Prop where
  sound : m.Sound F A
  refs : m.allocator.Refs A
  ends : Ends (4096 ∣ ·) A
  destroyed : ∀ u ∈ m.allocator.destroyed, u < m.nextSlot

lemma Tidy.dvd_start (h : m.Tidy F A) (hr : r ∈ F) : 4096 ∣ r.start := by
  have hallocated : Paged (allocatedSpace A) := by
    intro x
    rw [mem_allocatedSpace, mem_allocatedSpace]
    refine exists_congr fun e => and_congr_right fun he => ?_
    obtain ⟨hstart, hstop⟩ := h.ends e he
    exact Paged.Ico hstart hstop x
  refine Paged.dvd_start ?_ h.sound.layout.free.coalesced hr
  rw [h.sound.freeSpace_eq]
  exact .diff (.Ico (by decide) (by decide)) hallocated

lemma Tidy.allocated {slot : MemSlot} (h : m.Tidy F A) (hr : r ∈ F) (hround : 4096 ∣ size)
    (hrun : m.allocator.allocateRange size m.nextSlot = .ok (a, some ⟨r.start, r.start + size⟩))
    (hsound : (m.withSlot a slot).Sound F'
        (insert ⟨⟨r.start, r.start + size⟩, some ⟨m.allocator.nextObj, m.nextSlot⟩⟩ A)) :
    (m.withSlot a slot).Tidy F' (insert ⟨⟨r.start, r.start + size⟩, some ⟨m.allocator.nextObj, m.nextSlot⟩⟩ A) := by
  have hstart := h.dvd_start hr
  refine ⟨hsound, ?_, ?_, fun u hu => ?_⟩
  · exact h.refs.allocate h.sound.layout.allocated.stores.finite hrun h.sound.not_has_nextSlot
      fun hdead => absurd (h.destroyed _ hdead) (lt_irrefl _)
  · rintro e (rfl | he)
    · exact ⟨hstart, (Nat.dvd_add_right hstart).mpr hround⟩
    · exact h.ends e he
  · have hsame : a.destroyed = m.allocator.destroyed := (allocateRange_frame hrun).2.2
    exact (h.destroyed u (hsame ▸ hu)).trans_le (Nat.le_succ _)

lemma Tidy.unconfigured (h : m.Tidy F A) : (m.withSlot m.allocator .unconfigured).Tidy F A :=
  ⟨h.sound.withSlot_unconfigured, h.refs, h.ends, fun u hu => (h.destroyed u hu).trans_le (Nat.le_succ _)⟩

lemma Tidy.freed (h : m.Tidy F A) {guestStart : ℕ} (hstart : guestStart < 2 ^ 32)
    (hrun : m.allocator.freeRange (freedRange guestStart size) = .ok a) (hsound : { m with allocator := a }.Sound F' A') :
    { m with allocator := a }.Tidy F' A' := by
  obtain ⟨hdropped, hends⟩ := freeRange_dropped h.sound.layout h.refs hrun hsound.layout
  refine ⟨hsound, hdropped.refs, hends _ h.ends ?_ (dvd_roundUpToPage (u32_lt _)), fun u hu => ?_⟩
  · rw [freedRange, roundDownToPage_eq hstart]
    exact Dvd.intro_left _ rfl
  · rcases (hdropped.destroyed u).mp hu with hu | ⟨⟨e, he, hobj⟩, -⟩
    · exact h.destroyed u hu
    · obtain ⟨o, ho, hlt, -⟩ := h.sound.backed e he
      rw [userObjOf, ho] at hobj
      exact Option.some.inj hobj ▸ hlt

/-- FREE: whatever is freed, the rest of the allocations stays backed. -/
lemma Sound.freed {R : Set ℕ} (h : m.Sound F A) (hfreed : Freed m.allocator F A R a F' A')
    : { m with allocator := a }.Sound F' A' where
  layout := hfreed.layout
  redundant := hfreed.redundant.trans h.redundant
  space := hfreed.managed.trans h.space
  backed := fun e' he' => by
    obtain ⟨e, he, hobj, hstart, hstop⟩ := hfreed.fragments e' he'
    obtain ⟨o, ho, hlt, hback⟩ := h.backed e he
    exact ⟨o, hobj.trans ho, hlt, hback.configured, hback.start.trans hstart, hstop.trans hback.stop, hback.bound,
      hback.hostAddr⟩

lemma freedRange_stop_lt (start size : ℕ) : (freedRange start size).stop < 2 ^ 32 := u32_lt _

end GuestMemory

end Embassies.Monitor
