import Embassies.Monitor.CheckpointLaws
import Embassies.Monitor.GuestIsolation

/-! Checkpoint and resume preserve guest memory exactly if no allocation has been freed in part.

    A slot keeps its extent when pages in it are freed, and the extent is what is saved. So the pages come
    back allocated, or the extents of two fragments collide when they are loaded. -/

namespace Embassies.Monitor.GuestMemory

open Checked Utils CoalescingAllocator List Except Option

variable {es : List (RangeByStartElt ℕ)}

/-- The allocators have the same free ranges and the same allocated ranges, as many as they count. -/
def SameRanges (s s' : CoalescingAllocator ℕ) : Prop :=
  ∃ F A A', s.Layout F A ∧ s'.Layout F A' ∧
    RangeByStartElt.range '' A' = RangeByStartElt.range '' A ∧ s'.rangeCount = s.rangeCount

/-- Page-in finds the bytes of an allocated page, and nothing for a page that is not allocated. -/
structure PagesIn (m : GuestMemory) (memory : ℕ → UInt8) (pages : Bytes) (mmapperList : List Mmapper) (page : ℕ) :
    Prop where
  allocated : (∃ slot, m.Owner page slot) → ∃ offset, findPageFileOffset mmapperList page = .ok (some offset) ∧
    field pages offset pageSize = bytesAt memory (hostPhysMemory + page) pageSize
  free : (∀ slot, ¬m.Owner page slot) → findPageFileOffset mmapperList page = .ok none

/-- RESUMES: saving and loading returns, the allocator is the same, and every page is found again. -/
def Resumes (m : GuestMemory) (memory : ℕ → UInt8) : Prop :=
  ∃ file m' mmapperList, m.emitSwapfile memory = .ok file ∧ loadSwap file = .ok (m', mmapperList) ∧
    SameRanges m.allocator m'.allocator ∧
    ∀ page ∈ guestSpace, pageSize ∣ page → m.PagesIn memory file.pages mmapperList page

/-- Every allocated range is the whole of its slot, and the monitor has its two pages. -/
structure Whole (m : GuestMemory) : Prop where
  slots : ∀ x slot range, m.allocator.lookupValue x = .ok (some (some slot, range)) →
    range = (m.slots slot).guestRange
  hostAlarmsPage : ∃ x, m.Owner x m.hostAlarmsPage
  idtPage : ∃ x, m.Owner x m.idtPage

/-- What a run keeps of the monitor's pages: their slots do not change, and go when their last page is freed. -/
structure Pages (m : GuestMemory) (A : Set (RangeByStartElt ℕ)) : Prop where
  hostAlarmsSlot : m.hostAlarmsPage < m.nextSlot
  idtSlot : m.idtPage < m.nextSlot
  hostAlarmsPage : (m.slots m.hostAlarmsPage).configured = true
  idtPage : (m.slots m.idtPage).configured = true
  apart : (m.slots m.idtPage).guestRange.start ≠ (m.slots m.hostAlarmsPage).guestRange.start
  has : ∀ u, u = m.hostAlarmsPage ∨ u = m.idtPage → u ∈ m.allocator.destroyed ∨ Has A u

variable {m m' : GuestMemory} {F : Set Range} {A A' : Set (RangeByStartElt ℕ)} {memory : ℕ → UInt8}

lemma has_of_owned {x u : ℕ} (h : Owned A x u) : Has A u := by
  obtain ⟨e, he, -, -, hobj⟩ := h
  exact ⟨e, he, hobj⟩

lemma Sound.exists_owner_iff (h : m.Sound F A) (u : ℕ) : (∃ x, m.Owner x u) ↔ Has A u := by
  constructor
  · rintro ⟨x, hx⟩
    exact has_of_owned ((h.owner_iff x u).mp hx)
  · rintro ⟨e, he, hobj⟩
    exact ⟨e.range.start, (h.owner_iff _ u).mpr ⟨e, he, le_rfl, h.layout.allocated.disjointed.nonempty e he, hobj⟩⟩

/-! ### Reachable states -/

lemma Pages.extend (h : m.Pages A) (hext : m.Extends m') (hsub : ∀ u, Has A u → Has A' u)
    (hsame : m'.allocator.destroyed = m.allocator.destroyed) : m'.Pages A' where
  hostAlarmsSlot := hext.hostAlarmsPage ▸ h.hostAlarmsSlot.trans_le hext.nextSlot
  idtSlot := hext.idtPage ▸ h.idtSlot.trans_le hext.nextSlot
  hostAlarmsPage := by
    rw [hext.hostAlarmsPage, hext.slots _ h.hostAlarmsSlot]
    exact h.hostAlarmsPage
  idtPage := by
    rw [hext.idtPage, hext.slots _ h.idtSlot]
    exact h.idtPage
  apart := by
    rw [hext.hostAlarmsPage, hext.idtPage, hext.slots _ h.hostAlarmsSlot, hext.slots _ h.idtSlot]
    exact h.apart
  has u hu := by
    rw [hext.hostAlarmsPage, hext.idtPage] at hu
    rw [hsame]
    exact (h.has u hu).imp_right (hsub u)

lemma has_mono (hsub : A ⊆ A') (u : ℕ) (h : Has A u) : Has A' u := by
  obtain ⟨e, he, hobj⟩ := h
  exact ⟨e, hsub he, hobj⟩

/-- STEP: any call keeps memory tidy and knows the monitor's pages. -/
lemma call_pages (c : Call) (hinv : ∃ F A, m.Tidy F A ∧ m.Pages A) (hwords : Words c) (hrun : m.call c = .ok m') :
    ∃ F A, m'.Tidy F A ∧ m'.Pages A := by
  obtain ⟨F, A, h, hpages⟩ := hinv
  cases c with
  | allocate reqSize =>
    obtain ⟨size, hround⟩ : ∃ size, size = MemSlot.roundUpToPage reqSize := ⟨_, rfl⟩
    by_cases hlarge : 2 ^ 31 < size
    · rcases allocateRange_large h.sound.layout hlarge m.nextSlot with hnone | herr
      · rw [call, allocateGuestMemory_none (hround ▸ hnone)] at hrun
        cases hrun
        exact ⟨F, A, h.unconfigured, hpages.extend (extends_withSlot _ _) (fun _ => id) rfl⟩
      · rw [call, allocateGuestMemory, ← hround, herr] at hrun
        cases hrun
    · rcases allocateGuestMemory_fits h.sound hround (Nat.not_lt.mp hlarge) with
        ⟨hok, -⟩ | ⟨a, F', r, hr, -, -, hallocate, hok, hsound, -⟩
      · rw [call, hok] at hrun
        cases hrun
        exact ⟨F, A, h.unconfigured, hpages.extend (extends_withSlot _ _) (fun _ => id) rfl⟩
      · rw [call, hok] at hrun
        cases hrun
        exact ⟨F', _, h.allocated hr (hround ▸ dvd_roundUpToPage hwords) hallocate hsound,
          hpages.extend (extends_withSlot _ _) (has_mono (Set.subset_insert _ _)) (allocateRange_frame hallocate).2.2⟩
  | free guestStart size =>
    obtain ⟨R, a, F', A', hfree, hfreed⟩ := freeRange_any h.sound.layout (freedRange_stop_lt guestStart size)
      h.sound.redundant fun e he => (h.sound.stop_le he).trans_lt hostPhysMemorySize_lt
    obtain ⟨hdropped, -⟩ := freeRange_dropped h.sound.layout h.refs hfree hfreed.layout
    rw [call, freeGuestMemory, hfree] at hrun
    split at hrun
    · cases hrun
    · cases hrun
      refine ⟨F', A', h.freed hwords.1 hfree (h.sound.freed hfreed), hpages.hostAlarmsSlot, hpages.idtSlot,
        hpages.hostAlarmsPage, hpages.idtPage, hpages.apart, fun u hu => ?_⟩
      rw [or_comm, or_iff_not_imp_left]
      intro hnone
      exact (hdropped.destroyed u).mpr ((hpages.has u hu).imp_right fun hhas => ⟨hhas, hnone⟩)

lemma setup_ranges : (setup >>= fun m => pure ((m.slots m.hostAlarmsPage), (m.slots m.idtPage))) =
    .ok (⟨true, ⟨0x10001000, 0x10002000⟩, hostPhysMemory + 0x10001000⟩,
      ⟨true, ⟨0x10002000, 0x10003000⟩, hostPhysMemory + 0x10002000⟩) := rfl

lemma setup_pages (hsetup : setup = .ok m) : ∃ F A, m.Tidy F A ∧ m.Pages A := by
  obtain ⟨F, A, h, hmon⟩ := setup_monitored hsetup
  have hranges := setup_ranges
  rw [hsetup, ok_bind] at hranges
  obtain ⟨halarms, hidt⟩ := Prod.mk.inj (ok.inj hranges)
  refine ⟨F, A, h, hmon.hostAlarmsSlot, hmon.idtSlot, by rw [halarms], by rw [hidt], by rw [halarms, hidt]; decide,
    fun u hu => .inr ?_⟩
  rcases hu with rfl | rfl
  · refine has_of_owned (hmon.hostAlarmsPage 0x10001000 ?_)
    rw [slotSpace, halarms]
    exact ⟨le_rfl, by norm_num⟩
  · refine has_of_owned (hmon.idtPage 0x10002000 ?_)
    rw [slotSpace, hidt]
    exact ⟨le_rfl, by norm_num⟩

/-! ### The search for a page -/

/-- Where an address lies with respect to a mapping. -/
def compValue (hostAddr : ℕ) (mp : Mmapper) : ℤ :=
  if hostAddr < mp.hostAddr then (hostAddr : ℤ) - mp.hostAddr
  else if mp.hostAddr + mp.size ≤ hostAddr then (hostAddr : ℤ) - (mp.hostAddr + mp.size - 1 : ℕ)
  else 0

lemma mmapperPageComp_eq {hostAddr : ℕ} {mp : Mmapper} (hkey : hostAddr < 2 ^ 31) (hpos : 0 < mp.size)
    (hbound : mp.hostAddr + mp.size ≤ 2 ^ 31) : mmapperPageComp hostAddr mp = .ok (compValue hostAddr mp) := by
  have hend : u32 (mp.hostAddr + mp.size) = mp.hostAddr + mp.size := u32_of_lt (by omega)
  have hlast : sub32 (mp.hostAddr + mp.size) 1 = mp.hostAddr + mp.size - 1 := sub32_of_le (by omega) (by omega)
  unfold mmapperPageComp compValue
  rw [hend, hlast]
  by_cases hlt : hostAddr < mp.hostAddr
  · rw [if_pos hlt, if_pos hlt, int32_sub32 (by omega) (by omega)]
    rfl
  · rw [if_neg hlt, if_neg hlt]
    by_cases hgt : mp.hostAddr + mp.size ≤ hostAddr
    · rw [if_pos (by omega), if_pos hgt, int32_sub32 (by omega) (by omega)]
      rfl
    · rw [if_neg (by omega), if_neg hgt, if_pos (by omega)]
      rfl

lemma compValue_eq_zero {hostAddr : ℕ} {mp : Mmapper} (hpos : 0 < mp.size) :
    compValue hostAddr mp = 0 ↔ mp.hostAddr ≤ hostAddr ∧ hostAddr < mp.hostAddr + mp.size := by
  unfold compValue
  split
  · omega
  · split <;> omega

lemma Ascending.le {segs : List SwapSegment} {start : ℕ} (h : Ascending start segs) :
    ∀ seg ∈ segs, start ≤ seg.vaddr := by
  induction segs generalizing start with
  | nil => exact fun seg hseg => absurd hseg not_mem_nil
  | cons seg segs ih =>
    intro x hx
    rcases mem_cons.mp hx with rfl | hx
    · exact h.1
    · have := ih h.2 x hx
      have := h.1
      omega

/-- The search through the mappings of ascending segments. -/
lemma findPageFileOffset_spec {segs : List SwapSegment} (hproper : Proper segs) {start : ℕ}
    (hasc : Ascending start segs) {page : ℕ} (hpage : page < hostPhysMemorySize) :
    ∃ r, findPageFileOffset (mmappersOf segs) page = .ok r ∧
      ((∀ seg ∈ segs, ¬(seg.vaddr ≤ page ∧ page < seg.vaddr + seg.size)) → r = none) ∧
      ∀ seg ∈ segs, seg.vaddr ≤ page → page < seg.vaddr + seg.size → r = some (seg.offset + (page - seg.vaddr)) := by
  have hhost : hostPhysMemory + hostPhysMemorySize < 2 ^ 31 := by decide
  have hkey : u32 (page + hostPhysMemory) = hostPhysMemory + page := by
    rw [u32_of_lt (by omega), Nat.add_comm]
  have hcmp : ∀ mp ∈ mmappersOf segs,
      mmapperPageComp (hostPhysMemory + page) mp = .ok (compValue (hostPhysMemory + page) mp) := by
    intro mp hmp
    obtain ⟨seg, hseg, rfl⟩ := mem_map.mp hmp
    obtain ⟨hpos, hbound⟩ := hproper seg hseg
    exact mmapperPageComp_eq (by omega) hpos (by dsimp only; omega)
  have hsorted : (mmappersOf segs).Pairwise fun x y =>
      compValue (hostPhysMemory + page) x ≤ 0 → compValue (hostPhysMemory + page) y < 0 := by
    clear hcmp
    induction segs generalizing start with
    | nil => exact List.Pairwise.nil
    | cons seg segs ih =>
      refine pairwise_cons.mpr ⟨fun mp hmp hle => ?_, ih (fun x hx => hproper x (mem_cons_of_mem _ hx)) hasc.2⟩
      obtain ⟨seg', hseg', rfl⟩ := mem_map.mp hmp
      have hafter := hasc.2.le seg' hseg'
      have hpos := (hproper seg (mem_cons_self ..)).1
      have hbefore : hostPhysMemory + page < hostPhysMemory + seg'.vaddr := by
        unfold compValue at hle
        dsimp only at hle
        split at hle
        · omega
        · split at hle <;> omega
      unfold compValue
      dsimp only
      rw [if_pos hbefore]
      omega
  obtain ⟨r, hrun, hr⟩ := bsearch_spec hcmp hsorted
  have hat : ∀ seg ∈ segs, seg.vaddr ≤ page → page < seg.vaddr + seg.size →
      r = some ⟨hostPhysMemory + seg.vaddr, seg.size, seg.offset⟩ := by
    intro seg hseg hle hlt
    refine (hr _).mpr ⟨mem_map.mpr ⟨seg, hseg, rfl⟩, (compValue_eq_zero (hproper seg hseg).1).mpr ?_⟩
    dsimp only
    omega
  refine ⟨r.map fun mp => mp.fpOffset + (hostPhysMemory + page - mp.hostAddr), ?_, fun hnone => ?_,
    fun seg hseg hle hlt => ?_⟩
  · rw [findPageFileOffset, hkey, hrun, ok_bind]
    cases r <;> rfl
  · cases r with
    | none => rfl
    | some mp =>
      obtain ⟨hmp, hzero⟩ := (hr mp).mp rfl
      obtain ⟨seg, hseg, rfl⟩ := mem_map.mp hmp
      obtain ⟨hle, hlt⟩ := (compValue_eq_zero (hproper seg hseg).1).mp hzero
      dsimp only at hle hlt
      exact absurd ⟨by omega, by omega⟩ (hnone seg hseg)
  · rw [hat seg hseg hle hlt]
    simp only [map_some, Nat.add_sub_add_left]

/-! ### The bytes of a page -/

@[simp] lemma length_bytesAt (addr size : ℕ) : (bytesAt memory addr size).length = size := by simp [bytesAt]

lemma field_bytesAt {addr size off len : ℕ} (h : off + len ≤ size) :
    field (bytesAt memory addr size) off len = bytesAt memory (addr + off) len := by
  refine ext_getElem ?_ fun i hi hi' => ?_
  · rw [length_field (by rw [length_bytesAt]; exact h), length_bytesAt]
  · simp only [field, bytesAt, getElem_take, getElem_drop, getElem_map, getElem_range]
    rw [Nat.add_assoc]

lemma field_left {a b : Bytes} {off len : ℕ} (h : off + len ≤ a.length) : field (a ++ b) off len = field a off len := by
  rw [field, field, drop_append_of_le_length (by omega), take_append_of_le_length (by simp; omega)]

variable (memory) in
lemma field_pagesOf : ∀ (es : List (RangeByStartElt ℕ)) (offset : ℕ),
    offset + (m.pagesOf memory es).length < 2 ^ 32 → ∀ seg ∈ m.segmentsOf es offset, ∀ d len, d + len ≤ seg.size →
      offset ≤ seg.offset ∧ field (m.pagesOf memory es) (seg.offset - offset + d) len =
        bytesAt memory (hostPhysMemory + seg.vaddr + d) len := by
  intro es
  induction es with
  | nil => exact fun offset _ seg hseg => absurd hseg not_mem_nil
  | cons e es ih =>
    intro offset hlen seg hseg d len hd
    rw [pagesOf, length_append, length_bytesAt] at hlen
    rcases mem_cons.mp hseg with rfl | hseg
    · refine ⟨le_rfl, ?_⟩
      dsimp only at hd ⊢
      rw [Nat.sub_self, Nat.zero_add, pagesOf, field_left (by rw [length_bytesAt]; exact hd), field_bytesAt hd]
    · rw [u32_of_lt (by omega)] at hseg
      obtain ⟨hle, hfield⟩ := ih (offset + (m.extent e).size) (by omega) seg hseg d len hd
      refine ⟨by omega, ?_⟩
      rw [pagesOf, field_skip (by rw [length_bytesAt]; omega), length_bytesAt, ← hfield]
      congr 1
      omega

/-! ### Whole slots -/

lemma mem_segmentsOf {offset : ℕ} {seg : SwapSegment} (hseg : seg ∈ m.segmentsOf es offset) :
    ∃ e ∈ es, seg.vaddr = (m.extent e).start ∧ seg.size = (m.extent e).size := by
  induction es generalizing offset with
  | nil => exact absurd hseg not_mem_nil
  | cons e es ih =>
    rcases mem_cons.mp hseg with rfl | hseg
    · exact ⟨e, mem_cons_self .., rfl, rfl⟩
    · obtain ⟨f, hf, hf'⟩ := ih hseg
      exact ⟨f, mem_cons_of_mem _ hf, hf'⟩

lemma exists_mem_segmentsOf (offset : ℕ) {e : RangeByStartElt ℕ} (he : e ∈ es) :
    ∃ seg ∈ m.segmentsOf es offset, seg.vaddr = (m.extent e).start ∧ seg.size = (m.extent e).size := by
  induction es generalizing offset with
  | nil => exact absurd he not_mem_nil
  | cons f es ih =>
    rcases mem_cons.mp he with rfl | he
    · exact ⟨_, mem_cons_self .., rfl, rfl⟩
    · obtain ⟨seg, hseg, hseg'⟩ := ih (u32 (offset + (m.extent f).size)) he
      exact ⟨seg, mem_cons_of_mem _ hseg, hseg'⟩

lemma Tidy.proper (h : m.Tidy F A) (hes : InOrder A es) (offset : ℕ) : Proper (m.segmentsOf es offset) := by
  intro seg hseg
  obtain ⟨e, he, hvaddr, hsize⟩ := mem_segmentsOf hseg
  have := h.extent_spec ((hes.mem e).mp he)
  rw [hvaddr, hsize, Range.size_eq]
  omega

lemma Tidy.mem_rangesOf (h : m.Tidy F A) (hes : InOrder A es) (offset : ℕ) (r : Range) :
    r ∈ rangesOf (m.segmentsOf es offset) ↔ ∃ e ∈ A, m.extent e = r := by
  have hrange : ∀ e ∈ A, (⟨(m.extent e).start, (m.extent e).start + (m.extent e).size⟩ : Range) = m.extent e := by
    intro e he
    have := h.extent_spec he
    rw [Range.size_eq, Nat.add_sub_cancel' (by omega)]
  constructor
  · intro hr
    obtain ⟨seg, hseg, rfl⟩ := mem_map.mp hr
    obtain ⟨e, he, hvaddr, hsize⟩ := mem_segmentsOf hseg
    have he := (hes.mem e).mp he
    exact ⟨e, he, by rw [hvaddr, hsize, hrange e he]⟩
  · rintro ⟨e, he, rfl⟩
    obtain ⟨seg, hseg, hvaddr, hsize⟩ := exists_mem_segmentsOf offset ((hes.mem e).mpr he)
    exact mem_map.mpr ⟨seg, hseg, by rw [hvaddr, hsize, hrange e he]⟩

lemma ncard_range_image {s : CoalescingAllocator ℕ} (h : s.AllocatedTree A) :
    (RangeByStartElt.range '' A).ncard = A.ncard :=
  Set.InjOn.ncard_image fun e he _ hf heq => h.disjointed.eq_of_mem he hf (x := e.range.start)
    ⟨le_rfl, h.disjointed.nonempty e he⟩ (heq ▸ ⟨le_rfl, h.disjointed.nonempty e he⟩)

lemma Tidy.ascending (h : m.Tidy F A) (hwhole : ∀ e ∈ A, m.extent e = e.range) :
    ∀ (es : List (RangeByStartElt ℕ)) (start offset : ℕ), (∀ e ∈ es, e ∈ A ∧ start ≤ e.range.start) →
      es.Pairwise (fun e f => e.range.start < f.range.start) → Ascending start (m.segmentsOf es offset) := by
  intro es
  induction es with
  | nil => exact fun start offset _ _ => trivial
  | cons e es ih =>
    intro start offset hmem hsorted
    obtain ⟨he, hstart⟩ := hmem e (mem_cons_self ..)
    have hne := h.sound.layout.allocated.disjointed.nonempty e he
    refine ⟨by rw [hwhole e he]; exact hstart, ih _ _ (fun f hf => ?_) hsorted.of_cons⟩
    obtain ⟨hfA, -⟩ := hmem f (mem_cons_of_mem _ hf)
    have hlt := rel_of_pairwise_cons hsorted hf
    have hne' := h.sound.layout.allocated.disjointed.nonempty f hfA
    have hdisj : e.range.stop ≤ f.range.start ∨ f.range.stop ≤ e.range.start :=
      h.sound.layout.allocated.disjointed.disjoint e he f hfA (by rintro rfl; exact hlt.false)
    refine ⟨hfA, ?_⟩
    dsimp only
    rw [hwhole e he, Range.size_eq]
    omega

variable (m memory) in
lemma length_pagesOf_le : ∀ (es : List (RangeByStartElt ℕ)) (start offset : ℕ),
    Ascending start (m.segmentsOf es offset) → Proper (m.segmentsOf es offset) → start ≤ hostPhysMemorySize →
      start + (m.pagesOf memory es).length ≤ hostPhysMemorySize := by
  intro es
  induction es with
  | nil =>
    intro start offset _ _ hstart
    exact hstart
  | cons e es ih =>
    intro start offset hasc hproper hstart
    have hseg := hproper _ (mem_cons_self ..)
    have hle := hasc.1
    have := ih _ _ hasc.2 (fun x hx => hproper x (mem_cons_of_mem _ hx)) hseg.2
    rw [pagesOf, length_append, length_bytesAt]
    dsimp only at this hle
    omega

lemma Whole.extent_eq (hwhole : m.Whole) (h : m.Tidy F A) {e : RangeByStartElt ℕ} (he : e ∈ A) :
    m.extent e = e.range := by
  have hne := h.sound.layout.allocated.disjointed.nonempty e he
  obtain ⟨k, hobj, -, -, hextent⟩ := h.slot_of he
  rcases lookupValue_spec h.sound.layout.allocated e.range.start with ⟨f, hf, hle, hlt, hrun⟩ | ⟨hnot, -⟩
  · obtain rfl := h.sound.layout.allocated.disjointed.eq_of_mem he hf ⟨le_rfl, hne⟩ ⟨hle, hlt⟩
    rw [hobj] at hrun
    rw [hextent, hwhole.slots _ _ _ hrun]
  · exact absurd (mem_allocatedSpace.mpr ⟨e, he, le_rfl, hne⟩) hnot

/-- WHOLE slots are saved and loaded. -/
lemma Whole.resumes (hwhole : m.Whole) (h : m.Tidy F A) (hpages : m.Pages A) (memory : ℕ → UInt8) :
    m.Resumes memory := by
  obtain ⟨es, hes⟩ := h.sound.exists_inOrder
  have hextent : ∀ e ∈ A, m.extent e = e.range := fun e he => hwhole.extent_eq h he
  have hproper := h.proper hes 0
  have hguest : allocatedSpace A ⊆ guestSpace := h.sound.space ▸ Set.subset_union_right
  have hasc : Ascending guestAddrStart (m.segmentsOf es 0) := h.ascending hextent es _ _ (fun e he => by
    have he := (hes.mem e).mp he
    exact ⟨he, (hguest (mem_allocatedSpace.mpr
      ⟨e, he, le_rfl, h.sound.layout.allocated.disjointed.nonempty e he⟩)).1⟩) hes.sorted
  -- the monitor's pages are among the segments
  have hpage : ∀ u, (∃ x, m.Owner x u) → u ∉ m.allocator.destroyed ∧
      ∃ seg ∈ m.segmentsOf es 0, seg.vaddr = (m.slots u).guestRange.start := by
    intro u hu
    obtain ⟨e, he, hobj⟩ := (h.sound.exists_owner_iff u).mp hu
    obtain ⟨o, ho, -, halive⟩ := h.refs.objects e he
    have hu : o.obj = u := by
      rw [userObjOf, ho] at hobj
      exact some.inj hobj
    obtain ⟨seg, hseg, hvaddr, -⟩ := exists_mem_segmentsOf (m := m) 0 ((hes.mem e).mpr he)
    exact ⟨hu ▸ halive, seg, hseg, by rw [hvaddr, extent, hobj]; rfl⟩
  obtain ⟨halive, seg, hseg, halarms⟩ := hpage _ hwhole.hostAlarmsPage
  obtain ⟨halive', seg', hseg', hidt⟩ := hpage _ hwhole.idtPage
  have hemit := emitSwapfile_eq memory h hes halive halive' hpages.hostAlarmsPage hpages.idtPage
  obtain ⟨m', F', hload, hlayout, hfree⟩ := loadSwap_spec
    ⟨(m.slots m.hostAlarmsPage).guestRange.start, (m.slots m.idtPage).guestRange.start, m.segmentsOf es 0,
      m.pagesOf memory es⟩ hproper hasc ⟨seg, hseg, halarms⟩ ⟨seg', hseg', by rw [hidt]; exact hpages.apart, hidt⟩
  -- the ranges are those of before
  have hranges : RangeByStartElt.range '' loadedElts (rangesOf (m.segmentsOf es 0)) = RangeByStartElt.range '' A := by
    rw [range_image_loadedElts]
    ext r
    rw [Set.mem_ofPred_eq, h.mem_rangesOf hes]
    exact exists_congr fun e => and_congr_right fun he => by rw [hextent e he]
  have hspace : allocatedSpace (loadedElts (rangesOf (m.segmentsOf es 0))) = allocatedSpace A := by
    have himage : ∀ B : Set (RangeByStartElt ℕ), allocatedSpace B =
        { x | ∃ r ∈ RangeByStartElt.range '' B, r.start ≤ x ∧ x < r.stop } := fun B => by
      ext x
      simp [mem_allocatedSpace]
    rw [himage, hranges, ← himage]
  have hF : F' = F := by
    have hcover : freeSpace F' = freeSpace F := by rw [hfree, hspace, h.sound.freeSpace_eq]
    ext r
    constructor
    · intro hr
      obtain ⟨q, hq, hstart, hstop⟩ :=
        hlayout.free.coalesced.exists_of_covered_eq h.sound.layout.free.coalesced hcover hr
      rwa [show r = q from Range.mk.injEq .. ▸ ⟨hstart.symm, hstop.symm⟩]
    · intro hr
      obtain ⟨q, hq, hstart, hstop⟩ :=
        h.sound.layout.free.coalesced.exists_of_covered_eq hlayout.free.coalesced hcover.symm hr
      rwa [show r = q from Range.mk.injEq .. ▸ ⟨hstart.symm, hstop.symm⟩]
  refine ⟨_, m', _, hemit, hload, ⟨F, A, _, h.sound.layout, hF ▸ hlayout, hranges, ?_⟩, fun page hpage hdvd => ?_⟩
  · rw [hlayout.allocated.count, h.sound.layout.allocated.count, ← ncard_range_image hlayout.allocated, hranges,
      ncard_range_image h.sound.layout.allocated]
  · obtain ⟨r, hfind, hnone, hsome⟩ := findPageFileOffset_spec hproper hasc hpage.2
    refine ⟨?_, fun hfree => ?_⟩
    · rintro ⟨slot, howner⟩
      obtain ⟨e, he, hle, hlt, -⟩ := (h.sound.owner_iff page slot).mp howner
      obtain ⟨x, hx, hvaddr, hsize⟩ := exists_mem_segmentsOf (m := m) 0 ((hes.mem e).mpr he)
      rw [hextent e he] at hvaddr hsize
      rw [Range.size_eq] at hsize
      obtain ⟨hstart, hstop⟩ := h.ends e he
      -- the whole page is in the segment
      have hin : page - x.vaddr + pageSize ≤ x.size := by
        rw [pageSize] at hdvd ⊢
        omega
      have hlen := length_pagesOf_le m memory es _ _ hasc hproper (by decide)
      have hsizes := hostPhysMemorySize_lt
      obtain ⟨-, hfield⟩ := field_pagesOf memory es 0 (by omega) x hx _ _ hin
      refine ⟨x.offset + (page - x.vaddr), by rw [hfind, hsome x hx (by omega) (by omega)], ?_⟩
      rw [Nat.sub_zero] at hfield
      rw [hfield]
      congr 1
      omega
    · rw [hfind, hnone]
      rintro x hx ⟨hle, hlt⟩
      obtain ⟨e, he, hvaddr, hsize⟩ := mem_segmentsOf hx
      have he := (hes.mem e).mp he
      rw [hextent e he] at hvaddr hsize
      rw [Range.size_eq] at hsize
      obtain ⟨k, hobj, -⟩ := h.slot_of he
      exact hfree k ((h.sound.owner_iff page k).mpr ⟨e, he, by omega, by omega, hobj⟩)

/-- And nothing else is. -/
lemma Resumes.whole (hresumes : m.Resumes memory) (h : m.Tidy F A) (hpages : m.Pages A) : m.Whole := by
  obtain ⟨file, m', mmapperList, hemit, hload, ⟨F1, A1, A1', h1, h1', hranges, -⟩, -⟩ := hresumes
  obtain ⟨es, hes⟩ := h.sound.exists_inOrder
  obtain ⟨halive, halive'⟩ := emitSwapfile_live hemit
  rw [emitSwapfile_eq memory h hes halive halive' hpages.hostAlarmsPage hpages.idtPage] at hemit
  obtain rfl := ok.inj hemit
  have hproper := h.proper hes 0
  -- what has been loaded are the extents
  obtain ⟨l, hsegments, hrest⟩ := of_bind hload
  have hasc := loadSegments_ascending _ loaded_start hproper hsegments
  obtain ⟨l', F', hrun, hloaded, -⟩ := loadSegments_spec _ loaded_start hproper hasc
  obtain rfl := ok.inj (hrun.symm.trans hsegments)
  rw [nil_append] at hloaded
  obtain ⟨s, hfill, hrest⟩ := of_bind hrest
  have hlow := hostPhysMemorySize_lt
  obtain ⟨a, b, F'', hfill', -, -, -⟩ := fillGap_spec ⟨l'.lastGuestRangeEnd, hostPhysMemorySize⟩
    hloaded.layout.free hloaded.below (show hostPhysMemorySize ≤ 2 ^ 31 by omega)
  obtain rfl := ok.inj (hfill'.symm.trans hfill)
  have hallocator : m'.allocator = l'.allocator.withFree a b := by
    revert hrest
    cases l'.hostAlarmsPage with
    | none => exact fun hrest => by cases hrest
    | some alarms =>
      cases l'.idtPage with
      | none => exact fun hrest => by cases hrest
      | some idt =>
        intro hrest
        rw [← (Prod.mk.inj (ok.inj hrest)).1]
  have hA' : A1' = loadedElts (rangesOf (m.segmentsOf es 0)) :=
    h1'.allocated.unique (hloaded.layout.allocated.congr (by rw [hallocator]; rfl) (by rw [hallocator]; rfl))
  rw [hA', h1.allocated.unique h.sound.layout.allocated, range_image_loadedElts] at hranges
  have hextent : ∀ e ∈ A, m.extent e = e.range := by
    intro e he
    have hin : m.extent e ∈ { r | r ∈ rangesOf (m.segmentsOf es 0) } := (h.mem_rangesOf hes 0 _).mpr ⟨e, he, rfl⟩
    rw [hranges] at hin
    obtain ⟨f, hf, hrange⟩ := hin
    have hspec := h.extent_spec he
    rw [← hrange] at hspec
    obtain rfl := h.sound.layout.allocated.disjointed.eq_of_mem he hf (x := e.range.start) ⟨le_rfl, hspec.2.1⟩
      ⟨hspec.1, by omega⟩
    exact hrange.symm
  refine ⟨fun x slot range hlookup => ?_, ?_, ?_⟩
  · rcases lookupValue_spec h.sound.layout.allocated x with ⟨e, he, -, -, hrun⟩ | ⟨-, hrun⟩
    · rw [hrun] at hlookup
      obtain ⟨hobj, hrange⟩ := Prod.mk.inj (some.inj (ok.inj hlookup))
      rw [← hrange, ← hextent e he, extent, hobj]
      rfl
    · rw [hrun] at hlookup
      cases ok.inj hlookup
  · exact (h.sound.exists_owner_iff _).mpr ((hpages.has _ (.inl rfl)).resolve_left halive)
  · exact (h.sound.exists_owner_iff _).mpr ((hpages.has _ (.inr rfl)).resolve_left halive')

/-- REACHABLE: guest calls with words as arguments, after the constructor. -/
lemma run_pages {m0 : GuestMemory} (hsetup : setup = .ok m0) (calls : List Call)
    (hwords : Along call (fun _ => Words) m0 calls) (hrun : run call m0 calls = .ok m) :
    ∃ F A, m.Tidy F A ∧ m.Pages A :=
  run_invariant (fun _ c _ hinv hwords hcall => call_pages c hinv hwords hcall) calls m0 m (setup_pages hsetup) hwords
    hrun

/-- CHECKPOINT: in every state that guest calls reach, saving and loading preserves memory exactly if no slot
    has been freed in part and the monitor's pages are still there. -/
theorem resumes_iff_whole {m₀ : GuestMemory} (hsetup : setup = .ok m₀) (calls : List Call)
    (hwords : Along call (fun _ => Words) m₀ calls) (hrun : run call m₀ calls = .ok m) (memory : ℕ → UInt8) :
    m.Resumes memory ↔ m.Whole := by
  obtain ⟨F, A, h, hpages⟩ := run_pages hsetup calls hwords hrun
  exact ⟨fun hresumes => hresumes.whole h hpages, fun hwhole => hwhole.resumes h hpages memory⟩

lemma setup_allocated : (setup >>= fun m => m.allocator.firstRange >>= fun first =>
    m.allocator.nextRange ⟨0x10001000, 0x10002000⟩ >>= fun next =>
      pure ((m.hostAlarmsPage, m.idtPage), m.allocator.rangeCount, first, next)) =
    .ok ((0, 1), 2, some (some 0, ⟨0x10001000, 0x10002000⟩), some (some 1, ⟨0x10002000, 0x10003000⟩)) := rfl

lemma setup_whole (hsetup : setup = .ok m) : m.Whole := by
  obtain ⟨F, A, h, hpages⟩ := setup_pages hsetup
  have hranges := setup_ranges
  have hallocated := setup_allocated
  rw [hsetup, ok_bind] at hranges hallocated
  obtain ⟨halarms, hidt⟩ := Prod.mk.inj (ok.inj hranges)
  obtain ⟨es, hes⟩ := h.sound.exists_inOrder
  obtain ⟨first, hfirst, next, hnext, hallocated⟩ := of_bind2 hallocated
  obtain ⟨hslots, hallocated⟩ := Prod.mk.inj (ok.inj hallocated)
  obtain ⟨halarmsSlot, hidtSlot⟩ := Prod.mk.inj hslots
  obtain ⟨hcount, hallocated⟩ := Prod.mk.inj hallocated
  obtain ⟨rfl, rfl⟩ := Prod.mk.inj hallocated
  have hlen : es.length = 2 := hes.length_eq.trans (h.sound.layout.allocated.count.symm.trans hcount)
  obtain ⟨e, f, rfl⟩ := length_eq_two.mp hlen
  rw [firstRange_spec h.sound hes] at hfirst
  obtain ⟨hobj, hrange⟩ := Prod.mk.inj (some.inj (ok.inj hfirst))
  rw [← hrange, nextRange_spec h.sound [] hes] at hnext
  obtain ⟨hobj', hrange'⟩ := Prod.mk.inj (some.inj (ok.inj hnext))
  rw [halarmsSlot] at halarms
  rw [hidtSlot] at hidt
  refine ⟨fun x slot range hlookup => ?_, ?_, ?_⟩
  · rcases lookupValue_spec h.sound.layout.allocated x with ⟨g, hg, -, -, hrun⟩ | ⟨-, hrun⟩
    · rw [hrun] at hlookup
      obtain ⟨hslot, rfl⟩ := Prod.mk.inj (some.inj (ok.inj hlookup))
      rcases mem_pair.mp ((hes.mem g).mpr hg) with rfl | rfl
      · rw [← some.inj (hobj.symm.trans hslot), halarms, hrange]
      · rw [← some.inj (hobj'.symm.trans hslot), hidt, hrange']
    · rw [hrun] at hlookup
      cases ok.inj hlookup
  · exact (h.sound.exists_owner_iff _).mpr ⟨e, (hes.mem e).mp (by simp), halarmsSlot ▸ hobj⟩
  · exact (h.sound.exists_owner_iff _).mpr ⟨f, (hes.mem f).mp (by simp), hidtSlot ▸ hobj'⟩

/-- What the constructor leaves is saved and loaded. -/
theorem resumes_iff_whole_setup : ∃ m, setup = .ok m ∧ m.Resumes fun _ => 0 := by
  obtain ⟨m, hsetup⟩ := setup_ok
  exact ⟨m, hsetup, (resumes_iff_whole hsetup [] trivial rfl _).mpr (setup_whole hsetup)⟩

lemma free_one_of_two : (setup >>= fun m => run call m [.allocate 0x2000, .free 0x10003000 0x1000] >>= fun m =>
    m.allocator.lookupValue 0x10004000 >>= fun found => pure ((m.slots 2).guestRange, found)) =
      .ok (⟨0x10003000, 0x10005000⟩, some (some 2, ⟨0x10004000, 0x10005000⟩)) := rfl

/-- Checkpoint and resume do not preserve memory: a page freed of an allocation of two comes back. -/
theorem not_resumes : ¬∀ (m₀ m : GuestMemory) (calls : List Call) (memory : ℕ → UInt8), setup = .ok m₀ →
    Along call (fun _ => Words) m₀ calls → run call m₀ calls = .ok m → m.Resumes memory := by
  intro hall
  obtain ⟨m₀, hsetup⟩ := setup_ok
  have hfree := free_one_of_two
  rw [hsetup, ok_bind] at hfree
  obtain ⟨m, hm, found, hfound, hpure⟩ := of_bind2 hfree
  obtain ⟨hrange, rfl⟩ := Prod.mk.inj (Except.ok.inj hpure)
  have hwords : Along call (fun _ => Words) m₀ [.allocate 0x2000, .free 0x10003000 0x1000] :=
    ⟨by norm_num [Words], fun _ _ => ⟨⟨by norm_num, by norm_num⟩, fun _ _ => trivial⟩⟩
  obtain ⟨F, A, h, hpages⟩ := run_pages hsetup _ hwords hm
  have hwhole := (hall m₀ m _ (fun _ => 0) hsetup hwords hm).whole h hpages
  have heq := hwhole.slots _ _ _ hfound
  rw [hrange] at heq
  exact absurd heq (by decide)

end Embassies.Monitor.GuestMemory
