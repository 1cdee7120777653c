import Embassies.Monitor.Checkpoint
import Embassies.Monitor.GuestMemoryLaws

/-! What is saved and what is loaded.

    The segments are the extents of the slots of the allocated ranges, in the order of these ranges. Loading
    them succeeds exactly if each starts where the one before ends, or later, and then they are allocated and
    everything between them is free. -/

namespace Embassies.Monitor.GuestMemory

open Checked Utils CoalescingAllocator AVLTree List Set MemSlot

variable {m : GuestMemory} {F : Set Range} {A : Set (RangeByStartElt ℕ)} {memory : ℕ → UInt8}
variable {file : Swapfile} {es : List (RangeByStartElt ℕ)} {l : Loading} {s : CoalescingAllocator ℕ}
  {e : RangeByStartElt ℕ} {seg : SwapSegment}

/-! ### Saving -/

def extent (m : GuestMemory) (e : RangeByStartElt ℕ) : Range := (m.slots ((userObjOf e).getD 0)).guestRange

/-- The segments for allocated ranges, from an offset in the page file on. -/
def segmentsOf (m : GuestMemory) : List (RangeByStartElt ℕ) → (offset : ℕ) → List SwapSegment
  | [], _ => []
  | e :: es, offset =>
    ⟨(m.extent e).start, (m.extent e).size, offset⟩ :: segmentsOf m es (u32 (offset + (m.extent e).size))

def pagesOf (m : GuestMemory) (memory : ℕ → UInt8) : List (RangeByStartElt ℕ) → Bytes
  | [] => []
  | e :: es => bytesAt memory (hostPhysMemory + (m.extent e).start) (m.extent e).size ++ pagesOf m memory es

/-- The allocated ranges in order. -/
structure InOrder (A : Set (RangeByStartElt ℕ)) (es : List (RangeByStartElt ℕ)) : Prop where
  mem : ∀ e, e ∈ es ↔ e ∈ A
  sorted : es.Pairwise fun e f => e.range.start < f.range.start

lemma Sound.exists_inOrder (h : m.Sound F A) : ∃ es, InOrder A es := by
  obtain ⟨es, -, hsorted, hmem⟩ := h.layout.allocated.stores
  exact ⟨es, hmem, hsorted.pairwise⟩

lemma InOrder.length_eq (h : InOrder A es) : es.length = A.ncard := by
  have hnodup : es.Nodup := h.sorted.imp fun hlt heq => hlt.ne (by rw [heq])
  have hset : (es.toFinset : Set (RangeByStartElt ℕ)) = A := by
    ext e
    simp [h.mem]
  rw [← hset, ncard_coe_finset, toFinset_card_of_nodup hnodup]

/-- What the loop holds when it comes to the first of some ranges. -/
def current (es : List (RangeByStartElt ℕ)) : Option (Option ℕ × Range) := es.head?.map fun e => (userObjOf e, e.range)

lemma Tidy.slot_of (h : m.Tidy F A) (he : e ∈ A) :
    ∃ k, userObjOf e = some k ∧ m.memSlotAt k = .ok (m.slots k) ∧ Backs (m.slots k) e.range ∧
      m.extent e = (m.slots k).guestRange := by
  obtain ⟨o, ho, -, hback⟩ := h.sound.backed e he
  obtain ⟨o', ho', -, halive⟩ := h.refs.objects e he
  cases ho.symm.trans ho'
  have hobj : userObjOf e = some o.obj := by rw [userObjOf, ho]; rfl
  exact ⟨o.obj, hobj, memSlotAt_live halive, hback, by rw [extent, hobj]; rfl⟩

lemma Tidy.extent_spec (h : m.Tidy F A) (he : e ∈ A) :
    (m.extent e).start ≤ e.range.start ∧ e.range.start < e.range.stop ∧ e.range.stop ≤ (m.extent e).stop ∧
      (m.extent e).stop ≤ hostPhysMemorySize := by
  obtain ⟨k, -, -, hback, hextent⟩ := h.slot_of he
  rw [hextent]
  exact ⟨hback.start, h.sound.layout.allocated.disjointed.nonempty e he, hback.stop, hback.bound⟩

lemma firstRange_spec (h : m.Sound F A) (hes : InOrder A es) : m.allocator.firstRange = .ok (current es) := by
  obtain ⟨x, hrun, hx⟩ := h.layout.allocated.stores.findMin byStart_ordered
  have hhead : x = es.head? := by
    cases es with
    | nil =>
      cases x with
      | none => rfl
      | some e => exact absurd ((hes.mem e).mpr hx.1) not_mem_nil
    | cons e es =>
      have he := (hes.mem e).mp (mem_cons_self ..)
      cases x with
      | none => exact absurd trivial (hx e he)
      | some y =>
        have hle : y.range.start ≤ e.range.start := hx.2.2 e he trivial
        rcases mem_cons.mp ((hes.mem y).mpr hx.1) with rfl | hy
        · rfl
        · have := rel_of_pairwise_cons hes.sorted hy
          omega
  rw [firstRange, hrun, hhead]
  rfl

lemma nextRange_spec (h : m.Sound F A) (before : List (RangeByStartElt ℕ)) {after : List (RangeByStartElt ℕ)}
    (hes : InOrder A (before ++ e :: after)) : m.allocator.nextRange e.range = .ok (current after) := by
  have he := (hes.mem e).mp (by simp)
  obtain ⟨x, hrun, hx⟩ := h.layout.allocated.stores.findFirstGreaterThan byStart_ordered
    (h.layout.allocated.mem_startKeys he)
  obtain ⟨-, hafter, hcross⟩ := pairwise_append.mp hes.sorted
  -- what starts later than this range comes after it
  have hlater : ∀ y ∈ A, e.range.start < y.range.start → y ∈ after := by
    intro y hy hlt
    rcases mem_append.mp ((hes.mem y).mpr hy) with hy | hy
    · have := hcross y hy e (mem_cons_self ..)
      omega
    · rcases mem_cons.mp hy with rfl | hy
      · omega
      · exact hy
  have hhead : x = after.head? := by
    cases after with
    | nil =>
      cases x with
      | none => rfl
      | some y => exact absurd (hlater y hx.1 hx.2.1) not_mem_nil
    | cons f after =>
      have hf := (hes.mem f).mp (by simp)
      have hef := rel_of_pairwise_cons hafter (mem_cons_self ..)
      cases x with
      | none => exact absurd hef (hx f hf)
      | some y =>
        have hle : y.range.start ≤ f.range.start := hx.2.2 f hf hef
        rcases mem_cons.mp (hlater y hx.1 hx.2.1) with rfl | hy
        · rfl
        · have := rel_of_pairwise_cons hafter.of_cons hy
          omega
  rw [nextRange, hrun, hhead]
  rfl

variable (memory) in
lemma emitSegments_spec (h : m.Tidy F A) : ∀ (after before : List (RangeByStartElt ℕ)) (fuel offset : ℕ),
    InOrder A (before ++ after) → after.length < fuel →
      m.emitSegments memory fuel (current after) offset = .ok (m.segmentsOf after offset, m.pagesOf memory after) := by
  intro after
  induction after with
  | nil =>
    intro before fuel offset hes hfuel
    cases fuel with
    | zero => exact absurd hfuel (Nat.not_lt_zero _)
    | succ fuel => rfl
  | cons e after ih =>
    intro before fuel offset hes hfuel
    cases fuel with
    | zero => exact absurd hfuel (Nat.not_lt_zero _)
    | succ fuel =>
      have he := (hes.mem e).mp (by simp)
      obtain ⟨k, hobj, hat, hback, hextent⟩ := h.slot_of he
      have hrest := ih (before ++ [e]) fuel (u32 (offset + (m.extent e).size)) (by simpa using hes)
        (Nat.lt_of_succ_lt_succ hfuel)
      have hcurrent : current (e :: after) = some (some k, e.range) := by rw [← hobj]; rfl
      rw [hextent] at hrest
      rw [hcurrent]
      simp only [emitSegments, hat, ok_bind, getGuestAddr, getSize, getHostAddr,
        liteAssert_pos hback.configured, pure_eq_ok, nextRange_spec h.sound before hes, hrest, segmentsOf, pagesOf,
        hextent, hback.hostAddr]

lemma length_segmentsOf : ∀ (es : List (RangeByStartElt ℕ)) (offset : ℕ), (m.segmentsOf es offset).length = es.length
  | [], _ => rfl
  | _ :: es, _ => congrArg (· + 1) (length_segmentsOf es _)

variable (memory) in
/-- EMIT: the file has the extents of the slots, if the monitor's own slots are still there. -/
lemma emitSwapfile_eq (h : m.Tidy F A) (hes : InOrder A es) (halarms : m.hostAlarmsPage ∉ m.allocator.destroyed)
    (hidt : m.idtPage ∉ m.allocator.destroyed) (hconf : (m.slots m.hostAlarmsPage).configured = true)
    (hconf' : (m.slots m.idtPage).configured = true) :
    m.emitSwapfile memory = .ok ⟨(m.slots m.hostAlarmsPage).guestRange.start, (m.slots m.idtPage).guestRange.start,
      m.segmentsOf es 0, m.pagesOf memory es⟩ := by
  have hcount : m.allocator.rangeCount = es.length := h.sound.layout.allocated.count.trans hes.length_eq.symm
  have hloop := emitSegments_spec memory h es [] (es.length + 1) 0 hes (Nat.lt_succ_self _)
  simp only [emitSwapfile, memSlotAt_live halarms, memSlotAt_live hidt, ok_bind, getGuestAddr,
    liteAssert_pos hconf, liteAssert_pos hconf', pure_eq_ok, firstRange_spec h.sound hes, hcount, hloop,
    length_segmentsOf, liteAssert_pos]

lemma emitSwapfile_live (hrun : m.emitSwapfile memory = .ok file) :
    m.hostAlarmsPage ∉ m.allocator.destroyed ∧ m.idtPage ∉ m.allocator.destroyed := by
  have hlive : ∀ {k slot}, m.memSlotAt k = .ok slot → k ∉ m.allocator.destroyed := by
    intro k slot hat hdead
    rw [memSlotAt, if_pos hdead] at hat
    cases hat
  obtain ⟨_, hat, _, -, hrun⟩ := of_bind2 hrun
  obtain ⟨_, hat', -⟩ := of_bind hrun
  exact ⟨hlive hat, hlive hat'⟩

/-! ### Loading -/

/-- The allocated ranges of what has been loaded: each has the slot of its number. -/
def loadedElts (rs : List Range) : Set (RangeByStartElt ℕ) :=
  { e | ∃ i, rs[i]? = some e.range ∧ e.refcountedUserObj = some ⟨i, i⟩ }

lemma loadedElts_concat (rs : List Range) (r : Range) :
    loadedElts (rs ++ [r]) = insert ⟨r, some ⟨rs.length, rs.length⟩⟩ (loadedElts rs) := by
  ext ⟨range, o⟩
  constructor
  · rintro ⟨i, hi, ho⟩
    by_cases hlt : i < rs.length
    · rw [List.getElem?_append_left hlt] at hi
      exact .inr ⟨i, hi, ho⟩
    · obtain ⟨hlen, -⟩ := List.getElem?_eq_some_iff.mp hi
      rw [List.length_append, List.length_singleton] at hlen
      obtain rfl : i = rs.length := by omega
      rw [List.getElem?_concat_length] at hi
      dsimp only at ho hi
      rw [ho, ← Option.some.inj hi]
      exact .inl rfl
  · rintro (heq | ⟨i, hi, ho⟩)
    · obtain ⟨rfl, rfl⟩ := RangeByStartElt.mk.inj heq
      exact ⟨rs.length, List.getElem?_concat_length .., rfl⟩
    · refine ⟨i, ?_, ho⟩
      obtain ⟨hlt, -⟩ := List.getElem?_eq_some_iff.mp hi
      rw [List.getElem?_append_left hlt, hi]

lemma range_image_loadedElts (rs : List Range) : RangeByStartElt.range '' loadedElts rs = { r | r ∈ rs } := by
  ext r
  constructor
  · rintro ⟨e, ⟨i, hi, -⟩, rfl⟩
    exact mem_iff_getElem?.mpr ⟨i, hi⟩
  · intro hr
    obtain ⟨i, hi⟩ := mem_iff_getElem?.mp hr
    exact ⟨⟨r, some ⟨i, i⟩⟩, ⟨i, hi, rfl⟩, rfl⟩

/-- THE STATE of the load loop after some ranges. -/
structure Loaded (l : Loading) (rs : List Range) (F : Set Range) : Prop where
  layout : l.allocator.Layout F (loadedElts rs)
  nextSlot : l.nextSlot = rs.length
  nextObj : l.allocator.nextObj = rs.length
  space : freeSpace F ∪ allocatedSpace (loadedElts rs) = Set.Ico guestAddrStart l.lastGuestRangeEnd
  below : ∀ q ∈ F, q.stop < l.lastGuestRangeEnd
  start : guestAddrStart ≤ l.lastGuestRangeEnd
  stop : l.lastGuestRangeEnd ≤ hostPhysMemorySize

lemma loadedElts_nil : loadedElts [] = ∅ := by
  refine eq_empty_of_forall_notMem ?_
  rintro e ⟨i, hi, -⟩
  cases hi

lemma loaded_start : Loaded .start [] ∅ := by
  refine ⟨loadedElts_nil ▸ init_layout true, rfl, rfl, ?_, nofun, le_rfl, by decide⟩
  rw [loadedElts_nil, freeSpace, covered_empty, allocatedSpace, covered_empty, union_empty, Loading.start, Set.Ico_self]

lemma fillGap_spec (gap : Range) (h : s.FreeTrees F) (hbelow : ∀ q ∈ F, q.stop < gap.start) (hbound : gap.stop ≤ 2 ^ 31)
    : ∃ a b F', fillGap s gap = .ok (s.withFree a b) ∧ (s.withFree a b).FreeTrees F' ∧
      freeSpace F' = freeSpace F ∪ Set.Ico gap.start gap.stop ∧ ∀ q ∈ F', q ∈ F ∨ q = gap := by
  by_cases hgap : gap.start < gap.stop
  · obtain ⟨a, b, hrun, hF⟩ := insertCoalescedFreeRange_spec h hgap hbound fun q hq => .inl (hbelow q hq)
    exact ⟨a, b, insert gap F, by rw [fillGap, if_pos hgap, forceInsertCoalescedFreeRange, hrun], hF, covered_insert,
      fun q hq => hq.symm⟩
  · refine ⟨s.freeBySizeTree, s.freeByStartTree, F, by rw [fillGap, if_neg hgap]; rfl, h, ?_, fun q hq => .inl hq⟩
    rw [Set.Ico_eq_empty hgap, union_empty]

/-- The state of the loop with one more segment. -/
def Loading.add (l : Loading) (allocator : CoalescingAllocator ℕ) (seg : SwapSegment) : Loading :=
  { l with
    allocator
    slots := Function.update l.slots l.nextSlot
      ⟨true, ⟨seg.vaddr, seg.vaddr + seg.size⟩, hostPhysMemory + seg.vaddr⟩
    nextSlot := l.nextSlot + 1
    mmapperList := l.mmapperList ++ [⟨hostPhysMemory + seg.vaddr, seg.size, seg.offset⟩]
    lastGuestRangeEnd := seg.vaddr + seg.size }

/-- What a segment adds to the state of the loop. -/
structure Adds (file : Swapfile) (l : Loading) (seg : SwapSegment) (l' : Loading) : Prop where
  stop : l'.lastGuestRangeEnd = seg.vaddr + seg.size
  mmapperList : l'.mmapperList = l.mmapperList ++ [⟨hostPhysMemory + seg.vaddr, seg.size, seg.offset⟩]
  hostAlarmsPage : l'.hostAlarmsPage.isSome = true ↔
    l.hostAlarmsPage.isSome = true ∨ seg.vaddr = file.hostAlarmsPageGuestAddr
  idtPage : l'.idtPage.isSome = true ↔ l.idtPage.isSome = true ∨
    seg.vaddr ≠ file.hostAlarmsPageGuestAddr ∧ seg.vaddr = file.idtPageGuestAddr

lemma recognize_cases (l : Loading) (file : Swapfile) (start memSlot : ℕ) :
    (start = file.hostAlarmsPageGuestAddr ∧
      l.recognize file start memSlot = { l with hostAlarmsPage := some memSlot }) ∨
    ((start ≠ file.hostAlarmsPageGuestAddr ∧ start = file.idtPageGuestAddr) ∧
      l.recognize file start memSlot = { l with idtPage := some memSlot }) ∨
    (start ≠ file.hostAlarmsPageGuestAddr ∧ start ≠ file.idtPageGuestAddr ∧ l.recognize file start memSlot = l) := by
  by_cases halarms : start = file.hostAlarmsPageGuestAddr
  · exact .inl ⟨halarms, if_pos halarms⟩
  · by_cases hidt : start = file.idtPageGuestAddr
    · exact .inr (.inl ⟨⟨halarms, hidt⟩, (if_neg halarms).trans (if_pos hidt)⟩)
    · exact .inr (.inr ⟨halarms, hidt, (if_neg halarms).trans (if_neg hidt)⟩)

lemma Loaded.recognize {rs : List Range} (h : Loaded l rs F) (file : Swapfile) (start memSlot : ℕ) :
    Loaded (l.recognize file start memSlot) rs F := by
  rcases recognize_cases l file start memSlot with ⟨-, heq⟩ | ⟨-, heq⟩ | ⟨-, -, heq⟩
  · rw [heq]
    exact ⟨h.layout, h.nextSlot, h.nextObj, h.space, h.below, h.start, h.stop⟩
  · rw [heq]
    exact ⟨h.layout, h.nextSlot, h.nextObj, h.space, h.below, h.start, h.stop⟩
  · rwa [heq]

lemma adds_recognize (file : Swapfile) (l : Loading) (s : CoalescingAllocator ℕ) (seg : SwapSegment) (memSlot : ℕ) :
    Adds file l seg ((l.add s seg).recognize file seg.vaddr memSlot) := by
  rcases recognize_cases (l.add s seg) file seg.vaddr memSlot with ⟨hstart, heq⟩ | ⟨hstart, heq⟩ | ⟨hne, hne', heq⟩
  · rw [heq]
    exact ⟨rfl, rfl, iff_of_true rfl (.inr hstart), ⟨.inl, fun h => h.elim id fun h => absurd hstart h.1⟩⟩
  · rw [heq]
    exact ⟨rfl, rfl, ⟨.inl, fun h => h.elim id fun h => absurd h hstart.1⟩, iff_of_true rfl (.inr hstart)⟩
  · rw [heq]
    exact ⟨rfl, rfl, ⟨.inl, fun h => h.elim id fun h => absurd h hne⟩,
      ⟨.inl, fun h => h.elim id fun h => absurd h.2 hne'⟩⟩

lemma allocateRangeAt_eq {start size k : ℕ} (hpos : 0 < size) (hbound : start + size ≤ 2 ^ 31) :
    s.allocateRangeAt start size k =
      s.allocateElt ⟨start, start + size⟩ k >>= fun s' => pure (s', some ⟨start, start + size⟩) := by
  have hword : u32 (start + size) = start + size := u32_of_lt (by omega)
  have hfit : ((⟨start, start + size⟩ : Range).intersect ⟨start, start + size⟩).size = size := by
    rw [Range.size_intersect]
    dsimp only
    omega
  simp only [allocateRangeAt, if_neg hpos.ne', hword, liteAssert_pos hfit, ok_bind]

lemma loadSegment_eq {s' : CoalescingAllocator ℕ} (hpos : 0 < seg.size) (hbound : seg.vaddr + seg.size ≤ 2 ^ 31)
    (hallocate : l.allocator.allocateElt ⟨seg.vaddr, seg.vaddr + seg.size⟩ l.nextSlot = .ok s)
    (hnext : l.lastGuestRangeEnd ≤ seg.vaddr) (hfill : fillGap s ⟨l.lastGuestRangeEnd, seg.vaddr⟩ = .ok s') :
    loadSegment file l seg = .ok ((l.add s' seg).recognize file seg.vaddr l.nextSlot) := by
  simp only [loadSegment, allocateRangeAt_eq hpos hbound, hallocate, ok_bind, pure_eq_ok,
    configure, unconfigured, liteAssert_pos, hnext, hfill, Loading.add]

lemma managed_add {S T : Set ℕ} {a b c d : ℕ} (h : S ∪ T = Set.Ico a b) (hab : a ≤ b) (hbc : b ≤ c) (hcd : c ≤ d) :
    S ∪ Set.Ico b c ∪ (T ∪ Set.Ico c d) = Set.Ico a d := by
  rw [← Set.Ico_union_Ico_eq_Ico (hab.trans hbc) hcd, ← Set.Ico_union_Ico_eq_Ico hab hbc, ← h]
  ext x
  simp only [mem_union]
  tauto

/-- STEP: a segment that starts after the last one is loaded. -/
lemma loadSegment_spec {rs : List Range} (h : Loaded l rs F) (hpos : 0 < seg.size)
    (hbound : seg.vaddr + seg.size ≤ hostPhysMemorySize) (hnext : l.lastGuestRangeEnd ≤ seg.vaddr) :
    ∃ l' F', loadSegment file l seg = .ok l' ∧ Loaded l' (rs ++ [⟨seg.vaddr, seg.vaddr + seg.size⟩]) F' ∧
      Adds file l seg l' := by
  have hword : seg.vaddr + seg.size ≤ 2 ^ 31 := hbound.trans hostPhysMemorySize_lt.le
  -- what is loaded lies below the segment
  have hbelow : ∀ x ∈ freeSpace F ∪ allocatedSpace (loadedElts rs), x < l.lastGuestRangeEnd := fun x hx =>
    (h.space ▸ hx : x ∈ Set.Ico guestAddrStart l.lastGuestRangeEnd).2
  have hbehind : Disjoint (Set.Ico seg.vaddr (seg.vaddr + seg.size)) (allocatedSpace (loadedElts rs)) :=
    disjoint_left.mpr fun x hx hx' => absurd hx.1 (not_le.mpr ((hbelow x (.inr hx')).trans_le hnext))
  obtain ⟨s1, hallocate, hA, hsize, hstart, -⟩ := allocateElt_spec (r := ⟨seg.vaddr, seg.vaddr + seg.size⟩)
    h.layout.allocated (Nat.lt_add_of_pos_right hpos) hword hbehind l.nextSlot
  obtain ⟨-, hnextObj, -⟩ := allocateElt_frame hallocate
  obtain ⟨a, b, F', hfill, hF', hspace, hmem⟩ := fillGap_spec ⟨l.lastGuestRangeEnd, seg.vaddr⟩
    (h.layout.free.congr hsize hstart) h.below ((Nat.le_add_right _ _).trans hword)
  rw [h.nextObj, h.nextSlot] at hA
  refine ⟨_, F', loadSegment_eq hpos hword hallocate hnext hfill, .recognize ?_ _ _ _, adds_recognize _ _ _ _ _⟩
  have hfree : ∀ x ∈ freeSpace F', x < seg.vaddr := by
    rw [hspace]
    rintro x (hx | hx)
    · exact (hbelow x (.inl hx)).trans_le hnext
    · exact hx.2
  have hgap : Disjoint (Set.Ico l.lastGuestRangeEnd seg.vaddr) (allocatedSpace (loadedElts rs)) :=
    disjoint_left.mpr fun x hx hx' => absurd hx.1 (not_le.mpr (hbelow x (.inr hx')))
  have hnew : allocatedSpace (loadedElts (rs ++ [⟨seg.vaddr, seg.vaddr + seg.size⟩])) =
      allocatedSpace (loadedElts rs) ∪ Set.Ico seg.vaddr (seg.vaddr + seg.size) := by
    rw [loadedElts_concat]
    exact covered_insert
  refine ⟨⟨hF', ?_, ?_⟩, ?_, ?_, ?_, fun q hq => ?_, ?_, hbound⟩
  · rw [loadedElts_concat]
    exact hA.congr rfl rfl
  · rw [hnew, disjoint_union_right]
    refine ⟨?_, disjoint_left.mpr fun x hx hx' => absurd hx'.1 (not_le.mpr (hfree x hx))⟩
    rw [hspace, disjoint_union_left]
    exact ⟨h.layout.disjoint, hgap⟩
  · rw [length_append, length_singleton, ← h.nextSlot]
    rfl
  · rw [length_append, length_singleton, ← h.nextObj]
    exact hnextObj
  · rw [hnew, hspace]
    exact managed_add h.space h.start hnext (Nat.le_add_right _ _)
  · rcases hmem q hq with hq | rfl
    · exact (h.below q hq).trans_le (hnext.trans (Nat.le_add_right _ _))
    · exact Nat.lt_add_of_pos_right hpos
  · exact h.start.trans (hnext.trans (Nat.le_add_right _ _))

lemma loadSegment_after {l' : Loading} (hpos : 0 < seg.size) (hbound : seg.vaddr + seg.size ≤ hostPhysMemorySize)
    (hrun : loadSegment file l seg = .ok l') : l.lastGuestRangeEnd ≤ seg.vaddr := by
  have hlow := hostPhysMemorySize_lt
  rw [loadSegment, allocateRangeAt_eq hpos (by omega)] at hrun
  obtain ⟨⟨s, range⟩, hallocate, hrun⟩ := of_bind hrun
  obtain ⟨s1, -, hallocate⟩ := of_bind hallocate
  cases hallocate
  obtain ⟨slot, -, hrun⟩ := of_bind hrun
  obtain ⟨u, hassert, -⟩ := of_bind hrun
  exact (liteAssert_eq_ok _ u).mp hassert

/-- Segments that start where the ones before end, or later. -/
def Ascending : (start : ℕ) → List SwapSegment → Prop
  | _, [] => True
  | start, seg :: segs => start ≤ seg.vaddr ∧ Ascending (seg.vaddr + seg.size) segs

def rangesOf (segs : List SwapSegment) : List Range := segs.map fun seg => ⟨seg.vaddr, seg.vaddr + seg.size⟩

def mmappersOf (segs : List SwapSegment) : List Mmapper :=
  segs.map fun seg => ⟨hostPhysMemory + seg.vaddr, seg.size, seg.offset⟩

/-- Segments with bytes in them, in guest memory. -/
def Proper (segs : List SwapSegment) : Prop :=
  ∀ seg ∈ segs, 0 < seg.size ∧ seg.vaddr + seg.size ≤ hostPhysMemorySize

/-- LOAD loop: ascending segments are loaded. -/
lemma loadSegments_spec : ∀ (segs : List SwapSegment) {l : Loading} {rs : List Range}
    {F : Set Range}, Loaded l rs F → Proper segs → Ascending l.lastGuestRangeEnd segs →
      ∃ l' F', loadSegments file segs l = .ok l' ∧ Loaded l' (rs ++ rangesOf segs) F' ∧
        l'.mmapperList = l.mmapperList ++ mmappersOf segs ∧
        (l'.hostAlarmsPage.isSome = true ↔ l.hostAlarmsPage.isSome = true ∨
          ∃ seg ∈ segs, seg.vaddr = file.hostAlarmsPageGuestAddr) ∧
        (l'.idtPage.isSome = true ↔ l.idtPage.isSome = true ∨
          ∃ seg ∈ segs, seg.vaddr ≠ file.hostAlarmsPageGuestAddr ∧ seg.vaddr = file.idtPageGuestAddr) := by
  intro segs
  induction segs with
  | nil =>
    intro l rs F h _ _
    exact ⟨l, F, rfl, by simpa [rangesOf] using h, by simp [mmappersOf], by simp, by simp⟩
  | cons seg segs ih =>
    intro l rs F h hproper hasc
    obtain ⟨hpos, hbound⟩ := hproper seg (mem_cons_self ..)
    obtain ⟨l1, F1, hrun, h1, hadds⟩ := loadSegment_spec h hpos hbound hasc.1
    obtain ⟨l', F', hrest, h', hlist, halarms, hidt⟩ := ih h1 (fun x hx => hproper x (mem_cons_of_mem _ hx))
      (hadds.stop ▸ hasc.2)
    refine ⟨l', F', by rw [loadSegments, hrun, ok_bind, hrest], ?_, ?_, ?_, ?_⟩
    · rw [append_assoc] at h'
      exact h'
    · rw [hlist, hadds.mmapperList, append_assoc]
      rfl
    · rw [halarms, hadds.hostAlarmsPage, or_assoc, exists_mem_cons_iff]
    · rw [hidt, hadds.idtPage, or_assoc, exists_mem_cons_iff]

lemma loadSegments_ascending : ∀ (segs : List SwapSegment) {l l' : Loading} {rs : List Range}
    {F : Set Range}, Loaded l rs F → Proper segs → loadSegments file segs l = .ok l' →
      Ascending l.lastGuestRangeEnd segs := by
  intro segs
  induction segs with
  | nil =>
    intro l l' rs F _ _ _
    trivial
  | cons seg segs ih =>
    intro l l' rs F h hproper hrun
    obtain ⟨hpos, hbound⟩ := hproper seg (mem_cons_self ..)
    obtain ⟨l1, hseg, hrest⟩ := of_bind hrun
    have hnext := loadSegment_after hpos hbound hseg
    obtain ⟨l2, F1, hrun2, h1, hadds⟩ := loadSegment_spec h hpos hbound hnext
    cases hrun2.symm.trans hseg
    exact ⟨hnext, hadds.stop ▸ ih h1 (fun x hx => hproper x (mem_cons_of_mem _ hx)) hrest⟩

/-- LOAD: ascending segments are allocated, and the rest of guest memory is free. -/
lemma loadSwap_spec (file : Swapfile) (hproper : Proper file.segments) (hasc : Ascending guestAddrStart file.segments)
    (halarms : ∃ seg ∈ file.segments, seg.vaddr = file.hostAlarmsPageGuestAddr)
    (hidt : ∃ seg ∈ file.segments, seg.vaddr ≠ file.hostAlarmsPageGuestAddr ∧ seg.vaddr = file.idtPageGuestAddr) :
    ∃ m' F', loadSwap file = .ok (m', mmappersOf file.segments) ∧
      m'.allocator.Layout F' (loadedElts (rangesOf file.segments)) ∧
      freeSpace F' = guestSpace \ allocatedSpace (loadedElts (rangesOf file.segments)) := by
  obtain ⟨l, F, hrun, h, hlist, halarms', hidt'⟩ := loadSegments_spec file.segments loaded_start hproper hasc
  rw [nil_append] at h
  have hlow := hostPhysMemorySize_lt
  obtain ⟨a, b, F', hfill, hF', hspace, -⟩ := fillGap_spec ⟨l.lastGuestRangeEnd, hostPhysMemorySize⟩
    h.layout.free h.below (show hostPhysMemorySize ≤ 2 ^ 31 by omega)
  obtain ⟨alarms, halarms⟩ := Option.isSome_iff_exists.mp (halarms'.mpr (.inr halarms))
  obtain ⟨idt, hidt⟩ := Option.isSome_iff_exists.mp (hidt'.mpr (.inr hidt))
  have hdisj : Disjoint (freeSpace F') (allocatedSpace (loadedElts (rangesOf file.segments))) := by
    rw [hspace, disjoint_union_left]
    refine ⟨h.layout.disjoint, disjoint_left.mpr fun x hx hx' => ?_⟩
    have hin : x ∈ Set.Ico guestAddrStart l.lastGuestRangeEnd := h.space ▸ .inr hx'
    exact absurd hx.1 (not_le.mpr hin.2)
  have hmanaged : freeSpace F' ∪ allocatedSpace (loadedElts (rangesOf file.segments)) = guestSpace := by
    have hsplit : guestSpace = Set.Ico guestAddrStart l.lastGuestRangeEnd ∪
      Set.Ico l.lastGuestRangeEnd hostPhysMemorySize := (Set.Ico_union_Ico_eq_Ico h.start h.stop).symm
    rw [hsplit, ← h.space, hspace, union_right_comm]
  refine ⟨⟨l.allocator.withFree a b, l.slots, l.nextSlot, alarms, idt⟩, F', ?_,
    ⟨hF', h.layout.allocated.congr rfl rfl, hdisj⟩, ?_⟩
  · have hlist' : l.mmapperList = mmappersOf file.segments := hlist
    simp only [loadSwap, hrun, ok_bind, hfill, halarms, hidt, hlist', pure_eq_ok]
  · rw [← hmanaged, union_sdiff_right, hdisj.sdiff_eq_left]

end Embassies.Monitor.GuestMemory
