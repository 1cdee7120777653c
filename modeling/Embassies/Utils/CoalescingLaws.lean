import Embassies.Lib.Intervals
import Embassies.Utils.CoalescingAllocator

/-! What the operations of `CoalescingAllocator` do to its free and allocated ranges.

    The comparisons are those of linear orders as long as addresses stay below `2^31`. There the trees are
    sets of ranges; the free ranges are kept apart by gaps, so the space they cover determines them, and
    each operation is described by what it does to the covered space. -/

namespace Embassies.Utils

open Checked Set

variable {U : Type}

namespace Range

lemma size_eq (r : Range) : r.size = r.stop - r.start := by
  unfold size
  split <;> omega

lemma size_intersect (r q : Range) :
    (r.intersect q).size = min r.stop q.stop - max r.start q.start := size_eq _

def sizeRank (r : Range) : ℕ ×ₗ ℕ := toLex (r.size, r.start)

/-- The keys that `cmpStart` orders. -/
def startKeys : Set Range := { r | r.start < 2 ^ 31 }

/-- The keys that `cmpSize` orders. -/
def sizeKeys : Set Range := { r | r.start < 2 ^ 31 ∧ r.size ≤ 2 ^ 31 ∧ 0 < r.size }

lemma cmpStart_eq {a b : Range} (ha : a ∈ startKeys) (hb : b ∈ startKeys) : cmpStart a b = (a.start : ℤ) - b.start := by
  have ha : a.start < 2 ^ 31 := ha
  have hb : b.start < 2 ^ 31 := hb
  exact int32_sub32 (by omega) (by omega)

lemma cmpSize_eq {a b : Range} (ha : a ∈ sizeKeys) (hb : b ∈ sizeKeys) :
    cmpSize a b = if a.size = b.size then (a.start : ℤ) - b.start else (a.size : ℤ) - b.size := by
  obtain ⟨ha1, ha2, ha3⟩ : a.start < 2 ^ 31 ∧ a.size ≤ 2 ^ 31 ∧ 0 < a.size := ha
  obtain ⟨hb1, hb2, hb3⟩ : b.start < 2 ^ 31 ∧ b.size ≤ 2 ^ 31 ∧ 0 < b.size := hb
  have hsize : int32 (sub32 a.size b.size) = (a.size : ℤ) - b.size :=
    int32_sub32 (by omega) (by omega)
  have hstart : int32 (sub32 a.start b.start) = (a.start : ℤ) - b.start :=
    int32_sub32 (by omega) (by omega)
  simp only [cmpSize, hsize, hstart]
  split <;> split <;> omega

end Range

open Range in
lemma byStart_ordered : (byStart : AVLKeys (RangeByStartElt U) Range).OrderedOn Range.start startKeys :=
  AVLKeys.ofCmp_ordered (fun a ha b hb => by rw [cmpStart_eq ha hb]; omega)
    (fun a ha b hb => by rw [cmpStart_eq ha hb]; omega)

open Range in
lemma bySize_ordered : bySize.OrderedOn sizeRank sizeKeys := by
  refine AVLKeys.ofCmp_ordered (fun a ha b hb => ?_) (fun a ha b hb => ?_) <;>
    rw [cmpSize_eq ha hb, sizeRank, sizeRank, Prod.Lex.toLex_lt_toLex] <;>
    dsimp only <;> split <;> omega

namespace CoalescingAllocator

open AVLTree Range

variable {F : Set Range} {A : Set (RangeByStartElt U)} {e : RangeByStartElt U}

abbrev freeSpace (F : Set Range) : Set ℕ := covered Range.start Range.stop F

abbrev allocatedSpace (A : Set (RangeByStartElt U)) : Set ℕ :=
  covered (fun e => e.range.start) (fun e => e.range.stop) A

lemma mem_allocatedSpace {x : ℕ} : x ∈ allocatedSpace A ↔ ∃ e ∈ A, e.range.start ≤ x ∧ x < e.range.stop := Iff.rfl

/-- The elements of the by-start tree for a set of free ranges. -/
def freeElts (F : Set Range) : Set (RangeByStartElt U) := { e | e.range ∈ F ∧ e.refcountedUserObj = none }

lemma mem_freeElts : e ∈ freeElts F ↔ e.range ∈ F ∧ e.refcountedUserObj = none := Iff.rfl

lemma freeElts_insert (r : Range) (F : Set Range) :
    (freeElts (insert r F) : Set (RangeByStartElt U)) = insert ⟨r, none⟩ (freeElts F) := by
  ext ⟨q, o⟩
  simp only [mem_freeElts, mem_insert_iff, RangeByStartElt.mk.injEq]
  tauto

lemma freeElts_diff (r : Range) (F : Set Range) :
    (freeElts (F \ {r}) : Set (RangeByStartElt U)) = freeElts F \ {⟨r, none⟩} := by
  ext ⟨q, o⟩
  simp only [mem_freeElts, mem_sdiff, mem_singleton_iff, RangeByStartElt.mk.injEq]
  tauto

/-- THE FREE TREES both hold these ranges, which lie below `2^31` with gaps between them. -/
structure FreeTrees (s : CoalescingAllocator U) (F : Set Range) : Prop where
  size : Stores bySize sizeRank sizeKeys s.freeBySizeTree F
  start : Stores byStart Range.start startKeys s.freeByStartTree (freeElts F)
  bound : ∀ r ∈ F, r.stop ≤ 2 ^ 31
  coalesced : Coalesced Range.start Range.stop F

def withFree (s : CoalescingAllocator U) (freeBySizeTree : AVLTree Range)
    (freeByStartTree : AVLTree (RangeByStartElt U)) : CoalescingAllocator U :=
  { s with freeBySizeTree, freeByStartTree }

section Free

variable {s : CoalescingAllocator U} {F : Set Range} {r : Range}

lemma startKeys_of_lt (h : r.start < r.stop) (hbound : r.stop ≤ 2 ^ 31) : r ∈ startKeys :=
  show r.start < 2 ^ 31 by omega

lemma sizeKeys_of_lt (h : r.start < r.stop) (hbound : r.stop ≤ 2 ^ 31) : r ∈ sizeKeys := by
  show r.start < 2 ^ 31 ∧ r.size ≤ 2 ^ 31 ∧ 0 < r.size
  rw [size_eq]
  omega

section

variable (h : s.FreeTrees F)
include h

lemma FreeTrees.mem_startKeys (hr : r ∈ F) : r ∈ startKeys :=
  startKeys_of_lt (h.coalesced.nonempty r hr) (h.bound r hr)

lemma FreeTrees.mem_sizeKeys (hr : r ∈ F) : r ∈ sizeKeys :=
  sizeKeys_of_lt (h.coalesced.nonempty r hr) (h.bound r hr)

lemma removeFreeRangeByStartElt_spec (hr : r ∈ F) :
    ∃ a b, s.removeFreeRangeByStartElt ⟨r, none⟩ = .ok (s.withFree a b) ∧ (s.withFree a b).FreeTrees (F \ {r}) := by
  obtain ⟨x, hlookup, hx⟩ := h.size.lookup bySize_ordered (h.mem_sizeKeys hr)
  obtain rfl : x = some r := (hx r).mpr ⟨hr, rfl⟩
  obtain ⟨a, hsize, ha⟩ := h.size.remove bySize_ordered (e := r) (h.mem_sizeKeys hr) hr rfl
  obtain ⟨b, hstart, hb⟩ := h.start.remove byStart_ordered (e := (⟨r, none⟩ : RangeByStartElt U)) (h.mem_startKeys hr)
    ⟨hr, rfl⟩ rfl
  rw [← freeElts_diff] at hb
  exact ⟨a, b, by simp [removeFreeRangeByStartElt, hlookup, hsize, hstart, withFree], ha, hb,
    fun q hq => h.bound q hq.1, h.coalesced.mono sdiff_subset⟩

lemma insertCoalescedFreeRange_spec (hr : r.start < r.stop) (hbound : r.stop ≤ 2 ^ 31)
    (hgap : ∀ q ∈ F, q.stop < r.start ∨ r.stop < q.start) :
    ∃ a b, s.insertCoalescedFreeRange r = .ok (s.withFree a b) ∧ (s.withFree a b).FreeTrees (insert r F) := by
  have hapart : ∀ q ∈ F, q.start ≠ r.start := by
    intro q hq
    have := hgap q hq
    have := h.coalesced.nonempty q hq
    omega
  obtain ⟨a, hsize, ha⟩ := h.size.insert bySize_ordered (e := r) (sizeKeys_of_lt hr hbound) fun q hq heq =>
    hapart q hq (congrArg (fun p => (ofLex p).2) heq)
  obtain ⟨b, hstart, hb⟩ := h.start.insert byStart_ordered (e := (⟨r, none⟩ : RangeByStartElt U)) (startKeys_of_lt hr hbound)
    fun e he => hapart e.range he.1
  rw [← freeElts_insert] at hb
  have hpos : 0 < r.size := by rw [size_eq]; omega
  refine ⟨a, b, by simp [insertCoalescedFreeRange, liteAssert_pos hpos, hsize, hstart, withFree], ha, hb, ?_,
    h.coalesced.insert hr hgap⟩
  rintro q (rfl | hq)
  · exact hbound
  · exact h.bound q hq

/-- Coalescing to the left, when nothing free touches the new range on the right. -/
lemma coalesceLeft_spec (hr : r.start < r.stop) (hbound : r.stop ≤ 2 ^ 31)
    (hapart : ∀ q ∈ F, q.stop ≤ r.start ∨ r.stop < q.start) :
    ∃ a b F', s.coalesceLeft r = .ok (s.withFree a b) ∧ (s.withFree a b).FreeTrees F' ∧
      freeSpace F' = freeSpace F ∪ Set.Ico r.start r.stop := by
  obtain ⟨x, hfind, hx⟩ := h.start.findFirstLessThanOrEqualTo byStart_ordered (startKeys_of_lt hr hbound)
  cases x with
  | none =>
    have hright : ∀ q ∈ F, r.stop < q.start := by
      intro q hq
      have hq' : ¬q.start ≤ r.start := hx ⟨q, none⟩ ⟨hq, rfl⟩
      have := hapart q hq
      have := h.coalesced.nonempty q hq
      omega
    obtain ⟨a, b, hrun, hF⟩ := insertCoalescedFreeRange_spec h hr hbound fun q hq => .inr (hright q hq)
    exact ⟨a, b, _, by simp [coalesceLeft, hfind, hrun], hF, covered_insert⟩
  | some p =>
    obtain ⟨p, o⟩ := p
    obtain ⟨⟨hp, ho⟩, hle, hbest⟩ := hx
    dsimp only at ho hp
    obtain rfl : o = none := ho
    replace hle : p.start ≤ r.start := hle
    have hpne := h.coalesced.nonempty p hp
    have hpr : p.stop ≤ r.start := by
      have := hapart p hp
      omega
    have hleft : ∀ q ∈ F, q ≠ p → q.stop < p.start ∨ r.stop < q.start := by
      intro q hq hne
      have hq' : q.start ≤ r.start → q.start ≤ p.start := fun hqr =>
        hbest ⟨q, none⟩ ⟨hq, rfl⟩ hqr
      have := h.coalesced.gap q hq p hp hne
      have := h.coalesced.nonempty q hq
      have := hapart q hq
      omega
    by_cases htouch : p.stop = r.start
    · obtain ⟨a, b, hremove, hF⟩ := removeFreeRangeByStartElt_spec h hp
      obtain ⟨a', b', hinsert, hF'⟩ := insertCoalescedFreeRange_spec (r := ⟨p.start, r.stop⟩) hF
        (show p.start < r.stop by omega) hbound fun q hq => hleft q hq.1 hq.2
      refine ⟨a', b', _, ?_, hF', ?_⟩
      · simp only [coalesceLeft, hfind, ok_bind, liteAssert_pos hpr, if_pos htouch, hremove]
        exact hinsert
      · rw [freeSpace, freeSpace, covered_insert, h.coalesced.disjointed.covered_diff hp]
        rw [← htouch]
        exact diff_union_Ico_left (c := r.stop) (by omega) (by omega) fun x hx => ⟨p, hp, hx⟩
    · obtain ⟨a, b, hrun, hF⟩ := insertCoalescedFreeRange_spec h hr hbound fun q hq => by
        obtain rfl | hqp := eq_or_ne q p
        · omega
        · have := hleft q hq hqp
          omega
      exact ⟨a, b, _, by simp [coalesceLeft, hfind, liteAssert_pos hpr, htouch, hrun], hF, covered_insert⟩

lemma createEmptyRangeFrom_of_gap (hr : r.start < r.stop) (hbound : r.stop ≤ 2 ^ 31)
    (hapart : ∀ q ∈ F, q.stop ≤ r.start ∨ r.stop < q.start) (f : ℕ) :
    s.createEmptyRangeFrom (f + 1) r = s.coalesceLeft r := by
  obtain ⟨x, hfind, hx⟩ := h.start.findFirstGreaterThanOrEqualTo byStart_ordered (startKeys_of_lt hr hbound)
  cases x with
  | none => simp [createEmptyRangeFrom, hfind]
  | some e =>
    obtain ⟨⟨he, -⟩, hge, -⟩ := hx
    have hright : r.stop < e.range.start := by
      replace hge : r.start ≤ e.range.start := hge
      have := hapart e.range he
      have := h.coalesced.nonempty e.range he
      omega
    simp [createEmptyRangeFrom, hfind, liteAssert_pos hright.le, hright.ne']

/-- CREATE: a range that overlaps no free one becomes free. -/
lemma createEmptyRange_spec (hr : r.start < r.stop) (hbound : r.stop ≤ 2 ^ 31)
    (hdisj : Disjoint (Set.Ico r.start r.stop) (freeSpace F)) :
    ∃ a b F', s.createEmptyRange r = .ok (s.withFree a b) ∧ (s.withFree a b).FreeTrees F' ∧
      freeSpace F' = freeSpace F ∪ Set.Ico r.start r.stop := by
  have hapart := (h.coalesced.disjointed.apart_iff hr).mp hdisj
  obtain ⟨x, hfind, hx⟩ := h.start.findFirstGreaterThanOrEqualTo byStart_ordered (startKeys_of_lt hr hbound)
  cases x with
  | none =>
    obtain ⟨a, b, F', hrun, hF, hspace⟩ := coalesceLeft_spec h hr hbound fun q hq => by
      have hq' : ¬r.start ≤ q.start := hx ⟨q, none⟩ ⟨hq, rfl⟩
      have := hapart q hq
      omega
    exact ⟨a, b, F', by simp [createEmptyRange, createEmptyRangeFrom, hfind, hrun], hF, hspace⟩
  | some e =>
    obtain ⟨p, o⟩ := e
    obtain ⟨⟨hp, ho⟩, hge, hbest⟩ := hx
    dsimp only at ho hp
    obtain rfl : o = none := ho
    replace hge : r.start ≤ p.start := hge
    have hpne := h.coalesced.nonempty p hp
    have hrp : r.stop ≤ p.start := by
      have := hapart p hp
      omega
    have hbehind : ∀ q ∈ F, q ≠ p → q.stop ≤ r.start ∨ p.stop < q.start := by
      intro q hq hne
      have hq' : r.start ≤ q.start → p.start ≤ q.start := fun hqr =>
        hbest ⟨q, none⟩ ⟨hq, rfl⟩ hqr
      have := h.coalesced.gap q hq p hp hne
      have := h.coalesced.nonempty q hq
      have := hapart q hq
      omega
    by_cases htouch : p.start = r.stop
    · -- the union with the following range has a gap on its right
      obtain ⟨a, b, hremove, hF⟩ := removeFreeRangeByStartElt_spec h hp
      have hu : r.start < p.stop := by omega
      have hgap : ∀ q ∈ F \ {p}, q.stop ≤ r.start ∨ p.stop < q.start := fun q hq => hbehind q hq.1 hq.2
      obtain ⟨a', b', F', hleft, hF', hspace⟩ := coalesceLeft_spec (r := ⟨r.start, p.stop⟩) hF hu (h.bound p hp) hgap
      refine ⟨a', b', F', ?_, hF', ?_⟩
      · have hrec := createEmptyRangeFrom_of_gap (r := ⟨r.start, p.stop⟩) hF hu (h.bound p hp) hgap
          s.freeByStartTree.allocated
        simp only [createEmptyRange, createEmptyRangeFrom, hfind, ok_bind, liteAssert_pos hrp, if_pos htouch, hremove]
        exact hrec.trans hleft
      · rw [hspace, freeSpace, freeSpace, h.coalesced.disjointed.covered_diff hp]
        rw [← htouch]
        exact diff_union_Ico_right (by omega) (by omega) fun x hx => ⟨p, hp, hx⟩
    · obtain ⟨a, b, F', hrun, hF, hspace⟩ := coalesceLeft_spec h hr hbound fun q hq => by
        obtain rfl | hqp := eq_or_ne q p
        · omega
        · have := hbehind q hq hqp
          omega
      exact ⟨a, b, F', by simp [createEmptyRange, createEmptyRangeFrom, hfind, liteAssert_pos hrp, htouch, hrun],
        hF, hspace⟩

end

end Free

/-- THE ALLOCATED TREE holds these elements, which lie below `2^31`, do not overlap and are counted. -/
structure AllocatedTree (s : CoalescingAllocator U) (A : Set (RangeByStartElt U)) : Prop where
  stores : Stores byStart Range.start startKeys s.allocatedTree A
  bound : ∀ e ∈ A, e.range.stop ≤ 2 ^ 31
  disjointed : Disjointed (fun e : RangeByStartElt U => e.range.start) (fun e => e.range.stop) A
  count : s.rangeCount = A.ncard

section Allocated

variable {s : CoalescingAllocator U} {A : Set (RangeByStartElt U)} {e : RangeByStartElt U}

section

variable (h : s.AllocatedTree A)
include h

lemma AllocatedTree.mem_startKeys (he : e ∈ A) : e.range ∈ startKeys :=
  startKeys_of_lt (h.disjointed.nonempty e he) (h.bound e he)

lemma AllocatedTree.ncard_le : A.ncard ≤ 2 ^ 31 := h.disjointed.ncard_le h.bound

lemma AllocatedTree.insert (hne : e.range.start < e.range.stop) (hbound : e.range.stop ≤ 2 ^ 31)
    (hdisj : Disjoint (Set.Ico e.range.start e.range.stop) (allocatedSpace A)) :
    ∃ t, s.allocatedTree.insert byStart e = .ok t ∧ ∀ s' : CoalescingAllocator U,
      s'.allocatedTree = t → s'.rangeCount = u32 (s.rangeCount + 1) → s'.AllocatedTree (insert e A) := by
  have hapart := (h.disjointed.apart_iff hne).mp hdisj
  have hnew : ∀ x ∈ A, x.range.start ≠ e.range.start := by
    intro x hx
    have := hapart x hx
    have := h.disjointed.nonempty x hx
    omega
  have hnotMem : e ∉ A := fun he => hnew e he rfl
  obtain ⟨t, hrun, ht⟩ := h.stores.insert byStart_ordered (startKeys_of_lt hne hbound) hnew
  refine ⟨t, hrun, fun s' htree hcount => ⟨htree ▸ ht, ?_, h.disjointed.insert hne hapart, ?_⟩⟩
  · rintro x (rfl | hx)
    · exact hbound
    · exact h.bound x hx
  · have := h.ncard_le
    rw [hcount, h.count, ncard_insert_of_notMem hnotMem h.stores.finite, u32_of_lt (by omega)]

lemma AllocatedTree.remove (he : e ∈ A) :
    ∃ t, s.allocatedTree.remove byStart e = .ok t ∧ ∀ s' : CoalescingAllocator U,
      s'.allocatedTree = t → s'.rangeCount = sub32 s.rangeCount 1 → s'.AllocatedTree (A \ {e}) := by
  obtain ⟨t, hrun, ht⟩ := h.stores.remove byStart_ordered (h.mem_startKeys he) he rfl
  refine ⟨t, hrun, fun s' htree hcount => ⟨htree ▸ ht, fun x hx => h.bound x hx.1, h.disjointed.mono sdiff_subset, ?_⟩⟩
  have hle := h.ncard_le
  have hcard := ncard_sdiff_singleton_add_one he h.stores.finite
  rw [hcount, h.count, sub32_of_le (by omega) (by omega)]
  omega

end

end Allocated

/-- THE STATE of the allocator: free and allocated ranges, which do not overlap. -/
structure Layout (s : CoalescingAllocator U) (F : Set Range) (A : Set (RangeByStartElt U)) : Prop where
  free : s.FreeTrees F
  allocated : s.AllocatedTree A
  disjoint : Disjoint (freeSpace F) (allocatedSpace A)

/-- The allocated ranges `A'` are parts of those of `A`, with the same objects. -/
def Fragments (A' A : Set (RangeByStartElt U)) : Prop :=
  ∀ e' ∈ A', ∃ e ∈ A, e'.refcountedUserObj = e.refcountedUserObj ∧ e.range.start ≤ e'.range.start ∧
    e'.range.stop ≤ e.range.stop

lemma Fragments.refl (A : Set (RangeByStartElt U)) : Fragments A A := fun e he => ⟨e, he, rfl, le_rfl, le_rfl⟩

lemma Fragments.trans {B C : Set (RangeByStartElt U)} (hAB : Fragments A B) (hBC : Fragments B C) : Fragments A C := by
  intro a ha
  obtain ⟨b, hb, hobj, hstart, hstop⟩ := hAB a ha
  obtain ⟨c, hc, hobj', hstart', hstop'⟩ := hBC b hb
  exact ⟨c, hc, hobj.trans hobj', by omega, by omega⟩

lemma managed_allocate {F' : Set Range} (hsub : Set.Ico e.range.start e.range.stop ⊆ freeSpace F)
    (hspace : freeSpace F' = freeSpace F \ Set.Ico e.range.start e.range.stop) :
    freeSpace F' ∪ allocatedSpace (insert e A) = freeSpace F ∪ allocatedSpace A := by
  rw [hspace, allocatedSpace, covered_insert, union_comm (covered _ _ A), ← union_assoc, sdiff_union_of_subset hsub]

lemma FreeTrees.congr {s s' : CoalescingAllocator U} (h : s.FreeTrees F) (hsize : s'.freeBySizeTree = s.freeBySizeTree)
    (hstart : s'.freeByStartTree = s.freeByStartTree) : s'.FreeTrees F :=
  ⟨hsize ▸ h.size, hstart ▸ h.start, h.bound, h.coalesced⟩

lemma AllocatedTree.congr {s s' : CoalescingAllocator U} (h : s.AllocatedTree A)
    (htree : s'.allocatedTree = s.allocatedTree) (hcount : s'.rangeCount = s.rangeCount) : s'.AllocatedTree A :=
  ⟨htree ▸ h.stores, h.bound, h.disjointed, hcount.trans h.count⟩

section Calls

variable {s : CoalescingAllocator U} {F : Set Range} {A : Set (RangeByStartElt U)} {r : Range}
  {e : RangeByStartElt U}
variable {R : Set ℕ}

lemma init_layout (allowRedundantFrees : Bool) : (init allowRedundantFrees : CoalescingAllocator U).Layout ∅ ∅ where
  free :=
    { size := .empty
      start := by
        have hempty : (freeElts ∅ : Set (RangeByStartElt U)) = ∅ := eq_empty_of_forall_notMem fun e he => he.1
        rw [hempty]
        exact .empty
      bound := fun r hr => absurd hr (notMem_empty r)
      coalesced := ⟨fun r hr => absurd hr (notMem_empty r), fun r hr => absurd hr (notMem_empty r)⟩ }
  allocated :=
    { stores := .empty
      bound := fun e he => absurd he (notMem_empty e)
      disjointed := ⟨fun e he => absurd he (notMem_empty e), fun e he => absurd he (notMem_empty e)⟩
      count := (ncard_empty _).symm }
  disjoint := by
    rw [freeSpace, covered_empty]
    exact empty_disjoint _

lemma allocateElt_spec (h : s.AllocatedTree A) (hr : r.start < r.stop) (hbound : r.stop ≤ 2 ^ 31)
    (hdisj : Disjoint (Set.Ico r.start r.stop) (allocatedSpace A)) (u : U) :
    ∃ s', s.allocateElt r u = .ok s' ∧ s'.AllocatedTree (insert ⟨r, some ⟨s.nextObj, u⟩⟩ A) ∧
      s'.freeBySizeTree = s.freeBySizeTree ∧ s'.freeByStartTree = s.freeByStartTree ∧
      s'.allowRedundantFrees = s.allowRedundantFrees := by
  obtain ⟨t, hrun, ht⟩ := h.insert (e := ⟨r, some ⟨s.nextObj, u⟩⟩) hr hbound hdisj
  refine ⟨{ addRef { s with nextObj := s.nextObj + 1 } (some ⟨s.nextObj, u⟩) with
    allocatedTree := t, rangeCount := u32 (s.rangeCount + 1) }, ?_, ht _ rfl rfl, rfl, rfl, rfl⟩
  simp [allocateElt, addRef, hrun]

lemma returnLeftover_spec (h : s.FreeTrees F) (hbound : r.stop ≤ 2 ^ 31)
    (hdisj : Disjoint (Set.Ico r.start r.stop) (freeSpace F)) :
    ∃ a b F', s.returnLeftover r = .ok (s.withFree a b) ∧ (s.withFree a b).FreeTrees F' ∧
      freeSpace F' = freeSpace F ∪ Set.Ico r.start r.stop := by
  by_cases hr : r.start < r.stop
  · obtain ⟨a, b, F', hrun, hF, hspace⟩ := createEmptyRange_spec h hr hbound hdisj
    have hpos : 0 < r.size := by rw [size_eq]; omega
    exact ⟨a, b, F', by rw [returnLeftover, if_pos hpos, hrun], hF, hspace⟩
  · have hpos : ¬0 < r.size := by rw [size_eq]; omega
    refine ⟨s.freeBySizeTree, s.freeByStartTree, F, by rw [returnLeftover, if_neg hpos]; rfl, h, ?_⟩
    rw [Set.Ico_eq_empty hr, union_empty]

/-- The front of a free range is allocated, and the rest of it stays free. -/
lemma allocateFrom_spec (h : s.Layout F A) (hr : r ∈ F) {size : ℕ} (hpos : 0 < size) (hsize : size ≤ r.size) (u : U) :
    ∃ s' F', s.allocateFrom r size u = .ok (s', some ⟨r.start, r.start + size⟩) ∧
      s'.Layout F' (insert ⟨⟨r.start, r.start + size⟩, some ⟨s.nextObj, u⟩⟩ A) ∧
      freeSpace F' = freeSpace F \ Set.Ico r.start (r.start + size) ∧
      s'.allowRedundantFrees = s.allowRedundantFrees := by
  have hrne := h.free.coalesced.nonempty r hr
  have hrbound := h.free.bound r hr
  rw [size_eq] at hsize
  have hstop : u32 (r.start + size) = r.start + size := u32_of_lt (by omega)
  have hsub : Set.Ico r.start r.stop ⊆ freeSpace F := fun x hx => ⟨r, hr, hx⟩
  -- the range leaves both trees
  obtain ⟨a, hremove, ha⟩ := h.free.size.remove bySize_ordered (e := r) (h.free.mem_sizeKeys hr) hr rfl
  have hkey : (⟨r.start, r.start + size⟩ : Range) ∈ startKeys := show r.start < 2 ^ 31 by omega
  obtain ⟨x, hlookup, hx⟩ := h.free.start.lookup byStart_ordered hkey
  obtain rfl : x = some ⟨r, none⟩ := (hx _).mpr ⟨⟨hr, rfl⟩, rfl⟩
  obtain ⟨b, hremove', hb⟩ := h.free.start.remove byStart_ordered (e := (⟨r, none⟩ : RangeByStartElt U))
    (h.free.mem_startKeys hr) ⟨hr, rfl⟩ rfl
  rw [← freeElts_diff] at hb
  have hF1 : (s.withFree a b).FreeTrees (F \ {r}) :=
    ⟨ha, hb, fun q hq => h.free.bound q hq.1, h.free.coalesced.mono sdiff_subset⟩
  have hspace1 := h.free.coalesced.disjointed.covered_diff hr
  -- its front is the consumed range
  have hfit : ((⟨r.start, r.start + size⟩ : Range).intersect r).size = size := by
    rw [size_intersect]
    dsimp only
    omega
  obtain ⟨s1, halloc, hA, hfree, hfree', hredundant⟩ := allocateElt_spec (s := s.withFree a b)
    (r := ⟨r.start, r.start + size⟩) (h.allocated.congr rfl rfl) (show r.start < r.start + size by omega)
    (show r.start + size ≤ 2 ^ 31 by omega)
    (h.disjoint.mono_left ((Set.Ico_subset_Ico_right (show r.start + size ≤ r.stop by omega)).trans hsub)) u
  -- and its back is left over
  obtain ⟨a', b', F', hleft, hF', hspace⟩ := returnLeftover_spec (r := ⟨r.start + size, r.stop⟩)
    (hF1.congr hfree hfree') hrbound (by
      rw [freeSpace, hspace1]
      exact disjoint_sdiff_right.mono_left (Set.Ico_subset_Ico_left (Nat.le_add_right _ _)))
  have hends := diff_union_ends (b := r.start) (c := r.start + size) le_rfl (by omega) (by omega) hsub
  rw [Set.Ico_self, union_empty] at hends
  rw [freeSpace, freeSpace, hspace1, hends] at hspace
  refine ⟨_, F', ?_, ⟨hF', hA.congr rfl rfl, ?_⟩, hspace, hredundant⟩
  · simp only [allocateFrom, hremove, ok_bind, hstop, liteAssert_pos hfit, hlookup, hremove']
    rw [show allocateElt { s with freeBySizeTree := a, freeByStartTree := b } _ u = .ok s1 from halloc]
    simp only [ok_bind, hleft, pure_eq_ok]
  · rw [freeSpace, hspace, allocatedSpace, covered_insert, disjoint_union_right]
    exact ⟨h.disjoint.mono_left sdiff_subset, disjoint_sdiff_left⟩

/-- ALLOCATE from the smallest free range that is large enough, if there is one. -/
lemma allocateRange_spec (h : s.Layout F A) {size : ℕ} (hsize : size ≤ 2 ^ 31) (u : U) :
    (s.allocateRange size u = .ok (s, none) ∧ (size = 0 ∨ ∀ r ∈ F, r.size < size)) ∨
    ∃ r s' F', r ∈ F ∧ 0 < size ∧ size ≤ r.size ∧ (∀ q ∈ F, size ≤ q.size → r.sizeRank ≤ q.sizeRank) ∧
      s.allocateRange size u = .ok (s', some ⟨r.start, r.start + size⟩) ∧
      s'.Layout F' (insert ⟨⟨r.start, r.start + size⟩, some ⟨s.nextObj, u⟩⟩ A) ∧
      freeSpace F' = freeSpace F \ Set.Ico r.start (r.start + size) ∧
      s'.allowRedundantFrees = s.allowRedundantFrees := by
  by_cases hzero : size = 0
  · exact .inl ⟨by simp [allocateRange, hzero], .inl hzero⟩
  have hkeySize : (⟨0, size⟩ : Range).size = size := size_eq _
  have hkey : (⟨0, size⟩ : Range) ∈ sizeKeys := by
    show 0 < 2 ^ 31 ∧ _ ∧ _
    rw [hkeySize]
    omega
  obtain ⟨x, hfind, hx⟩ := h.free.size.findFirstGreaterThanOrEqualTo bySize_ordered hkey
  have hrank : ∀ q : Range, sizeRank ⟨0, size⟩ ≤ sizeRank q ↔ size ≤ q.size := by
    intro q
    rw [sizeRank, sizeRank, Prod.Lex.toLex_le_toLex, hkeySize]
    dsimp only
    omega
  cases x with
  | none =>
    refine .inl ⟨by simp [allocateRange, hzero, hfind], .inr fun r hr => ?_⟩
    have hnot : ¬sizeRank ⟨0, size⟩ ≤ sizeRank r := hx r hr
    rw [hrank] at hnot
    omega
  | some r =>
    obtain ⟨hr, hge, hbest⟩ := hx
    have hge : size ≤ r.size := (hrank r).mp hge
    obtain ⟨s', F', hrun, hlayout, hspace, hredundant⟩ := allocateFrom_spec h hr (by omega) hge u
    exact .inr ⟨r, s', F', hr, by omega, hge, fun q hq hq' => hbest q hq ((hrank q).mpr hq'),
      by simp [allocateRange, hzero, hfind, hrun], hlayout, hspace, hredundant⟩

/-- The elements after a side of a split allocation is inserted. -/
def withFragment (A : Set (RangeByStartElt U)) (r : Range) (o : Option (RefcountedUserObj U)) :
    Set (RangeByStartElt U) :=
  { e | e ∈ A ∨ r.start < r.stop ∧ e = ⟨r, o⟩ }

lemma allocatedSpace_withFragment (A : Set (RangeByStartElt U)) (r : Range) (o : Option (RefcountedUserObj U)) :
    allocatedSpace (withFragment A r o) = allocatedSpace A ∪ Set.Ico r.start r.stop := by
  ext x
  rw [mem_union, mem_allocatedSpace, mem_allocatedSpace, mem_Ico]
  constructor
  · rintro ⟨e, he | ⟨-, rfl⟩, hx⟩
    · exact .inl ⟨e, he, hx⟩
    · exact .inr hx
  · rintro (⟨e, he, hx⟩ | hx)
    · exact ⟨e, .inl he, hx⟩
    · exact ⟨⟨r, o⟩, .inr ⟨by omega, rfl⟩, hx⟩

/-- A side of a split allocation is allocated again, with the object of the whole. -/
structure Fragment (s : CoalescingAllocator U) (A : Set (RangeByStartElt U)) (r : Range)
    (o : Option (RefcountedUserObj U)) (s' : CoalescingAllocator U) : Prop where
  run : s.insertFragment r o = .ok s'
  tree : s'.AllocatedTree (withFragment A r o)
  either : (s' = s ∧ withFragment A r o = A) ∨ (⟨r, o⟩ ∉ A ∧ withFragment A r o = insert ⟨r, o⟩ A ∧
    ∃ t n, s' = { s.addRef o with allocatedTree := t, rangeCount := n })

lemma insertFragment_spec (h : s.AllocatedTree A) (hbound : r.stop ≤ 2 ^ 31)
    (hdisj : Disjoint (Set.Ico r.start r.stop) (allocatedSpace A)) (o : Option (RefcountedUserObj U)) :
    ∃ s', Fragment s A r o s' := by
  by_cases hr : r.start < r.stop
  · have hpos : 0 < r.size := by rw [size_eq]; omega
    have hA : withFragment A r o = insert ⟨r, o⟩ A := by
      ext x
      simp [withFragment, hr, or_comm]
    have hnot : (⟨r, o⟩ : RangeByStartElt U) ∉ A := fun he =>
      disjoint_left.mp hdisj (left_mem_Ico.mpr hr) (mem_allocatedSpace.mpr ⟨_, he, le_rfl, hr⟩)
    have haddRef : (s.addRef o).allocatedTree = s.allocatedTree ∧ (s.addRef o).rangeCount = s.rangeCount := by
      cases o <;> exact ⟨rfl, rfl⟩
    obtain ⟨t, hrun, ht⟩ := h.insert (e := ⟨r, o⟩) hr hbound hdisj
    refine ⟨{ s.addRef o with allocatedTree := t, rangeCount := u32 (s.rangeCount + 1) }, ?_, hA ▸ ht _ rfl rfl,
      .inr ⟨hnot, hA, _, _, rfl⟩⟩
    simp only [insertFragment, if_pos hpos, haddRef, hrun, ok_bind, pure_eq_ok]
  · have hpos : ¬0 < r.size := by rw [size_eq]; omega
    have hA : withFragment A r o = A := by
      ext x
      simp [withFragment, hr]
    exact ⟨s, by rw [insertFragment, if_neg hpos]; rfl, hA.symm ▸ h, .inl ⟨rfl, hA⟩⟩

lemma Fragment.free {o : Option (RefcountedUserObj U)} {s' : CoalescingAllocator U} (h : Fragment s A r o s') :
    s'.freeBySizeTree = s.freeBySizeTree ∧ s'.freeByStartTree = s.freeByStartTree ∧
      s'.allowRedundantFrees = s.allowRedundantFrees := by
  rcases h.either with ⟨rfl, -⟩ | ⟨-, -, t, n, rfl⟩
  · exact ⟨rfl, rfl, rfl⟩
  · cases o <;> exact ⟨rfl, rfl, rfl⟩

lemma exists_fragments (h : s.AllocatedTree A) (he : e ∈ A) (hstart : e.range.start ≤ r.start) (hr : r.start < r.stop)
    (hstop : r.stop ≤ e.range.stop) : ∃ t s2 s3,
    s.allocatedTree.remove byStart e = .ok t ∧
    Fragment { s with allocatedTree := t, rangeCount := sub32 s.rangeCount 1 } (A \ {e}) ⟨e.range.start, r.start⟩
      e.refcountedUserObj s2 ∧
    Fragment s2 (withFragment (A \ {e}) ⟨e.range.start, r.start⟩ e.refcountedUserObj) ⟨r.stop, e.range.stop⟩
      e.refcountedUserObj s3 := by
  have hebound := h.bound e he
  obtain ⟨t, hremove, ht⟩ := h.remove he
  have hspace1 : allocatedSpace (A \ {e}) = _ := h.disjointed.covered_diff he
  obtain ⟨s2, h2⟩ := insertFragment_spec
    (s := { s with allocatedTree := t, rangeCount := sub32 s.rangeCount 1 }) (r := ⟨e.range.start, r.start⟩)
    (ht _ rfl rfl) (show r.start ≤ 2 ^ 31 by omega) (by
      rw [hspace1]
      exact disjoint_sdiff_right.mono_left (Set.Ico_subset_Ico_right (show r.start ≤ e.range.stop by omega)))
    e.refcountedUserObj
  obtain ⟨s3, h3⟩ := insertFragment_spec (r := ⟨r.stop, e.range.stop⟩) h2.tree hebound (by
      rw [allocatedSpace_withFragment, hspace1, disjoint_union_right]
      refine ⟨disjoint_sdiff_right.mono_left (Set.Ico_subset_Ico_left (show e.range.start ≤ r.stop by omega)), ?_⟩
      exact disjoint_left.mpr fun x hx hx' => by
        rw [mem_Ico] at hx hx'
        dsimp only at hx hx'
        omega)
    e.refcountedUserObj
  exact ⟨t, s2, s3, hremove, h2, h3⟩

lemma dropRef_same (o : Option (RefcountedUserObj U)) :
    (s.dropRef o).allocatedTree = s.allocatedTree ∧ (s.dropRef o).rangeCount = s.rangeCount ∧
      (s.dropRef o).freeBySizeTree = s.freeBySizeTree ∧ (s.dropRef o).freeByStartTree = s.freeByStartTree ∧
      (s.dropRef o).allowRedundantFrees = s.allowRedundantFrees := by
  cases o <;> exact ⟨rfl, rfl, rfl, rfl, rfl⟩

/-- What freeing `R` does to the space of the allocator. -/
structure Freed (s : CoalescingAllocator U) (F : Set Range) (A : Set (RangeByStartElt U)) (R : Set ℕ)
    (s' : CoalescingAllocator U) (F' : Set Range) (A' : Set (RangeByStartElt U)) : Prop where
  layout : s'.Layout F' A'
  free : freeSpace F' = freeSpace F ∪ (R ∩ allocatedSpace A)
  allocated : allocatedSpace A' = allocatedSpace A \ R
  fragments : Fragments A' A
  redundant : s'.allowRedundantFrees = s.allowRedundantFrees

lemma Freed.managed {s' : CoalescingAllocator U} {F' : Set Range} {A' : Set (RangeByStartElt U)}
    (h : Freed s F A R s' F' A') : freeSpace F' ∪ allocatedSpace A' = freeSpace F ∪ allocatedSpace A := by
  rw [h.free, h.allocated]
  ext x
  simp only [mem_union, mem_inter_iff, mem_sdiff]
  tauto

lemma Freed.trans {s1 s2 : CoalescingAllocator U} {F1 F2 : Set Range} {A1 A2 : Set (RangeByStartElt U)} {R' : Set ℕ}
    (h : Freed s F A R s1 F1 A1) (h' : Freed s1 F1 A1 R' s2 F2 A2) : Freed s F A (R ∪ R') s2 F2 A2 where
  layout := h'.layout
  free := by
    rw [h'.free, h.free, h.allocated]
    ext x
    simp only [mem_union, mem_inter_iff, mem_sdiff]
    tauto
  allocated := by rw [h'.allocated, h.allocated, sdiff_sdiff]
  fragments := h'.fragments.trans h.fragments
  redundant := h'.redundant.trans h.redundant

lemma Freed.of_disjoint (h : s.Layout F A) (hdisj : Disjoint R (allocatedSpace A)) : Freed s F A R s F A where
  layout := h
  free := by rw [hdisj.inter_eq, union_empty]
  allocated := hdisj.symm.sdiff_eq_left.symm
  fragments := .refl A
  redundant := rfl

/-- Freeing a part of an allocation splits it and makes the part free. -/
lemma freeSubrange_spec (h : s.Layout F A) (he : e ∈ A) (hstart : e.range.start ≤ r.start) (hr : r.start < r.stop)
    (hstop : r.stop ≤ e.range.stop) :
    ∃ s' F' A', s.freeSubrange e r = .ok s' ∧ Freed s F A (Set.Ico r.start r.stop) s' F' A' := by
  have hebound := h.allocated.bound e he
  have hsub : Set.Ico e.range.start e.range.stop ⊆ allocatedSpace A := fun x hx => ⟨e, he, hx⟩
  have hsub' : Set.Ico r.start r.stop ⊆ allocatedSpace A := (Set.Ico_subset_Ico hstart hstop).trans hsub
  obtain ⟨t, s2, s3, hremove, h2, h3⟩ := exists_fragments h.allocated he hstart hr hstop
  obtain ⟨hsize2, hstart2, hredundant2⟩ := h2.free
  obtain ⟨hsize3, hstart3, hredundant3⟩ := h3.free
  obtain ⟨htree4, hcount4, hsize4, hstart4, hredundant4⟩ := dropRef_same (s := s3) e.refcountedUserObj
  have hF4 : (s3.dropRef e.refcountedUserObj).FreeTrees F :=
    h.free.congr (hsize4.trans (hsize3.trans hsize2)) (hstart4.trans (hstart3.trans hstart2))
  obtain ⟨a, b, F', hcreate, hF', hspace⟩ := createEmptyRange_spec hF4 hr (by omega) (h.disjoint.symm.mono_left hsub')
  have hallocated := allocatedSpace_withFragment (withFragment (A \ {e}) ⟨e.range.start, r.start⟩ e.refcountedUserObj)
    ⟨r.stop, e.range.stop⟩ e.refcountedUserObj
  rw [allocatedSpace_withFragment (A \ {e}), show allocatedSpace (A \ {e}) = _ from h.allocated.disjointed.covered_diff he,
    diff_union_ends hstart hr.le hstop hsub] at hallocated
  refine ⟨_, F', _, ?_, ⟨hF', (h3.tree.congr htree4 hcount4).congr rfl rfl, ?_⟩, ?_, hallocated, ?_, ?_⟩
  · simp only [freeSubrange, hremove, ok_bind, h2.run, h3.run, hcreate]
  · rw [hspace, hallocated, disjoint_union_left]
    exact ⟨h.disjoint.mono_right sdiff_subset, disjoint_sdiff_right⟩
  · rw [hspace, inter_eq_left.mpr hsub']
  · intro e' he'
    rcases he' with (he' | ⟨-, rfl⟩) | ⟨-, rfl⟩
    · exact ⟨e', he'.1, rfl, le_rfl, le_rfl⟩
    · exact ⟨e, he, rfl, le_rfl, show r.start ≤ e.range.stop by omega⟩
    · exact ⟨e, he, rfl, show e.range.start ≤ r.stop by omega, le_rfl⟩
  · exact hredundant4.trans (hredundant3.trans hredundant2)

/-- The free loop compares only keys below `2^31`: its range ends there, or all allocations do. -/
def Below (r : Range) (A : Set (RangeByStartElt U)) : Prop :=
  r.start < 2 ^ 31 ∧ (r.stop ≤ 2 ^ 31 ∨ ∀ e ∈ A, e.range.stop < 2 ^ 31)

/-- How an iteration of the free loop ends: there is nothing more to free, or the range is freed up to some point. -/
def Advances (s : CoalescingAllocator U) (F : Set Range) (A : Set (RangeByStartElt U)) (r : Range)
    (result : Checked (CoalescingAllocator U × Option Range)) : Prop :=
  (result = .ok (s, none) ∧ Disjoint (Set.Ico r.start r.stop) (allocatedSpace A)) ∨
  ∃ s' F' A' m, result = .ok (s', some ⟨m, r.stop⟩) ∧ r.start < m ∧
    Freed s F A (Set.Ico r.start (min m r.stop)) s' F' A' ∧ (m < r.stop → m < 2 ^ 31)

/-- A gap at the start of the range is skipped up to the next allocation. -/
lemma skipGap_spec (h : s.Layout F A) (hkey : r.start < 2 ^ 31) (hredundant : s.allowRedundantFrees = true)
    (hnone : r.start ∉ allocatedSpace A) : Advances s F A r (s.skipGap r) := by
  obtain ⟨x, hnext, hx⟩ := h.allocated.stores.findFirstGreaterThanOrEqualTo byStart_ordered hkey
  -- an allocation that reaches beyond the start of the range begins after it
  have hbegin : ∀ e ∈ A, r.start < e.range.stop → r.start ≤ e.range.start := by
    intro e he hstop
    by_contra hlt
    exact hnone (mem_allocatedSpace.mpr ⟨e, he, by omega, hstop⟩)
  cases x with
  | none =>
    refine .inl ⟨by simp [skipGap, hredundant, liteAssert, hnext], disjoint_left.mpr fun z hz hz' => ?_⟩
    obtain ⟨e, he, hze⟩ := mem_allocatedSpace.mp hz'
    rw [mem_Ico] at hz
    exact hx e he (hbegin e he (by omega))
  | some n =>
    obtain ⟨hn, hge, hbest⟩ := hx
    replace hge : r.start ≤ n.range.start := hge
    have hnkey : n.range.start < 2 ^ 31 := h.allocated.mem_startKeys hn
    have hne : r.start ≠ n.range.start := fun heq =>
      hnone (mem_allocatedSpace.mpr ⟨n, hn, heq.ge, heq ▸ h.allocated.disjointed.nonempty n hn⟩)
    have hcmp : 0 < cmpStart n.range r := by
      rw [cmpStart_eq hnkey hkey]
      omega
    have hempty : Disjoint (Set.Ico r.start n.range.start) (allocatedSpace A) := by
      refine disjoint_left.mpr fun z hz hz' => ?_
      obtain ⟨e, he, hze⟩ := mem_allocatedSpace.mp hz'
      rw [mem_Ico] at hz
      have : n.range.start ≤ e.range.start := hbest e he (hbegin e he (by omega))
      omega
    refine .inr ⟨s, F, A, n.range.start, ?_, by omega, .of_disjoint h ?_, fun _ => hnkey⟩
    · simp [skipGap, hredundant, hnext, liteAssert, hcmp]
    · exact hempty.mono_left (Set.Ico_subset_Ico_right (min_le_left _ _))

/-- STEP of the free loop. -/
lemma freeStep_spec (h : s.Layout F A) (hr : r.start < r.stop) (hbelow : Below r A)
    (hfit : s.allowRedundantFrees = true ∨ Set.Ico r.start r.stop ⊆ allocatedSpace A) :
    Advances s F A r (s.freeStep r) := by
  obtain ⟨x, hfirst, hx⟩ := h.allocated.stores.findFirstLessThanOrEqualTo byStart_ordered hbelow.1
  have hgap : r.start ∉ allocatedSpace A → Advances s F A r (s.skipGap r) := fun hnone =>
    skipGap_spec h hbelow.1 (hfit.resolve_right fun hsub => hnone (hsub ⟨le_rfl, hr⟩)) hnone
  cases x with
  | none =>
    rw [show s.freeStep r = s.skipGap r by simp [freeStep, hfirst]]
    refine hgap fun hin => ?_
    obtain ⟨e, he, hre⟩ := mem_allocatedSpace.mp hin
    exact hx e he hre.1
  | some e =>
    obtain ⟨he, hle, hbest⟩ := hx
    replace hle : e.range.start ≤ r.start := hle
    have hsize := size_intersect r e.range
    rw [max_eq_left hle] at hsize
    by_cases hover : r.start < e.range.stop
    · have hinter : r.intersect e.range = ⟨r.start, min r.stop e.range.stop⟩ := by
        simp only [intersect, max_eq_left hle]
      have hpos : (⟨r.start, min r.stop e.range.stop⟩ : Range).size ≠ 0 := by
        rw [← hinter]
        omega
      obtain ⟨s', F', A', hrun, hfreed⟩ := freeSubrange_spec (r := ⟨r.start, min r.stop e.range.stop⟩) h he hle
        (lt_min hr hover) (min_le_right _ _)
      refine .inr ⟨s', F', A', min r.stop e.range.stop, ?_, lt_min hr hover, ?_, fun hlt => ?_⟩
      · simp only [freeStep, hfirst, ok_bind, hinter, if_neg hpos, hrun, pure_eq_ok]
      · rwa [min_eq_left (min_le_left r.stop e.range.stop)]
      · have hebound := h.allocated.bound e he
        rcases hbelow.2 with hstop | hall
        · omega
        · have := hall e he
          omega
    · have hzero : (r.intersect e.range).size = 0 := by omega
      rw [show s.freeStep r = s.skipGap r by simp [freeStep, hfirst, hzero]]
      refine hgap fun hin => ?_
      obtain ⟨e', he', hre⟩ := mem_allocatedSpace.mp hin
      have hle' : e'.range.start ≤ e.range.start := hbest e' he' hre.1
      have hne := h.allocated.disjointed.nonempty e he
      by_cases heq : e = e'
      · subst heq
        exact hover hre.2
      · have := h.allocated.disjointed.disjoint e he e' he' heq
        omega

/-- LOOP: so the whole range is freed. -/
lemma freeLoop_spec (fuel : ℕ) : ∀ {s : CoalescingAllocator U} {F : Set Range} {A : Set (RangeByStartElt U)}
    {r : Range}, r.size < fuel → s.Layout F A → (r.start < r.stop → Below r A) →
      (s.allowRedundantFrees = true ∨ Set.Ico r.start r.stop ⊆ allocatedSpace A) →
      ∃ s' F' A', s.freeLoop fuel r = .ok s' ∧ Freed s F A (Set.Ico r.start r.stop) s' F' A' := by
  induction fuel with
  | zero =>
    intro s F A r hfuel
    exact absurd hfuel (Nat.not_lt_zero _)
  | succ fuel ih =>
    intro s F A r hfuel h hbelow hfit
    rw [size_eq] at hfuel
    by_cases hr : r.start < r.stop
    · have hpos : 0 < r.size := by rw [size_eq]; omega
      rcases freeStep_spec h hr (hbelow hr) hfit with ⟨hrun, hdisj⟩ | ⟨s1, F1, A1, m, hrun, hm, hfreed, hlow⟩
      · exact ⟨s, F, A, by simp [freeLoop, hpos, hrun], .of_disjoint h hdisj⟩
      · -- the rest of the range is as allocated as before
        have hfit1 : s1.allowRedundantFrees = true ∨ Set.Ico m r.stop ⊆ allocatedSpace A1 := by
          rw [hfreed.redundant, hfreed.allocated]
          refine hfit.imp_right fun hsub x hx => ?_
          rw [mem_Ico] at hx
          exact ⟨hsub ⟨by omega, hx.2⟩, fun hx' => by rw [mem_Ico] at hx'; omega⟩
        have hbelow1 : m < r.stop → Below ⟨m, r.stop⟩ A1 := by
          intro hlt
          refine ⟨hlow hlt, (hbelow hr).2.imp_right fun hall e he => ?_⟩
          obtain ⟨e0, he0, -, -, hstop⟩ := hfreed.fragments e he
          exact hstop.trans_lt (hall e0 he0)
        obtain ⟨s', F', A', hrest, hfreed'⟩ := ih (r := ⟨m, r.stop⟩) (by rw [size_eq]; dsimp only; omega)
          hfreed.layout hbelow1 hfit1
        have hjoin : Set.Ico r.start (min m r.stop) ∪ Set.Ico m r.stop = Set.Ico r.start r.stop := by
          ext x
          simp only [mem_union, mem_Ico]
          omega
        exact ⟨s', F', A', by simp [freeLoop, hpos, hrun, hrest], hjoin ▸ hfreed.trans hfreed'⟩
    · have hpos : ¬0 < r.size := by rw [size_eq]; omega
      refine ⟨s, F, A, by simp [freeLoop, hpos], .of_disjoint h ?_⟩
      rw [Set.Ico_eq_empty hr]
      exact empty_disjoint _

/-- FREE: the allocated part of the range becomes free. -/
lemma freeRange_spec (h : s.Layout F A) (hword : r.stop < 2 ^ 32) (hbelow : r.start < r.stop → Below r A)
    (hfit : s.allowRedundantFrees = true ∨ Set.Ico r.start r.stop ⊆ allocatedSpace A) :
    ∃ s' F' A', s.freeRange r = .ok s' ∧ Freed s F A (Set.Ico r.start r.stop) s' F' A' :=
  freeLoop_spec _ (by rw [size_eq]; omega) h hbelow hfit

end Calls

end CoalescingAllocator

end Embassies.Utils
