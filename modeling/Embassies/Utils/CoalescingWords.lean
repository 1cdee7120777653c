import Embassies.Utils.CoalescingLaws

/-! `CoalescingAllocator` called with arbitrary words, as by a client that is not trusted.

    A search with a key that does not compare still returns an element of the tree, so the state of the allocator
    survives calls with any arguments; what they do is another matter. Looking an address up is right for every word. -/

namespace Embassies.Utils.CoalescingAllocator

open AVLTree Range

variable {U : Type} {s : CoalescingAllocator U} {F : Set Range} {A : Set (RangeByStartElt U)} {r : Range}

lemma allocateFrom_large (h : s.Layout F A) (hr : r ∈ F) {size : ℕ} (hsize : 2 ^ 31 < size) (u : U) :
    s.allocateFrom r size u = .error .liteAssert := by
  obtain ⟨a, hremove, -⟩ := h.free.size.remove bySize_ordered (e := r) (h.free.mem_sizeKeys hr) hr rfl
  have hfit : ¬((⟨r.start, u32 (r.start + size)⟩ : Range).intersect r).size = size := by
    have := h.free.bound r hr
    rw [size_intersect]
    omega
  simp [allocateFrom, hremove, liteAssert_neg hfit]

lemma allocateRange_large (h : s.Layout F A) {size : ℕ} (hsize : 2 ^ 31 < size) (u : U) :
    s.allocateRange size u = .ok (s, none) ∨ s.allocateRange size u = .error .liteAssert := by
  have hne : size ≠ 0 := by omega
  obtain ⟨x, hfind, hx⟩ := h.free.size.findFirstGreaterThanOrEqualTo_mem ⟨0, size⟩
  cases x with
  | none => exact .inl (by simp [allocateRange, hne, hfind])
  | some q => exact .inr (by simp [allocateRange, hne, hfind, allocateFrom_large h (hx q rfl).1 hsize u])

/-- LOOKUP: the allocation that contains the address, if there is one. -/
lemma lookupValue_spec (h : s.AllocatedTree A) (value : ℕ) : (∃ e ∈ A, e.range.start ≤ value ∧ value < e.range.stop ∧
      s.lookupValue value = .ok (some (userObjOf e, e.range))) ∨
    (value ∉ allocatedSpace A ∧ s.lookupValue value = .ok none) := by
  by_cases hvalue : value < 2 ^ 31
  · have hkey : (⟨value, u32 (value + 1)⟩ : Range) ∈ startKeys := hvalue
    obtain ⟨x, hfind, hx⟩ := h.stores.findFirstLessThanOrEqualTo byStart_ordered hkey
    cases x with
    | none =>
      refine .inr ⟨fun hin => ?_, by simp [lookupValue, hfind]⟩
      obtain ⟨e, he, hle, -⟩ := mem_allocatedSpace.mp hin
      exact hx e he hle
    | some e =>
      obtain ⟨he, hle, hbest⟩ := hx
      replace hle : e.range.start ≤ value := hle
      by_cases hlt : value < e.range.stop
      · exact .inl ⟨e, he, hle, hlt, by simp [lookupValue, hfind, hle, hlt]⟩
      · refine .inr ⟨fun hin => ?_, by simp [lookupValue, hfind, hlt]⟩
        obtain ⟨e', he', hle', hlt'⟩ := mem_allocatedSpace.mp hin
        have hbest' : e'.range.start ≤ e.range.start := hbest e' he' hle'
        have hne := h.disjointed.nonempty e he
        have hdisj := h.disjointed.disjoint e he e' he' (by rintro rfl; exact hlt hlt')
        omega
  · -- above every allocation, so whatever is found does not contain it
    have habove : ∀ e ∈ A, ¬value < e.range.stop := fun e he => by
      have := h.bound e he
      omega
    obtain ⟨x, hfind, hx⟩ := h.stores.findFirstLessThanOrEqualTo_mem ⟨value, u32 (value + 1)⟩
    refine .inr ⟨fun hin => ?_, ?_⟩
    · obtain ⟨e, he, -, hlt⟩ := mem_allocatedSpace.mp hin
      exact habove e he hlt
    · cases x with
      | none => simp [lookupValue, hfind]
      | some e => simp [lookupValue, hfind, habove e (hx e rfl)]

/-- An address belongs to the object of the allocation that contains it. -/
def Owned (A : Set (RangeByStartElt U)) (x : ℕ) (u : U) : Prop :=
  ∃ e ∈ A, e.range.start ≤ x ∧ x < e.range.stop ∧ userObjOf e = some u

lemma lookupValue_owned (h : s.AllocatedTree A) (x : ℕ) (u : U) :
    (∃ range, s.lookupValue x = .ok (some (some u, range))) ↔ Owned A x u := by
  constructor
  · rintro ⟨range, hrun⟩
    rcases lookupValue_spec h x with ⟨e, he, hle, hlt, hrun'⟩ | ⟨-, hrun'⟩
    · rw [hrun'] at hrun
      exact ⟨e, he, hle, hlt, (Prod.mk.inj (Option.some.inj (Except.ok.inj hrun))).1⟩
    · rw [hrun'] at hrun
      cases hrun
  · rintro ⟨e, he, hle, hlt, hobj⟩
    rcases lookupValue_spec h x with ⟨e', he', hle', hlt', hrun⟩ | ⟨hnot, -⟩
    · obtain rfl := h.disjointed.eq_of_mem he he' ⟨hle, hlt⟩ ⟨hle', hlt'⟩
      exact ⟨e.range, by rw [hrun, hobj]⟩
    · exact absurd (mem_allocatedSpace.mpr ⟨e, he, hle, hlt⟩) hnot

lemma Freed.owned_iff {R : Set ℕ} {s' : CoalescingAllocator U} {F' : Set Range} {A' : Set (RangeByStartElt U)}
    (h : Freed s F A R s' F' A') (hA : s.AllocatedTree A) (x : ℕ) (u : U) : Owned A' x u ↔ Owned A x u ∧ x ∉ R := by
  constructor
  · rintro ⟨e', he', hle, hlt, hobj⟩
    obtain ⟨e, he, hsame, hstart, hstop⟩ := h.fragments e' he'
    have hin : x ∈ allocatedSpace A' := mem_allocatedSpace.mpr ⟨e', he', hle, hlt⟩
    rw [h.allocated] at hin
    exact ⟨⟨e, he, by omega, by omega, by rw [userObjOf, ← hsame]; exact hobj⟩, hin.2⟩
  · rintro ⟨⟨e, he, hle, hlt, hobj⟩, hnot⟩
    have hin : x ∈ allocatedSpace A' := by
      rw [h.allocated]
      exact ⟨mem_allocatedSpace.mpr ⟨e, he, hle, hlt⟩, hnot⟩
    obtain ⟨e', he', hle', hlt'⟩ := mem_allocatedSpace.mp hin
    obtain ⟨e0, he0, hsame, hstart, hstop⟩ := h.fragments e' he'
    obtain rfl := hA.disjointed.eq_of_mem he he0 ⟨hle, hlt⟩ ⟨by omega, by omega⟩
    exact ⟨e', he', hle', hlt', by rw [userObjOf, hsame]; exact hobj⟩

lemma freeStep_high (h : s.Layout F A) (hstart : 2 ^ 31 ≤ r.start) (hword : r.start < 2 ^ 32)
    (hredundant : s.allowRedundantFrees = true) :
    s.freeStep r = .ok (s, none) ∨ ∃ m < 2 ^ 31, s.freeStep r = .ok (s, some ⟨m, r.stop⟩) := by
  have hskip : s.skipGap r = .ok (s, none) ∨ ∃ m < 2 ^ 31, s.skipGap r = .ok (s, some ⟨m, r.stop⟩) := by
    obtain ⟨x, hnext, hx⟩ := h.allocated.stores.findFirstGreaterThanOrEqualTo_mem r
    cases x with
    | none => exact .inl (by simp [skipGap, hredundant, liteAssert, hnext])
    | some n =>
      obtain ⟨hn, haccept⟩ := hx n rfl
      have hnkey : n.range.start < 2 ^ 31 := h.allocated.mem_startKeys hn
      have hcmp : 0 < cmpStart n.range r := by
        rcases haccept with heq | hgt
        · -- a difference of words that is zero
          have heq : int32 (sub32 n.range.start r.start) = 0 := of_decide_eq_true heq
          have := sub32_lt n.range.start r.start
          unfold int32 at heq
          unfold sub32 at heq this
          split at heq <;> omega
        · exact of_decide_eq_true hgt
      exact .inr ⟨n.range.start, hnkey, by simp [skipGap, hredundant, liteAssert, hnext, hcmp]⟩
  obtain ⟨x, hfirst, hx⟩ := h.allocated.stores.findFirstLessThanOrEqualTo_mem r
  have hrun : s.freeStep r = s.skipGap r := by
    cases x with
    | none => simp [freeStep, hfirst]
    | some e =>
      have hzero : (r.intersect e.range).size = 0 := by
        have := h.allocated.bound e (hx e rfl)
        rw [size_intersect]
        omega
      simp [freeStep, hfirst, hzero]
  rw [hrun]
  exact hskip

lemma freeRange_eq : s.freeRange r =
    if 0 < r.size then do
      match ← s.freeStep r with
      | (s, none) => pure s
      | (s, some rest) => s.freeLoop (2 ^ 33 - 1) rest
    else pure s := rfl

/-- FREE of any words, however they compare: some of the allocated space becomes free. -/
lemma freeRange_any (h : s.Layout F A) (hword : r.stop < 2 ^ 32) (hredundant : s.allowRedundantFrees = true)
    (hlow : ∀ e ∈ A, e.range.stop < 2 ^ 31) : ∃ R s' F' A', s.freeRange r = .ok s' ∧ Freed s F A R s' F' A' := by
  by_cases hr : r.start < 2 ^ 31
  · exact ⟨_, freeRange_spec h hword (fun _ => ⟨hr, .inr hlow⟩) (.inl hredundant)⟩
  by_cases hne : r.start < r.stop
  · have hpos : 0 < r.size := by rw [size_eq]; omega
    rcases freeStep_high (r := r) h (by omega) (by omega) hredundant with hstep | ⟨m, hm, hstep⟩
    · exact ⟨∅, s, F, A, by rw [freeRange_eq, if_pos hpos, hstep]; rfl, .of_disjoint h (Set.empty_disjoint _)⟩
    · obtain ⟨s', F', A', hrun, hfreed⟩ := freeLoop_spec (2 ^ 33 - 1) (r := (⟨m, r.stop⟩ : Range))
        (by rw [size_eq]; dsimp only; omega) h (fun _ => ⟨hm, .inr hlow⟩) (.inl hredundant)
      refine ⟨_, s', F', A', ?_, hfreed⟩
      rw [freeRange_eq, if_pos hpos, hstep]
      exact hrun
  · have hpos : ¬0 < r.size := by rw [size_eq]; omega
    exact ⟨∅, s, F, A, by rw [freeRange_eq, if_neg hpos]; rfl, .of_disjoint h (Set.empty_disjoint _)⟩

end Embassies.Utils.CoalescingAllocator
