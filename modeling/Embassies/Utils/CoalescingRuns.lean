import Embassies.Utils.CoalescingLaws

/-! Runs of `CoalescingAllocator`: any sequence of `create_empty_range`, `allocate_range` and `free_range`.

    The property of the states is stated about the elements of the three trees alone. The comparisons by
    signed difference keep it only while addresses, and the sizes asked for, stay within `2^31`. -/

namespace Embassies.Utils.CoalescingAllocator

open AVLTree Set

variable {U : Type}

/-- A call of a client. -/
inductive Call (U : Type) where
  | create (range : Range)
  | allocate (size : ℕ) (userObj : U)
  | free (range : Range)

def call (s : CoalescingAllocator U) : Call U → Checked (CoalescingAllocator U)
  | .create range => s.createEmptyRange range
  | .allocate size userObj => do
    let (s, _) ← s.allocateRange size userObj
    pure s
  | .free range => s.freeRange range

def Call.created : Call U → Set ℕ
  | .create range => Set.Ico range.start range.stop
  | _ => ∅

def createdSpace (space : Set ℕ) : List (Call U) → Set ℕ
  | [] => space
  | c :: cs => createdSpace (space ∪ c.created) cs

/-- An address in a free range. -/
def FreeAt (s : CoalescingAllocator U) (x : ℕ) : Prop :=
  ∃ M, s.freeByStartTree.Elements M ∧ x ∈ allocatedSpace M

/-- An address in an allocated range. -/
def AllocatedAt (s : CoalescingAllocator U) (x : ℕ) : Prop :=
  ∃ M, s.allocatedTree.Elements M ∧ x ∈ allocatedSpace M

/-- THE PROPERTY: the free trees hold the same ranges, with gaps between them, allocated ranges overlap
    neither each other nor free ones, together they are the space, and the allocated ones are counted. -/
structure Manages (s : CoalescingAllocator U) (space : Set ℕ) (F : Set Range) (A : Set (RangeByStartElt U)) :
    Prop where
  bySize : s.freeBySizeTree.Elements F
  byStart : s.freeByStartTree.Elements (freeElts F)
  allocated : s.allocatedTree.Elements A
  coalesced : Coalesced Range.start Range.stop F
  disjointed : Disjointed (fun e : RangeByStartElt U => e.range.start) (fun e => e.range.stop) A
  disjoint : Disjoint (freeSpace F) (allocatedSpace A)
  union : freeSpace F ∪ allocatedSpace A = space
  count : s.rangeCount = A.ncard

/-- The calls that clients may make: of ranges that are not empty, of space that is not managed yet, and,
    unless redundant frees are allowed, of frees of what is allocated. -/
def Acceptable (s : CoalescingAllocator U) : Call U → Prop
  | .create range => range.start < range.stop ∧ range.stop < 2 ^ 32 ∧
    ∀ x ∈ Set.Ico range.start range.stop, ¬s.FreeAt x ∧ ¬s.AllocatedAt x
  | .allocate size _ => size < 2 ^ 32
  | .free range => range.start < range.stop ∧ range.stop < 2 ^ 32 ∧
    (s.allowRedundantFrees = true ∨ ∀ x ∈ Set.Ico range.start range.stop, s.AllocatedAt x)

/-- Those that keep to the lower half of the words. -/
def Fits (s : CoalescingAllocator U) : Call U → Prop
  | .create range => s.Acceptable (.create range) ∧ range.stop ≤ 2 ^ 31
  | .allocate size _ => size ≤ 2 ^ 31
  | .free range => s.Acceptable (.free range) ∧ range.start < 2 ^ 31 ∧
    (range.stop ≤ 2 ^ 31 ∨ ¬s.AllocatedAt (2 ^ 31 - 1))

section Step

variable {s : CoalescingAllocator U} {F : Set Range} {A : Set (RangeByStartElt U)}

lemma freeAt_iff (h : s.Layout F A) (x : ℕ) : s.FreeAt x ↔ x ∈ freeSpace F := by
  constructor
  · rintro ⟨M, hM, e, he, hx⟩
    obtain rfl := hM.unique h.free.start.elements
    exact ⟨e.range, he.1, hx⟩
  · rintro ⟨r, hr, hx⟩
    exact ⟨_, h.free.start.elements, ⟨r, none⟩, ⟨hr, rfl⟩, hx⟩

lemma allocatedAt_iff (h : s.Layout F A) (x : ℕ) : s.AllocatedAt x ↔ x ∈ allocatedSpace A := by
  constructor
  · rintro ⟨M, hM, hx⟩
    obtain rfl := hM.unique h.allocated.stores.elements
    exact hx
  · exact fun hx => ⟨A, h.allocated.stores.elements, hx⟩

lemma Layout.manages (h : s.Layout F A) : s.Manages (freeSpace F ∪ allocatedSpace A) F A :=
  ⟨h.free.size.elements, h.free.start.elements, h.allocated.stores.elements, h.free.coalesced,
    h.allocated.disjointed, h.disjoint, rfl, h.allocated.count⟩

/-- The invariant of a run. -/
def Managed (s : CoalescingAllocator U) (space : Set ℕ) : Prop :=
  ∃ F A, s.Layout F A ∧ freeSpace F ∪ allocatedSpace A = space

/-- STEP: a call that fits succeeds, and the managed space grows by what it creates. -/
lemma call_managed {space : Set ℕ} (h : s.Managed space) (c : Call U) (hc : s.Fits c) :
    ∃ s', s.call c = .ok s' ∧ s'.Managed (space ∪ c.created) := by
  obtain ⟨F, A, h, rfl⟩ := h
  cases c with
  | create range =>
    obtain ⟨⟨hr, -, hnew⟩, hbound⟩ := hc
    have hfree : Disjoint (Set.Ico range.start range.stop) (freeSpace F) :=
      disjoint_left.mpr fun x hx hx' => (hnew x hx).1 ((freeAt_iff h x).mpr hx')
    have hallocated : Disjoint (Set.Ico range.start range.stop) (allocatedSpace A) :=
      disjoint_left.mpr fun x hx hx' => (hnew x hx).2 ((allocatedAt_iff h x).mpr hx')
    obtain ⟨a, b, F', hrun, hF', hspace⟩ := createEmptyRange_spec h.free hr hbound hfree
    refine ⟨_, hrun, F', A, ⟨hF', h.allocated.congr rfl rfl, ?_⟩, ?_⟩
    · rw [hspace, disjoint_union_left]
      exact ⟨h.disjoint, hallocated⟩
    · rw [hspace, union_right_comm]
      rfl
  | allocate size userObj =>
    rw [show (Call.allocate size userObj).created = ∅ from rfl, union_empty]
    rcases allocateRange_spec h hc userObj with
      ⟨hrun, -⟩ | ⟨r, s', F', hr, -, hsize, -, hrun, hlayout, hspace, -⟩
    · exact ⟨s, by simp [call, hrun], F, A, h, rfl⟩
    · refine ⟨s', by simp [call, hrun], F', _, hlayout, managed_allocate (fun x hx => ⟨r, hr, hx.1, ?_⟩) hspace⟩
      rw [mem_Ico] at hx
      rw [Range.size_eq] at hsize
      dsimp only at hx
      omega
  | free range =>
    rw [show (Call.free range : Call U).created = ∅ from rfl, union_empty]
    obtain ⟨⟨hr, hword, hfit⟩, hstart, hstop⟩ := hc
    have hbelow : Below range A := by
      refine ⟨hstart, hstop.imp_right fun hlast e he => ?_⟩
      by_contra hcon
      have hne := h.allocated.disjointed.nonempty e he
      have hbound := h.allocated.bound e he
      exact hlast ((allocatedAt_iff h _).mpr (mem_allocatedSpace.mpr ⟨e, he, by omega, by omega⟩))
    obtain ⟨s', F', A', hrun, hfreed⟩ := freeRange_spec h hword (fun _ => hbelow)
      (hfit.imp_right fun hall x hx => (allocatedAt_iff h x).mp (hall x hx))
    exact ⟨s', hrun, F', A', hfreed.layout, hfreed.managed⟩

end Step

/-- RUN: what was created stays managed. -/
lemma run_managed (calls : List (Call U)) : ∀ {s : CoalescingAllocator U} {space : Set ℕ},
    s.Managed space → Along call Fits s calls →
      ∃ s', run call s calls = .ok s' ∧ s'.Managed (createdSpace space calls) := by
  induction calls with
  | nil =>
    intro s space h _
    exact ⟨s, rfl, h⟩
  | cons c cs ih =>
    intro s space h hfits
    obtain ⟨s1, hrun1, h1⟩ := call_managed h c hfits.1
    obtain ⟨s2, hrun2, h2⟩ := ih h1 (hfits.2 s1 hrun1)
    exact ⟨s2, by simp [run, hrun1, hrun2], h2⟩

/-- SOUND below `2^31`: a run whose calls all fit fails no assert, and its last state manages exactly the
    space that was created. -/
theorem allocator_manages (allowRedundantFrees : Bool) (calls : List (Call U))
    (h : Along call Fits (init allowRedundantFrees) calls) :
    ∃ s F A, run call (init allowRedundantFrees) calls = .ok s ∧ s.Manages (createdSpace ∅ calls) F A := by
  obtain ⟨s, hrun, F, A, hlayout, hspace⟩ := run_managed calls
    ⟨∅, ∅, init_layout allowRedundantFrees, by rw [freeSpace, allocatedSpace, covered_empty, covered_empty, Set.union_empty]⟩ h
  exact ⟨s, F, A, hrun, hspace ▸ hlayout.manages⟩

lemma acceptable_first {allowRedundantFrees : Bool} {range : Range} (hr : range.start < range.stop)
    (hstop : range.stop < 2 ^ 32) : (init allowRedundantFrees : CoalescingAllocator U).Acceptable (.create range) := by
  refine ⟨hr, hstop, fun x _ => ?_⟩
  have h := init_layout (U := U) allowRedundantFrees
  rw [freeAt_iff h, allocatedAt_iff h, freeSpace, allocatedSpace, covered_empty, covered_empty]
  exact ⟨notMem_empty x, notMem_empty x⟩

/-- A page of 4096 bytes, of which 100 are allocated and ten of those freed. -/
theorem allocator_manages_page :
    Along call Fits (init true : CoalescingAllocator Unit) [.create ⟨0, 4096⟩, .allocate 100 (), .free ⟨10, 20⟩] ∧
    ∃ s F A, run call (init true) [.create ⟨0, 4096⟩, .allocate 100 (), .free ⟨10, 20⟩] = .ok s ∧
      s.Manages (createdSpace ∅ [.create ⟨0, 4096⟩, .allocate 100 (), .free ⟨10, 20⟩]) F A := by
  have h : Along call Fits (init true : CoalescingAllocator Unit)
      [.create ⟨0, 4096⟩, .allocate 100 (), .free ⟨10, 20⟩] := by
    refine ⟨⟨acceptable_first (by decide) (by decide), by decide⟩, fun s₁ h₁ =>
      ⟨show 100 ≤ 2 ^ 31 by decide, fun s₂ h₂ => ⟨⟨⟨by decide, by decide, .inl ?_⟩, by decide, .inl (by decide)⟩,
        fun _ _ => trivial⟩⟩⟩
    have hrun : run call (init true) [.create ⟨0, 4096⟩, .allocate 100 ()] = .ok s₂ := by simp [run, h₁, h₂]
    have hredundant : (run call (init true : CoalescingAllocator Unit) [.create ⟨0, 4096⟩, .allocate 100 ()]).map
      allowRedundantFrees = .ok true := rfl
    rw [hrun] at hredundant
    exact Except.ok.inj hredundant
  exact ⟨h, allocator_manages true _ h⟩

/-- A request of `2^32 - 1` bytes compares as smaller than a free range of ten bytes, and the range it is
    given fails the assert on its size. -/
theorem not_allocator_manages : ¬∀ calls : List (Call Unit), Along call Acceptable (init true) calls →
      ∃ s F A, run call (init true) calls = .ok s ∧ s.Manages (createdSpace ∅ calls) F A := by
  intro h
  have hacceptable : Along call Acceptable (init true : CoalescingAllocator Unit)
      [.create ⟨0, 10⟩, .allocate (2 ^ 32 - 1) ()] :=
    ⟨acceptable_first (by decide) (by decide), fun s₁ _ => ⟨show 2 ^ 32 - 1 < 2 ^ 32 by decide, fun s₂ _ => trivial⟩⟩
  obtain ⟨s, F, A, hrun, -⟩ := h _ hacceptable
  have hfault : run call (init true : CoalescingAllocator Unit) [.create ⟨0, 10⟩, .allocate (2 ^ 32 - 1) ()] =
      .error .liteAssert := rfl
  rw [hfault] at hrun
  cases hrun

end Embassies.Utils.CoalescingAllocator
