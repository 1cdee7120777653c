import Embassies.Utils.CoalescingRefs
import Embassies.Utils.CoalescingRuns

/-! What `free_range` does where redundant frees are allowed, in terms of what a caller can see.

    The state is one that the allocator can be in: its trees are laid out below `2^31`, and the references of its
    fragments are counted. The range may cover any number of allocations and gaps, and parts of allocations. -/

namespace Embassies.Utils.CoalescingAllocator

open Checked AVLTree Range

variable {U : Type} {s s' : CoalescingAllocator U} {F F' : Set Range} {A A' : Set (RangeByStartElt U)} {range : Range}
  {x : ℕ}

/-- The object that `lookup_value` returns, if not `NULL`. -/
def objectAt (s : CoalescingAllocator U) (value : ℕ) : Checked (Option U) := do
  let found ← s.lookupValue value
  pure (found.bind Prod.fst)

/-- Some fragment of the object's allocation is left. -/
def Lives (s : CoalescingAllocator U) (u : U) : Prop := ∃ value, s.objectAt value = .ok (some u)

/-- EXACTLY the allocated part of the range becomes free, and with it the objects of which nothing is left are
    destroyed, each once. -/
structure FreedExactly (s : CoalescingAllocator U) (range : Range) (s' : CoalescingAllocator U) : Prop where
  free : ∀ x, s'.FreeAt x ↔ s.FreeAt x ∨ x ∈ Set.Ico range.start range.stop ∧ s.AllocatedAt x
  allocated : ∀ x, s'.AllocatedAt x ↔ s.AllocatedAt x ∧ x ∉ Set.Ico range.start range.stop
  outside : ∀ x, x ∉ Set.Ico range.start range.stop → s'.objectAt x = s.objectAt x
  inside : ∀ x ∈ Set.Ico range.start range.stop, s'.objectAt x = .ok none
  destroyed : ∀ u, u ∈ s'.destroyed ↔ u ∈ s.destroyed ∨ s.Lives u ∧ ¬s'.Lives u
  once : s'.destroyed.Nodup
  alive : ∀ u, s'.Lives u → u ∉ s'.destroyed

lemma objectAt_spec (h : s.AllocatedTree A) (hrefs : s.Refs A) (x : ℕ) :
    (∃ u, Owned A x u ∧ s.objectAt x = .ok (some u)) ∨ (x ∉ allocatedSpace A ∧ s.objectAt x = .ok none) := by
  rcases lookupValue_spec h x with ⟨e, he, hle, hlt, hrun⟩ | ⟨hnot, hrun⟩
  · obtain ⟨o, ho, -⟩ := hrefs.objects e he
    have hobj : userObjOf e = some o.obj := by
      rw [userObjOf, ho]
      rfl
    refine Or.inl ⟨o.obj, ⟨e, he, hle, hlt, hobj⟩, ?_⟩
    rw [objectAt, hrun, ok_bind, hobj, pure_eq_ok]
    rfl
  · refine Or.inr ⟨hnot, ?_⟩
    rw [objectAt, hrun, ok_bind, pure_eq_ok]
    rfl

lemma Owned.mem {u : U} (h : Owned A x u) : x ∈ allocatedSpace A := by
  obtain ⟨e, he, hle, hlt, -⟩ := h
  exact mem_allocatedSpace.mpr ⟨e, he, hle, hlt⟩

lemma Owned.unique (hA : s.AllocatedTree A) {u v : U} (hu : Owned A x u) (hv : Owned A x v) : u = v := by
  obtain ⟨e, he, hle, hlt, hobj⟩ := hu
  obtain ⟨e', he', hle', hlt', hobj'⟩ := hv
  obtain rfl := hA.disjointed.eq_of_mem he he' ⟨hle, hlt⟩ ⟨hle', hlt'⟩
  exact Option.some.inj (hobj.symm.trans hobj')

lemma objectAt_iff (h : s.AllocatedTree A) (hrefs : s.Refs A) (x : ℕ) (u : U) :
    s.objectAt x = .ok (some u) ↔ Owned A x u := by
  rcases objectAt_spec h hrefs x with ⟨v, hv, hrun⟩ | ⟨hnot, hrun⟩
  · rw [hrun]
    constructor
    · intro heq
      cases heq
      exact hv
    · intro hu
      rw [hu.unique h hv]
  · rw [hrun]
    refine iff_of_false ?_ fun hu => hnot hu.mem
    rintro ⟨⟩

lemma objectAt_none_iff (h : s.AllocatedTree A) (hrefs : s.Refs A) (x : ℕ) :
    s.objectAt x = .ok none ↔ x ∉ allocatedSpace A := by
  rcases objectAt_spec h hrefs x with ⟨v, hv, hrun⟩ | ⟨hnot, hrun⟩
  · rw [hrun]
    exact iff_of_false (by rintro ⟨⟩) (not_not_intro hv.mem)
  · exact iff_of_true hrun hnot

lemma lives_iff (h : s.AllocatedTree A) (hrefs : s.Refs A) (u : U) : s.Lives u ↔ Has A u := by
  constructor
  · rintro ⟨x, hx⟩
    obtain ⟨e, he, -, -, hobj⟩ := (objectAt_iff h hrefs x u).mp hx
    exact ⟨e, he, hobj⟩
  · rintro ⟨e, he, hobj⟩
    exact ⟨e.range.start, (objectAt_iff h hrefs _ u).mpr ⟨e, he, le_rfl, h.disjointed.nonempty e he, hobj⟩⟩

lemma Freed.objectAt_eq {R : Set ℕ} (h : Freed s F A R s' F' A') (hA : s.AllocatedTree A) (hrefs : s.Refs A)
    (hrefs' : s'.Refs A') (hx : x ∉ R) : s'.objectAt x = s.objectAt x := by
  rcases objectAt_spec hA hrefs x with ⟨u, hu, hrun⟩ | ⟨hnot, hrun⟩
  · rw [hrun, objectAt_iff h.layout.allocated hrefs', h.owned_iff hA]
    exact ⟨hu, hx⟩
  · rw [hrun, objectAt_none_iff h.layout.allocated hrefs', h.allocated]
    exact fun hin => hnot hin.1

/-- A state the allocator can be in below `2^31`, with every object given once. -/
def Sane (s : CoalescingAllocator U) : Prop := ∃ F A, s.Layout F A ∧ s.Refs A

/-- Calls below `2^31` that give each allocation an object of its own. -/
def Proper (s : CoalescingAllocator U) : Call U → Prop
  | .allocate size u => s.Fits (.allocate size u) ∧ ¬s.Lives u ∧ u ∉ s.destroyed
  | c => s.Fits c

lemma init_refs (allowRedundantFrees : Bool) : (init allowRedundantFrees : CoalescingAllocator U).Refs ∅ where
  counted id := by
    have hnone : fragmentsOf (∅ : Set (RangeByStartElt U)) id = ∅ := Set.eq_empty_of_forall_notMem fun e he => he.1
    rw [hnone, Set.ncard_empty]
    rfl
  objects e he := absurd he (Set.notMem_empty e)
  distinct e he := absurd he (Set.notMem_empty e)
  nodup := .nil

lemma Refs.withFree (h : s.Refs A) (a : AVLTree Range) (b : AVLTree (RangeByStartElt U)) : (s.withFree a b).Refs A :=
  ⟨h.counted, h.objects, h.distinct, h.nodup⟩

/-- STEP: a proper call returns, in a sane state. -/
lemma call_sane (h : s.Sane) (c : Call U) (hc : s.Proper c) : ∃ s', s.call c = .ok s' ∧ s'.Sane := by
  obtain ⟨F, A, h, hrefs⟩ := h
  cases c with
  | create range =>
    obtain ⟨s', hrun, F', A', hlayout, -⟩ := call_managed ⟨F, A, h, rfl⟩ (.create range) hc
    obtain ⟨a, b, rfl⟩ := createEmptyRange_frame hrun
    have hA : A' = A := hlayout.allocated.unique (h.allocated.congr rfl rfl)
    exact ⟨_, hrun, F', A, hA ▸ hlayout, hrefs.withFree a b⟩
  | allocate size u =>
    obtain ⟨hfits, hnew, hlive⟩ := hc
    rw [lives_iff h.allocated hrefs] at hnew
    rcases allocateRange_spec h hfits u with ⟨hrun, -⟩ | ⟨r, s', F', -, -, -, -, hrun, hlayout, -, -⟩
    · refine ⟨s, ?_, F, A, h, hrefs⟩
      rw [call, hrun, ok_bind]
      rfl
    · refine ⟨s', ?_, F', _, hlayout, hrefs.allocate h.allocated.stores.finite hrun hnew hlive⟩
      rw [call, hrun, ok_bind]
      rfl
  | free range =>
    obtain ⟨s', hrun, F', A', hlayout, -⟩ := call_managed ⟨F, A, h, rfl⟩ (.free range) hc
    obtain ⟨hdropped, -⟩ := freeRange_dropped h hrefs hrun hlayout
    exact ⟨s', hrun, F', A', hlayout, hdropped.refs⟩

/-- RUN: so every state of a run of proper calls is sane. -/
lemma run_sane (allowRedundantFrees : Bool) (calls : List (Call U))
    (h : Along call Proper (init allowRedundantFrees) calls) :
    ∃ s, run call (init allowRedundantFrees) calls = .ok s ∧ s.Sane := by
  have hstep : ∀ (s : CoalescingAllocator U) c, s.Sane → s.Proper c → ∃ s', s.call c = .ok s' ∧ s'.Sane :=
    fun s c hs hc => call_sane hs c hc
  exact run_progress hstep calls _ ⟨∅, ∅, init_layout allowRedundantFrees, init_refs allowRedundantFrees⟩ h

/-- FREE WITH REDUNDANT FREES: for every state and every range below `2^31`, the call returns and frees exactly the
    allocated part of the range. The state after it is again one the allocator can be in. -/
theorem freeRange_exact (s : CoalescingAllocator U) (F : Set Range) (A : Set (RangeByStartElt U)) (h : s.Layout F A)
    (hrefs : s.Refs A) (hredundant : s.allowRedundantFrees = true) (range : Range) (hbound : range.stop ≤ 2 ^ 31) :
    ∃ s' F' A', s.freeRange range = .ok s' ∧ s'.Layout F' A' ∧ s'.Refs A' ∧ FreedExactly s range s' := by
  have hbelow : range.start < range.stop → Below range A := fun hlt => ⟨by omega, Or.inl hbound⟩
  obtain ⟨s', F', A', hrun, hfreed⟩ := freeRange_spec h (by omega) hbelow (Or.inl hredundant)
  obtain ⟨hdropped, -⟩ := freeRange_dropped h hrefs hrun hfreed.layout
  have hrefs' := hdropped.refs
  have hlives := lives_iff h.allocated hrefs
  have hlives' := lives_iff hfreed.layout.allocated hrefs'
  refine ⟨s', F', A', hrun, hfreed.layout, hrefs', ?_, ?_, ?_, ?_, ?_, hrefs'.nodup, ?_⟩
  · intro x
    rw [freeAt_iff hfreed.layout, freeAt_iff h, allocatedAt_iff h, hfreed.free]
    rfl
  · intro x
    rw [allocatedAt_iff hfreed.layout, allocatedAt_iff h, hfreed.allocated]
    rfl
  · intro x hx
    exact hfreed.objectAt_eq h.allocated hrefs hrefs' hx
  · intro x hx
    rw [objectAt_none_iff hfreed.layout.allocated hrefs', hfreed.allocated]
    exact fun hin => hin.2 hx
  · intro u
    rw [hlives, hlives', hdropped.destroyed]
  · intro u hu
    obtain ⟨e, he, hobj⟩ := (hlives' u).mp hu
    obtain ⟨o, ho, -, halive⟩ := hrefs'.objects e he
    rw [userObjOf, ho] at hobj
    exact Option.some.inj hobj ▸ halive

/-- A page of which 100 bytes are allocated, and ten of those freed. -/
theorem freeRange_exact_page : ∃ s s' : CoalescingAllocator Unit,
    run call (init true) [.create ⟨0, 4096⟩, .allocate 100 ()] = .ok s ∧ s.freeRange ⟨10, 20⟩ = .ok s' ∧
      FreedExactly s ⟨10, 20⟩ s' := by
  have hproper : Along call Proper (init true : CoalescingAllocator Unit) [.create ⟨0, 4096⟩, .allocate 100 ()] := by
    refine ⟨⟨acceptable_first (by decide) (by decide), by decide⟩, fun s₁ h₁ => ?_⟩
    obtain ⟨a, b, rfl⟩ := createEmptyRange_frame h₁
    refine ⟨⟨show 100 ≤ 2 ^ 31 by decide, ?_, List.not_mem_nil⟩, fun _ _ => trivial⟩
    rintro ⟨x, hx⟩
    cases hx
  obtain ⟨s, hrun, F, A, h, hrefs⟩ := run_sane true _ hproper
  have hredundant : (run call (init true : CoalescingAllocator Unit) [.create ⟨0, 4096⟩, .allocate 100 ()]).map
    allowRedundantFrees = .ok true := rfl
  rw [hrun] at hredundant
  obtain ⟨s', -, -, hfree, -, -, hexact⟩ :=
    freeRange_exact s F A h hrefs (Except.ok.inj hredundant) ⟨10, 20⟩ (by decide)
  exact ⟨s, s', hrun, hfree, hexact⟩

end Embassies.Utils.CoalescingAllocator
