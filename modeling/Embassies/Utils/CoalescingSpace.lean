import Embassies.Utils.CoalescingRuns

/-! What `CoalescingAllocator` is for: best fit over two sets of addresses.

    The abstract allocator knows which addresses are free and which are allocated, and no trees. It grants a
    request from the smallest maximal run of free addresses that is long enough, the lowest one of those. The
    code refines it call by call, and since the abstract allocator has one answer to every call, nothing that
    happened before but the two sets shows in the answers of the code. -/

namespace Embassies.Utils.CoalescingAllocator

open Set

variable {U : Type}

/-- A call together with the range it returns. -/
def answer (s : CoalescingAllocator U) : Call U → Checked (CoalescingAllocator U × Option Range)
  | .create range => do
    let s ← s.createEmptyRange range
    pure (s, none)
  | .allocate size userObj => s.allocateRange size userObj
  | .free range => do
    let s ← s.freeRange range
    pure (s, none)

/-- Make the calls in order and collect what they return. -/
def replay (s : CoalescingAllocator U) : List (Call U) → Checked (CoalescingAllocator U × List (Option Range))
  | [] => pure (s, [])
  | c :: cs => do
    let (s, range) ← s.answer c
    let (s, ranges) ← s.replay cs
    pure (s, range :: ranges)

/-- The abstract allocator. -/
structure Space where
  free : Set ℕ
  allocated : Set ℕ

/-- The smallest maximal run of at least `size` addresses, and of several the lowest. -/
structure BestRun (S : Set ℕ) (size a b : ℕ) : Prop where
  run : MaximalRun S a b
  fits : size ≤ b - a
  least : ∀ c d, MaximalRun S c d → size ≤ d - c → toLex (b - a, a) ≤ toLex (d - c, c)

/-- One call of the abstract allocator. -/
inductive Space.Step (p : Space) : Call U → Option Range → Space → Prop
  | create (range : Range) : Step p (.create range) none ⟨p.free ∪ Set.Ico range.start range.stop, p.allocated⟩
  | refuse {size : ℕ} (userObj : U) (h : 0 < size → ∀ a b, MaximalRun p.free a b → b - a < size) :
      Step p (.allocate size userObj) none p
  | grant {size a b : ℕ} (userObj : U) (hsize : 0 < size) (h : BestRun p.free size a b) :
      Step p (.allocate size userObj) (some ⟨a, a + size⟩)
        ⟨p.free \ Set.Ico a (a + size), p.allocated ∪ Set.Ico a (a + size)⟩
  | free (range : Range) : Step p (.free range) none
      ⟨p.free ∪ (Set.Ico range.start range.stop ∩ p.allocated), p.allocated \ Set.Ico range.start range.stop⟩

/-- A run of the abstract allocator with its answers. -/
inductive Space.Run : Space → List (Call U) → List (Option Range) → Space → Prop
  | nil (p : Space) : Run p [] [] p
  | cons {p p₁ p₂ : Space} {c : Call U} {cs : List (Call U)} {range : Option Range} {ranges : List (Option Range)} :
      p.Step c range p₁ → Run p₁ cs ranges p₂ → Run p (c :: cs) (range :: ranges) p₂

lemma BestRun.unique {S : Set ℕ} {size a b c d : ℕ} (h : BestRun S size a b) (h' : BestRun S size c d) : a = c := by
  have heq := le_antisymm (h.least c d h'.run h'.fits) (h'.least a b h.run h.fits)
  exact (Prod.ext_iff.mp (toLex_inj.mp heq)).2

/-- The abstract allocator has one answer to each call. -/
lemma Space.Step.unique {p p₁ p₂ : Space} {c : Call U} {r₁ r₂ : Option Range} (h₁ : p.Step c r₁ p₁)
    (h₂ : p.Step c r₂ p₂) : r₁ = r₂ ∧ p₁ = p₂ := by
  cases h₁ with
  | create | free => cases h₂; exact ⟨rfl, rfl⟩
  | refuse u h =>
    cases h₂ with
    | refuse => exact ⟨rfl, rfl⟩
    | grant _ hsize h' => exact absurd h'.fits (Nat.not_le.mpr (h hsize _ _ h'.run))
  | grant u hsize h =>
    cases h₂ with
    | refuse _ h' => exact absurd h.fits (Nat.not_le.mpr (h' hsize _ _ h.run))
    | grant _ _ h' => cases h.unique h'; exact ⟨rfl, rfl⟩

/-- THE ABSTRACTION: the trees hold the two sets. -/
def Represents (redundant : Bool) (s : CoalescingAllocator U) (p : Space) : Prop :=
  s.allowRedundantFrees = redundant ∧
    ∃ F A, s.Layout F A ∧ p.free = freeSpace F ∧ p.allocated = allocatedSpace A

section
variable {redundant : Bool} {s t : CoalescingAllocator U} {p : Space}

lemma Represents.freeAt (h : Represents redundant s p) (x : ℕ) : s.FreeAt x ↔ x ∈ p.free := by
  obtain ⟨-, F, A, hlayout, hfree, -⟩ := h
  rw [freeAt_iff hlayout, hfree]

lemma Represents.allocatedAt (h : Represents redundant s p) (x : ℕ) : s.AllocatedAt x ↔ x ∈ p.allocated := by
  obtain ⟨-, F, A, hlayout, -, hallocated⟩ := h
  rw [allocatedAt_iff hlayout, hallocated]

/-- Which calls fit can be read off the two sets. -/
lemma Represents.fits (h : Represents redundant s p) (h' : Represents redundant t p) {c : Call U} (hc : s.Fits c) :
    t.Fits c := by
  have hfree x : t.FreeAt x ↔ s.FreeAt x := (h'.freeAt x).trans (h.freeAt x).symm
  have hallocated x : t.AllocatedAt x ↔ s.AllocatedAt x := (h'.allocatedAt x).trans (h.allocatedAt x).symm
  cases c <;> simpa only [Fits, Acceptable, hfree, hallocated, h.1, h'.1] using hc

/-- The maximal runs of free addresses are the free ranges. -/
lemma Layout.maximalRun_iff {F : Set Range} {A : Set (RangeByStartElt U)} (h : s.Layout F A) {a b : ℕ} :
    MaximalRun (freeSpace F) a b ↔ (⟨a, b⟩ : Range) ∈ F := by
  rw [h.free.coalesced.maximalRun_iff]
  constructor
  · rintro ⟨r, hr, rfl, rfl⟩
    exact hr
  · exact fun hr => ⟨_, hr, rfl, rfl⟩

/-- STEP: a call that fits answers as the abstract allocator does. -/
lemma Represents.answer (h : Represents redundant s p) (c : Call U) (hc : s.Fits c) :
    ∃ s' range p', s.answer c = .ok (s', range) ∧ s.call c = .ok s' ∧ p.Step c range p' ∧
      Represents redundant s' p' := by
  obtain ⟨free, allocated⟩ := p
  obtain ⟨hredundant, F, A, hlayout, hfree, hallocated⟩ := h
  dsimp only at hfree hallocated
  subst hfree hallocated
  cases c with
  | create range =>
    obtain ⟨⟨hr, -, hnew⟩, hbound⟩ := hc
    obtain ⟨a, b, F', hrun, hF', hspace⟩ := createEmptyRange_spec hlayout.free hr hbound
      (disjoint_left.mpr fun x hx hx' => (hnew x hx).1 ((freeAt_iff hlayout x).mpr hx'))
    refine ⟨_, _, _, by rw [CoalescingAllocator.answer, hrun]; rfl, hrun, .create range, hredundant, F', A,
      ⟨hF', hlayout.allocated.congr rfl rfl, ?_⟩, hspace.symm, rfl⟩
    rw [hspace, disjoint_union_left]
    exact ⟨hlayout.disjoint, disjoint_left.mpr fun x hx hx' => (hnew x hx).2 ((allocatedAt_iff hlayout x).mpr hx')⟩
  | allocate size userObj =>
    rcases allocateRange_spec hlayout hc userObj with
      ⟨hrun, hfull⟩ | ⟨r, s', F', hr, hsize, hfits, hleast, hrun, hlayout', hspace, hflag⟩
    · refine ⟨s, none, _, hrun, by simp [call, hrun], .refuse userObj fun hpos a b hab => ?_, hredundant, F, A,
        hlayout, rfl, rfl⟩
      have := hfull.resolve_left hpos.ne' _ (hlayout.maximalRun_iff.mp hab)
      rwa [Range.size_eq] at this
    · rw [Range.size_eq] at hfits
      have hbest : BestRun (freeSpace F) size r.start r.stop := by
        refine ⟨hlayout.maximalRun_iff.mpr hr, hfits, fun c d hcd hsmall => ?_⟩
        have := hleast _ (hlayout.maximalRun_iff.mp hcd) (by rw [Range.size_eq]; exact hsmall)
        simpa only [Range.sizeRank, Range.size_eq] using this
      exact ⟨s', _, _, hrun, by simp [call, hrun], .grant userObj hsize hbest, hflag.trans hredundant, F', _,
        hlayout', hspace.symm, by simp only [allocatedSpace, covered_insert]⟩
  | free range =>
    obtain ⟨⟨hr, hword, hfit⟩, hstart, hstop⟩ := hc
    have hbelow : Below range A := by
      refine ⟨hstart, hstop.imp_right fun hlast e he => ?_⟩
      by_contra hcon
      have hne := hlayout.allocated.disjointed.nonempty e he
      have hbound := hlayout.allocated.bound e he
      exact hlast ((allocatedAt_iff hlayout _).mpr (mem_allocatedSpace.mpr ⟨e, he, by omega, by omega⟩))
    obtain ⟨s', F', A', hrun, hfreed⟩ := freeRange_spec hlayout hword (fun _ => hbelow)
      (hfit.imp_right fun hall x hx => (allocatedAt_iff hlayout x).mp (hall x hx))
    exact ⟨s', _, _, by rw [CoalescingAllocator.answer, hrun]; rfl, hrun, .free range,
      hfreed.redundant.trans hredundant, F', A', hfreed.layout, hfreed.free.symm, hfreed.allocated.symm⟩

/-- RUN: two states with the same sets return the same ranges, those of the abstract allocator. -/
lemma Represents.replay (calls : List (Call U)) : ∀ {s t : CoalescingAllocator U} {p : Space},
    Represents redundant s p → Represents redundant t p → Along call Fits s calls →
      ∃ s' t' ranges p', s.replay calls = .ok (s', ranges) ∧ t.replay calls = .ok (t', ranges) ∧
        run call s calls = .ok s' ∧ p.Run calls ranges p' ∧ Represents redundant s' p' ∧ Represents redundant t' p' := by
  induction calls with
  | nil => exact fun {s t p} hs ht _ => ⟨s, t, [], p, rfl, rfl, rfl, .nil p, hs, ht⟩
  | cons c cs ih =>
    intro s t p hs ht hfits
    obtain ⟨s₁, range, p₁, hanswer, hcall, hstep, hs₁⟩ := hs.answer c hfits.1
    obtain ⟨t₁, _, _, hanswer', -, hstep', ht₁⟩ := ht.answer c (hs.fits ht hfits.1)
    obtain ⟨rfl, rfl⟩ := hstep.unique hstep'
    obtain ⟨s₂, t₂, ranges, p₂, hreplay, hreplay', hrun, hsteps, hs₂, ht₂⟩ := ih hs₁ ht₁ (hfits.2 s₁ hcall)
    exact ⟨s₂, t₂, range :: ranges, p₂, by simp [CoalescingAllocator.replay, hanswer, hreplay],
      by simp [CoalescingAllocator.replay, hanswer', hreplay'], by simp [run, hcall, hrun], .cons hstep hsteps, hs₂, ht₂⟩

end

lemma init_represents (redundant : Bool) : Represents redundant (init redundant : CoalescingAllocator U) ⟨∅, ∅⟩ :=
  ⟨rfl, ∅, ∅, init_layout redundant, covered_empty.symm, covered_empty.symm⟩

/-- REFINEMENT: from a new allocator, calls that fit return what the abstract allocator returns, and the last
    state holds its two sets. -/
theorem allocator_refines_space (redundant : Bool) (calls : List (Call U))
    (h : Along call Fits (init redundant) calls) :
    ∃ s ranges p, replay (init redundant) calls = .ok (s, ranges) ∧ Space.Run ⟨∅, ∅⟩ calls ranges p ∧
      (∀ x, s.FreeAt x ↔ x ∈ p.free) ∧ ∀ x, s.AllocatedAt x ↔ x ∈ p.allocated := by
  obtain ⟨s, -, ranges, p, hreplay, -, -, hrun, hs, -⟩ :=
    (init_represents redundant).replay calls (init_represents redundant) h
  exact ⟨s, ranges, p, hreplay, hrun, hs.freeAt, hs.allocatedAt⟩

/-- A new page may be created and a hundred bytes of it asked for. -/
lemma fits_page : Along call Fits (init true : CoalescingAllocator Unit) [.create ⟨0, 4096⟩, .allocate 100 ()] :=
  ⟨⟨acceptable_first (by decide) (by decide), by decide⟩, fun _ _ => ⟨show 100 ≤ 2 ^ 31 by decide, fun _ _ => trivial⟩⟩

theorem allocator_refines_space_page :
    ∃ s ranges p, replay (init true : CoalescingAllocator Unit) [.create ⟨0, 4096⟩, .allocate 100 ()] = .ok (s, ranges) ∧
      Space.Run ⟨∅, ∅⟩ [.create ⟨0, 4096⟩, .allocate 100 ()] ranges p ∧ (∀ x, s.FreeAt x ↔ x ∈ p.free) ∧
      ∀ x, s.AllocatedAt x ↔ x ∈ p.allocated :=
  allocator_refines_space true _ fits_page

/-- A state that a run reaches holds the sets of its free and allocated addresses. -/
lemma represents_of_run {redundant : Bool} {past : List (Call U)} {s : CoalescingAllocator U}
    (hpast : Along call Fits (init redundant) past) (hrun : run call (init redundant) past = .ok s) :
    Represents redundant s ⟨{ x | s.FreeAt x }, { x | s.AllocatedAt x }⟩ := by
  obtain ⟨s', -, -, ⟨free, allocated⟩, -, -, hrun', -, hs, -⟩ :=
    (init_represents redundant).replay past (init_represents redundant) hpast
  obtain rfl := Except.ok.inj (hrun.symm.trans hrun')
  rwa [show { x | s.FreeAt x } = free from Set.ext hs.freeAt,
    show { x | s.AllocatedAt x } = allocated from Set.ext hs.allocatedAt]

/-- NO HIDDEN STATE: two pasts that leave the same addresses free and allocated cannot be told apart by any
    further calls. -/
theorem allocator_history_independent (redundant : Bool) (past past' calls : List (Call U))
    (s s' : CoalescingAllocator U) (hpast : Along call Fits (init redundant) past)
    (hrun : run call (init redundant) past = .ok s) (hpast' : Along call Fits (init redundant) past')
    (hrun' : run call (init redundant) past' = .ok s') (hfree : ∀ x, s.FreeAt x ↔ s'.FreeAt x)
    (hallocated : ∀ x, s.AllocatedAt x ↔ s'.AllocatedAt x) (h : Along call Fits s calls) :
    ∃ t t' ranges, s.replay calls = .ok (t, ranges) ∧ s'.replay calls = .ok (t', ranges) ∧
      (∀ x, t.FreeAt x ↔ t'.FreeAt x) ∧ ∀ x, t.AllocatedAt x ↔ t'.AllocatedAt x := by
  have hs := represents_of_run hpast hrun
  rw [show { x | s.FreeAt x } = { x | s'.FreeAt x } from Set.ext hfree,
    show { x | s.AllocatedAt x } = { x | s'.AllocatedAt x } from Set.ext hallocated] at hs
  obtain ⟨t, t', ranges, p, hreplay, hreplay', -, -, ht, ht'⟩ :=
    hs.replay calls (represents_of_run hpast' hrun') h
  exact ⟨t, t', ranges, hreplay, hreplay', fun x => (ht.freeAt x).trans (ht'.freeAt x).symm,
    fun x => (ht.allocatedAt x).trans (ht'.allocatedAt x).symm⟩

/-- Two ranges that are created one after the other. -/
lemma represents_created {r q : Range} (hr : r.start < r.stop) (hq : q.start < q.stop) (hr' : r.stop ≤ 2 ^ 31)
    (hq' : q.stop ≤ 2 ^ 31) (hapart : Disjoint (Set.Ico q.start q.stop) (Set.Ico r.start r.stop)) :
    Along call Fits (init true : CoalescingAllocator U) [.create r, .create q] ∧
    ∃ s, run call (init true : CoalescingAllocator U) [.create r, .create q] = .ok s ∧
      Represents true s ⟨Set.Ico r.start r.stop ∪ Set.Ico q.start q.stop, ∅⟩ := by
  have hfirst : (init true : CoalescingAllocator U).Fits (.create r) := ⟨acceptable_first hr (by omega), hr'⟩
  obtain ⟨s₁, -, -, -, hcall, ⟨⟩, hs₁⟩ := (init_represents (U := U) true).answer (.create r) hfirst
  rw [empty_union] at hs₁
  have hsecond : s₁.Fits (.create q) := by
    refine ⟨⟨hq, by omega, fun x hx => ?_⟩, hq'⟩
    rw [hs₁.freeAt, hs₁.allocatedAt]
    exact ⟨disjoint_left.mp hapart hx, notMem_empty x⟩
  obtain ⟨s₂, -, -, -, hcall', ⟨⟩, hs₂⟩ := hs₁.answer (.create q) hsecond
  refine ⟨⟨hfirst, fun s hs => ?_⟩, s₂, by simp [run, hcall, hcall'], hs₂⟩
  obtain rfl := Except.ok.inj (hcall.symm.trans hs)
  exact ⟨hsecond, fun _ _ => trivial⟩

/-- The start of the range at the root of the tree of free ranges. -/
def rootStart (s : CoalescingAllocator U) : Option ℕ := do
  let root ← s.freeByStartTree.tree
  let node ← s.freeByStartTree.nodes root
  let e ← node.element
  pure e.range.start

/-- Two ranges created in either order: the trees differ, the answers to three requests do not. -/
theorem allocator_history_independent_order : ∃ s s' t t' ranges,
    run call (init true : CoalescingAllocator Unit) [.create ⟨0, 100⟩, .create ⟨200, 300⟩] = .ok s ∧
    run call (init true) [.create ⟨200, 300⟩, .create ⟨0, 100⟩] = .ok s' ∧ s ≠ s' ∧
    s.replay [.allocate 60 (), .allocate 80 (), .allocate 40 ()] = .ok (t, ranges) ∧
    s'.replay [.allocate 60 (), .allocate 80 (), .allocate 40 ()] = .ok (t', ranges) ∧
    (∀ x, t.FreeAt x ↔ t'.FreeAt x) ∧ ∀ x, t.AllocatedAt x ↔ t'.AllocatedAt x := by
  have hapart : Disjoint (Set.Ico 200 300) (Set.Ico 0 100) := by
    refine disjoint_left.mpr fun x hx hx' => ?_
    rw [mem_Ico] at hx hx'
    omega
  obtain ⟨hpast, s, hs, hrep⟩ := represents_created (U := Unit) (r := ⟨0, 100⟩) (q := ⟨200, 300⟩) (by decide)
    (by decide) (by decide) (by decide) hapart
  obtain ⟨hpast', s', hs', hrep'⟩ := represents_created (U := Unit) (r := ⟨200, 300⟩) (q := ⟨0, 100⟩) (by decide)
    (by decide) (by decide) (by decide) hapart.symm
  have hroot : (run call (init true : CoalescingAllocator Unit) [.create ⟨0, 100⟩, .create ⟨200, 300⟩]).map rootStart =
      .ok (some 0) := rfl
  have hroot' : (run call (init true : CoalescingAllocator Unit) [.create ⟨200, 300⟩, .create ⟨0, 100⟩]).map rootStart =
      .ok (some 200) := rfl
  rw [Set.union_comm] at hrep'
  obtain ⟨t, t', ranges, hanswers⟩ := allocator_history_independent true _ _
    [.allocate 60 (), .allocate 80 (), .allocate 40 ()] s s' hpast hs hpast' hs'
    (fun x => (hrep.freeAt x).trans (hrep'.freeAt x).symm) (fun x => (hrep.allocatedAt x).trans (hrep'.allocatedAt x).symm)
    ⟨show 60 ≤ 2 ^ 31 by decide, fun _ _ => ⟨show 80 ≤ 2 ^ 31 by decide, fun _ _ =>
      ⟨show 40 ≤ 2 ^ 31 by decide, fun _ _ => trivial⟩⟩⟩
  refine ⟨s, s', t, t', ranges, hs, hs', ?_, hanswers⟩
  rintro rfl
  rw [hs] at hroot
  rw [hs', hroot] at hroot'
  cases hroot'

end Embassies.Utils.CoalescingAllocator
