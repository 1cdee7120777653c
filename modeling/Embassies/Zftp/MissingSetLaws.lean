import Embassies.Zftp.MissingSet

/-! What `_compute_missing_set` answers.

    The loop walks over the eligible blocks and keeps one range: the hole of the first block that lacks
    something, extended by blocks that are missing altogether and follow without a gap. `Scanned` says
    this of the blocks before some block, and is what every iteration keeps. From it follow where the
    answer lies, when it is empty, and which blocks the loop looks up at all. -/

namespace Embassies.Zftp

open Checked Nat DataRange ValidityState

/-! ### What is held -/

section Held

variable {t : MerkleTree} {view : Hash → ZBlockCacheRecord} {blk : ℕ}

/-- How many bytes of a block are there to be read: none before its leaf is validated, then those
    before the first gap of its record. -/
def heldBytes (t : MerkleTree) (view : Hash → ZBlockCacheRecord) (blk : ℕ) : ℕ :=
  match seenBlock t view blk with
  | none => 0
  | some r => if r.valid then zftpBlockSize else r.nextGap

/-- Byte `x` of the file is there to be read. -/
def Held (t : MerkleTree) (view : Hash → ZBlockCacheRecord) (x : ℕ) : Prop :=
  x % zftpBlockSize < heldBytes t view (x / zftpBlockSize)

/-- The block is valid, at a validated leaf. -/
def ValidAt (t : MerkleTree) (view : Hash → ZBlockCacheRecord) (blk : ℕ) : Prop :=
  blk < t.numBlocks ∧ ∃ r, seenBlock t view blk = some r ∧ r.valid = true

lemma ValidAt.heldBytes (h : ValidAt t view blk) : heldBytes t view blk = zftpBlockSize := by
  obtain ⟨-, r, hr, hv⟩ := h
  simp only [Zftp.heldBytes, hr, hv, if_true]

end Held

/-! ### Blocks of the eligible set -/

section Scan

variable {t : MerkleTree} {view : Hash → ZBlockCacheRecord} {eligible missing r : DataRange}
  {blk k : ℕ} {mode : Bool} {maxPayload : ℕ}

/-- A block the loop may look at. -/
structure Eligible (t : MerkleTree) (eligible : DataRange) (blk : ℕ) : Prop where
  lt : blk < t.numBlocks
  first : eligible.start / zftpBlockSize ≤ blk
  last : blk * zftpBlockSize < eligible.stop

lemma Eligible.fits (h : Eligible t eligible blk) : blk * zftpBlockSize + zftpBlockSize < 2 ^ 32 := by
  have hlt := h.lt
  have hnum := t.numBlocks_lt
  simp only [zftpBlockSize]
  omega

abbrev Aligned (r : DataRange) : Prop := r.start = r.start / zftpBlockSize * zftpBlockSize

/-- A record that is not valid has a gap inside its block. -/
abbrev Gaps (view : Hash → ZBlockCacheRecord) : Prop := ∀ h, (view h).valid = false → (view h).nextGap < zftpBlockSize

/-- Where a block's gap begins. -/
def holeStart (t : MerkleTree) (view : Hash → ZBlockCacheRecord) (blk : ℕ) : ℕ :=
  blk * zftpBlockSize + heldBytes t view blk

/-- Where it ends. -/
def holeStop (eligible : DataRange) (blk : ℕ) : ℕ :=
  min ((blk + 1) * zftpBlockSize) eligible.stop

/-- The block has a gap inside the eligible set. -/
def Hole (t : MerkleTree) (view : Hash → ZBlockCacheRecord) (eligible : DataRange) (blk : ℕ) : Prop :=
  holeStart t view blk < holeStop eligible blk

lemma Hole.start_lt {i j : ℕ} (h : Hole t view eligible i) (hij : i < j) : holeStart t view i < j * zftpBlockSize :=
  h.trans_le ((min_le_left _ _).trans (mul_le_mul_right _ hij))

/-- What the loop has found before block `k`: nothing, or the hole of block `i` and the blocks up to
    `j`, which are missing altogether, with no hole behind them yet. -/
inductive Scanned (t : MerkleTree) (view : Hash → ZBlockCacheRecord) (eligible : DataRange) (k : ℕ) :
    DataRange → Prop
  | nothing {r : DataRange} (hempty : r.start = r.stop)
      (hno : ∀ blk, eligible.start / zftpBlockSize ≤ blk → blk < k → ¬Hole t view eligible blk) :
      Scanned t view eligible k r
  | hole (i j : ℕ) (hi : Eligible t eligible i) (hij : i < j) (hjk : j ≤ k)
      (hhole : Hole t view eligible i)
      (hbefore : ∀ blk, eligible.start / zftpBlockSize ≤ blk → blk < i → ¬Hole t view eligible blk)
      (hwhole : ∀ blk, i < blk → blk < j → Hole t view eligible blk ∧ heldBytes t view blk = 0)
      (hafter : ∀ blk, j ≤ blk → blk < k → ¬Hole t view eligible blk) :
      Scanned t view eligible k ⟨holeStart t view i, min (j * zftpBlockSize) eligible.stop⟩

/-- The loop gets to block `blk`: it is the first, or what was found before it is less than the payload limit. -/
def Reached (t : MerkleTree) (view : Hash → ZBlockCacheRecord) (eligible : DataRange) (mode : Bool)
    (maxPayload blk : ℕ) : Prop :=
  blk = eligible.start / zftpBlockSize ∨
    ∃ r, Scanned t view eligible blk r ∧ approxPayloadSize mode r < maxPayload

lemma shifted_intersect {g : ℕ} (hk : Eligible t eligible k) (haligned : Aligned eligible) (hgap : g < zftpBlockSize) :
    intersect ⟨k * zftpBlockSize + g, k * zftpBlockSize + zftpBlockSize⟩ eligible =
      if k * zftpBlockSize + g < holeStop eligible k then ⟨k * zftpBlockSize + g, holeStop eligible k⟩
      else if k * zftpBlockSize + g = eligible.stop then ⟨eligible.stop, eligible.stop⟩ else .empty := by
  have hfirst := mul_le_mul_right zftpBlockSize hk.first
  have hlast := hk.last
  rw [← haligned] at hfirst
  have hmax : max (k * zftpBlockSize + g) eligible.start = k * zftpBlockSize + g := max_eq_left (by omega)
  simp only [holeStop, succ_mul, intersect, isEmpty, Bool.or_eq_true, decide_eq_true_eq, hmax]
  rw [if_neg (by omega)]
  by_cases hhole : k * zftpBlockSize + g < min (k * zftpBlockSize + zftpBlockSize) eligible.stop
  · rw [if_neg (by omega), if_pos hhole]
  · rw [if_neg hhole]
    by_cases hend : k * zftpBlockSize + g = eligible.stop
    · rw [if_neg (by omega), if_pos hend, hend, min_eq_right (by omega)]
    · rw [if_pos (by omega), if_neg hend]

/-- ITERATION: what one eligible block does to the range found so far. -/
lemma accumulateBlock_eq (missing : DataRange) (hgap : Gaps view) (hk : Eligible t eligible k)
    (haligned : Aligned eligible) :
    (Hole t view eligible k ∧ accumulateBlock eligible missing (k * zftpBlockSize) (seenBlock t view k) =
        missing.maybeAccumulate ⟨holeStart t view k, holeStop eligible k⟩) ∨ (¬Hole t view eligible k ∧
      (accumulateBlock eligible missing (k * zftpBlockSize) (seenBlock t view k) = some missing ∨
       eligible.stop < k * zftpBlockSize + zftpBlockSize ∧ ∃ e, (e = .empty ∨ e = ⟨eligible.stop, eligible.stop⟩) ∧
        accumulateBlock eligible missing (k * zftpBlockSize) (seenBlock t view k) = missing.maybeAccumulate e)) := by
  have hlast := hk.last
  have hdiv : k * zftpBlockSize / zftpBlockSize = k := mul_div_block _
  have hend : u32 (k * zftpBlockSize + zftpBlockSize) = k * zftpBlockSize + zftpBlockSize := u32_of_lt hk.fits
  have hstop : holeStop eligible k = min (k * zftpBlockSize + zftpBlockSize) eligible.stop := by
    rw [holeStop, Nat.succ_mul]
  have hpos := zftpBlockSize_pos
  simp only [accumulateBlock, hdiv, hend, Hole, holeStart, heldBytes]
  cases hseen : seenBlock t view k with
  | none =>
    refine .inl ⟨?_, ?_⟩
    · rw [hstop]
      dsimp only
      omega
    · rw [hstop, Nat.add_zero]
  | some r =>
    dsimp only
    by_cases hv : r.valid = true
    · refine .inr ⟨?_, .inl (if_pos hv)⟩
      rw [if_pos hv, hstop]
      omega
    · have hr : r.nextGap < zftpBlockSize := by
        rw [seenBlock] at hseen
        split at hseen
        · cases hseen
        · cases hseen
          exact hgap _ (by simpa using hv)
      have hword : u32 (k * zftpBlockSize + r.nextGap) = k * zftpBlockSize + r.nextGap := by
        have := hk.fits
        exact u32_of_lt (by omega)
      simp only [if_neg hv, ZBlockCacheRecord.getMissingRange, hword, hend, shifted_intersect hk haligned hr]
      by_cases hhole : k * zftpBlockSize + r.nextGap < holeStop eligible k
      · exact .inl ⟨hhole, by rw [if_pos hhole]⟩
      · have hbehind : eligible.stop < k * zftpBlockSize + zftpBlockSize := by omega
        rw [if_neg hhole]
        by_cases hpast : k * zftpBlockSize + r.nextGap = eligible.stop
        · exact .inr ⟨hhole, .inr ⟨hbehind, _, .inr rfl, by rw [if_pos hpast]⟩⟩
        · exact .inr ⟨hhole, .inr ⟨hbehind, _, .inl rfl, by rw [if_neg hpast]⟩⟩

lemma maybeAccumulate_empty (h : r.start = r.stop) (other : DataRange) : r.maybeAccumulate other = some other := by
  rw [maybeAccumulate, if_pos (isEmpty_iff.mpr h)]

lemma maybeAccumulate_behind (other : DataRange) (h : r.start < r.stop) (hstop : r.stop < other.stop) :
    r.maybeAccumulate other = if other.start = r.stop then some ⟨r.start, other.stop⟩ else none := by
  have hne : ¬r.isEmpty = true := by rw [DataRange.isEmpty_iff]; omega
  rw [DataRange.maybeAccumulate, if_neg hne, if_neg (by omega)]
  by_cases hjoin : other.start = r.stop
  · rw [if_pos hjoin, if_pos hjoin]
  · rw [if_neg hjoin, if_neg hjoin, if_neg (by omega)]

lemma maybeAccumulate_of_empty {e u : DataRange} (h : r.start < r.stop) (hstop : r.stop < eligible.stop)
    (he : e = .empty ∨ e = ⟨eligible.stop, eligible.stop⟩) (heq : r.maybeAccumulate e = some u) : u = r := by
  rcases he with rfl | rfl
  · have hne : ¬r.isEmpty = true := by rw [DataRange.isEmpty_iff]; omega
    rw [DataRange.maybeAccumulate, if_neg hne] at heq
    split at heq
    case isTrue hstart =>
      have h0 : DataRange.empty.start = r.start := hstart
      rw [h0] at heq
      exact (Option.some.inj heq).symm
    case isFalse =>
      rw [if_neg (by simp only [DataRange.empty]; omega)] at heq
      split at heq
      · exact (Option.some.inj heq).symm
      · cases heq
  · have hbehind := maybeAccumulate_behind ⟨eligible.stop, eligible.stop⟩ h hstop
    rw [hbehind, if_neg hstop.ne'] at heq
    cases heq

lemma scanned_start (t : MerkleTree) (view : Hash → ZBlockCacheRecord) (eligible : DataRange) :
    Scanned t view eligible (eligible.start / zftpBlockSize) .empty := by
  refine .nothing rfl ?_
  intro blk h1 h2
  omega

namespace Scanned

lemma ordered (h : Scanned t view eligible k r) : r.start ≤ r.stop := by
  cases h with
  | nothing hempty _ => exact hempty.le
  | hole i j hi hij hjk hhole _ _ _ =>
    exact le_min (hhole.start_lt hij).le (hhole.le.trans (min_le_right _ _))

/-- STEP: an iteration keeps `Scanned`, or finds that something is missing and does not join. -/
lemma step (h : Scanned t view eligible k missing) (hgap : Gaps view) (hk : Eligible t eligible k)
    (haligned : Aligned eligible) :
    (accumulateBlock eligible missing (k * zftpBlockSize) (seenBlock t view k) = none → missing.start < missing.stop) ∧
    ∀ u, accumulateBlock eligible missing (k * zftpBlockSize) (seenBlock t view k) = some u →
      Scanned t view eligible (k + 1) u := by
  have hextend : ¬Hole t view eligible k → ∀ {i : ℕ}, (∀ blk, i ≤ blk → blk < k →
      ¬Hole t view eligible blk) → ∀ blk, i ≤ blk → blk < k + 1 → ¬Hole t view eligible blk := by
    intro hno i hold blk hle hlt
    rcases Nat.lt_succ_iff_lt_or_eq.mp hlt with hlt | rfl
    · exact hold blk hle hlt
    · exact hno
  cases h with
  | nothing hempty hno =>
    rcases accumulateBlock_eq missing hgap hk haligned with
      ⟨hhole, heq⟩ | ⟨hnot, heq | ⟨-, e, he, heq⟩⟩
    · rw [heq, maybeAccumulate_empty hempty]
      refine ⟨by rintro ⟨⟩, ?_⟩
      rintro u ⟨⟩
      refine .hole k (k + 1) hk (Nat.lt_succ_self _) le_rfl hhole hno ?_ ?_
      · intro blk h1 h2
        omega
      · intro blk h1 h2
        omega
    · rw [heq]
      refine ⟨by rintro ⟨⟩, ?_⟩
      rintro u ⟨⟩
      exact .nothing hempty (hextend hnot hno)
    · rw [heq, maybeAccumulate_empty hempty]
      refine ⟨by rintro ⟨⟩, ?_⟩
      rintro u ⟨⟩
      refine .nothing ?_ (hextend hnot hno)
      rcases he with rfl | rfl <;> rfl
  | hole i j hi hij hjk hhole hbefore hwhole hafter =>
    have hkj : j * zftpBlockSize ≤ k * zftpBlockSize := Nat.mul_le_mul_right _ hjk
    have hbefore_stop : j * zftpBlockSize < eligible.stop := hkj.trans_lt hk.last
    have hmin : min (j * zftpBlockSize) eligible.stop = j * zftpBlockSize := min_eq_left hbefore_stop.le
    have hlt := hhole.start_lt hij
    rw [hmin]
    rcases accumulateBlock_eq ⟨holeStart t view i, j * zftpBlockSize⟩ hgap hk haligned with
      ⟨hhole', heq⟩ | ⟨hnot, heq | ⟨-, e, he, heq⟩⟩
    · refine ⟨fun _ => hlt, ?_⟩
      intro u hu
      have hstart : k * zftpBlockSize ≤ holeStart t view k := Nat.le_add_right _ _
      rw [heq, maybeAccumulate_behind _ hlt ((hkj.trans hstart).trans_lt hhole')] at hu
      dsimp only at hu
      by_cases hjoin : holeStart t view k = j * zftpBlockSize
      · rw [if_pos hjoin] at hu
        cases hu
        -- the hole begins where the range ends, so the block is the next one and nothing of it is held
        have hjk' : j = k := by
          refine le_antisymm hjk (Nat.le_of_mul_le_mul_right (hstart.trans hjoin.le) ?_)
          norm_num [zftpBlockSize]
        subst hjk'
        have hheld : heldBytes t view j = 0 := Nat.add_eq_left.mp hjoin
        refine .hole i (j + 1) hi (by omega) le_rfl hhole hbefore ?_ ?_
        · intro blk h1 h2
          rcases Nat.lt_succ_iff_lt_or_eq.mp h2 with h2 | rfl
          · exact hwhole blk h1 h2
          · exact ⟨hhole', hheld⟩
        · intro blk h1 h2
          omega
      · rw [if_neg hjoin] at hu
        cases hu
    · refine ⟨fun _ => hlt, ?_⟩
      intro u hu
      rw [heq] at hu
      cases hu
      rw [← hmin]
      exact .hole i j hi hij (by omega) hhole hbefore hwhole (hextend hnot hafter)
    · refine ⟨fun _ => hlt, ?_⟩
      intro u hu
      rw [heq] at hu
      obtain rfl := maybeAccumulate_of_empty hlt hbefore_stop he hu
      rw [← hmin]
      exact .hole i j hi hij (by omega) hhole hbefore hwhole (hextend hnot hafter)

lemma exists_hole (h : Scanned t view eligible k r) (hfirst : eligible.start / zftpBlockSize ≤ blk) (hlt : blk < k)
    (hhole : Hole t view eligible blk)
    (hbefore : ∀ m, eligible.start / zftpBlockSize ≤ m → m < blk → ¬Hole t view eligible m) :
    ∃ j, blk < j ∧ j ≤ k ∧ (∀ m, blk < m → m < j → Hole t view eligible m ∧ heldBytes t view m = 0) ∧
      (∀ m, j ≤ m → m < k → ¬Hole t view eligible m) ∧
      r = ⟨holeStart t view blk, min (j * zftpBlockSize) eligible.stop⟩ := by
  cases h with
  | nothing _ hno => exact absurd hhole (hno blk hfirst hlt)
  | hole i j hi hij hjk hhole' hbefore' hwhole hafter =>
    obtain rfl : i = blk := by
      rcases lt_trichotomy i blk with h | h | h
      · exact absurd hhole' (hbefore i hi.first h)
      · exact h
      · exact absurd hhole (hbefore' blk hfirst h)
    exact ⟨j, hij, hjk, hwhole, hafter, rfl⟩

end Scanned

lemma approxPayloadSize_mono (mode : Bool) {start stop stop' : ℕ} (hle : start ≤ stop) (hstop : stop ≤ stop')
    (hlt : stop' < 2 ^ 32) :
    approxPayloadSize mode ⟨start, stop⟩ ≤ approxPayloadSize mode ⟨start, stop'⟩ := by
  have h1 : size ⟨start, stop⟩ = stop - start := sub32_of_le (by dsimp only; omega) hle
  have h2 : size ⟨start, stop'⟩ = stop' - start := sub32_of_le hlt (hle.trans hstop)
  cases mode with
  | true =>
    simp only [approxPayloadSize, if_true, h1, h2]
    omega
  | false =>
    simp only [approxPayloadSize, Bool.false_eq_true, if_false, h1, h2]
    exact Nat.mul_le_mul_right _ (Nat.div_le_div_right (by omega))

lemma Eligible.of_le {u : ℕ} (h : Eligible t eligible u) (hfirst : eligible.start / zftpBlockSize ≤ k) (hle : k ≤ u)
    : Eligible t eligible k := by
  have hmul := mul_le_mul_right zftpBlockSize hle
  have hlast := h.last
  exact ⟨hle.trans_lt h.lt, hfirst, by omega⟩

/-- JOIN: before a block that the scan can get to, every iteration joins, and what it has found is
    estimated to be no more than what will have been found there. -/
lemma Scanned.join {u : ℕ} (h : Scanned t view eligible k missing) (hu : Scanned t view eligible u r) (hgap : Gaps view)
    (helig : Eligible t eligible u) (hfirst : eligible.start / zftpBlockSize ≤ k) (hlt : k < u)
    (haligned : Aligned eligible) (mode : Bool) :
    ∃ m, accumulateBlock eligible missing (k * zftpBlockSize) (seenBlock t view k) = some m ∧
      approxPayloadSize mode m ≤ approxPayloadSize mode r := by
  have hk := helig.of_le hfirst hlt.le
  have hword : ∀ j ≤ u, j * zftpBlockSize < 2 ^ 32 := fun j hj =>
    (mul_le_mul_right _ hj).trans_lt ((le_add_right _ _).trans_lt helig.fits)
  have hlast : ∀ j ≤ u, j * zftpBlockSize < eligible.stop := fun j hj =>
    (mul_le_mul_right _ hj).trans_lt helig.last
  have hnext : k * zftpBlockSize + zftpBlockSize < eligible.stop := by
    rw [← succ_mul]
    exact hlast _ hlt
  cases h with
  | nothing hempty hno =>
    rcases accumulateBlock_eq missing hgap hk haligned with
      ⟨hhole, heq⟩ | ⟨hnot, heq | ⟨hbehind, -⟩⟩
    · obtain ⟨j, hkj, hju, -, -, rfl⟩ := hu.exists_hole hfirst hlt hhole hno
      refine ⟨_, heq.trans (maybeAccumulate_empty hempty _), approxPayloadSize_mono mode hhole.le ?_ ?_⟩
      · exact min_le_min_right _ (mul_le_mul_right _ hkj)
      · exact (min_le_left _ _).trans_lt (hword j hju)
    · exact ⟨_, heq, by rw [approxPayloadSize_empty (isEmpty_iff.mpr hempty)]; exact zero_le _⟩
    · exact absurd hbehind hnext.not_gt
  | hole i j hi hij hjk hhole hbefore hwhole hafter =>
    obtain ⟨j', hij', hju, hwhole', hafter', rfl⟩ := hu.exists_hole hi.first (by omega) hhole hbefore
    have hjj' : j ≤ j' := by
      by_contra hlt'
      exact hafter' j' le_rfl (by omega) (hwhole j' hij' (by omega)).1
    have hmin : ∀ j ≤ u, min (j * zftpBlockSize) eligible.stop = j * zftpBlockSize := fun j hj =>
      min_eq_left (hlast j hj).le
    rw [hmin j (by omega), hmin j' hju]
    rcases accumulateBlock_eq ⟨holeStart t view i, j * zftpBlockSize⟩ hgap hk haligned with
      ⟨hhole', heq⟩ | ⟨hnot, heq | ⟨hbehind, -⟩⟩
    · -- the block is one of those the range will have grown by
      have hkj' : k < j' := by
        by_contra hge
        exact hafter' k (by omega) hlt hhole'
      obtain ⟨-, hheld⟩ := hwhole' k (by omega) hkj'
      have hjk' : j = k := by
        by_contra hne'
        exact hafter j le_rfl (by omega) (hwhole' j hij (by omega)).1
      subst hjk'
      have hjoin : holeStart t view j = j * zftpBlockSize := by rw [holeStart, hheld, add_zero]
      refine ⟨⟨holeStart t view i, holeStop eligible j⟩, ?_, ?_⟩
      · rw [heq, maybeAccumulate_behind _ (hhole.start_lt hij) (hjoin ▸ hhole')]
        exact if_pos hjoin
      · rw [holeStop, hmin (j + 1) hlt]
        exact approxPayloadSize_mono mode (hhole.start_lt (hij.trans (lt_succ_self _))).le
          (mul_le_mul_right _ hkj') (hword j' hju)
    · exact ⟨_, heq, approxPayloadSize_mono mode (hhole.start_lt hij).le (mul_le_mul_right _ hjj') (hword j' hju)⟩
    · exact absurd hbehind hnext.not_gt

end Scan

/-! ### The loop -/

section Loop

variable {zhash : Bytes → Hash} {t : MerkleTree} {eligible : DataRange} {mode : Bool} {maxPayload : ℕ}
  {c c' : ZBlockCache} {missing r : DataRange} {k : ℕ}

lemma ZBlockCache.Sound.view_gap (hc : c.Sound zhash) (h : Hash) (hv : (c.view h).valid = false) :
    (c.view h).nextGap < zftpBlockSize := ((hc.view h).1.gap hv).2

lemma missingLoop_succ (hk : Eligible t eligible k) (fuel : ℕ) :
    missingLoop t mode maxPayload eligible (fuel + 1) (k * zftpBlockSize) missing c = (do
      let (c, block) ← lookupValidated t c k
      match accumulateBlock eligible missing (k * zftpBlockSize) block with
      | none => pure (c, missing)
      | some missing =>
        if maxPayload ≤ approxPayloadSize mode missing then pure (c, missing)
        else missingLoop t mode maxPayload eligible fuel ((k + 1) * zftpBlockSize) missing c) := by
  have hend : u32 ((k + 1) * zftpBlockSize) = (k + 1) * zftpBlockSize := by
    rw [Nat.succ_mul]
    exact u32_of_lt hk.fits
  rewrite [missingLoop, mul_div_block, if_pos ⟨hk.last, hk.lt⟩, hend]
  rfl

/-- SUPPLY: a loop that answers could look up every block it gets to. -/
lemma missingLoop_supplied (haligned : Aligned eligible) (fuel : ℕ)
    : ∀ (k : ℕ) (missing r : DataRange) (c c' : ZBlockCache), c.Sound zhash →
      Scanned t c.view eligible k missing → eligible.start / zftpBlockSize ≤ k →
      missingLoop t mode maxPayload eligible fuel (k * zftpBlockSize) missing c = .ok (c', r) →
      ∀ u, k ≤ u → Eligible t eligible u →
        (u = k ∨ ∃ m, Scanned t c.view eligible u m ∧ approxPayloadSize mode m < maxPayload) →
        ¬(t.leaf u).state.rank < validated.rank → c.CanSupply (t.leaf u).hash := by
  induction fuel with
  | zero => intro k missing r c c' _ _ _ h; cases h
  | succ fuel ih =>
    intro k missing r c c' hc hscan hfirst h u hku hu hreach hvalid
    have hk := hu.of_le hfirst hku
    rw [missingLoop_succ hk] at h
    obtain ⟨⟨c1, block⟩, hl, h⟩ := of_bind h
    obtain ⟨-, -, -, hself, hother⟩ := lookupValidated_view hc hk.lt hl
    rcases hku.eq_or_lt with rfl | hlt
    · exact hself hvalid
    · obtain ⟨hs1, -⟩ := lookupValidated_sound hc hl
      obtain ⟨rfl, hview, -⟩ := lookupValidated_view hc hk.lt hl
      obtain ⟨m, hm, hsmall⟩ := hreach.resolve_left hlt.ne'
      obtain ⟨m', hacc, hle⟩ := hscan.join hm hc.view_gap hu hfirst hlt haligned mode
      have hnext := (hscan.step hc.view_gap hk haligned).2 m' hacc
      dsimp only at h
      rw [hacc] at h
      dsimp only at h
      rw [if_neg (by omega)] at h
      have hfun : c1.view = c.view := funext hview
      rw [← hfun] at hnext hm
      exact hother _ (ih (k + 1) m' r c1 c' hs1 hnext (by omega) h u hlt hu (.inr ⟨m, hm, hsmall⟩) hvalid)

/-- TOTAL: a loop that can look up every block it gets to answers. -/
lemma missingLoop_answers (haligned : Aligned eligible) (fuel : ℕ)
    : ∀ (k : ℕ) (missing : DataRange) (c : ZBlockCache), c.Sound zhash →
      Scanned t c.view eligible k missing → eligible.start / zftpBlockSize ≤ k →
      (k = eligible.start / zftpBlockSize ∨ approxPayloadSize mode missing < maxPayload) → t.numBlocks ≤ k + fuel →
      (∀ u, Eligible t eligible u → Reached t c.view eligible mode maxPayload u →
        ¬(t.leaf u).state.rank < validated.rank → c.CanSupply (t.leaf u).hash) →
      ∃ c' r, missingLoop t mode maxPayload eligible (fuel + 1) (k * zftpBlockSize) missing c = .ok (c', r) := by
  have hend : ∀ {fuel k missing c}, eligible.start / zftpBlockSize ≤ k → ¬Eligible t eligible k →
      missingLoop t mode maxPayload eligible (fuel + 1) (k * zftpBlockSize) missing c = .ok (c, missing) := by
    intro fuel k missing c hfirst hk
    rw [missingLoop, mul_div_block, if_neg (fun h => hk ⟨h.2, hfirst, h.1⟩), pure_eq_ok]
  induction fuel with
  | zero =>
    intro k missing c _ _ hfirst _ hfuel _
    exact ⟨c, missing, hend hfirst (fun hk => by have := hk.lt; omega)⟩
  | succ fuel ih =>
    intro k missing c hc hscan hfirst hreach hfuel hsupply
    by_cases hk : Eligible t eligible k
    · have hhere : Reached t c.view eligible mode maxPayload k := hreach.imp id (fun hlt => ⟨missing, hscan, hlt⟩)
      obtain ⟨c1, block, hl⟩ := lookupValidated_total hc hk.lt (hsupply k hk hhere)
      obtain ⟨hs1, -⟩ := lookupValidated_sound hc hl
      obtain ⟨rfl, hview, hcan, -⟩ := lookupValidated_view hc hk.lt hl
      have hfun : c1.view = c.view := funext hview
      rw [missingLoop_succ hk, hl, ok_bind]
      dsimp only
      cases hacc : accumulateBlock eligible missing (k * zftpBlockSize) (seenBlock t c.view k) with
      | none => exact ⟨c1, missing, rfl⟩
      | some m =>
        dsimp only
        by_cases hfull : maxPayload ≤ approxPayloadSize mode m
        · exact ⟨c1, m, by rw [if_pos hfull, pure_eq_ok]⟩
        · rw [if_neg hfull]
          have hnext := (hscan.step hc.view_gap hk haligned).2 m hacc
          rw [← hfun] at hnext hsupply
          exact ih (k + 1) m c1 hs1 hnext (by omega) (.inr (by omega)) (by omega)
            (fun u hu hr hv => hcan _ (hsupply u hu hr hv))
    · exact ⟨c, missing, hend hfirst hk⟩

/-- RUN: what the loop answers is what the scan found, up to the end of the eligible set or to a place
    where something was missing; without any payload it stops behind the first block. -/
lemma missingFrom_scanned {view : Hash → ZBlockCacheRecord} (mode : Bool) (maxPayload : ℕ) (hgap : Gaps view)
    (haligned : Aligned eligible) (fuel : ℕ) :
    ∀ (k : ℕ) (missing : DataRange), Scanned t view eligible k missing →
      eligible.start / zftpBlockSize ≤ k → (maxPayload = 0 → k = eligible.start / zftpBlockSize) →
      t.numBlocks ≤ k + fuel → ∃ stop, Scanned t view eligible stop
          (missingFrom t mode maxPayload eligible view fuel (k * zftpBlockSize) missing) ∧
        (maxPayload = 0 → stop ≤ eligible.start / zftpBlockSize + 1) ∧ (¬Eligible t eligible stop ∨
          (missingFrom t mode maxPayload eligible view fuel (k * zftpBlockSize) missing).isEmpty = false ∨
          maxPayload = 0 ∧ stop = eligible.start / zftpBlockSize + 1) ∧ eligible.start / zftpBlockSize ≤ stop := by
  induction fuel with
  | zero =>
    intro k missing hscan hfirst hzero hfuel
    exact ⟨k, hscan, fun h => by have := hzero h; omega, .inl (fun hk => by have := hk.lt; omega), hfirst⟩
  | succ fuel ih =>
    intro k missing hscan hfirst hzero hfuel
    rw [missingFrom, mul_div_block]
    by_cases hk : Eligible t eligible k
    · obtain ⟨hnone, hsome⟩ := hscan.step hgap hk haligned
      rw [if_pos ⟨hk.last, hk.lt⟩]
      cases hacc : accumulateBlock eligible missing (k * zftpBlockSize) (seenBlock t view k) with
      | none =>
        refine ⟨k, hscan, fun h => by have := hzero h; omega, .inr (.inl ?_), hfirst⟩
        have := hnone hacc
        dsimp only
        rw [← Bool.not_eq_true, DataRange.isEmpty_iff]
        omega
      | some m =>
        dsimp only
        have hnext := hsome m hacc
        by_cases hfull : maxPayload ≤ approxPayloadSize mode m
        · rw [if_pos hfull]
          refine ⟨k + 1, hnext, fun h => by have := hzero h; omega, .inr ?_, by omega⟩
          cases hempty : m.isEmpty with
          | false => exact .inl rfl
          | true =>
            rw [approxPayloadSize_empty hempty] at hfull
            have hz : maxPayload = 0 := by omega
            exact .inr ⟨hz, by rw [hzero hz]⟩
        · rw [if_neg hfull]
          exact ih (k + 1) m hnext (by omega) (fun h => by omega) (by omega)
    · rw [if_neg (fun h => hk ⟨h.2, hfirst, h.1⟩)]
      exact ⟨k, hscan, fun h => by have := hzero h; omega, .inl hk, hfirst⟩

end Loop

/-! ### Requests -/

section Request

variable {zhash : Bytes → Hash} {cfg : ZCacheConfig} {t : MerkleTree} {mode : Bool}
  {c c' : ZBlockCache} {requested r : DataRange} {blk : ℕ} {view : Hash → ZBlockCacheRecord}

/-- The longest file whose blocks `compute_num_blocks` can count. -/
def maxBlocksLen : ℕ := 65535 * zftpBlockSize

/-- A block of the file that the request meets. -/
structure Overlaps (t : MerkleTree) (requested : DataRange) (blk : ℕ) : Prop where
  inFile : blk * zftpBlockSize < t.metadata.fileLen
  start : requested.start < (blk + 1) * zftpBlockSize
  stop : blk * zftpBlockSize < requested.stop
  nonempty : requested.start < requested.stop

/-- What a missing set is to be: bytes that are not held, inside the request rounded to blocks and cut
    to the file; empty exactly when every block that the request meets is valid. -/
structure IsMissingSet (t : MerkleTree) (view : Hash → ZBlockCacheRecord) (requested r : DataRange) :
    Prop where
  ordered : r.start ≤ r.stop
  within : ∀ x, r.start ≤ x → x < r.stop →
    requested.start / zftpBlockSize * zftpBlockSize ≤ x ∧
      x < (requested.stop + zftpBlockSize - 1) / zftpBlockSize * zftpBlockSize ∧
      x < t.metadata.fileLen
  notHeld : ∀ x, r.start ≤ x → x < r.stop → ¬Held t view x
  empty_iff : r.isEmpty = true ↔ ∀ blk, Overlaps t requested blk → ValidAt t view blk
  of_empty : requested.stop ≤ requested.start → r.isEmpty = true

/-- The loop finds a hole; without any payload it looks at the first block only. -/
def Finds (t : MerkleTree) (view : Hash → ZBlockCacheRecord) (eligible : DataRange)
    (maxPayload : ℕ) : Prop :=
  ∃ blk, Eligible t eligible blk ∧ Hole t view eligible blk ∧
    (maxPayload = 0 → blk = eligible.start / zftpBlockSize)

lemma numBlocks_of_le (h : t.metadata.fileLen ≤ maxBlocksLen) (blk : ℕ) :
    blk < t.numBlocks ↔ blk * zftpBlockSize < t.metadata.fileLen := lt_iff_lt_of_le_iff_le (computeNumBlocks_le_iff h blk)

lemma numBlocks_of_gt (h : maxBlocksLen < t.metadata.fileLen) : t.numBlocks = 0 := by
  have hlt := t.metadata.fileLen_lt
  simp only [MerkleTree.numBlocks, computeNumBlocks, u32]
  simp only [maxBlocksLen, zftpBlockSize] at *
  omega

lemma roundUpToBlock_eq {b : ℕ} (h0 : 0 < b) (hb : b < 2 ^ 32) :
    roundUpToBlock b = min ((b - 1) / zftpBlockSize + 1) 65535 * zftpBlockSize := by
  have hsub : sub32 b 1 = b - 1 := sub32_of_le hb h0
  simp only [roundUpToBlock, hsub, u32, zftpBlockSize]
  split <;> omega

lemma roundUpToBlock_le {b : ℕ} (h0 : 0 < b) (hb : b < 2 ^ 32) :
    roundUpToBlock b ≤ (b + zftpBlockSize - 1) / zftpBlockSize * zftpBlockSize := by
  rw [roundUpToBlock_eq h0 hb]
  simp only [zftpBlockSize]
  omega

lemma overlaps_of_gt (hb : requested.stop < 2 ^ 32) (hlt : requested.start < requested.stop)
    (hlong : maxBlocksLen < t.metadata.fileLen) : Overlaps t requested (requested.start / zftpBlockSize) := by
  have hdiv : requested.start / zftpBlockSize ≤ 65535 := by
    simp only [zftpBlockSize]
    omega
  have hdown := div_mul_le_self requested.start zftpBlockSize
  refine ⟨(mul_le_mul_right _ hdiv).trans_lt hlong, ?_, hdown.trans_lt hlt, hlt⟩
  rw [succ_mul]
  exact lt_blockEnd _

lemma DataRange.intersect_cases (r o : DataRange) : r.intersect o = .empty ∧
        (r.start = r.stop ∨ o.start = o.stop ∨ min r.stop o.stop < max r.start o.start) ∨
      r.intersect o = ⟨max r.start o.start, min r.stop o.stop⟩ := by
  rw [intersect]
  split
  case isTrue h =>
    rw [Bool.or_eq_true, isEmpty_iff, isEmpty_iff] at h
    exact .inl ⟨rfl, h.imp_right .inl⟩
  case isFalse =>
    split
    case isTrue h => exact .inl ⟨rfl, .inr (.inr h)⟩
    case isFalse => exact .inr rfl

lemma eligibleSet_cases (t : MerkleTree) (requested : DataRange) : eligibleSet t requested = .empty ∧
        (roundUpToBlock requested.stop ≤ requested.start / zftpBlockSize * zftpBlockSize ∨
          t.metadata.fileLen ≤ requested.start / zftpBlockSize * zftpBlockSize) ∨
      eligibleSet t requested = ⟨requested.start / zftpBlockSize * zftpBlockSize,
        min (roundUpToBlock requested.stop) t.metadata.fileLen⟩ := by
  rcases intersect_cases ⟨requested.start / zftpBlockSize * zftpBlockSize, roundUpToBlock requested.stop⟩
    (getFileDataRange t) with ⟨heq, hcase⟩ | heq
  · simp only [getFileDataRange] at hcase
    exact .inl ⟨heq, by omega⟩
  · refine .inr (heq.trans ?_)
    simp only [getFileDataRange, max_zero]

lemma eligibleSet_aligned (t : MerkleTree) (requested : DataRange) : (eligibleSet t requested).start =
      (eligibleSet t requested).start / zftpBlockSize * zftpBlockSize := by
  rcases eligibleSet_cases t requested with ⟨h, -⟩ | h
  · rw [h]
    rfl
  · rw [h]
    dsimp only
    rw [mul_div_block _]

/-- BLOCKS: the loop looks at the blocks the request meets. -/
lemma eligible_iff (hb : requested.stop < 2 ^ 32) (hlt : requested.start < requested.stop)
    (hlen : t.metadata.fileLen ≤ maxBlocksLen) :
    Eligible t (eligibleSet t requested) blk ↔ Overlaps t requested blk := by
  have hnum := numBlocks_of_le hlen blk
  have hup := roundUpToBlock_eq (Nat.zero_lt_of_lt hlt) hb
  constructor
  · intro h
    have hfirst := h.first
    have hlast := h.last
    have hin := hnum.mp h.lt
    rcases eligibleSet_cases t requested with ⟨heq, -⟩ | heq
    · rw [heq] at hlast
      exact absurd hlast (Nat.not_lt_zero _)
    · rw [heq] at hfirst hlast
      dsimp only at hfirst hlast
      rw [mul_div_block _] at hfirst
      refine ⟨hin, ?_, ?_, hlt⟩
      · simp only [zftpBlockSize] at *
        omega
      · simp only [zftpBlockSize] at *
        omega
  · rintro ⟨hin, hstart, hstop, -⟩
    rcases eligibleSet_cases t requested with ⟨heq, hcase⟩ | heq
    · exfalso
      simp only [maxBlocksLen, zftpBlockSize] at *
      omega
    · refine ⟨hnum.mpr hin, ?_, ?_⟩ <;> rw [heq] <;> dsimp only
      · rw [mul_div_block _]
        simp only [zftpBlockSize] at *
        omega
      · simp only [maxBlocksLen, zftpBlockSize] at *
        omega

lemma missingSet_scanned (cfg : ZCacheConfig) (t : MerkleTree) (mode : Bool) (hc : c.Sound zhash)
    (requested : DataRange) :
    ∃ stop, Scanned t c.view (eligibleSet t requested) stop (missingSet cfg t mode c.view requested) ∧
      (cfg.zfileClient.getD 1 = 0 → stop ≤ (eligibleSet t requested).start / zftpBlockSize + 1) ∧
      (¬Eligible t (eligibleSet t requested) stop ∨ (missingSet cfg t mode c.view requested).isEmpty = false ∨
        cfg.zfileClient.getD 1 = 0 ∧ stop = (eligibleSet t requested).start / zftpBlockSize + 1) ∧
      (eligibleSet t requested).start / zftpBlockSize ≤ stop := by
  have haligned := eligibleSet_aligned t requested
  have hnum := t.numBlocks_lt
  have hstart := scanned_start t c.view (eligibleSet t requested)
  have hrun := missingFrom_scanned mode (cfg.zfileClient.getD 1) hc.view_gap haligned
    (zftpBlockSize + 1) _ _ hstart le_rfl (fun _ => rfl)
    (by simp only [zftpBlockSize]; omega)
  rw [← haligned] at hrun
  exact hrun

/-- ANSWER: something is missing exactly when the loop finds a hole. -/
lemma missingSet_finds (cfg : ZCacheConfig) (t : MerkleTree) (mode : Bool) (hc : c.Sound zhash) (requested : DataRange)
    : (missingSet cfg t mode c.view requested).isEmpty = false ↔
      Finds t c.view (eligibleSet t requested) (cfg.zfileClient.getD 1) := by
  obtain ⟨stop, hscan, hzero, hcase, hfirst⟩ := missingSet_scanned cfg t mode hc requested
  generalize hr : missingSet cfg t mode c.view requested = r at *
  cases hscan with
  | nothing hempty hno =>
    have htrue : r.isEmpty = true := DataRange.isEmpty_iff.mpr hempty
    rw [htrue]
    refine ⟨by rintro ⟨⟩, ?_⟩
    rintro ⟨blk, helig, hhole, hone⟩
    refine absurd hhole (hno blk helig.first ?_)
    rcases hcase with hend | hne | ⟨hz, rfl⟩
    · -- the scan went through to the end of the eligible set
      by_contra hge
      exact hend (helig.of_le hfirst (Nat.le_of_not_lt hge))
    · rw [htrue] at hne
      cases hne
    · rw [hone hz]
      exact Nat.lt_succ_self _
  | hole i j hi hij hjk hhole hbefore hwhole hafter =>
    refine ⟨fun _ => ⟨i, hi, hhole, ?_⟩, fun _ => ?_⟩
    · intro hz
      have hle := hzero hz
      have hge := hi.first
      omega
    · rw [← Bool.not_eq_true, DataRange.isEmpty_iff]
      have hmul := Nat.mul_le_mul_right zftpBlockSize (Nat.succ_le_of_lt hij)
      simp only [Hole, holeStop, Nat.succ_eq_add_one] at hhole hmul
      dsimp only
      omega

/-- PLACE: a hole that was found lies in the eligible set, and none of its bytes is held. -/
lemma Scanned.bytes {eligible : DataRange} {k x : ℕ} (h : Scanned t view eligible k r) (hx1 : r.start ≤ x)
    (hx2 : x < r.stop) :
    eligible.start / zftpBlockSize * zftpBlockSize ≤ x ∧ x < eligible.stop ∧ ¬Held t view x := by
  cases h with
  | nothing hempty _ => omega
  | hole i j hi hij hjk hhole hbefore hwhole hafter =>
    dsimp only at hx1 hx2
    have hpos := zftpBlockSize_pos
    have hfirst := mul_le_mul_right zftpBlockSize hi.first
    have hstart : i * zftpBlockSize ≤ holeStart t view i := le_add_right _ _
    have hlo : i ≤ x / zftpBlockSize := by
      rw [le_div_iff_mul_le hpos]
      omega
    have hhi : x / zftpBlockSize < j := by
      rw [div_lt_iff_lt_mul hpos]
      omega
    refine ⟨by omega, by omega, ?_⟩
    rw [Held]
    rcases hlo.eq_or_lt with heq | hlt
    · rw [← heq]
      have hmod := div_add_mod' x zftpBlockSize
      rw [← heq] at hmod
      simp only [holeStart] at hx1
      omega
    · rw [(hwhole _ hlt hhi).2]
      exact not_lt_zero _

/-- The condition under which `_compute_missing_set` answers a request: every block it gets to can be looked up, the
    blocks of the file can be counted, and the first gap of a block that is not valid does not lie behind the end of the
    file, unless another hole is found; and if the request is empty, no hole is found in the blocks it is rounded to. -/
structure Answers (cfg : ZCacheConfig) (t : MerkleTree) (mode : Bool) (c : ZBlockCache)
    (requested : DataRange) : Prop where
  supplied : ∀ blk, Eligible t (eligibleSet t requested) blk →
    Reached t c.view (eligibleSet t requested) mode (cfg.zfileClient.getD 1) blk →
    ¬(t.leaf blk).state.rank < ValidityState.validated.rank → c.CanSupply (t.leaf blk).hash
  counted : requested.start < requested.stop → t.metadata.fileLen ≤ maxBlocksLen
  shows : requested.start < requested.stop →
    Finds t c.view (eligibleSet t requested) (cfg.zfileClient.getD 1) ∨
      ∀ blk, Overlaps t requested blk → ValidAt t c.view blk
  nothing : requested.stop ≤ requested.start →
    ¬Finds t c.view (eligibleSet t requested) (cfg.zfileClient.getD 1)

lemma computeMissingSet_eq_loop (cfg : ZCacheConfig) (t : MerkleTree) (mode : Bool) (c : ZBlockCache)
    (requested : DataRange) : computeMissingSet cfg t mode c requested =
      missingLoop t mode (cfg.zfileClient.getD 1) (eligibleSet t requested) (zftpBlockSize + 1)
        ((eligibleSet t requested).start / zftpBlockSize * zftpBlockSize) .empty c := by
  rw [← eligibleSet_aligned]
  rfl

lemma Finds.not_valid {maxPayload : ℕ} (h : Finds t view (eligibleSet t requested) maxPayload) :
    ∃ blk, Eligible t (eligibleSet t requested) blk ∧ ¬ValidAt t view blk := by
  obtain ⟨blk, helig, hhole, -⟩ := h
  refine ⟨blk, helig, fun hv => ?_⟩
  rw [Hole, holeStart, hv.heldBytes, holeStop, succ_mul] at hhole
  omega

/-- MISSING SET: `_compute_missing_set` returns what a missing set is to be exactly under the condition `Answers`. -/
theorem computeMissingSet_isMissingSet_iff (hc : c.Sound zhash) (hb : requested.stop < 2 ^ 32) :
    (∃ c' r, computeMissingSet cfg t mode c requested = .ok (c', r) ∧
      IsMissingSet t c.view requested r) ↔ Answers cfg t mode c requested := by
  have haligned := eligibleSet_aligned t requested
  have hstart := scanned_start t c.view (eligibleSet t requested)
  have hfinds := missingSet_finds cfg t mode hc requested
  constructor
  · rintro ⟨c', r, hok, hright⟩
    obtain ⟨hr, -⟩ := computeMissingSet_eq hc hok
    rw [← hr] at hfinds
    rw [computeMissingSet_eq_loop] at hok
    refine ⟨?_, ?_, ?_, ?_⟩
    · intro blk helig hreach
      exact missingLoop_supplied haligned _ _ _ _ _ _ hc hstart le_rfl hok blk helig.first helig hreach
    · intro hlt
      by_contra hlong
      have hnum := numBlocks_of_gt (Nat.lt_of_not_le hlong)
      have hempty : r.isEmpty = true := by
        rw [← Bool.not_eq_false, hfinds]
        rintro ⟨blk, helig, -⟩
        have := helig.lt
        omega
      have hcount := (hright.empty_iff.mp hempty _ (overlaps_of_gt hb hlt (Nat.lt_of_not_le hlong))).1
      rw [hnum] at hcount
      exact Nat.not_lt_zero _ hcount
    · intro hlt
      cases hempty : r.isEmpty with
      | false => exact .inl (hfinds.mp hempty)
      | true => exact .inr (hright.empty_iff.mp hempty)
    · intro hle hf
      have := hright.of_empty hle
      rw [hfinds.mpr hf] at this
      cases this
  · intro hans
    have hnum := t.numBlocks_lt
    obtain ⟨c', r, hok⟩ := missingLoop_answers haligned zftpBlockSize _ _ c hc hstart le_rfl (.inl rfl)
      (by simp only [zftpBlockSize]; omega) hans.supplied
    rw [← computeMissingSet_eq_loop] at hok
    obtain ⟨hr, -⟩ := computeMissingSet_eq hc hok
    obtain ⟨stop, hscan, -⟩ := missingSet_scanned cfg t mode hc requested
    rw [← hr] at hfinds hscan
    refine ⟨c', r, hok, ?_⟩
    have hempty : requested.stop ≤ requested.start → r.isEmpty = true := by
      intro hle
      rw [← Bool.not_eq_false, hfinds]
      exact hans.nothing hle
    refine ⟨hscan.ordered, ?_, fun x h₁ h₂ => (hscan.bytes h₁ h₂).2.2, ?_, hempty⟩
    · intro x h₁ h₂
      obtain ⟨hlo, hhi, -⟩ := hscan.bytes h₁ h₂
      have hlt : requested.start < requested.stop := by
        by_contra hge
        have := DataRange.isEmpty_iff.mp (hempty (Nat.le_of_not_lt hge))
        omega
      rcases eligibleSet_cases t requested with ⟨heq, -⟩ | heq
      · rw [heq] at hhi
        exact absurd hhi (Nat.not_lt_zero _)
      · rw [heq] at hlo hhi
        dsimp only at hlo hhi
        rw [mul_div_block _] at hlo
        have hround := roundUpToBlock_le (Nat.zero_lt_of_lt hlt) hb
        exact ⟨hlo, by omega, by omega⟩
    · constructor
      · intro hnone blk hover
        rcases hans.shows hover.nonempty with hf | hall
        · rw [hfinds.mpr hf] at hnone
          cases hnone
        · exact hall blk hover
      · intro hall
        by_contra hne
        have hlt : requested.start < requested.stop := by
          by_contra hge
          exact hne (hempty (Nat.le_of_not_lt hge))
        obtain ⟨blk, helig, hnot⟩ := (hfinds.mp (Bool.not_eq_true _ ▸ hne)).not_valid
        exact hnot (hall blk ((eligible_iff hb hlt (hans.counted hlt)).mp helig))

/-! ### A file nothing is known of -/

/-- A file of two blocks without any hash, and a cache without a file client. -/
def unknownFile : MerkleTree := .configureFromMetadata ⟨131072, 0, by norm_num, noFlags_lt⟩

def clientlessConfig : ZCacheConfig := ⟨none, false, none, fun _ => ⟨[], none, false⟩⟩

lemma finds_unknownFile (view : Hash → ZBlockCacheRecord)
    (helig : Eligible unknownFile (eligibleSet unknownFile requested) 0) :
    Finds unknownFile view (eligibleSet unknownFile requested) 1 := by
  refine ⟨0, helig, ?_, by rintro ⟨⟩⟩
  have hheld : heldBytes unknownFile view 0 = 0 := rfl
  rw [Hole, holeStart, hheld, holeStop, Nat.add_zero, Nat.succ_mul]
  exact lt_min (Nat.lt_add_of_pos_right zftpBlockSize_pos) helig.last

/-- A request for ten bytes. -/
theorem computeMissingSet_isMissingSet_ten :
    ∃ c' r, computeMissingSet clientlessConfig unknownFile true (.fresh none) ⟨0, 10⟩ = .ok (c', r) ∧
      IsMissingSet unknownFile (ZBlockCache.fresh none).view ⟨0, 10⟩ r := by
  have hsound : (ZBlockCache.fresh none).Sound (fun _ => Hash.zero) := .fresh_none
  refine (computeMissingSet_isMissingSet_iff hsound (by norm_num)).mpr ⟨?_, ?_, ?_, ?_⟩
  · intro blk _ _ hvalid
    have hstate : (unknownFile.leaf blk).state = .unknown := rfl
    rw [hstate] at hvalid
    exact absurd (by decide) hvalid
  · exact fun _ => by decide
  · exact fun _ => .inl (finds_unknownFile _ ⟨by decide, by decide, by decide⟩)
  · intro hle
    exact absurd hle (by decide)

/-- The empty request at the start of the file is rounded up to nearly all of it. -/
theorem not_computeMissingSet_isMissingSet :
    ¬∀ (zhash : Bytes → Hash) (cfg : ZCacheConfig) (t : MerkleTree) (mode : Bool) (c : ZBlockCache)
      (requested : DataRange), c.Sound zhash → requested.stop < 2 ^ 32 →
      ∃ c' r, computeMissingSet cfg t mode c requested = .ok (c', r) ∧ IsMissingSet t c.view requested r := by
  intro hall
  have hsound : (ZBlockCache.fresh none).Sound (fun _ => Hash.zero) := .fresh_none
  obtain ⟨c', r, hok, hright⟩ := hall _ clientlessConfig unknownFile true _ ⟨0, 0⟩ hsound (by norm_num)
  obtain ⟨hr, -⟩ := computeMissingSet_eq hsound hok
  have hfinds := (missingSet_finds clientlessConfig unknownFile true hsound ⟨0, 0⟩).mpr
    (finds_unknownFile _ ⟨by decide, by decide, by decide⟩)
  have hempty := hright.of_empty le_rfl
  rw [hr, hfinds] at hempty
  cases hempty

end Request

end Embassies.Zftp
