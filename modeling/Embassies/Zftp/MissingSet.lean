import Embassies.Zftp.BlockCacheRuns
import Embassies.Zftp.CachedFileLaws

/-! What `_compute_missing_set` computes.

    The loop looks blocks up in the shared cache and so changes it, but only by putting records into memory that a
    lookup would have found or made anyway: the `view` of the cache stays the same. The result is therefore a function
    of the tree and the view (`missingFrom`), and whether it is empty does not depend on `requesting_data_mode`. -/

namespace Embassies.Zftp

open Checked Function ZBlockCache DataRange Nat ValidityState

/-! ### The view of a cache -/

namespace ZBlockCache

variable {zhash : Bytes → Hash} {c c' : ZBlockCache} {h k : Hash} {p : ℕ}

/-- The record `_lookup_block` answers for a hash: the one there is, or a new placeholder. -/
def view (c : ZBlockCache) (h : Hash) : ZBlockCacheRecord := (c.peek h).getD (.placeholder h)

/-- A placeholder can be made for the hash, or need not be. -/
def CanSupply (c : ZBlockCache) (h : Hash) : Prop := c.zblockDB = none ∨ (c.peek h).isSome

section

variable (hc : c.Sound zhash)
include hc

lemma Sound.view (h : Hash) : (c.view h).Sound zhash ∧ (c.view h).hash = h := by
  rw [ZBlockCache.view]
  rcases hp : c.peek h with _ | r
  · exact ⟨ZBlockCacheRecord.sound_placeholder h, rfl⟩
  · exact hc.peek hp

lemma view_of_ht (hp : c.ht h = some p) : c.heap p = some (c.view h) := by
  obtain ⟨r, hr, -⟩ := hc.owned h p hp
  simp [view, peek, hp, hr]

/-- INVERSION of `_lookup_block`: the table has the record, or the view's record joins it. -/
lemma lookupBlock_cases (heq : c.lookupBlock h = .ok (c', p)) : (c' = c ∧ c.ht h = some p) ∨
      (c.ht h = none ∧ p = c.nextAddr ∧ c' = c.add (c.view h) c.zblockDB) := by
  rcases hpk : c.peek h with _ | r
  · obtain ⟨-, -, hht, hnone, -⟩ := hc.lookupBlock heq
    obtain ⟨hdb, rfl⟩ := hnone hpk
    have hnot : c.ht h = none := by
      rcases hp : c.ht h with _ | q
      · rfl
      · obtain ⟨s, hs, -⟩ := hc.owned h q hp
        simp [peek, hp, hs] at hpk
    refine .inr ⟨hnot, ?_, by simp [view, hpk, hdb]⟩
    have hself : (c.add (.placeholder h) none).ht h = some c.nextAddr := update_self _ _ _
    exact Option.some.inj (hht.symm.trans hself)
  · rw [lookupBlock] at heq
    obtain ⟨q, hht, hl⟩ | ⟨hht, hret, hl⟩ | ⟨hht, db, v, hdb, hv, hl⟩ := lookup_cases c h <;> rw [hl] at heq
    · cases heq
      exact .inl ⟨rfl, hht⟩
    · simp [peek, hht, hret] at hpk
    · cases heq
      refine .inr ⟨hht, rfl, ?_⟩
      simp [view, peek, hht, retrieveBlock, hdb, hv]

lemma peek_add (r : ZBlockCacheRecord) (k : Hash) :
    (c.add r c.zblockDB).peek k = if k = r.hash then some r else c.peek k := by
  by_cases hk : k = r.hash
  · simp [peek, add, hk]
  · have hht : (c.add r c.zblockDB).ht k = c.ht k := update_of_ne hk _ _
    simp only [peek, hht, if_neg hk]
    rcases hp : c.ht k with _ | p
    · rfl
    · obtain ⟨s, hs, -⟩ := hc.owned k p hp
      have hne : p ≠ c.nextAddr := (hc.addr p s hs).ne
      exact update_of_ne hne _ _

/-- LOOKUP: the pointer leads to the view's record, and the view stays. -/
lemma Sound.lookupBlock_view (heq : c.lookupBlock h = .ok (c', p)) :
    c'.heap p = some (c.view h) ∧ (∀ k, c'.view k = c.view k) ∧ ∀ k, c.CanSupply k → c'.CanSupply k := by
  rcases lookupBlock_cases hc heq with ⟨rfl, hht⟩ | ⟨-, rfl, rfl⟩
  · exact ⟨view_of_ht hc hht, fun _ => rfl, fun _ hk => hk⟩
  · have hhash := (hc.view h).2
    refine ⟨update_self _ _ _, ?_, ?_⟩
    · intro k
      rw [ZBlockCache.view, peek_add hc]
      split
      case isTrue hk => rw [hk, hhash]; rfl
      case isFalse => rfl
    · intro k hk
      refine hk.imp_right ?_
      intro hsome
      rw [peek_add hc]
      split
      · rfl
      · exact hsome

end

end ZBlockCache

/-! ### Blocks of the tree -/

namespace MerkleTree

variable {t : MerkleTree} {blk : ℕ}

/-- The location of a block's leaf. -/
def leafLoc (t : MerkleTree) (blk : ℕ) : ℕ := 2 ^ t.treeDepth - 1 + blk

/-- The leaf of a block. -/
def leaf (t : MerkleTree) (blk : ℕ) : ValidatedMerkleRecord := t.node (t.leafLoc blk)

lemma numBlocks_lt (t : MerkleTree) : t.numBlocks < 65536 := computeNumBlocks_lt _

lemma lt_leaves (h : blk < t.numBlocks) : blk < 2 ^ t.treeDepth :=
  h.trans_le (numBlocks_le_leaves (by have := t.numBlocks_lt; omega))

lemma leafLoc_lt (h : blk < t.numBlocks) : t.leafLoc blk < t.treeSize :=
  (location_lt_iff (lt_leaves h)).mpr le_rfl

lemma treeIndex_leaf (h : blk < t.numBlocks) : treeIndex t.treeDepth blk t.treeSize = .ok (t.leafLoc blk) :=
  treeIndex_eq_ok.mpr ⟨lt_leaves h, rfl, leafLoc_lt h⟩

end MerkleTree

lemma findBlockHash_eq {t : MerkleTree} {blk : ℕ} (h : blk < t.numBlocks) (required : ValidityState)
    : findBlockHash t blk required =
      .ok (if (t.leaf blk).state.rank < required.rank then none else some (t.leaf blk).hash) := by
  simp only [findBlockHash, MerkleTree.treeIndex_leaf h, ok_bind,
    MerkleTree.get_of_lt (MerkleTree.leafLoc_lt h), pure_eq_ok]
  rfl

/-- What `_compute_missing_set` sees of a block through a view of the cache. -/
def seenBlock (t : MerkleTree) (view : Hash → ZBlockCacheRecord) (blk : ℕ) :
    Option ZBlockCacheRecord :=
  if (t.leaf blk).state.rank < ValidityState.validated.rank then none
  else some (view (t.leaf blk).hash)

section Lookup

variable {zhash : Bytes → Hash} {t : MerkleTree} {c c' : ZBlockCache} {blk : ℕ}

lemma ZBlockCache.Sound.lookupBlock_supply {h : Hash} {p : ℕ} (hc : c.Sound zhash)
    (heq : c.lookupBlock h = .ok (c', p)) : c.CanSupply h ∧ ∀ k, c'.CanSupply k → c.CanSupply k := by
  have hself : c.CanSupply h := by
    obtain ⟨-, -, -, hnone, -⟩ := hc.lookupBlock heq
    cases hpk : c.peek h with
    | none => exact .inl (hnone hpk).1
    | some r => exact .inr (by rw [hpk]; rfl)
  refine ⟨hself, ?_⟩
  rcases ZBlockCache.lookupBlock_cases hc heq with ⟨rfl, -⟩ | ⟨-, -, rfl⟩
  · exact fun _ hk => hk
  · intro k hk
    by_cases hsame : k = h
    · rw [hsame]
      exact hself
    · refine hk.imp id ?_
      rw [ZBlockCache.peek_add hc, (hc.view h).2, if_neg hsame]
      exact id

lemma lookupValidated_view {r : Option ZBlockCacheRecord} (hc : c.Sound zhash) (hblk : blk < t.numBlocks)
    (h : lookupValidated t c blk = .ok (c', r)) :
    r = seenBlock t c.view blk ∧ (∀ k, c'.view k = c.view k) ∧ (∀ k, c.CanSupply k → c'.CanSupply k) ∧
      (¬(t.leaf blk).state.rank < validated.rank → c.CanSupply (t.leaf blk).hash) ∧
      ∀ k, c'.CanSupply k → c.CanSupply k := by
  simp only [lookupValidated, lookupBlock, findBlockHash_eq hblk, ok_bind] at h
  rw [seenBlock]
  by_cases hlt : (t.leaf blk).state.rank < validated.rank
  · simp only [if_pos hlt, pure_eq_ok, ok_bind] at h ⊢
    cases h
    exact ⟨rfl, fun _ => rfl, fun _ => id, fun hno => absurd hlt hno, fun _ => id⟩
  · simp only [if_neg hlt] at h ⊢
    obtain ⟨⟨c1, p⟩, hl, h⟩ := of_bind h
    obtain ⟨⟨c2, q⟩, hl', hq⟩ := of_bind hl
    cases hq
    obtain ⟨r', hr', h⟩ := of_bind h
    cases h
    obtain ⟨hheap, hview, hsupply⟩ := hc.lookupBlock_view hl'
    obtain ⟨hself, hother⟩ := hc.lookupBlock_supply hl'
    exact ⟨(deref_eq_ok hr').symm.trans hheap, hview, hsupply, fun _ => hself, hother⟩

lemma lookupValidated_total (hc : c.Sound zhash) (hblk : blk < t.numBlocks)
    (hsupply : ¬(t.leaf blk).state.rank < validated.rank → c.CanSupply (t.leaf blk).hash) :
    ∃ c' r, lookupValidated t c blk = .ok (c', r) := by
  simp only [lookupValidated, lookupBlock, findBlockHash_eq hblk, ok_bind]
  by_cases hlt : (t.leaf blk).state.rank < validated.rank
  · exact ⟨c, none, by simp only [if_pos hlt, pure_eq_ok, ok_bind]⟩
  · obtain ⟨c', p, hl⟩ := lookupBlock_total (hsupply hlt)
    obtain ⟨hheap, -⟩ := hc.lookupBlock_view hl
    refine ⟨c', some (c.view (t.leaf blk).hash), ?_⟩
    simp only [if_neg hlt, hl, ok_bind, pure_eq_ok, deref, hheap]

end Lookup

/-! ### The loop -/

/-- The loop of `_compute_missing_set`, as a function of the tree and a view of the cache. -/
def missingFrom (t : MerkleTree) (mode : Bool) (maxPayload : ℕ) (eligible : DataRange)
    (view : Hash → ZBlockCacheRecord) : ℕ → ℕ → DataRange → DataRange
  | 0, _, missing => missing
  | fuel + 1, start, missing =>
    if start < eligible.stop ∧ start / zftpBlockSize < t.numBlocks then
      match accumulateBlock eligible missing start (seenBlock t view (start / zftpBlockSize)) with
      | none => missing
      | some missing =>
        if maxPayload ≤ approxPayloadSize mode missing then missing
        else missingFrom t mode maxPayload eligible view fuel
          ((start / zftpBlockSize + 1) * zftpBlockSize) missing
    else missing

section Loop

variable {zhash : Bytes → Hash} {t : MerkleTree} {mode : Bool} {maxPayload : ℕ}
  {eligible : DataRange}

lemma endBlk_eq {start : ℕ} (h : start / zftpBlockSize < t.numBlocks) :
    u32 ((start / zftpBlockSize + 1) * zftpBlockSize) = (start / zftpBlockSize + 1) * zftpBlockSize := by
  have := t.numBlocks_lt
  simp only [zftpBlockSize] at *
  exact u32_of_lt (by omega)

lemma missingLoop_eq (fuel : ℕ) : ∀ (start : ℕ) (missing r : DataRange) (c c' : ZBlockCache),
    c.Sound zhash → missingLoop t mode maxPayload eligible fuel start missing c = .ok (c', r) →
    r = missingFrom t mode maxPayload eligible c.view fuel start missing ∧ ∀ k, c'.view k = c.view k := by
  induction fuel with
  | zero => intro start missing r c c' _ h; cases h
  | succ fuel ih =>
    intro start missing r c c' hc h
    rw [missingLoop] at h
    rw [missingFrom]
    split at h
    case isFalse hend =>
      cases h
      exact ⟨(if_neg hend).symm, fun _ => rfl⟩
    case isTrue hin =>
      obtain ⟨⟨c1, block⟩, hl, h⟩ := of_bind h
      obtain ⟨hs1, -⟩ := lookupValidated_sound hc hl
      obtain ⟨rfl, hview, -⟩ := lookupValidated_view hc hin.2 hl
      rw [if_pos hin]
      dsimp only at h
      cases hacc : accumulateBlock eligible missing start (seenBlock t c.view (start / zftpBlockSize)) with
      | none =>
        rw [hacc] at h
        cases h
        exact ⟨rfl, hview⟩
      | some missing' =>
        rw [hacc] at h
        dsimp only at h ⊢
        split at h
        case isTrue hfull =>
          cases h
          exact ⟨(if_pos hfull).symm, hview⟩
        case isFalse hfull =>
          rw [endBlk_eq hin.2] at h
          obtain ⟨hr, hview'⟩ := ih _ _ _ _ _ hs1 h
          rw [if_neg hfull, hr, funext hview]
          exact ⟨rfl, fun k => (hview' k).trans (hview k)⟩

/-- The cache can supply every block the loop looks up. -/
def Supplies (t : MerkleTree) (eligible : DataRange) (c : ZBlockCache) : Prop :=
  ∀ blk < t.numBlocks, eligible.start / zftpBlockSize ≤ blk → blk * zftpBlockSize < eligible.stop →
    ¬(t.leaf blk).state.rank < ValidityState.validated.rank → c.CanSupply (t.leaf blk).hash

lemma missingLoop_total (fuel : ℕ) : ∀ (start : ℕ) (missing : DataRange) (c : ZBlockCache),
    c.Sound zhash → Supplies t eligible c → eligible.start ≤ start → t.numBlocks ≤ start / zftpBlockSize + fuel →
    ∃ c' r, missingLoop t mode maxPayload eligible (fuel + 1) start missing c = .ok (c', r) := by
  induction fuel with
  | zero =>
    intro start missing c _ _ _ hfuel
    refine ⟨c, missing, ?_⟩
    rw [missingLoop, if_neg (by omega), pure_eq_ok]
  | succ fuel ih =>
    intro start missing c hc hsupply hle hfuel
    rw [missingLoop]
    split
    case isFalse => exact ⟨c, missing, rfl⟩
    case isTrue hin =>
      have hblk : eligible.start / zftpBlockSize ≤ start / zftpBlockSize := Nat.div_le_div_right hle
      have hstop : start / zftpBlockSize * zftpBlockSize < eligible.stop := (Nat.div_mul_le_self _ _).trans_lt hin.1
      obtain ⟨c1, block, hl⟩ := lookupValidated_total hc hin.2 (hsupply _ hin.2 hblk hstop)
      obtain ⟨hs1, -⟩ := lookupValidated_sound hc hl
      obtain ⟨-, -, hcan, -⟩ := lookupValidated_view hc hin.2 hl
      simp only [hl, ok_bind]
      split
      case h_1 => exact ⟨c1, missing, rfl⟩
      case h_2 missing' hacc =>
        split
        case isTrue => exact ⟨c1, missing', rfl⟩
        case isFalse =>
          rw [endBlk_eq hin.2]
          refine ih _ missing' c1 hs1 (fun blk h1 h2 h3 h4 => hcan _ (hsupply blk h1 h2 h3 h4)) ?_ ?_
          · have hlt := lt_blockEnd start
            rw [Nat.succ_mul]
            omega
          · rw [mul_div_block]
            omega

end Loop

/-! ### Where the missing set lies -/

/-- An ordered range inside `[lo, hi)`, or an empty one. -/
structure DataRange.Within (r : DataRange) (lo hi : ℕ) : Prop where
  ordered : r.start ≤ r.stop
  stop : r.stop ≤ hi
  start : r.start < r.stop → lo ≤ r.start

namespace DataRange

variable {r other u : DataRange} {lo hi : ℕ}

lemma within_empty (lo hi : ℕ) : empty.Within lo hi := ⟨le_rfl, zero_le _, fun h => absurd h (lt_irrefl _)⟩

lemma isEmpty_iff : r.isEmpty = true ↔ r.start = r.stop := by simp [isEmpty]

lemma Within.maybeAccumulate (hr : r.Within lo hi) (ho : other.Within lo hi) (h : r.maybeAccumulate other = some u) :
    u.Within lo hi ∧ (r.isEmpty = false → u.isEmpty = false) := by
  have hr1 := hr.ordered
  have hr2 := hr.stop
  have hr3 := hr.start
  have ho1 := ho.ordered
  have ho2 := ho.stop
  have ho3 := ho.start
  rw [DataRange.maybeAccumulate] at h
  split at h
  case isTrue hempty =>
    cases h
    exact ⟨ho, fun hne => by rw [hempty] at hne; cases hne⟩
  case isFalse hne =>
    have hlt : r.start < r.stop := by rw [isEmpty_iff] at hne; omega
    split at h
    · cases h
      refine ⟨⟨?_, ?_, ?_⟩, fun _ => ?_⟩ <;> simp [isEmpty] <;> omega
    split at h
    · cases h
      refine ⟨⟨?_, ?_, ?_⟩, fun _ => ?_⟩ <;> simp [isEmpty] <;> omega
    split at h
    · cases h
      exact ⟨hr, id⟩
    · cases h

lemma intersect_within (r el : DataRange) : (r.intersect el).Within el.start el.stop := by
  rw [intersect]
  split
  · exact within_empty _ _
  split
  · exact within_empty _ _
  · refine ⟨?_, ?_, ?_⟩ <;> simp only <;> omega

lemma intersect_stop_le (r el : DataRange) : (r.intersect el).stop ≤ r.stop := by
  rw [intersect]
  split
  · exact zero_le _
  split
  · exact zero_le _
  · simp only; omega

end DataRange

section Missing

variable {t : MerkleTree} {mode mode' : Bool} {maxPayload : ℕ} {eligible missing u : DataRange}
  {view : Hash → ZBlockCacheRecord} {start : ℕ}

/-- The end of what the loop can find missing: of the eligible set, and of the last block. -/
def missingEnd (t : MerkleTree) (eligible : DataRange) : ℕ :=
  min eligible.stop (t.numBlocks * zftpBlockSize)

lemma accumulateBlock_within {block : Option ZBlockCacheRecord}
    (hm : missing.Within eligible.start (missingEnd t eligible)) (hle : eligible.start ≤ start)
    (hlt : start < eligible.stop) (hblk : start / zftpBlockSize < t.numBlocks)
    (h : accumulateBlock eligible missing start block = some u) : u.Within eligible.start (missingEnd t eligible) ∧
      (missing.isEmpty = false → u.isEmpty = false) := by
  have hnum := t.numBlocks_lt
  have hend : u32 (start / zftpBlockSize * zftpBlockSize + zftpBlockSize) =
      start / zftpBlockSize * zftpBlockSize + zftpBlockSize := by
    have := endBlk_eq hblk
    rwa [succ_mul] at this
  have hlast : start / zftpBlockSize * zftpBlockSize + zftpBlockSize ≤ t.numBlocks * zftpBlockSize := by
    rw [← succ_mul]
    exact mul_le_mul_right _ hblk
  cases block with
  | none =>
    simp only [accumulateBlock, hend] at h
    refine hm.maybeAccumulate ⟨?_, ?_, fun _ => hle⟩ h
    · have := lt_blockEnd start
      simp only
      omega
    · simp only [missingEnd]
      omega
  | some r =>
    rw [accumulateBlock] at h
    split at h
    case isTrue =>
      cases h
      exact ⟨hm, id⟩
    case isFalse hv =>
      have hgap : r.getMissingRange.2 = zftpBlockSize := by
        rw [ZBlockCacheRecord.getMissingRange, if_neg hv]
      refine hm.maybeAccumulate ?_ h
      simp only [hgap, hend]
      obtain ⟨h1, h2, h3⟩ := intersect_within ⟨u32 (start / zftpBlockSize * zftpBlockSize + r.getMissingRange.1),
          start / zftpBlockSize * zftpBlockSize + zftpBlockSize⟩ eligible
      have h4 := intersect_stop_le ⟨u32 (start / zftpBlockSize * zftpBlockSize + r.getMissingRange.1),
          start / zftpBlockSize * zftpBlockSize + zftpBlockSize⟩ eligible
      exact ⟨h1, le_min h2 (h4.trans hlast), h3⟩

abbrev nextBlock (start : ℕ) : ℕ := (start / zftpBlockSize + 1) * zftpBlockSize

lemma le_nextBlock (start : ℕ) : start ≤ nextBlock start := by
  have := lt_blockEnd start
  rw [nextBlock, succ_mul]
  omega

lemma missingFrom_within (mode : Bool) (maxPayload : ℕ) (view : Hash → ZBlockCacheRecord) (fuel : ℕ)
    : ∀ (start : ℕ) (missing : DataRange), eligible.start ≤ start →
    missing.Within eligible.start (missingEnd t eligible) →
    (missingFrom t mode maxPayload eligible view fuel start missing).Within eligible.start (missingEnd t eligible) ∧
    (missing.isEmpty = false → (missingFrom t mode maxPayload eligible view fuel start missing).isEmpty = false) := by
  induction fuel with
  | zero => intro start missing _ hm; exact ⟨hm, id⟩
  | succ fuel ih =>
    intro start missing hle hm
    rw [missingFrom]
    split
    case isFalse => exact ⟨hm, id⟩
    case isTrue hin =>
      split
      case h_1 => exact ⟨hm, id⟩
      case h_2 missing' hacc =>
        obtain ⟨hm', hne⟩ := accumulateBlock_within hm hle hin.1 hin.2 hacc
        split
        case isTrue => exact ⟨hm', hne⟩
        case isFalse =>
          obtain ⟨hw, hne'⟩ := ih _ missing' (hle.trans (le_nextBlock start)) hm'
          exact ⟨hw, fun h => hne' (hne h)⟩

lemma approxPayloadSize_empty (h : missing.isEmpty = true) : approxPayloadSize mode missing = 0 := by
  have hsize : missing.size = 0 := by
    rw [DataRange.isEmpty_iff] at h
    simp [DataRange.size, sub32, h]
  cases mode <;> simp [approxPayloadSize, hsize]

lemma missingFrom_isEmpty_mode (fuel : ℕ) : ∀ (start : ℕ) (missing : DataRange),
    eligible.start ≤ start → missing.Within eligible.start (missingEnd t eligible) →
    (missingFrom t mode maxPayload eligible view fuel start missing).isEmpty =
      (missingFrom t mode' maxPayload eligible view fuel start missing).isEmpty := by
  induction fuel with
  | zero => intro start missing _ _; rfl
  | succ fuel ih =>
    intro start missing hle hm
    by_cases hne : missing.isEmpty = false
    · rw [(missingFrom_within mode _ _ (fuel + 1) start missing hle hm).2 hne,
        (missingFrom_within mode' _ _ (fuel + 1) start missing hle hm).2 hne]
    rw [missingFrom, missingFrom]
    split
    case isFalse => rfl
    case isTrue hin =>
      split
      case h_1 => rfl
      case h_2 missing' hacc =>
        obtain ⟨hm', -⟩ := accumulateBlock_within hm hle hin.1 hin.2 hacc
        have hle' := hle.trans (le_nextBlock start)
        by_cases hne' : missing'.isEmpty = false
        · -- whichever of the two stops here, both end with something missing
          have h1 := (missingFrom_within mode maxPayload view fuel _ missing' hle' hm').2 hne'
          have h2 := (missingFrom_within mode' maxPayload view fuel _ missing' hle' hm').2 hne'
          split <;> split <;> simp [h1, h2, hne']
        · have hempty : missing'.isEmpty = true := by simpa using hne'
          rw [approxPayloadSize_empty hempty, approxPayloadSize_empty hempty]
          split
          · rfl
          · exact ih _ missing' hle' hm'

end Missing

section Compute

variable {zhash : Bytes → Hash} {cfg : ZCacheConfig} {t : MerkleTree} {mode : Bool}
  {c c' : ZBlockCache} {requested missing : DataRange}

/-- The missing set of a request, as a function of the tree and a view of the cache. -/
def missingSet (cfg : ZCacheConfig) (t : MerkleTree) (mode : Bool)
    (view : Hash → ZBlockCacheRecord) (requested : DataRange) : DataRange :=
  missingFrom t mode (cfg.zfileClient.getD 1) (eligibleSet t requested) view (zftpBlockSize + 1)
    (eligibleSet t requested).start .empty

lemma computeMissingSet_eq (hc : c.Sound zhash) (h : computeMissingSet cfg t mode c requested = .ok (c', missing)) :
    missing = missingSet cfg t mode c.view requested ∧ ∀ k, c'.view k = c.view k := missingLoop_eq _ _ _ _ _ _ hc h

lemma computeMissingSet_total (cfg : ZCacheConfig) (mode : Bool) (hc : c.Sound zhash)
    (hsupply : Supplies t (eligibleSet t requested) c) :
    ∃ c' missing, computeMissingSet cfg t mode c requested = .ok (c', missing) := by
  refine missingLoop_total _ _ _ _ hc hsupply le_rfl ?_
  have := t.numBlocks_lt
  simp only [zftpBlockSize]
  omega

lemma missingSet_within (cfg : ZCacheConfig) (t : MerkleTree) (mode : Bool) (view : Hash → ZBlockCacheRecord)
    (requested : DataRange) :
    (missingSet cfg t mode view requested).Within (eligibleSet t requested).start
      (missingEnd t (eligibleSet t requested)) := (missingFrom_within _ _ _ _ _ _ le_rfl (within_empty _ _)).1

lemma missingSet_isEmpty_mode (mode mode' : Bool) (view : Hash → ZBlockCacheRecord) :
    (missingSet cfg t mode view requested).isEmpty = (missingSet cfg t mode' view requested).isEmpty :=
  missingFrom_isEmpty_mode _ _ _ le_rfl (within_empty _ _)

end Compute

end Embassies.Zftp
