import Embassies.Zftp.MissingSet
import Mathlib.Data.List.Perm.Subperm

/-! `_build_request` within its budget.

    The builder asks for locations it has not asked for yet, so it never holds more than the tree has
    and its 32-bit arithmetic does not wrap. The one thing it does not see to is that the data it asks
    for is one range: it asserts that each new piece joins the last. When the validated leaves of the
    missing set are consecutive (`Convex`), no assertion fails and the request keeps to the budget. -/

namespace Embassies.Zftp

open Checked HeapTree List Nat RequestBuilder DataRange MerkleTree

namespace RequestBuilder

variable {t : MerkleTree} {b : RequestBuilder} {mtu : ℕ}
variable {b' : RequestBuilder} {blk l : ℕ} {novel : Bool}

/-- The size of the reply that the builder asks for. -/
def cost (b : RequestBuilder) : ℕ :=
  sizeofDataPacket
    + sizeofMerkleRecord * (b.committedTreeLocations.length + b.tentativeTreeLocations.length)
    + b.requestRange.size

lemma int32_of_lt {n : ℕ} (h : n < 2 ^ 31) : int32 n = n := if_pos h

lemma available_eq (hmtu : mtu < 2 ^ 31) (hcost : b.cost ≤ mtu + 2 ^ 31) : b.available mtu = (mtu : ℤ) - b.cost := by
  rw [available, ← cost, u32_of_lt (by omega)]
  exact int32_sub32 (by omega) hcost

/-- The locations asked for are distinct locations of the tree. -/
structure Located (t : MerkleTree) (b : RequestBuilder) : Prop where
  nodup : (b.committedTreeLocations ++ b.tentativeTreeLocations).Nodup
  lt : ∀ l ∈ b.committedTreeLocations ++ b.tentativeTreeLocations, l < t.treeSize

lemma Located.length_le (h : b.Located t) :
    b.committedTreeLocations.length + b.tentativeTreeLocations.length < 2 ^ 17 := by
  have hsub : b.committedTreeLocations ++ b.tentativeTreeLocations ⊆ List.range t.treeSize := by
    intro l hl
    exact mem_range.mpr (h.lt l hl)
  have hlen := (h.nodup.subperm hsub).length_le
  rw [length_append, length_range] at hlen
  exact hlen.trans_lt t.treeSize_lt

/-- `b'` is `b` with more tentative locations. -/
structure Extends (t : MerkleTree) (b b' : RequestBuilder) : Prop where
  located : b'.Located t
  committed : b'.committedTreeLocations = b.committedTreeLocations
  range : b'.requestRange = b.requestRange

lemma Extends.trans {b1 b2 : RequestBuilder} (h : b.Extends t b1) (h' : b1.Extends t b2) : b.Extends t b2 :=
  ⟨h'.located, h'.committed.trans h.committed, h'.range.trans h.range⟩

lemma requestHash_total (hb : b.Located t) (hl : l < t.treeSize) :
    ∃ b' novel, b.requestHash t l = .ok (b', novel) ∧ b.Extends t b' := by
  rw [requestHash]
  split
  case isTrue => exact ⟨b, false, rfl, hb, rfl, rfl⟩
  case isFalse hnew =>
    rw [get_of_lt hl, ok_bind]
    split
    case isFalse => exact ⟨b, false, rfl, hb, rfl, rfl⟩
    case isTrue =>
      refine ⟨_, true, rfl, ⟨?_, ?_⟩, rfl, rfl⟩
      · have hmem : l ∉ b.committedTreeLocations ++ b.tentativeTreeLocations := by
          rw [mem_append]
          exact hnew
        rw [← append_assoc]
        exact nodup_append.mpr ⟨hb.nodup, nodup_singleton l, by
          intro x hx y hy
          obtain rfl := mem_singleton.mp hy
          rintro rfl
          exact hmem hx⟩
      · intro x hx
        rw [← append_assoc, mem_append] at hx
        rcases hx with hx | hx
        · exact hb.lt x hx
        · obtain rfl := mem_singleton.mp hx
          exact hl

section

variable (h : b.requestHash t l = .ok (b', novel))
include h

/-- INVERSION of `request_hash`: an unknown node that was not asked for yet is, and nothing else changes. -/
lemma requestHash_cases :
    (novel = true ∧ (t.node l).state = .unknown ∧
      b' = { b with tentativeTreeLocations := b.tentativeTreeLocations ++ [l] }) ∨
    (novel = false ∧ b' = b ∧ ((t.node l).state ≠ .unknown ∨
      l ∈ b.committedTreeLocations ∨ l ∈ b.tentativeTreeLocations)) := by
  rw [requestHash] at h
  split at h
  case isTrue hold =>
    cases h
    exact .inr ⟨rfl, rfl, .inr hold⟩
  case isFalse =>
    obtain ⟨vmr, hget, h⟩ := of_bind h
    rw [MerkleTree.get] at hget
    split at hget
    case isFalse => cases hget
    case isTrue =>
      cases hget
      split at h
      case isTrue hs =>
        cases h
        exact .inl ⟨rfl, hs, rfl⟩
      case isFalse hs =>
        cases h
        exact .inr ⟨rfl, rfl, .inl hs⟩

lemma requestHash_length :
    b'.tentativeTreeLocations.length ≤ b.tentativeTreeLocations.length + 1 := by
  obtain ⟨-, -, rfl⟩ | ⟨-, rfl, -⟩ := requestHash_cases h
  · simp
  · omega

lemma requestHash_new {m : ℕ} (hm : m ∈ b'.tentativeTreeLocations) :
    m ∈ b.tentativeTreeLocations ∨ m = l ∧ (t.node m).state = .unknown := by
  obtain ⟨-, hs, rfl⟩ | ⟨-, rfl, -⟩ := requestHash_cases h
  · rw [mem_append, mem_singleton] at hm
    rcases hm with hm | rfl
    · exact .inl hm
    · exact .inr ⟨rfl, hs⟩
  · exact .inl hm

lemma requestHash_asks (hs : (t.node l).state = .unknown) :
    l ∈ b'.committedTreeLocations ++ b'.tentativeTreeLocations := by
  obtain ⟨-, -, rfl⟩ | ⟨-, rfl, hno | hold⟩ := requestHash_cases h
  · simp
  · exact absurd hs hno
  · rw [mem_append]
    exact hold

lemma requestHash_keeps {m : ℕ} (hm : m ∈ b.committedTreeLocations ++ b.tentativeTreeLocations) :
    m ∈ b'.committedTreeLocations ++ b'.tentativeTreeLocations := by
  obtain ⟨-, -, rfl⟩ | ⟨-, rfl, -⟩ := requestHash_cases h
  · rw [← append_assoc, mem_append]
    exact .inl hm
  · exact hm

end

/-- The node at `level` on the path from the root to a block's leaf. -/
def pathNode (t : MerkleTree) (blk level : ℕ) : ℕ := 2 ^ level - 1 + blk / 2 ^ (t.treeDepth - level)

lemma pathNode_leaf (t : MerkleTree) (blk : ℕ) : pathNode t blk t.treeDepth = t.leafLoc blk := by
  rw [pathNode, Nat.sub_self, pow_zero, Nat.div_one, leafLoc]

/-- A node on the path of a block below the root, or the sibling of one. -/
def NearPath (t : MerkleTree) (blk l : ℕ) : Prop :=
  ∃ level, 0 < level ∧ level ≤ t.treeDepth ∧ (l = pathNode t blk level ∨ l = sib (pathNode t blk level))

lemma ancestor_nonRoot {level : ℕ} (hblk : blk < 2 ^ t.treeDepth) (hlev : level < t.treeDepth) :
    treeIndex (level + 1) (blk / 2 ^ (t.treeDepth - (level + 1))) t.treeSize = .ok (pathNode t blk (level + 1)) ∧
      t.NonRoot (pathNode t blk (level + 1)) := by
  have hpow : 2 ^ (level + 1) * 2 ^ (t.treeDepth - (level + 1)) = 2 ^ t.treeDepth := by
    rw [← pow_add]
    congr 1
    omega
  have hcol : blk / 2 ^ (t.treeDepth - (level + 1)) < 2 ^ (level + 1) := by
    rw [Nat.div_lt_iff_lt_mul (Nat.two_pow_pos _), hpow]
    exact hblk
  have hpos : 2 ≤ 2 ^ (level + 1) := by
    rw [pow_succ]
    have := Nat.two_pow_pos level
    omega
  have hlt : _ < t.treeSize := (location_lt_iff hcol).mpr hlev
  have h0 : 2 ^ (level + 1) - 1 + blk / 2 ^ (t.treeDepth - (level + 1)) ≠ 0 := (Nat.add_pos_left (by omega) _).ne'
  exact ⟨treeIndex_eq_ok.mpr ⟨hcol, rfl, hlt⟩, h0, hlt⟩

/-- What a climb from a block's leaf does: it asks for unknown nodes at its path, two a level. -/
structure Climbs (t : MerkleTree) (blk level : ℕ) (b b' : RequestBuilder) : Prop where
  ext : b.Extends t b'
  length : b'.tentativeTreeLocations.length ≤ b.tentativeTreeLocations.length + 2 * level
  near : ∀ l ∈ b'.tentativeTreeLocations,
    l ∈ b.tentativeTreeLocations ∨ (t.node l).state = .unknown ∧ NearPath t blk l
  keeps : ∀ l ∈ b.committedTreeLocations ++ b.tentativeTreeLocations,
    l ∈ b'.committedTreeLocations ++ b'.tentativeTreeLocations

lemma Climbs.trans {l1 l2 : ℕ} {b1 b2 : RequestBuilder} (h : Climbs t blk l1 b b1) (h' : Climbs t blk l2 b1 b2) :
    Climbs t blk (l1 + l2) b b2 where
  ext := h.ext.trans h'.ext
  length := by
    have := h.length
    have := h'.length
    omega
  near l hl := by
    rcases h'.near l hl with hl | hl
    · exact h.near l hl
    · exact .inr hl
  keeps l hl := h'.keeps l (h.keeps l hl)

/-- ANCESTORS: the loop upwards asks for nodes of the tree only, from the leaf up. -/
lemma requestHashAncestorsFrom_climbs (hblk : blk < 2 ^ t.treeDepth) (level : ℕ) :
    ∀ b : RequestBuilder, b.Located t → level ≤ t.treeDepth →
      ∃ b', requestHashAncestorsFrom t blk level b = .ok b' ∧ Climbs t blk level b b' ∧
        (0 < level → (t.node (pathNode t blk level)).state = .unknown ∨
            (t.node (sib (pathNode t blk level))).state = .unknown →
          b'.committedTreeLocations ++ b'.tentativeTreeLocations ≠ []) ∧
        (0 < level → (t.node (pathNode t blk level)).state ≠ .unknown →
          (t.node (sib (pathNode t blk level))).state ≠ .unknown → b' = b) := by
  induction level with
  | zero =>
    intro b hb _
    exact ⟨b, rfl, ⟨⟨hb, rfl, rfl⟩, by omega, fun l hl => .inl hl, fun l hl => hl⟩,
      fun h => absurd h (lt_irrefl _), fun h => absurd h (lt_irrefl _)⟩
  | succ level ih =>
    intro b hb hlev
    obtain ⟨hl, hnr⟩ := ancestor_nonRoot hblk (lt_of_succ_le hlev)
    obtain ⟨b1, n1, h1, he1⟩ := requestHash_total hb hnr.sib.lt
    obtain ⟨b2, n2, h2, he2⟩ := requestHash_total he1.located hnr.lt
    -- the two requests of this level
    have hboth : Climbs t blk 1 b b2 := by
      refine ⟨he1.trans he2, ?_, ?_, fun l hl => requestHash_keeps h2 (requestHash_keeps h1 hl)⟩
      · have := requestHash_length h1
        have := requestHash_length h2
        omega
      · intro l hl'
        rcases requestHash_new h2 hl' with hl' | ⟨rfl, hs⟩
        · rcases requestHash_new h1 hl' with hl' | ⟨rfl, hs⟩
          · exact .inl hl'
          · exact .inr ⟨hs, level + 1, succ_pos _, hlev, .inr rfl⟩
        · exact .inr ⟨hs, level + 1, succ_pos _, hlev, .inl rfl⟩
    have hasked : (t.node (pathNode t blk (level + 1))).state = .unknown ∨
        (t.node (sib (pathNode t blk (level + 1)))).state = .unknown →
        ∃ l, l ∈ b2.committedTreeLocations ++ b2.tentativeTreeLocations := by
      rintro (hs | hs)
      · exact ⟨_, requestHash_asks h2 hs⟩
      · exact ⟨_, requestHash_keeps h2 (requestHash_asks h1 hs)⟩
    have hidle : (t.node (pathNode t blk (level + 1))).state ≠ .unknown →
        (t.node (sib (pathNode t blk (level + 1)))).state ≠ .unknown → b2 = b ∧ n2 = false := by
      intro hs hs'
      obtain ⟨-, hu, -⟩ | ⟨rfl, rfl, -⟩ := requestHash_cases h2
      · exact absurd hu hs
      · obtain ⟨-, hu, -⟩ | ⟨-, rfl, -⟩ := requestHash_cases h1
        · exact absurd hu hs'
        · exact ⟨rfl, rfl⟩
    simp only [requestHashAncestorsFrom, hl, siblingLocation_eq hnr.ne_zero hnr.small, h1, h2, ok_bind]
    cases hn : n2 with
    | true =>
      obtain ⟨b3, h3, hc3, -, -⟩ := ih b2 he2.located (le_of_succ_le hlev)
      have hall := hboth.trans hc3
      rw [add_comm] at hall
      refine ⟨b3, by rw [if_pos rfl, h3], hall, fun _ hs => ?_, fun _ hs hs' => ?_⟩
      · obtain ⟨l, hmem⟩ := hasked hs
        exact ne_nil_of_mem (hc3.keeps l hmem)
      · have := (hidle hs hs').2
        rw [hn] at this
        cases this
    | false =>
      refine ⟨b2, rfl, ⟨hboth.ext, by have := hboth.length; omega, hboth.near, hboth.keeps⟩,
        fun _ hs => ?_, fun _ hs hs' => (hidle hs hs').1⟩
      obtain ⟨l, hmem⟩ := hasked hs
      exact ne_nil_of_mem hmem

/-! ### The loop -/

/-- Between two validated leaves of the blocks in `[lo, hi)` there are only validated ones. -/
def Convex (t : MerkleTree) (lo hi : ℕ) : Prop :=
  ∀ i j k, lo / zftpBlockSize ≤ i → i < j → j < k → k * zftpBlockSize < hi →
    (t.leaf i).state = .validated → (t.leaf k).state = .validated → (t.leaf j).state = .validated

/-- The invariant of the loop of `_build_request`: the budget is kept, and what the builder asks for is
    one range, which the next validated block continues. -/
structure Head (t : MerkleTree) (mtu : ℕ) (missing : DataRange) (start : ℕ) (b : RequestBuilder) :
    Prop where
  located : b.Located t
  tentative : b.tentativeTreeLocations = []
  cost : b.cost ≤ mtu
  ordered : b.requestRange.start ≤ b.requestRange.stop
  stop_le : b.requestRange.stop ≤ missing.stop
  start_le : missing.start ≤ start
  joins : b.cost < mtu → start < missing.stop → b.requestRange.isEmpty = true ∨
    b.requestRange.stop = start ∨ ∀ k, start / zftpBlockSize ≤ k → k * zftpBlockSize < missing.stop →
      (t.leaf k).state ≠ .validated
  begun : b.requestRange.isEmpty = false → ∃ i, missing.start / zftpBlockSize ≤ i ∧
    i < start / zftpBlockSize ∧ (t.leaf i).state = .validated

lemma Extends.cost_abort (h : b.Extends t b') (ht : b.tentativeTreeLocations = []) : b'.abort.cost = b.cost := by
  simp [cost, abort, h.committed, h.range, ht]

lemma cost_commit (b : RequestBuilder) : b.commit.cost = b.cost := by
  simp [cost, commit]

lemma Located.commit (h : b.Located t) : b.commit.Located t := by
  refine ⟨?_, ?_⟩
  · simpa [RequestBuilder.commit] using h.nodup
  · simpa [RequestBuilder.commit] using h.lt

end RequestBuilder

namespace DataRange

variable {r other : DataRange}

lemma size_of_le (h : r.start ≤ r.stop) (hlt : r.stop < 2 ^ 32) : r.size = r.stop - r.start := sub32_of_le hlt h

/-- INVERSION of `accumulate`: the bytes of both ranges, if they join. -/
lemma mem_accumulate {u : DataRange} (h : r.accumulate other = .ok u) (hr : r.start ≤ r.stop)
    (ho : other.start ≤ other.stop) (x : ℕ) :
    (u.start ≤ x ∧ x < u.stop) ↔ (r.start ≤ x ∧ x < r.stop) ∨ (other.start ≤ x ∧ x < other.stop) := by
  rw [accumulate, maybeAccumulate] at h
  by_cases h1 : r.isEmpty = true
  · rw [if_pos h1] at h
    cases h
    rw [isEmpty_iff] at h1
    omega
  rw [if_neg h1] at h
  by_cases h2 : other.stop = r.start
  · rw [if_pos h2] at h
    cases h
    dsimp only
    omega
  rw [if_neg h2] at h
  by_cases h3 : other.start = r.stop
  · rw [if_pos h3] at h
    cases h
    dsimp only
    omega
  rw [if_neg h3] at h
  by_cases h4 : r.start ≤ other.start ∧ other.stop ≤ r.stop
  · rw [if_pos h4] at h
    cases h
    omega
  · rw [if_neg h4] at h
    cases h

lemma accumulate_joins (hr : r.start ≤ r.stop) (ho : other.start ≤ other.stop) (hlt : other.stop < 2 ^ 32)
    (hrlt : r.stop < 2 ^ 32) (hjoin : r.isEmpty = true ∨ r.stop = other.start) :
    ∃ u, r.accumulate other = .ok u ∧ u.start ≤ u.stop ∧ u.stop = other.stop ∧ u.size = r.size + other.size := by
  have hrs := size_of_le hr hrlt
  have hos := size_of_le ho hlt
  by_cases hempty : r.isEmpty = true
  · refine ⟨other, by simp [accumulate, maybeAccumulate, hempty], ho, rfl, ?_⟩
    rw [isEmpty_iff] at hempty
    omega
  · have hjoin : r.stop = other.start := hjoin.resolve_left hempty
    have hne : r.start ≠ r.stop := fun h => hempty (isEmpty_iff.mpr h)
    have hns : other.stop ≠ r.start := by omega
    refine ⟨⟨r.start, other.stop⟩, ?_, by simp only; omega, rfl, ?_⟩
    · simp [accumulate, maybeAccumulate, hempty, hns, hjoin]
    · have hus : (⟨r.start, other.stop⟩ : DataRange).size = other.stop - r.start := size_of_le (by simp only; omega) hlt
      omega

end DataRange

namespace RequestBuilder

variable {t : MerkleTree} {b : RequestBuilder} {mtu start : ℕ} {missing : DataRange}
variable {blk : ℕ} {b' : RequestBuilder}

lemma clip_spec (hmtu : mtu < 2 ^ 31) (hcost : b.cost ≤ mtu) {r : DataRange} (hr : r.start ≤ r.stop)
    (hlt : r.stop < 2 ^ 32) (hsize : r.size < 2 ^ 31) :
    (b.clip mtu r).start = r.start ∧ r.start ≤ (b.clip mtu r).stop ∧
      (b.clip mtu r).stop ≤ r.stop ∧ b.cost + (b.clip mtu r).size ≤ mtu ∧
      (b.cost + (b.clip mtu r).size < mtu → (b.clip mtu r).stop = r.stop) := by
  have hav : b.available mtu = (mtu : ℤ) - b.cost := available_eq (by omega) (by omega)
  have hnat : (b.available mtu).toNat = mtu - b.cost := by rw [hav]; omega
  have hrs := size_of_le hr hlt
  rw [clip, int32_of_lt hsize]
  split
  case isTrue hbig =>
    rw [hav] at hbig
    have hfit : r.start + (mtu - b.cost) ≤ r.stop := by omega
    have hu : u32 (r.start + (mtu - b.cost)) = r.start + (mtu - b.cost) := u32_of_lt (by omega)
    have hcs : (⟨r.start, r.start + (mtu - b.cost)⟩ : DataRange).size = mtu - b.cost := by
      rw [size_of_le (by simp only; omega) (by simp only; omega)]
      simp only
      omega
    rw [hnat, hu, hcs]
    exact ⟨rfl, by simp only; omega, hfit, by omega, fun h => by omega⟩
  case isFalse hsmall =>
    rw [hav] at hsmall
    exact ⟨rfl, hr, le_rfl, by omega, fun _ => rfl⟩

/-- One validated block: its piece joins the range, within the budget. -/
lemma Head.accumulate (h : b.Head t mtu missing start) (hmtu : mtu < 2 ^ 31) (hstop : missing.stop < 2 ^ 32)
    (hlt : start < missing.stop) (hpos : b.cost < mtu) (hval : (t.leaf (start / zftpBlockSize)).state = .validated)
    (hb' : b'.Located t) (ht : b'.tentativeTreeLocations = []) (hcost : b'.cost ≤ mtu)
    (hrange : b'.requestRange = b.requestRange) : ∃ u, b'.requestRange.accumulate (b'.clip mtu
        ⟨start, min (nextBlock start) missing.stop⟩) = .ok u ∧
      Head t mtu missing (nextBlock start) { b' with requestRange := u } := by
  have hnext := lt_blockEnd start
  have hdown := Nat.div_mul_le_self start zftpBlockSize
  have hdiv : nextBlock start / zftpBlockSize = start / zftpBlockSize + 1 := mul_div_block _
  have hsucc : nextBlock start = start / zftpBlockSize * zftpBlockSize + zftpBlockSize := Nat.succ_mul _ _
  generalize hendBlk : nextBlock start = endBlk at *
  have hr : start ≤ min endBlk missing.stop := by omega
  have hrlt : min endBlk missing.stop < 2 ^ 32 := by omega
  have hsize : (⟨start, min endBlk missing.stop⟩ : DataRange).size < 2 ^ 31 := by
    rw [size_of_le hr hrlt]
    simp only [zftpBlockSize] at *
    omega
  obtain ⟨hc1, hc2, hc3, hc4, hc5⟩ := clip_spec (b := b') hmtu hcost hr hrlt hsize
  have hjoin : b'.requestRange.isEmpty = true ∨ b'.requestRange.stop =
      (b'.clip mtu ⟨start, min endBlk missing.stop⟩).start := by
    rw [hc1, hrange]
    rcases h.joins hpos hlt with hj | hj | hj
    · exact .inl hj
    · exact .inr hj
    · exact absurd hval (hj _ le_rfl (by omega))
  obtain ⟨u, hu, hle, hstop', husize⟩ := accumulate_joins
    (r := b'.requestRange) (by rw [hrange]; exact h.ordered) (by rw [hc1]; exact hc2)
    (hc3.trans_lt hrlt) (by rw [hrange]; exact h.stop_le.trans_lt hstop) hjoin
  have hcost' : ({ b' with requestRange := u } : RequestBuilder).cost =
      b'.cost + (b'.clip mtu ⟨start, min endBlk missing.stop⟩).size := by
    simp only [RequestBuilder.cost, husize]
    omega
  refine ⟨u, hu, ⟨hb'.nodup, hb'.lt⟩, ht, by rw [hcost']; exact hc4, hle, ?_, ?_, ?_, ?_⟩
  · simp only [hstop']
    exact hc3.trans (min_le_right _ _)
  · have := h.start_le
    omega
  · intro hless hin
    rw [hcost'] at hless
    refine .inr (.inl ?_)
    simp only [hstop', hc5 hless]
    omega
  · intro _
    refine ⟨start / zftpBlockSize, Nat.div_le_div_right h.start_le, ?_, hval⟩
    rw [hdiv]
    exact Nat.lt_succ_self _

lemma Head.pass (h : b.Head t mtu missing start) (hconvex : Convex t missing.start missing.stop)
    (hval : (t.leaf (start / zftpBlockSize)).state ≠ .validated) (hb' : b'.Located t)
    (ht : b'.tentativeTreeLocations = []) (hcost : b'.cost ≤ mtu) (hrange : b'.requestRange = b.requestRange) :
    b'.Head t mtu missing (nextBlock start) := by
  refine ⟨hb', ht, hcost, by rw [hrange]; exact h.ordered, by rw [hrange]; exact h.stop_le,
    h.start_le.trans (le_nextBlock start), fun _ _ => ?_, fun hne => ?_⟩
  · rw [hrange, mul_div_block]
    by_cases hempty : b.requestRange.isEmpty = true
    · exact .inl hempty
    · obtain ⟨i, hlo, hi, hv⟩ := h.begun (by simpa using hempty)
      refine .inr (.inr ?_)
      intro k hk hlt hvk
      exact hval (hconvex i _ k hlo hi hk hlt hv hvk)
  · rw [hrange] at hne
    obtain ⟨i, hlo, hi, hv⟩ := h.begun hne
    exact ⟨i, hlo, by rw [mul_div_block]; omega, hv⟩

def Meets (missing : DataRange) (blk : ℕ) : Prop :=
  missing.start / zftpBlockSize ≤ blk ∧ blk * zftpBlockSize < missing.stop

/-- There is something to ask for at the block: its data, or one of the two lowest hashes. -/
def Productive (t : MerkleTree) (blk : ℕ) : Prop :=
  (t.leaf blk).state = .validated ∨
    0 < t.treeDepth ∧ ((t.leaf blk).state = .unknown ∨ (t.node (sib (t.leafLoc blk))).state = .unknown)

/-- The budget is at least that of an empty reply, and an `int`. -/
structure SafeBudget (mtu : ℕ) : Prop where
  low : sizeofDataPacket ≤ mtu
  high : mtu < 2 ^ 31

/-- What the builder has asked for: unknown hashes near the paths of missing blocks, each once, and
    missing data of blocks whose leaf is validated. -/
structure Sensible (t : MerkleTree) (missing : DataRange) (b : RequestBuilder) : Prop where
  wanted : ∀ l ∈ b.committedTreeLocations,
    (t.node l).state = .unknown ∧ ∃ blk, Meets missing blk ∧ NearPath t blk l
  data : ∀ x, b.requestRange.start ≤ x → x < b.requestRange.stop →
    missing.start ≤ x ∧ (t.leaf (x / zftpBlockSize)).state = .validated

/-- Nothing has been asked for. -/
def Idle (b : RequestBuilder) : Prop :=
  b.committedTreeLocations = [] ∧ b.requestRange.isEmpty = true

/-- The whole invariant of the loop: `Head`, what was asked for, and that nothing was asked for only
    when no block so far had anything to ask for. -/
structure Planned (t : MerkleTree) (mtu : ℕ) (missing : DataRange) (start : ℕ) (b : RequestBuilder) :
    Prop extends Head t mtu missing start b, Sensible t missing b where
  idle : b.Idle → ∀ blk, missing.start / zftpBlockSize ≤ blk → blk < start / zftpBlockSize →
    ¬Productive t blk
  aligned : start = missing.start ∨ start = start / zftpBlockSize * zftpBlockSize

/-- What the loop comes to. -/
structure Plan (t : MerkleTree) (mtu : ℕ) (missing : DataRange) (b : RequestBuilder) : Prop
    extends Sensible t missing b where
  located : b.Located t
  tentative : b.tentativeTreeLocations = []
  cost : b.cost ≤ mtu
  ordered : b.requestRange.start ≤ b.requestRange.stop
  stop_le : b.requestRange.stop ≤ missing.stop
  progress : missing.start < missing.stop →
    sizeofDataPacket + sizeofMerkleRecord * (2 * t.treeDepth + 1) ≤ mtu → b.Idle →
    ∀ blk, Meets missing blk → ¬Productive t blk

lemma Idle.cost (h : b.Idle) (ht : b.tentativeTreeLocations = []) : b.cost = sizeofDataPacket := by
  have hsize : b.requestRange.size = 0 := by
    have := DataRange.isEmpty_iff.mp h.2
    simp [DataRange.size, sub32, this]
  simp [RequestBuilder.cost, h.1, ht, hsize]

lemma Climbs.cost_le {level : ℕ} (h : Climbs t blk level b b') :
    b'.cost ≤ b.cost + sizeofMerkleRecord * (2 * level) := by
  have hlen := h.length
  simp only [cost, h.ext.committed, h.ext.range, sizeofMerkleRecord]
  omega

lemma Sensible.climb (h : Sensible t missing b) (ht : b.tentativeTreeLocations = []) (hblk : Meets missing blk)
    (hc : Climbs t blk t.treeDepth b b') : Sensible t missing b'.commit where
  wanted l hl := by
    rw [commit, mem_append, hc.ext.committed] at hl
    rcases hl with hl | hl
    · exact h.wanted l hl
    · rcases hc.near l hl with hl | ⟨hs, hn⟩
      · rw [ht] at hl
        cases hl
      · exact ⟨hs, blk, hblk, hn⟩
  data := by
    rw [show b'.commit.requestRange = b.requestRange from hc.ext.range]
    exact h.data

lemma leaf_treeIndex (hblk : blk < 2 ^ t.treeDepth) :
    treeIndex t.treeDepth blk t.treeSize = .ok (t.leafLoc blk) ∧ t.leafLoc blk < t.treeSize := by
  have hlt : t.leafLoc blk < t.treeSize := (location_lt_iff hblk).mpr le_rfl
  exact ⟨treeIndex_eq_ok.mpr ⟨hblk, rfl, hlt⟩, hlt⟩

lemma lt_nextBlock (start : ℕ) : start < nextBlock start := by
  rw [nextBlock, succ_mul]
  exact lt_blockEnd _

lemma nextBlock_le (start : ℕ) : nextBlock start ≤ start + zftpBlockSize := by
  rw [nextBlock, Nat.succ_mul]
  exact Nat.add_le_add_right (Nat.div_mul_le_self _ _) _

lemma clip_block {endBlk : ℕ} (hmtu : mtu < 2 ^ 31) (hcost : b.cost ≤ mtu) (hlt : start < missing.stop)
    (hstop : missing.stop < 2 ^ 32) (hnext : start < endBlk)
    (hblock : endBlk ≤ start + zftpBlockSize) : (b.clip mtu ⟨start, min endBlk missing.stop⟩).start = start ∧
      start ≤ (b.clip mtu ⟨start, min endBlk missing.stop⟩).stop ∧
      (b.clip mtu ⟨start, min endBlk missing.stop⟩).stop ≤ endBlk ∧
      (b.cost < mtu → start < (b.clip mtu ⟨start, min endBlk missing.stop⟩).stop) := by
  have hr : start < min endBlk missing.stop := lt_min hnext hlt
  have hrlt : min endBlk missing.stop < 2 ^ 32 := (min_le_right _ _).trans_lt hstop
  have hsize : (⟨start, min endBlk missing.stop⟩ : DataRange).size < 2 ^ 31 := by
    rw [size_of_le hr.le hrlt]
    simp only [zftpBlockSize] at hblock
    dsimp only
    omega
  obtain ⟨h1, h2, h3, -, h5⟩ := clip_spec hmtu hcost hr.le hrlt hsize
  refine ⟨h1, h2, h3.trans (min_le_left _ _), fun hpos => ?_⟩
  by_contra hnot
  have hempty : (b.clip mtu ⟨start, min endBlk missing.stop⟩).size = 0 := by
    rw [size_of_le (by rw [h1]; exact h2) (h3.trans_lt hrlt), h1]
    exact Nat.sub_eq_zero_of_le (Nat.le_of_not_lt hnot)
  have hfull := h5 (by rw [hempty, Nat.add_zero]; exact hpos)
  rw [hfull] at hnot
  exact hnot hr

lemma Planned.meets (h : b.Planned t mtu missing start) (hlt : start < missing.stop) :
    Meets missing (start / zftpBlockSize) :=
  ⟨Nat.div_le_div_right h.start_le, (Nat.div_mul_le_self _ _).trans_lt hlt⟩

/-- STEP, when the loop asks for data of the block. -/
lemma Planned.data_step {u : DataRange} (h : b.Planned t mtu missing start) (hmtu : mtu < 2 ^ 31)
    (hstop : missing.stop < 2 ^ 32) (hlt : start < missing.stop) (hpos : b.cost < mtu)
    (hval : (t.leaf (start / zftpBlockSize)).state = .validated)
    (hclimb : Climbs t (start / zftpBlockSize) t.treeDepth b b') (hcost : b'.commit.cost ≤ mtu)
    (hu : b'.commit.requestRange.accumulate (b'.commit.clip mtu
        ⟨start, min (nextBlock start) missing.stop⟩) = .ok u)
    (hhead : Head t mtu missing (nextBlock start)
        { b'.commit with requestRange := u }) :
    Planned t mtu missing (nextBlock start)
      { b'.commit with requestRange := u } := by
  have hsens := h.toSensible.climb h.tentative (h.meets hlt) hclimb
  have hrange : b'.commit.requestRange = b.requestRange := hclimb.ext.range
  obtain ⟨h1, h2, h3, h4⟩ :=
    clip_block hmtu hcost hlt hstop (lt_nextBlock start) (nextBlock_le start)
  have hmem := mem_accumulate hu (by rw [hrange]; exact h.ordered) (by rw [h1]; exact h2)
  refine ⟨hhead, ⟨hsens.wanted, ?_⟩, ?_, .inr (by rw [mul_div_block])⟩
  · intro x hx1 hx2
    rcases (hmem x).mp ⟨hx1, hx2⟩ with hold | ⟨hx1, hx2⟩
    · rw [hrange] at hold
      exact h.data x hold.1 hold.2
    · rw [h1] at hx1
      have hdiv : x / zftpBlockSize = start / zftpBlockSize :=
        Nat.div_eq_of_lt_le ((Nat.div_mul_le_self _ _).trans hx1) (hx2.trans_le h3)
      exact ⟨h.start_le.trans hx1, by rw [hdiv]; exact hval⟩
  · rintro ⟨hnone, hempty⟩
    -- without a hash the budget is as it was, so there is data
    have hlocs := append_eq_nil_iff.mp hnone
    have hsame : b'.commit.cost = b.cost := by
      rw [cost_commit]
      simp only [cost, hclimb.ext.range, hclimb.ext.committed, hlocs.2, h.tentative]
    have hin := (hmem start).mpr (.inr ⟨h1.le, h4 (hsame ▸ hpos)⟩)
    have := isEmpty_iff.mp hempty
    dsimp only at this
    omega

/-- STEP, when the leaf of the block is not validated. -/
lemma Planned.pass_step (h : b.Planned t mtu missing start) (hlt : start < missing.stop)
    (hval : (t.leaf (start / zftpBlockSize)).state ≠ .validated)
    (hclimb : Climbs t (start / zftpBlockSize) t.treeDepth b b')
    (hasks : 0 < t.treeDepth → (t.leaf (start / zftpBlockSize)).state = .unknown ∨
        (t.node (sib (t.leafLoc (start / zftpBlockSize)))).state = .unknown →
      b'.committedTreeLocations ++ b'.tentativeTreeLocations ≠ [])
    (hhead : Head t mtu missing (nextBlock start) b'.commit) :
    Planned t mtu missing (nextBlock start) b'.commit := by
  have hrange : b'.commit.requestRange = b.requestRange := hclimb.ext.range
  refine ⟨hhead, h.toSensible.climb h.tentative (h.meets hlt) hclimb, ?_, .inr (by rw [mul_div_block])⟩
  rintro ⟨hnone, hempty⟩ blk hlo hhi
  have hlocs := append_eq_nil_iff.mp hnone
  rw [mul_div_block] at hhi
  rcases Nat.lt_succ_iff_lt_or_eq.mp hhi with hhi | rfl
  · refine h.idle ⟨hclimb.ext.committed ▸ hlocs.1, hrange ▸ hempty⟩ blk hlo hhi
  · rintro (hv | ⟨hdepth, hs⟩)
    · exact hval hv
    · exact hasks hdepth hs hnone

/-- ITERATION: the climb, and then what it and the leaf lead to. -/
lemma buildLoop_succ (hmtu : mtu < 2 ^ 31) (hloc : b.Located t)
    (hlt : start < missing.stop) (hless : b.cost < mtu)
    (hblk : start / zftpBlockSize < 2 ^ t.treeDepth) (hword : start / zftpBlockSize < 65535) :
    ∃ b1, Climbs t (start / zftpBlockSize) t.treeDepth b b1 ∧
      (0 < t.treeDepth → (t.leaf (start / zftpBlockSize)).state = .unknown ∨
          (t.node (sib (t.leafLoc (start / zftpBlockSize)))).state = .unknown →
        b1.committedTreeLocations ++ b1.tentativeTreeLocations ≠ []) ∧
      (¬Productive t (start / zftpBlockSize) → b1 = b) ∧
      ∀ fuel, buildLoop t mtu missing (fuel + 1) start b =
        if mtu < b1.cost then .ok b1.abort
        else if (t.leaf (start / zftpBlockSize)).state = .validated then do
          let range ← b1.commit.requestRange.accumulate (b1.commit.clip mtu
            ⟨start, min (nextBlock start) missing.stop⟩)
          buildLoop t mtu missing fuel (nextBlock start)
            { b1.commit with requestRange := range }
        else buildLoop t mtu missing fuel (nextBlock start) b1.commit := by
  obtain ⟨b1, h1, hclimb, hasks, hidle⟩ :=
    requestHashAncestorsFrom_climbs hblk t.treeDepth b hloc le_rfl
  rw [pathNode_leaf] at hasks hidle
  refine ⟨b1, hclimb, hasks, ?_, ?_⟩
  · intro hno
    rcases Nat.eq_zero_or_pos t.treeDepth with h0 | hpos
    · rw [h0] at h1
      cases h1
      rfl
    · exact hidle hpos (fun hs => hno (.inr ⟨hpos, .inl hs⟩)) (fun hs => hno (.inr ⟨hpos, .inr hs⟩))
  · intro fuel
    have hav : b.available mtu = (mtu : ℤ) - b.cost := available_eq hmtu (by omega)
    have hav1 : b1.available mtu = (mtu : ℤ) - b1.cost := by
      have hdepth : t.treeDepth ≤ 16 := computeTreeDepth_le _
      have hcost1 := hclimb.cost_le
      simp only [sizeofMerkleRecord] at hcost1
      exact available_eq hmtu (by omega)
    obtain ⟨hindex, hleaf⟩ := leaf_treeIndex hblk
    have hendBlk : u32 (nextBlock start) = nextBlock start := by
      refine u32_of_lt ?_
      simp only [nextBlock, zftpBlockSize] at hword ⊢
      omega
    rw [buildLoop, if_pos ⟨hlt, by rw [hav]; omega⟩]
    simp only [requestHashAncestors, h1, ok_bind, hav1, hindex, get_of_lt hleaf,
      hendBlk]
    by_cases hover : mtu < b1.cost
    · rw [if_pos hover, if_pos (by omega), pure_eq_ok]
    · rw [if_neg hover, if_neg (by omega)]
      rfl

lemma Planned.done (h : b.Planned t mtu missing start) (hmtu : mtu < 2 ^ 31)
    (hend : ¬(start < missing.stop ∧ 0 < b.available mtu)) : Plan t mtu missing b := by
  have hcost := h.cost
  have hav : b.available mtu = (mtu : ℤ) - b.cost := available_eq hmtu (by omega)
  refine ⟨h.toSensible, h.located, h.tentative, h.cost, h.ordered, h.stop_le, ?_⟩
  intro hne henough hidle blk hblk
  have hc := hidle.cost h.tentative
  have hpos : 0 < b.available mtu := by
    rw [hav, hc]
    simp only [sizeofDataPacket, sizeofMerkleRecord] at henough ⊢
    omega
  have hpast : missing.stop ≤ start := by
    by_contra hlt
    exact hend ⟨Nat.lt_of_not_le hlt, hpos⟩
  refine h.idle hidle blk hblk.1 ?_
  rcases h.aligned with heq | heq
  · omega
  · have hlt := hblk.2.trans_le hpast
    rw [heq] at hlt
    exact Nat.lt_of_mul_lt_mul_right hlt

lemma Planned.abort {b1 : RequestBuilder} (h : b.Planned t mtu missing start) (hclimb : Climbs t blk t.treeDepth b b1)
    (hover : mtu < b1.cost) : Plan t mtu missing b1.abort := by
  have hcomm : b1.abort.committedTreeLocations = b.committedTreeLocations := hclimb.ext.committed
  have hrange : b1.abort.requestRange = b.requestRange := hclimb.ext.range
  have htent : b1.abort.tentativeTreeLocations = b.tentativeTreeLocations := h.tentative.symm
  have hcost : b1.abort.cost = b.cost := hclimb.ext.cost_abort h.tentative
  refine ⟨⟨by rw [hcomm]; exact h.wanted, by rw [hrange]; exact h.data⟩, ⟨?_, ?_⟩, rfl,
    hcost.trans_le h.cost, by rw [hrange]; exact h.ordered, by rw [hrange]; exact h.stop_le, ?_⟩
  · rw [hcomm, htent]
    exact h.located.nodup
  · rw [hcomm, htent]
    exact h.located.lt
  · intro _ henough hidle
    have hempty := hidle.cost rfl
    have hle := hclimb.cost_le
    simp only [sizeofDataPacket, sizeofMerkleRecord] at henough hempty hle
    omega

/-- BUILD: the loop ends with a plan. -/
lemma buildLoop_plans (hsafe : SafeBudget mtu) (hconvex : Convex t missing.start missing.stop)
    (hin : ∀ blk, Meets missing blk → blk < 2 ^ t.treeDepth ∧ blk < 65535) (hstop : missing.stop < 2 ^ 32) (fuel : ℕ) :
    ∀ (start : ℕ) (b : RequestBuilder), b.Planned t mtu missing start → 65535 ≤ start / zftpBlockSize + fuel →
      ∃ b', buildLoop t mtu missing (fuel + 1) start b = .ok b' ∧ Plan t mtu missing b' := by
  have hmtu := hsafe.high
  have hmeets : ∀ {start b}, Planned t mtu missing start b → start < missing.stop →
      start / zftpBlockSize < 2 ^ t.treeDepth ∧ start / zftpBlockSize < 65535 := fun h hlt =>
    hin _ ⟨Nat.div_le_div_right h.start_le, (Nat.div_mul_le_self _ _).trans_lt hlt⟩
  induction fuel with
  | zero =>
    intro start b hb hfuel
    have hend : ¬(start < missing.stop ∧ 0 < b.available mtu) := by
      rintro ⟨hlt, -⟩
      have := (hmeets hb hlt).2
      omega
    exact ⟨b, by rw [buildLoop, if_neg hend, pure_eq_ok], hb.done hmtu hend⟩
  | succ fuel ih =>
    intro start b hb hfuel
    by_cases hgo : start < missing.stop ∧ 0 < b.available mtu
    case neg => exact ⟨b, by rw [buildLoop, if_neg hgo, pure_eq_ok], hb.done hmtu hgo⟩
    obtain ⟨hlt, hpos⟩ := hgo
    have hbcost := hb.cost
    rw [available_eq hmtu (by omega)] at hpos
    have hless : b.cost < mtu := by omega
    obtain ⟨hblk, hword⟩ := hmeets hb hlt
    obtain ⟨b1, hclimb, hasks, -, hstep⟩ := buildLoop_succ hmtu hb.located hlt hless hblk hword
    have hfuel' : 65535 ≤ nextBlock start / zftpBlockSize + fuel := by
      rw [mul_div_block]
      omega
    rw [hstep]
    by_cases hover : mtu < b1.cost
    · rw [if_pos hover]
      exact ⟨b1.abort, rfl, hb.abort hclimb hover⟩
    rw [if_neg hover]
    have hcost : b1.commit.cost ≤ mtu := by
      rw [cost_commit]
      omega
    by_cases hval : (t.leaf (start / zftpBlockSize)).state = .validated
    · obtain ⟨u, hu, hhead⟩ := hb.toHead.accumulate hmtu hstop hlt hless hval
        hclimb.ext.located.commit rfl hcost hclimb.ext.range
      rw [if_pos hval, hu, ok_bind]
      exact ih _ _ (hb.data_step hmtu hstop hlt hless hval hclimb hcost hu hhead) hfuel'
    · have hhead := hb.toHead.pass hconvex hval hclimb.ext.located.commit rfl hcost hclimb.ext.range
      rw [if_neg hval]
      exact ih _ _ (hb.pass_step hlt hval hclimb hasks hhead) hfuel'

lemma planned_start (hlow : sizeofDataPacket ≤ mtu) :
    (⟨[], [], .empty⟩ : RequestBuilder).Planned t mtu missing missing.start := by
  refine ⟨⟨⟨nodup_nil, fun l hl => ?_⟩, rfl, hlow, le_rfl, zero_le _, le_rfl,
    fun _ _ => .inl rfl, fun h => ?_⟩, ⟨fun l hl => ?_, fun x _ hx => ?_⟩, fun _ blk h1 h2 => ?_,
    .inl rfl⟩
  · cases hl
  · cases h
  · cases hl
  · exact absurd hx (not_lt_zero _)
  · omega

lemma buildRequest_plans (hsafe : SafeBudget mtu) (hconvex : Convex t missing.start missing.stop)
    (hin : ∀ blk, Meets missing blk → blk < 2 ^ t.treeDepth ∧ blk < 65535) (hstop : missing.stop < 2 ^ 32) :
    ∃ b, buildRequest t mtu missing = .ok b ∧ Plan t mtu missing b := by
  obtain ⟨b, hb, hplan⟩ := buildLoop_plans hsafe hconvex hin hstop zftpBlockSize missing.start _
    (planned_start hsafe.low) (by simp only [zftpBlockSize]; omega)
  have hcost := hplan.cost
  have hav : b.available mtu = (mtu : ℤ) - b.cost := available_eq hsafe.high (by omega)
  refine ⟨b, ?_, hplan⟩
  rw [buildRequest, hb, ok_bind, liteAssert_pos (by rw [hplan.tentative]; rfl),
    ok_bind, liteAssert_pos (by rw [hav]; omega), ok_bind, pure_eq_ok]

lemma buildRequest_total (hlow : sizeofDataPacket ≤ mtu) (hmtu : mtu ≤ 2 ^ 30)
    (hconvex : Convex t missing.start missing.stop) (hend : missing.stop ≤ t.numBlocks * zftpBlockSize) :
    ∃ b, buildRequest t mtu missing = .ok b := by
  have hnum := t.numBlocks_lt
  have hsafe : SafeBudget mtu := ⟨hlow, by omega⟩
  have hstop : missing.stop < 2 ^ 32 := by
    simp only [zftpBlockSize] at hend
    omega
  have hin : ∀ blk, Meets missing blk → blk < 2 ^ t.treeDepth ∧ blk < 65535 := by
    intro blk hblk
    have hlt : blk < t.numBlocks := Nat.lt_of_mul_lt_mul_right (hblk.2.trans_le hend)
    exact ⟨lt_leaves hlt, by omega⟩
  obtain ⟨b, hb, -⟩ := buildRequest_plans hsafe hconvex hin hstop
  exact ⟨b, hb⟩

end RequestBuilder

end Embassies.Zftp
