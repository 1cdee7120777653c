import Embassies.Zftp.MissingSet

/-! The geometry of a file's tree: blocks, depth, locations.

    `compute_num_blocks` rounds up in 32 bits. A file longer than 65535 blocks makes the sum wrap and is given no block at
    all; up to that length every law of the numbering holds. -/

namespace Embassies.Zftp.MerkleTree

open Checked HeapTree

variable {t : MerkleTree} {l : ℕ}

/-- What the numbering of the tree is to be, for the length of its file. A leaf is a location with no child in the tree. -/
structure Geometry (t : MerkleTree) : Prop where
  blocks : IsLeast {n | t.metadata.fileLen ≤ n * zftpBlockSize} t.numBlocks
  depth : IsLeast {d | t.numBlocks ≤ 2 ^ d} t.treeDepth
  indexed : ∀ level col, (∃ l, treeIndex level col t.treeSize = .ok l) ↔ level ≤ t.treeDepth ∧ col < 2 ^ level
  inverse : ∀ level col l, treeIndex level col t.treeSize = .ok l ↔ l < t.treeSize ∧ treeUnindex l = (level, col)
  children : ∀ l < t.treeSize, parentLocation (leftChild l) = l ∧ parentLocation (rightChild l) = l ∧
    siblingLocation (leftChild l) = .ok (rightChild l) ∧ siblingLocation (rightChild l) = .ok (leftChild l)
  parent : ∀ l < t.treeSize, l ≠ 0 →
    parentLocation l < l ∧ (l = leftChild (parentLocation l) ∨ l = rightChild (parentLocation l))
  leaf : ∀ l < t.treeSize, t.treeSize ≤ leftChild l ↔ (treeUnindex l).1 = t.treeDepth
  block : ∀ blk < t.numBlocks, ∃! l, l < t.treeSize ∧ treeUnindex l = (t.treeDepth, blk)

lemma treeDepth_isLeast (t : MerkleTree) : IsLeast {d | t.numBlocks ≤ 2 ^ d} t.treeDepth := by
  have hlt := t.numBlocks_lt
  refine ⟨numBlocks_le_leaves (by omega), fun d (hd : t.numBlocks ≤ 2 ^ d) => ?_⟩
  by_cases h0 : t.numBlocks = 0
  · rw [treeDepth, h0]
    exact Nat.zero_le d
  · rw [treeDepth, computeTreeDepth_eq h0 (by omega), Nat.size_le]
    omega

lemma leaf_iff (hl : l < t.treeSize) : t.treeSize ≤ leftChild l ↔ (treeUnindex l).1 = t.treeDepth := by
  have hlt := hl.trans t.treeSize_lt
  have hlevel := treeUnindex_le hlt hl
  obtain ⟨hcol, hloc⟩ := (treeUnindex_eq hlt).mp (Prod.mk.eta (p := treeUnindex l)).symm
  generalize (treeUnindex l).1 = level, (treeUnindex l).2 = col at *
  have hleft : leftChild l = 2 ^ (level + 1) - 1 + 2 * col := by
    have hpos := Nat.two_pow_pos level
    rw [leftChild_eq (by omega), left, hloc, pow_succ]
    omega
  have hbelow : leftChild l < t.treeSize ↔ level + 1 ≤ t.treeDepth :=
    hleft ▸ location_lt_iff (by rw [pow_succ]; omega)
  omega

/-- GEOMETRY: the tree is numbered as it should be exactly if its file is at most 65535 blocks long. -/
theorem geometry_iff (t : MerkleTree) : t.Geometry ↔ t.metadata.fileLen ≤ 65535 * zftpBlockSize := by
  have hsize := t.treeSize_lt
  constructor
  · intro h
    exact h.blocks.1.trans (Nat.mul_le_mul_right _ (Nat.le_of_lt_succ t.numBlocks_lt))
  intro hlen
  have hblocks : ∀ n, t.numBlocks ≤ n ↔ t.metadata.fileLen ≤ n * zftpBlockSize := computeNumBlocks_le_iff hlen
  refine ⟨⟨(hblocks _).mp le_rfl, fun n => (hblocks n).mpr⟩, t.treeDepth_isLeast, fun level col => ?_,
    fun level col l => ?_, fun l hl => ?_, fun l hl h0 => ?_, fun l => leaf_iff, fun blk hblk => ?_⟩
  case refine_1 =>
    constructor
    · rintro ⟨l, hl⟩
      obtain ⟨hcol, rfl, hlt⟩ := treeIndex_eq_ok.mp hl
      exact ⟨(location_lt_iff hcol).mp hlt, hcol⟩
    · rintro ⟨hle, hcol⟩
      exact ⟨_, treeIndex_eq_ok.mpr ⟨hcol, rfl, (location_lt_iff hcol).mpr hle⟩⟩
  case refine_2 =>
    rw [treeIndex_eq_ok, ← and_assoc, and_comm]
    exact and_congr_right fun hl => (treeUnindex_eq (hl.trans hsize)).symm
  case refine_3 =>
    have hleft : left l + 1 < 2 ^ 31 := by rw [left]; omega
    have hright : right l + 1 < 2 ^ 31 := by rw [right]; omega
    rw [leftChild_eq (by omega), rightChild_eq (by omega), parentLocation_eq (left_ne_zero l) hleft,
      parentLocation_eq (right_ne_zero l) hright, siblingLocation_eq (left_ne_zero l) hleft,
      siblingLocation_eq (right_ne_zero l) hright, parent_left, parent_right, sib_left, sib_right]
    exact ⟨rfl, rfl, rfl, rfl⟩
  case refine_4 =>
    have hlt := parent_lt h0
    rw [parentLocation_eq h0 (by omega), leftChild_eq (by omega), rightChild_eq (by omega)]
    exact ⟨hlt, eq_left_or_right h0⟩
  case refine_5 =>
    have hloc := leafLoc_lt hblk
    exact ⟨_, ⟨hloc, (treeUnindex_eq (hloc.trans hsize)).mpr ⟨lt_leaves hblk, rfl⟩⟩,
      fun l hl => ((treeUnindex_eq (hl.1.trans hsize)).mp hl.2).2⟩

/-- A file of `2 ^ 32 - 1` bytes has no block. -/
theorem not_geometry : ¬(configureFromMetadata ⟨2 ^ 32 - 1, 0, by decide, by decide⟩).Geometry :=
  fun h => absurd h.blocks.1 (by decide)

end Embassies.Zftp.MerkleTree
