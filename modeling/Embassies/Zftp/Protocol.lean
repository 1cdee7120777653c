import Embassies.Lib.Bytes
import Embassies.Lib.Checked
import Embassies.Lib.Word

/-! The ZFTP wire types and the tree geometry a file length determines (`zftp_protocol.h`).

    A file is cut into `ZFTP_BLOCK_SIZE` blocks, its blocks are the leaves of a binary Merkle tree stored as an array,
    and `file_hash = zhash(metadata ++ root_hash)`. The geometry functions are the 32-bit computations of the header;
    the lemmas say what they amount to on the lengths a file can have. -/

namespace Embassies.Zftp

open Nat

/-- `HASH_SIZE` under `USE_SHA1`. -/
def hashSize : ℕ := 20

/-- `hash_t`: exactly `HASH_SIZE` bytes. -/
structure Hash where
  bytes : Bytes
  length_eq : bytes.length = hashSize
  deriving DecidableEq

/-- `get_zero_hash()`. -/
def Hash.zero : Hash := ⟨List.replicate hashSize 0, by simp⟩

/-- `ZFTPFileMetadata`, with its two words read from network order. -/
structure ZFTPFileMetadata where
  fileLen : ℕ
  flags : ℕ
  fileLen_lt : fileLen < 2 ^ 32
  flags_lt : flags < 2 ^ 32
  deriving DecidableEq

lemma noFlags_lt : 0 < 2 ^ 32 := by decide

/-- The metadata as it lies in memory and on the wire. -/
def ZFTPFileMetadata.bytes (m : ZFTPFileMetadata) : Bytes := toBE 4 m.fileLen ++ toBE 4 m.flags

/-- `ZFTPMerkleRecord`: a tree location and the hash claimed for it. -/
structure ZFTPMerkleRecord where
  treeLocation : ℕ
  hash : Hash
  deriving DecidableEq

/-- `ZFTP_LG_BLOCK_SIZE`. -/
def zftpLgBlockSize : ℕ := 16

/-- `ZFTP_BLOCK_SIZE`. -/
def zftpBlockSize : ℕ := 65536

lemma zftpBlockSize_pos : 0 < zftpBlockSize := by decide

lemma mul_div_block (k : ℕ) : k * zftpBlockSize / zftpBlockSize = k := Nat.mul_div_cancel _ zftpBlockSize_pos

lemma lt_blockEnd (a : ℕ) : a < a / zftpBlockSize * zftpBlockSize + zftpBlockSize := Nat.lt_div_mul_add zftpBlockSize_pos

/-- `ZFTP_TREE_DEGREE`. -/
def zftpTreeDegree : ℕ := 2

/-- `compute_num_blocks(file_len)`. -/
def computeNumBlocks (fileLen : ℕ) : ℕ := u32 (fileLen + zftpBlockSize - 1) / zftpBlockSize

/-- The loop of `lg2`, whose counter is a `uint16_t`. -/
def lg2Loop : ℕ → ℕ → ℕ → ℕ
  | 0, _, r => r
  | fuel + 1, n, r => if 0 < n then lg2Loop fuel (n / 2) ((r + 1) % 65536) else r

/-- `lg2(n)`: the counter starts at `-1`. -/
def lg2 (n : ℕ) : ℕ := lg2Loop 32 n 65535

/-- `compute_tree_depth(num_blocks)`: the level of the leaves. -/
def computeTreeDepth (numBlocks : ℕ) : ℕ :=
  if numBlocks = 0 then 0 else (lg2 (numBlocks - 1) + 1) % 65536

/-- `compute_tree_size(depth)`. -/
def computeTreeSize (depth : ℕ) : ℕ := 2 ^ (depth + 1) - 1

/-- `compute_tree_location(level, col)`. -/
def computeTreeLocation (level col : ℕ) : Checked ℕ := do
  liteAssert (col < 2 ^ level)
  if level = 0 then pure 0 else pure (computeTreeSize (level - 1) + col)

lemma Hash.ext' {a b : Hash} (h : a.bytes = b.bytes) : a = b := by
  cases a; cases b; simp_all

@[simp] lemma Hash.length_bytes (h : Hash) : h.bytes.length = hashSize := h.length_eq

@[simp] lemma ZFTPFileMetadata.length_bytes (m : ZFTPFileMetadata) : m.bytes.length = 8 := by
  simp [ZFTPFileMetadata.bytes]

lemma ZFTPFileMetadata.bytes_inj {m n : ZFTPFileMetadata} (h : m.bytes = n.bytes) : m = n := by
  obtain ⟨hl, hf⟩ := List.append_inj h (by simp)
  have h1 := toBE_inj (by have := m.fileLen_lt; omega) (by have := n.fileLen_lt; omega) hl
  have h2 := toBE_inj (by have := m.flags_lt; omega) (by have := n.flags_lt; omega) hf
  cases m; cases n; simp_all

lemma Hash.append_inj {a b c d : Hash} (h : a.bytes ++ b.bytes = c.bytes ++ d.bytes) : a = c ∧ b = d := by
  obtain ⟨hl, hr⟩ := List.append_inj h (by simp)
  exact ⟨Hash.ext' hl, Hash.ext' hr⟩

/-! ### Geometry -/

lemma lg2Loop_eq : ∀ fuel n r, n < 2 ^ fuel → r < 65536 →
    lg2Loop fuel n r = (r + size n) % 65536
  | 0, n, r, hn, hr => by
      obtain rfl : n = 0 := by omega
      simp [lg2Loop, mod_eq_of_lt hr]
  | fuel + 1, n, r, hn, hr => by
      rw [lg2Loop]
      by_cases h : 0 < n
      · rw [if_pos h, lg2Loop_eq fuel (n / 2) _ (by rw [pow_succ] at hn; omega)
          (mod_lt _ (by norm_num)), ← size_div_two h]
        omega
      · obtain rfl : n = 0 := by omega
        simp [mod_eq_of_lt hr]

lemma computeTreeDepth_eq {numBlocks : ℕ} (h0 : numBlocks ≠ 0) (h : numBlocks < 2 ^ 32) :
    computeTreeDepth numBlocks = size (numBlocks - 1) := by
  have hs : size (numBlocks - 1) ≤ 32 := size_le.mpr (by omega)
  rw [computeTreeDepth, if_neg h0, lg2, lg2Loop_eq 32 _ _ (by omega) (by norm_num)]
  omega

lemma numBlocks_le_leaves {numBlocks : ℕ} (h : numBlocks < 2 ^ 32) : numBlocks ≤ 2 ^ computeTreeDepth numBlocks := by
  by_cases h0 : numBlocks = 0
  · simp [h0]
  · rw [computeTreeDepth_eq h0 h]
    have := lt_size_self (numBlocks - 1)
    omega

lemma computeNumBlocks_lt (fileLen : ℕ) : computeNumBlocks fileLen < 65536 := by
  have := u32_lt (fileLen + zftpBlockSize - 1)
  unfold computeNumBlocks
  generalize u32 (fileLen + zftpBlockSize - 1) = x at this ⊢
  simp only [zftpBlockSize]
  omega

lemma computeNumBlocks_le_iff {fileLen : ℕ} (h : fileLen ≤ 65535 * zftpBlockSize) (n : ℕ) :
    computeNumBlocks fileLen ≤ n ↔ fileLen ≤ n * zftpBlockSize := by
  simp only [computeNumBlocks, u32]
  simp only [zftpBlockSize] at *
  omega

lemma computeTreeDepth_le (fileLen : ℕ) : computeTreeDepth (computeNumBlocks fileLen) ≤ 16 := by
  have h := computeNumBlocks_lt fileLen
  by_cases h0 : computeNumBlocks fileLen = 0
  · simp [computeTreeDepth, h0]
  · rw [computeTreeDepth_eq h0 (by omega), size_le]
    omega

lemma computeTreeSize_odd (depth : ℕ) : computeTreeSize depth % 2 = 1 := by
  have : 0 < 2 ^ depth := Nat.two_pow_pos depth
  unfold computeTreeSize
  rw [pow_succ]
  omega

lemma computeTreeSize_le {depth : ℕ} (h : depth ≤ 16) : computeTreeSize depth < 2 ^ 17 := by
  have h1 : 2 ^ (depth + 1) ≤ 2 ^ 17 := Nat.pow_le_pow_right (by norm_num) (by omega)
  have h2 : 0 < 2 ^ (depth + 1) := Nat.two_pow_pos _
  unfold computeTreeSize
  omega

end Embassies.Zftp
