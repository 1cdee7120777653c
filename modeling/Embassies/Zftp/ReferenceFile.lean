import Embassies.Zftp.MerkleTree
import Mathlib.Data.List.Nodup
import Mathlib.Tactic.IntervalCases

/-! The file an origin serves, as mathematics: its blocks, its Merkle tree, its `file_hash`.

    The tree is the one `ZOriginFile` builds. A leaf hashes a zero-padded block; an inner node that covers a block
    hashes its two children; the sibling of such a node that covers no block itself has the fixed hash of
    `hash_of_block_of_zeros()` (which hashes `sizeof(ZFTP_BLOCK_SIZE)` zeros); there are no other nodes. This module is
    about the meaning of a file, not about code that runs in the client; `RefFile.labelling` says that the tree is a
    Merkle labelling when `zhash` is free of second preimages of the strings hashed for this file. -/

namespace Embassies.Zftp

open HeapTree List Nat Hash Prod

variable {e : Bytes × Hash} {table : List (Bytes × Hash)} {other : Hash}

/-- A file: its content and its metadata flags. -/
structure RefFile where
  content : Bytes
  flags : ℕ
  length_lt : content.length < 2 ^ 32
  flags_lt : flags < 2 ^ 32

/-- `hash_of_block_of_zeros()`. -/
def hashOfBlockOfZeros (zhash : Bytes → Hash) : Hash := zhash (List.replicate 4 0)

/-- The level of a location. -/
def levelOf (l : ℕ) : ℕ := Nat.size (l + 1) - 1

/-- The column of a location on its level. -/
def colOf (l : ℕ) : ℕ := l + 1 - 2 ^ levelOf l

namespace RefFile

variable (zhash : Bytes → Hash) (f : RefFile)
variable {l c : ℕ}

def metadata : ZFTPFileMetadata := ⟨f.content.length, f.flags, f.length_lt, f.flags_lt⟩

def numBlocks : ℕ := computeNumBlocks f.content.length

def treeDepth : ℕ := computeTreeDepth f.numBlocks

/-- Block `c`, padded with zeros to the block size. -/
def block (c : ℕ) : Bytes :=
  let b := field f.content (c * zftpBlockSize) zftpBlockSize
  b ++ List.replicate (zftpBlockSize - b.length) 0

/-- The hash of the node of the given height and column. -/
def nodeHash : ℕ → ℕ → Hash
  | 0, c => if c < f.numBlocks then zhash (f.block c) else hashOfBlockOfZeros zhash
  | h + 1, c =>
    if c * 2 ^ (h + 1) < f.numBlocks then
      zhash ((nodeHash h (2 * c)).bytes ++ (nodeHash h (2 * c + 1)).bytes)
    else hashOfBlockOfZeros zhash

def hashAt (l : ℕ) : Hash := f.nodeHash zhash (f.treeDepth - levelOf l) (colOf l)

/-- The node at `l` is above the leaves and covers a block. -/
def Inner (l : ℕ) : Prop :=
  levelOf l < f.treeDepth ∧ colOf l * 2 ^ (f.treeDepth - levelOf l) < f.numBlocks

/-- The tree has a hash at `l`. -/
def Present (l : ℕ) : Prop := l = 0 ∨ f.Inner (parent l)

/-- The file's name. -/
def fileHash : Hash := zhash (f.metadata.bytes ++ (f.hashAt zhash 0).bytes)

/-- The strings that are hashed to name the file. -/
inductive Hashed : Bytes → Prop
  | block (c : ℕ) : c < f.numBlocks → Hashed (f.block c)
  | zeros : Hashed (List.replicate 4 0)
  | pair (h c : ℕ) : h < f.treeDepth → c * 2 ^ (h + 1) < f.numBlocks →
      Hashed ((f.nodeHash zhash h (2 * c)).bytes ++ (f.nodeHash zhash h (2 * c + 1)).bytes)
  | file : Hashed (f.metadata.bytes ++ (f.hashAt zhash 0).bytes)

/-- `zhash` is collision free where this file is concerned: no other string has the hash of a string
    hashed for the file. (A hash of 20 bytes cannot be injective on all strings.) -/
def CollisionFree : Prop := ∀ x y, f.Hashed zhash y → zhash x = zhash y → x = y

/-! ### Levels and columns -/

lemma pow_levelOf_le (l : ℕ) : 2 ^ levelOf l ≤ l + 1 := by
  have hpos : 0 < size (l + 1) := size_pos.mpr (succ_pos l)
  exact lt_size.mp (by rw [levelOf]; omega)

lemma levelOf_child (h : (c + 1) / 2 = l + 1) : levelOf c = levelOf l + 1 := by
  have hsize := size_div_two (succ_pos c)
  have hpos : 0 < size (l + 1) := size_pos.mpr (succ_pos l)
  rw [succ_eq_add_one, h] at hsize
  simp only [levelOf]
  omega

lemma levelOf_left (l : ℕ) : levelOf (left l) = levelOf l + 1 := levelOf_child (by simp only [left]; omega)

lemma levelOf_right (l : ℕ) : levelOf (right l) = levelOf l + 1 := levelOf_child (by simp only [right]; omega)

lemma colOf_left (l : ℕ) : colOf (left l) = 2 * colOf l := by
  have := pow_levelOf_le l
  rw [colOf, levelOf_left, colOf, pow_succ, left]
  omega

lemma colOf_right (l : ℕ) : colOf (right l) = 2 * colOf l + 1 := by
  have := pow_levelOf_le l
  rw [colOf, levelOf_right, colOf, pow_succ, right]
  omega

lemma levelOf_index {level col : ℕ} (h : col < 2 ^ level) : levelOf (2 ^ level - 1 + col) = level := by
  have hpos := Nat.two_pow_pos level
  have hsize : Nat.size (2 ^ level - 1 + col + 1) = level + 1 :=
    size_eq_of_pow_le_lt (by omega) (by rw [pow_succ]; omega)
  rw [levelOf, hsize, Nat.add_sub_cancel]

lemma colOf_index {level col : ℕ} (h : col < 2 ^ level) : colOf (2 ^ level - 1 + col) = col := by
  have hpos := Nat.two_pow_pos level
  rw [colOf, levelOf_index h]
  omega

variable {zhash f}

lemma length_block (c : ℕ) : (f.block c).length = zftpBlockSize := by
  simp only [block, length_append, length_replicate, field, length_take]
  omega

lemma Inner.height (h : f.Inner l) : f.treeDepth - levelOf l = f.treeDepth - (levelOf l + 1) + 1 := by
  have := h.1
  omega

lemma Inner.of_child {p : ℕ} (hlev : levelOf c = levelOf p + 1) (hcol : 2 * colOf p ≤ colOf c) (h : f.Inner c) :
    f.Inner p := by
  obtain ⟨hlt, hcov⟩ := h
  rw [hlev] at hlt hcov
  have hheight : f.treeDepth - levelOf p = f.treeDepth - (levelOf p + 1) + 1 := by omega
  refine ⟨by omega, lt_of_le_of_lt ?_ hcov⟩
  calc colOf p * 2 ^ (f.treeDepth - levelOf p)
      = 2 * colOf p * 2 ^ (f.treeDepth - (levelOf p + 1)) := by rw [hheight, pow_succ]; ring
    _ ≤ colOf c * 2 ^ (f.treeDepth - (levelOf p + 1)) := mul_le_mul_right _ hcol

lemma Inner.present (h : f.Inner l) : f.Present l := by
  by_cases h0 : l = 0
  · exact .inl h0
  rcases eq_left_or_right h0 with hl | hl
  · rw [hl] at h
    exact .inr (h.of_child (levelOf_left _) (colOf_left _).ge)
  · rw [hl] at h
    exact .inr (h.of_child (levelOf_right _) (by rw [colOf_right]; omega))

lemma hashAt_inner (h : f.Inner l) : f.hashAt zhash l =
    zhash ((f.hashAt zhash (left l)).bytes ++ (f.hashAt zhash (right l)).bytes) := by
  have hcol := h.2
  rw [h.height] at hcol
  rw [hashAt, h.height, nodeHash, if_pos hcol, hashAt, hashAt, levelOf_left, levelOf_right, colOf_left, colOf_right]

lemma nodeHash_preimage (zhash : Bytes → Hash) {f : RefFile} {h : ℕ} (hle : h ≤ f.treeDepth) (c : ℕ) :
    ∃ y, f.Hashed zhash y ∧ f.nodeHash zhash h c = zhash y ∧
      (y.length = 2 * hashSize → ∃ k, h = k + 1 ∧ c * 2 ^ h < f.numBlocks ∧
        y = (f.nodeHash zhash k (2 * c)).bytes ++ (f.nodeHash zhash k (2 * c + 1)).bytes) := by
  have hzeros : ¬(List.replicate 4 (0 : UInt8)).length = 2 * hashSize := by simp [hashSize]
  cases h with
  | zero =>
    rw [nodeHash]
    split
    case isTrue hc =>
      refine ⟨_, .block c hc, rfl, fun hlen => ?_⟩
      rw [length_block] at hlen
      simp [zftpBlockSize, hashSize] at hlen
    case isFalse => exact ⟨_, .zeros, rfl, fun hlen => absurd hlen hzeros⟩
  | succ h =>
    rw [nodeHash]
    split
    case isTrue hc => exact ⟨_, .pair h c hle hc, rfl, fun _ => ⟨h, rfl, hc, rfl⟩⟩
    case isFalse => exact ⟨_, .zeros, rfl, fun hlen => absurd hlen hzeros⟩

lemma hashAt_binding (hcf : f.CollisionFree zhash) {a b : Hash} (h : zhash (a.bytes ++ b.bytes) = f.hashAt zhash l) :
    f.Inner l ∧ a = f.hashAt zhash (left l) ∧ b = f.hashAt zhash (right l) := by
  obtain ⟨y, hy, heq, hpair⟩ := nodeHash_preimage zhash (Nat.sub_le f.treeDepth (levelOf l)) (colOf l)
  have hab : a.bytes ++ b.bytes = y := hcf _ y hy (h.trans heq)
  obtain ⟨k, hk, hcov, rfl⟩ := hpair (by rw [← hab]; simp [two_mul])
  obtain ⟨rfl, rfl⟩ := Hash.append_inj hab
  have hin : f.Inner l := ⟨by omega, hcov⟩
  have hk' : k = f.treeDepth - (levelOf l + 1) := by
    rw [← Nat.sub_sub, hk, Nat.add_sub_cancel]
  refine ⟨hin, ?_, ?_⟩
  · rw [hashAt, levelOf_left, colOf_left, hk']
  · rw [hashAt, levelOf_right, colOf_right, hk']

/-- The file's tree is a Merkle labelling. -/
def labelling (hcf : f.CollisionFree zhash) :
    Labelling (fun a b : Hash => zhash (a.bytes ++ b.bytes)) where
  label := f.hashAt zhash
  present := f.Present
  inner := f.Inner
  present_root := .inl rfl
  inner_present _ h := h.present
  inner_parent _ h0 h := h.resolve_left h0
  inner_left l h := .inr (by rwa [parent_left])
  inner_right l h := .inr (by rwa [parent_right])
  label_inner _ h := hashAt_inner h
  binding _ _ _ _ h := hashAt_binding hcf h

lemma fileHash_binding (hcf : f.CollisionFree zhash) {m : ZFTPFileMetadata} {root : Hash}
    (h : zhash (m.bytes ++ root.bytes) = f.fileHash zhash) : m = f.metadata ∧ root = f.hashAt zhash 0 := by
  have heq := hcf _ _ (.file : f.Hashed zhash _) h
  obtain ⟨hm, hr⟩ := append_inj heq (by simp)
  exact ⟨ZFTPFileMetadata.bytes_inj hm, ext' hr⟩

lemma block_binding (hcf : f.CollisionFree zhash) {data : Bytes} (hc : c < f.numBlocks)
    (h : zhash data = f.nodeHash zhash 0 c) : data = f.block c := by
  rw [nodeHash, if_pos hc] at h
  exact hcf data _ (.block c hc) h

lemma hashAt_leaf (zhash : Bytes → Hash) {f : RefFile} (h : c < 2 ^ f.treeDepth) :
    f.hashAt zhash (2 ^ f.treeDepth - 1 + c) = f.nodeHash zhash 0 c := by
  rw [hashAt, levelOf_index h, colOf_index h, Nat.sub_self]

end RefFile

/-! ### A file whose hashes are known

    Three blocks of zeros, under a hash that is a table of the strings hashed for them: the assumption
    `CollisionFree` is met, and the tree can be written down. -/

def tableHash (table : List (Bytes × Hash)) (other : Hash) (x : Bytes) : Hash :=
  match table.find? (fun e => e.1 = x) with
  | some e => e.2
  | none => other

lemma tableHash_mem (hkeys : (table.map fst).Nodup) (he : e ∈ table) :
    tableHash table other e.1 = e.2 := by
  rw [tableHash]
  split
  case h_1 e' h =>
    have hkey : e'.1 = e.1 := by simpa using List.find?_some h
    rw [inj_on_of_nodup_map hkeys (mem_of_find?_eq_some h) he hkey]
  case h_2 h => exact absurd (List.find?_eq_none.mp h e he) (by simp)

lemma tableHash_inj (hvals : (other :: table.map snd).Nodup) (hkeys : (table.map fst).Nodup) {x : Bytes}
    (he : e ∈ table)
    (h : tableHash table other x = tableHash table other e.1) : x = e.1 := by
  obtain ⟨hother, hnodup⟩ := nodup_cons.mp hvals
  rw [tableHash_mem hkeys he, tableHash] at h
  split at h
  case h_1 e' hfind =>
    have hkey : e'.1 = x := by simpa using List.find?_some hfind
    rw [← hkey, inj_on_of_nodup_map hnodup (mem_of_find?_eq_some hfind) he h]
  case h_2 => exact absurd (mem_map_of_mem (f := snd) he) (h ▸ hother)

/-- The hash of twenty equal bytes. -/
def Hash.fill (x : UInt8) : Hash := ⟨List.replicate hashSize x, by simp⟩

/-- Three blocks of zeros. -/
def zeroFile : RefFile where
  content := List.replicate 196608 0
  flags := 0
  length_lt := by rw [length_replicate]; norm_num
  flags_lt := by norm_num

/-- The strings hashed for `zeroFile`, and hashes for them. -/
def zeroTable : List (Bytes × Hash) :=
  [((Hash.fill 1).bytes ++ (Hash.fill 1).bytes, Hash.fill 3),
    ((Hash.fill 1).bytes ++ (Hash.fill 2).bytes, Hash.fill 4),
    ((Hash.fill 3).bytes ++ (Hash.fill 4).bytes, Hash.fill 5),
    (toBE 4 196608 ++ toBE 4 0 ++ (Hash.fill 5).bytes, Hash.fill 6),
    (List.replicate 4 0, Hash.fill 2),
    (List.replicate 65536 0, Hash.fill 1)]

def zeroHash : Bytes → Hash := tableHash zeroTable (Hash.fill 7)

lemma zeroTable_keys : (zeroTable.map fst).Nodup := by decide

lemma zeroTable_hashes : (fill 7 :: zeroTable.map snd).Nodup := by decide

lemma zeroHash_mem (he : e ∈ zeroTable) : zeroHash e.1 = e.2 := tableHash_mem zeroTable_keys he

lemma zeroFile_length : zeroFile.content.length = 196608 := length_replicate

lemma zeroFile_numBlocks : zeroFile.numBlocks = 3 := by
  rw [RefFile.numBlocks, zeroFile_length]; rfl

lemma zeroFile_treeDepth : zeroFile.treeDepth = 2 := by
  rw [RefFile.treeDepth, zeroFile_numBlocks]; rfl

lemma zeroFile_block {c : ℕ} (h : c < 3) : zeroFile.block c = List.replicate 65536 0 := by
  have hmin : min 65536 (196608 - c * 65536) = 65536 := by omega
  rw [RefFile.block]
  simp only [zeroFile, field, drop_replicate, take_replicate, length_replicate,
    zftpBlockSize, hmin, Nat.sub_self, replicate_zero, append_nil]

lemma zeroFile_leaf {c : ℕ} (h : c < 3) : zeroFile.nodeHash zeroHash 0 c = fill 1 := by
  rw [RefFile.nodeHash, zeroFile_numBlocks, if_pos h, zeroFile_block h]
  exact zeroHash_mem (e := (_, fill 1)) (.tail _ (.tail _ (.tail _ (.tail _ (.tail _ (.head _))))))

lemma zeroFile_dummy : zeroFile.nodeHash zeroHash 0 3 = fill 2 := by
  rw [RefFile.nodeHash, zeroFile_numBlocks, if_neg (by omega)]
  exact zeroHash_mem (e := (_, fill 2)) (.tail _ (.tail _ (.tail _ (.tail _ (.head _)))))

lemma zeroFile_left : zeroFile.nodeHash zeroHash 1 0 = fill 3 := by
  rw [RefFile.nodeHash, zeroFile_numBlocks, if_pos (by norm_num), zeroFile_leaf (by norm_num),
    zeroFile_leaf (by norm_num)]
  exact zeroHash_mem (e := (_, fill 3)) (.head _)

lemma zeroFile_right : zeroFile.nodeHash zeroHash 1 1 = fill 4 := by
  rw [RefFile.nodeHash, zeroFile_numBlocks, if_pos (by norm_num), zeroFile_leaf (by norm_num), zeroFile_dummy]
  exact zeroHash_mem (e := (_, fill 4)) (.tail _ (.head _))

lemma zeroFile_root : zeroFile.hashAt zeroHash 0 = fill 5 := by
  have hheight : zeroFile.hashAt zeroHash 0 = zeroFile.nodeHash zeroHash 2 0 := by
    rw [RefFile.hashAt, zeroFile_treeDepth]; rfl
  rw [hheight, RefFile.nodeHash, zeroFile_numBlocks, if_pos (by norm_num), zeroFile_left, zeroFile_right]
  exact zeroHash_mem (e := (_, fill 5)) (.tail _ (.tail _ (.head _)))

lemma zeroFile_metadata : zeroFile.metadata = ⟨196608, 0, by decide, noFlags_lt⟩ := by
  simp only [RefFile.metadata, zeroFile_length]; rfl

lemma zeroFile_fileHash : zeroFile.fileHash zeroHash = fill 6 := by
  rw [RefFile.fileHash, zeroFile_metadata, zeroFile_root]
  exact zeroHash_mem (e := (_, fill 6)) (.tail _ (.tail _ (.tail _ (.head _))))

lemma zeroFile_collisionFree : zeroFile.CollisionFree zeroHash := by
  intro x y hy h
  have hkey : ∀ v, (y, v) ∈ zeroTable → x = y := fun v hv =>
    tableHash_inj zeroTable_hashes zeroTable_keys hv h
  cases hy with
  | block c hc =>
    rw [zeroFile_numBlocks] at hc
    rw [zeroFile_block hc] at hkey ⊢
    exact hkey _ (.tail _ (.tail _ (.tail _ (.tail _ (.tail _ (.head _))))))
  | zeros => exact hkey _ (.tail _ (.tail _ (.tail _ (.tail _ (.head _)))))
  | file =>
    rw [zeroFile_metadata, zeroFile_root] at hkey ⊢
    exact hkey _ (.tail _ (.tail _ (.tail _ (.head _))))
  | pair k c hk hc =>
    rw [zeroFile_treeDepth] at hk
    rw [zeroFile_numBlocks] at hc
    obtain ⟨rfl, rfl⟩ | ⟨rfl, rfl⟩ | ⟨rfl, rfl⟩ : k = 0 ∧ c = 0 ∨ k = 0 ∧ c = 1 ∨ k = 1 ∧ c = 0 := by
      interval_cases k <;> omega
    · rw [zeroFile_leaf (by norm_num), zeroFile_leaf (by norm_num)] at hkey ⊢
      exact hkey _ (.head _)
    · rw [zeroFile_leaf (by norm_num), zeroFile_dummy] at hkey ⊢
      exact hkey _ (.tail _ (.head _))
    · rw [zeroFile_left, zeroFile_right] at hkey ⊢
      exact hkey _ (.tail _ (.tail _ (.head _)))

end Embassies.Zftp
