import Embassies.Zftp.ReplyCodec

/-! `ZCachedFile::read` into a new buffer.

    The range is cut at block boundaries and the pieces are laid one behind the other. A whole block has to lie a
    multiple of the block size behind the start of the range in the buffer, so a range that starts inside a block and
    goes on over a whole one is refused. A new buffer remembers the zero hash everywhere: a block with that hash is
    taken to be there already. -/

namespace Embassies.Zftp

open List ValidatedZCB

section

variable {zhash : Bytes → Hash} {t : MerkleTree} {c : ZBlockCache} {len bufOffset offset size : ℕ}

/-- Nothing stops the read, and the buffer differs from a new one by the file's bytes at `bufOffset`. -/
def ReadsExactly (t : MerkleTree) (c : ZBlockCache) (len bufOffset offset size : ℕ) : Prop :=
  ∃ c' v', readFile t c (.fresh len) bufOffset offset size = .ok (c', v') ∧
    v'.data = splice (ValidatedZCB.fresh len).data bufOffset ((fileBytes t c.view offset size).map some)

/-- The file has the range, and the buffer has room for it. -/
structure Readable (zhash : Bytes → Hash) (t : MerkleTree) (c : ZBlockCache) (len bufOffset offset size : ℕ) :
    Prop where
  serves : Serves zhash t c ⟨offset, offset + size⟩
  inFile : offset + size ≤ t.metadata.fileLen
  inBuffer : bufOffset + size ≤ len
  length_lt : len < 2 ^ 32

def Nonzero (t : MerkleTree) (range : DataRange) : Prop :=
  ∀ k, range.start ≤ k * zftpBlockSize → (k + 1) * zftpBlockSize ≤ range.stop → (t.leaf k).hash ≠ Hash.zero

/-- The buffer as `read` starts on it. -/
def opened (len bufOffset : ℕ) : ValidatedZCB := { ValidatedZCB.fresh len with debugOffset := bufOffset }

lemma data_opened (len bufOffset : ℕ) : (opened len bufOffset).data = List.replicate len none := rfl

lemma hashes_opened (len bufOffset : ℕ) : (opened len bufOffset).hashes = (fresh len).hashes := by
  simp only [opened]

lemma length_opened (len bufOffset : ℕ) : (opened len bufOffset).data.length = len := by
  rw [data_opened, length_replicate]

lemma blank_opened (len bufOffset p : ℕ) : Blank (opened len bufOffset) p := by
  refine ⟨?_, ?_⟩
  · intro x hx
    rw [data_opened] at hx
    exact eq_of_mem_replicate (mem_of_mem_drop hx)
  · intro k hk
    rw [hashes_opened] at hk
    exact eq_zero_of_mem_fresh hk

variable (h : Readable zhash t c len bufOffset offset size)

include h

lemma Readable.stop_lt : offset + size < 2 ^ 32 := h.inFile.trans_lt t.metadata.fileLen_lt

lemma Readable.slots : (opened len bufOffset).hashes.length = (opened len bufOffset).data.length / zftpBlockSize := by
  rw [length_opened, hashes_opened, length_hashes_fresh h.length_lt]

lemma Readable.head : ReadHead (opened len bufOffset) ⟨offset, offset + size⟩ bufOffset zftpBlockSize offset where
  lo := le_rfl
  hi := Nat.le_add_right _ _
  cut _ := Or.inl rfl
  stop_lt := h.stop_lt
  fits := by
    rw [length_opened, Nat.add_sub_cancel_left]
    exact h.inBuffer
  length_lt := by
    rw [length_opened]
    exact h.length_lt
  slots := h.slots
  debugOffset := rfl
  fuel _ := enough_fuel h.stop_lt _

lemma Readable.readFile_eq : readFile t c (.fresh len) bufOffset offset size =
    readFrom t ⟨offset, offset + size⟩ bufOffset zftpBlockSize (offset / zftpBlockSize) offset c (opened len bufOffset) := by
  have hend : u32 (offset + size) ≤ t.metadata.fileLen := by
    rw [u32_of_lt h.stop_lt]
    exact h.inFile
  rw [readFile, liteAssert_pos hend, Checked.ok_bind, readFrom, Nat.add_sub_cancel_left, Nat.sub_self]
  rfl

lemma Readable.total (halign : DataRange.Aligned ⟨offset, offset + size⟩) :
    ∃ c' v', readFile t c (.fresh len) bufOffset offset size = .ok (c', v') ∧
      v'.data = splice (opened len bufOffset).data bufOffset
        (readOut t c.view (opened len bufOffset) (offset + size) (zftpBlockSize + 1) bufOffset offset) := by
  obtain ⟨c', v', hloop, -, -, hdone⟩ := readFrom_total halign zftpBlockSize h.serves h.head (fun _ => rfl)
  have hdata := hdone.data
  rw [Nat.sub_self, Nat.add_zero] at hdata
  exact ⟨c', v', h.readFile_eq.trans hloop, hdata⟩

lemma Readable.fuel_enough : offset + size ≤ (offset / zftpBlockSize + (zftpBlockSize + 1)) * zftpBlockSize :=
  (enough_fuel h.stop_lt _).trans (Nat.mul_le_mul_right _ (Nat.le_succ _))

lemma Readable.readsExactly (halign : DataRange.Aligned ⟨offset, offset + size⟩)
    (hzero : Nonzero t ⟨offset, offset + size⟩) : ReadsExactly t c len bufOffset offset size := by
  obtain ⟨c', v', hread, hdata⟩ := h.total halign
  have hout := readOut_eq_fileBytes (p := bufOffset) (zftpBlockSize + 1) h.serves
    ((blank_opened len bufOffset 0).slotsAgree hzero) (Nat.le_refl offset) (Nat.le_add_right _ _) h.fuel_enough
  dsimp only at hout
  rw [Nat.add_sub_cancel_left] at hout
  rw [hout] at hdata
  exact ⟨c', v', hread, hdata⟩

lemma Readable.conditions (hexact : ReadsExactly t c len bufOffset offset size) :
    DataRange.Aligned ⟨offset, offset + size⟩ ∧ Nonzero t ⟨offset, offset + size⟩ := by
  obtain ⟨c', v', hread, hdata⟩ := hexact
  have halign : DataRange.Aligned ⟨offset, offset + size⟩ := by
    intro k hk hk'
    rw [h.readFile_eq] at hread
    exact readFrom_aligned zftpBlockSize h.serves h.head (fun _ => rfl) hread k hk hk'
  refine ⟨halign, ?_⟩
  -- where a block was passed over, the buffer would still be blank
  obtain ⟨c1, v1, hread1, hdata1⟩ := h.total halign
  cases hread.symm.trans hread1
  have hfits := h.inBuffer
  have hroom : bufOffset ≤ (opened len bufOffset).data.length := by
    rw [length_opened]
    omega
  have hlen := length_readOut (v := opened len bufOffset) (p := bufOffset) (zftpBlockSize + 1) h.serves
    (Nat.le_refl offset) (Nat.le_add_right _ _) (by rw [length_opened]; dsimp only; omega) h.fuel_enough
  dsimp only at hlen
  rw [Nat.add_sub_cancel_left] at hlen
  have hout : readOut t c.view (opened len bufOffset) (offset + size) (zftpBlockSize + 1) bufOffset offset =
      (fileBytes t c.view offset size).map some := by
    have hleft := slice_splice_self (x := readOut t c.view (opened len bufOffset) (offset + size) (zftpBlockSize + 1)
      bufOffset offset) hroom
    have hright := slice_splice_self (x := (fileBytes t c.view offset size).map some) hroom
    rw [hlen, ← hdata1] at hleft
    rw [length_map, length_fileBytes] at hright
    rw [hdata] at hleft
    exact hleft.symm.trans hright
  refine nonzero_of_readOut (v := opened len bufOffset) (p := bufOffset) (zftpBlockSize + 1) h.serves
    (blank_opened len bufOffset bufOffset) h.slots ?_ (Nat.le_refl offset) (Nat.le_add_right _ _) ?_ h.fuel_enough
  · intro x hx hnone
    dsimp only at hx
    rw [hout, hnone] at hx
    obtain ⟨b, -, hb⟩ := mem_map.mp hx
    cases hb
  · rw [length_opened]
    dsimp only
    omega

omit h in
/-- READ: the file's bytes are in the buffer, and nothing else is, if and only if the range starts at a block or goes
    over no whole one, and no whole block has the zero hash. -/
theorem readsExactly_iff (h : Readable zhash t c len bufOffset offset size) :
    ReadsExactly t c len bufOffset offset size ↔
      DataRange.Aligned ⟨offset, offset + size⟩ ∧ Nonzero t ⟨offset, offset + size⟩ :=
  ⟨h.conditions, fun hcond => h.readsExactly hcond.1 hcond.2⟩

end

def threeBlocks : MerkleTree :=
  [3, 4, 5].foldl (fun t l => (t.setHash l (Hash.fill 1)).setState l .validated)
    (MerkleTree.configureFromMetadata ⟨3 * zftpBlockSize, 0, by decide, noFlags_lt⟩)

lemma leaf_threeBlocks {k : ℕ} (h : k < 3) :
    k < threeBlocks.numBlocks ∧ (threeBlocks.leaf k).state = .validated ∧ (threeBlocks.leaf k).hash = Hash.fill 1 := by
  have hcases : k = 0 ∨ k = 1 ∨ k = 2 := by omega
  rcases hcases with rfl | rfl | rfl
  · exact ⟨by decide, by decide, by decide⟩
  · exact ⟨by decide, by decide, by decide⟩
  · exact ⟨by decide, by decide, by decide⟩

lemma threeBlocks_readable {offset size : ℕ} (h : offset + size ≤ 3 * zftpBlockSize) :
    Readable (fun _ => Hash.fill 1) threeBlocks smallCache size 0 offset size := by
  have hlen : threeBlocks.metadata.fileLen = 3 * zftpBlockSize := by decide
  refine ⟨⟨smallCache_sound, ?_⟩, hlen ▸ h, (Nat.zero_add size).le, ?_⟩
  · intro i _ hi
    have hblock : i / zftpBlockSize < 3 := Nat.div_lt_of_lt_mul (by dsimp only at hi; omega)
    obtain ⟨hlt, hstate, hhash⟩ := leaf_threeBlocks hblock
    rw [hhash]
    exact ⟨hlt, hstate, by decide +kernel⟩
  · simp only [zftpBlockSize] at h
    omega

theorem readsExactly_iff_threeBlocks :
    Readable (fun _ => Hash.fill 1) threeBlocks smallCache (3 * zftpBlockSize) 0 0 (3 * zftpBlockSize) ∧
      ReadsExactly threeBlocks smallCache (3 * zftpBlockSize) 0 0 (3 * zftpBlockSize) := by
  have hread := threeBlocks_readable (Nat.zero_add (3 * zftpBlockSize)).le
  refine ⟨hread, (readsExactly_iff hread).mpr ⟨fun _ _ _ => Nat.zero_mod _, ?_⟩⟩
  intro k _ hk
  have hlt : k < 3 := by
    rw [Nat.zero_add] at hk
    exact Nat.le_of_mul_le_mul_right hk (by decide)
  rw [(leaf_threeBlocks hlt).2.2]
  decide

/-- A range from the second byte of a file over its second block stops the reader. -/
theorem not_always_readsExactly :
    ¬ ∀ (zhash : Bytes → Hash) (t : MerkleTree) (c : ZBlockCache) (len bufOffset offset size : ℕ),
      Readable zhash t c len bufOffset offset size → ReadsExactly t c len bufOffset offset size := by
  intro h
  have hfits : 1 + 2 * zftpBlockSize ≤ 3 * zftpBlockSize := by decide
  have hread := threeBlocks_readable hfits
  have hexact := h _ _ _ _ _ _ _ hread
  have halign := (hread.conditions hexact).1 1 (by decide) (by decide)
  revert halign
  decide

end Embassies.Zftp
