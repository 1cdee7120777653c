import Embassies.Zftp.Protocol

/-! `ZBlockCacheRecord`: one block, filled front to back from replies and checked against its hash when it is full.

    `next_gap` is only meaningful while the record is not valid: a record loaded from the block DB is valid with
    `next_gap` 0. `data` holds the bytes of the buffer that have been written. The fault of a copy that would read
    beyond the payload is `outOfRange`. -/

namespace Embassies.Zftp

open Checked List

/-- `ZBlockCacheRecord`. -/
structure ZBlockCacheRecord where
  hash : Hash
  data : Bytes
  nextGap : ℕ
  valid : Bool
  deriving DecidableEq

/-- The data of a block, as an origin reads it: at most a block long. -/
structure BlockData where
  bytes : Bytes
  length_le : bytes.length ≤ zftpBlockSize

def BlockData.padded (d : BlockData) : Bytes :=
  d.bytes ++ List.replicate (zftpBlockSize - d.bytes.length) 0

/-- Writing `b` over a buffer at `pos`. -/
def overwrite (buffer : Bytes) (pos : ℕ) (b : Bytes) : Bytes :=
  buffer.take pos ++ b ++ buffer.drop (pos + b.length)

namespace ZBlockCacheRecord

variable {r r' : ZBlockCacheRecord} {source : Bytes} {size : ℕ}

/-- The constructor that only knows the expected hash. -/
def placeholder (expectedHash : Hash) : ZBlockCacheRecord := ⟨expectedHash, [], 0, false⟩

/-- The constructor from a block DB datum. -/
def ofDatum (hash : Hash) (v : Bytes) : ZBlockCacheRecord := ⟨hash, v, 0, true⟩

/-- `_load_data_internal(data_source, physical_size, logical_size)`: copy, then fill with zeros. -/
def loadDataInternal (r : ZBlockCacheRecord) (source : Bytes) (logicalSize : ℕ) :
    Checked ZBlockCacheRecord := do
  let physicalSize := source.length
  liteAssert (0 < physicalSize → u32 (r.nextGap + physicalSize) ≤ zftpBlockSize)
  let r := { r with
    data := overwrite r.data r.nextGap source, nextGap := u32 (r.nextGap + physicalSize) }
  let zeroLen := sub32 logicalSize physicalSize
  liteAssert (0 < zeroLen → u32 (r.nextGap + zeroLen) ≤ zftpBlockSize)
  pure { r with
    data := overwrite r.data r.nextGap (List.replicate zeroLen 0)
    nextGap := u32 (r.nextGap + zeroLen) }

variable (zhash : Bytes → Hash)

/-- `_validate()`, without the `store_block` that follows a success. -/
def validate (r : ZBlockCacheRecord) : Checked ZBlockCacheRecord := do
  liteAssert (r.valid = false)
  if r.nextGap < zftpBlockSize then pure r else do
  liteAssert (r.nextGap = zftpBlockSize)
  liteAssert (zhash r.data = r.hash)
  pure { r with valid := true }

/-- The constructor of the origin's load path: the data is there, the hash is computed. -/
def ofData (inData : BlockData) : Checked ZBlockCacheRecord := do
  let r ← (placeholder Hash.zero).loadDataInternal inData.bytes zftpBlockSize
  pure { r with hash := zhash r.data, valid := true }

/-- The bytes `receive_data` hands to `_load_data_internal`: the copy reads `payload + offset`. -/
def physicalData (payload : Bytes) (offset size : ℕ) : Checked Bytes :=
  let physicalDataAvailable := min (sub32 payload.length offset) size
  if 0 < physicalDataAvailable ∧ payload.length < offset + physicalDataAvailable then
    .error .outOfRange
  else pure (field payload offset physicalDataAvailable)

/-- `receive_data(start, end, reply, offset)`: the record, and whether the data was new. -/
def receiveData (r : ZBlockCacheRecord) (start stop : ℕ) (payload : Bytes) (offset : ℕ) :
    Checked (ZBlockCacheRecord × Bool) :=
  if start < r.nextGap then do
    -- just a duplicate packet
    liteAssert (stop ≤ r.nextGap)
    pure (r, false)
  else do
    -- can't yet handle data out-of-order
    liteAssert (r.nextGap = start)
    let source ← physicalData payload offset (sub32 stop start)
    let r ← r.loadDataInternal source (sub32 stop start)
    let r ← r.validate zhash
    pure (r, true)

/-- `complete_with_zeros()`: the record, and whether anything was left to complete. -/
def completeWithZeros (r : ZBlockCacheRecord) : Checked (ZBlockCacheRecord × Bool) :=
  if r.nextGap < zftpBlockSize then do
    let r ← r.loadDataInternal [] (sub32 zftpBlockSize r.nextGap)
    let r ← r.validate zhash
    pure (r, true)
  else pure (r, false)

/-- `get_missing_range()`, as its start and end. -/
def getMissingRange (r : ZBlockCacheRecord) : ℕ × ℕ :=
  if r.valid then (0, 0) else (r.nextGap, zftpBlockSize)

/-- `peek_data()`. -/
def peekData (r : ZBlockCacheRecord) : Checked Bytes := do
  liteAssert (r.valid = true)
  pure r.data

/-! ### What holds of every record -/

/-- A valid record holds a whole block whose hash is its key; any other record holds exactly the
    bytes up to its first gap. -/
structure Sound (r : ZBlockCacheRecord) : Prop where
  length : r.valid = true → r.data.length = zftpBlockSize
  hash : r.valid = true → zhash r.data = r.hash
  gap : r.valid = false → r.data.length = r.nextGap ∧ r.nextGap < zftpBlockSize

variable {zhash} {payload : Bytes} {new : Bool}

lemma sound_placeholder (h : Hash) : (placeholder h).Sound zhash :=
  ⟨nofun, nofun, fun _ => ⟨rfl, by simp [placeholder, zftpBlockSize]⟩⟩

lemma peekData_of_valid (h : r.valid = true) : r.peekData = .ok r.data := by
  rw [peekData, liteAssert_pos h, ok_bind, pure_eq_ok]

lemma overwrite_end (b c : Bytes) : overwrite b b.length c = b ++ c := by
  simp [overwrite]

lemma loadDataInternal_eq (hlen : r.data.length = r.nextGap) (hsrc : source.length ≤ size)
    (hfit : r.nextGap + size ≤ zftpBlockSize) :
    r.loadDataInternal source size = .ok { r with
      data := r.data ++ source ++ List.replicate (size - source.length) 0
      nextGap := r.nextGap + size } := by
  simp only [zftpBlockSize] at hfit
  have hgap : u32 (r.nextGap + source.length) = r.nextGap + source.length := u32_of_lt (by omega)
  have hzero : sub32 size source.length = size - source.length := sub32_of_le (by omega) hsrc
  have hend : u32 (r.nextGap + source.length + (size - source.length)) = r.nextGap + size := by
    rw [u32_of_lt (by omega)]; omega
  have hbuf : (r.data ++ source).length = r.nextGap + source.length := by
    rw [length_append, hlen]
  rw [loadDataInternal]
  simp only [hgap, hzero, hend]
  rw [liteAssert_pos (by simp only [zftpBlockSize]; omega), ok_bind,
    liteAssert_pos (by simp only [zftpBlockSize]; omega), ok_bind, ← hlen, overwrite_end,
    hlen, ← hbuf, overwrite_end, pure_eq_ok]

lemma loadDataInternal_frame (h : r.loadDataInternal source size = .ok r') : r'.hash = r.hash ∧ r'.valid = r.valid := by
  obtain ⟨_, -, _, -, h⟩ := of_bind2 h
  cases h
  exact ⟨rfl, rfl⟩

lemma validate_cases (h : r.validate zhash = .ok r') : r.valid = false ∧ ((r.nextGap < zftpBlockSize ∧ r' = r) ∨
      (r.nextGap = zftpBlockSize ∧ zhash r.data = r.hash ∧ r' = { r with valid := true })) := by
  obtain ⟨_, hv, h⟩ := of_bind h
  rw [liteAssert_eq_ok] at hv
  refine ⟨hv, ?_⟩
  split at h
  case isTrue hlt => cases h; exact .inl ⟨hlt, rfl⟩
  case isFalse =>
    obtain ⟨_, hgap, _, hhash, h⟩ := of_bind2 h
    rw [liteAssert_eq_ok] at hgap hhash
    cases h
    exact .inr ⟨hgap, hhash, rfl⟩

lemma length_physicalData {offset : ℕ} (h : physicalData payload offset size = .ok source) :
    source.length ≤ size := by
  simp only [physicalData] at h
  split at h
  case isTrue => cases h
  case isFalse =>
    cases h
    rw [field, length_take]
    omega

lemma load_validate_sound {r1 : ZBlockCacheRecord} (hr : r.Sound zhash) (hsrc : source.length ≤ size)
    (hfit : r.nextGap + size ≤ zftpBlockSize) (hl : r.loadDataInternal source size = .ok r1)
    (hv : r1.validate zhash = .ok r') : r.valid = false ∧ r'.Sound zhash ∧ r'.hash = r.hash := by
  obtain ⟨hinv, hcase⟩ := validate_cases hv
  have hval : r.valid = false := (loadDataInternal_frame hl).2 ▸ hinv
  obtain ⟨hlen, -⟩ := hr.gap hval
  rw [loadDataInternal_eq hlen hsrc hfit] at hl
  cases hl
  have hlen1 : (r.data ++ source ++ List.replicate (size - source.length) 0).length = r.nextGap + size := by
    simp only [length_append, length_replicate, hlen]
    omega
  refine ⟨hval, ?_⟩
  rcases hcase with ⟨hlt, rfl⟩ | ⟨hfull, hhash, rfl⟩
  · exact ⟨⟨fun h => by simp [hval] at h, fun h => by simp [hval] at h, fun _ => ⟨hlen1, hlt⟩⟩, rfl⟩
  · exact ⟨⟨fun _ => hlen1.trans hfull, fun _ => hhash, nofun⟩, rfl⟩

/-- What a method did to the record: nothing, or it stored new bytes and the record was not valid before. -/
abbrev Updated (zhash : Bytes → Hash) (r r' : ZBlockCacheRecord) (new : Bool) : Prop :=
  (new = false ∧ r' = r) ∨ (new = true ∧ r.valid = false ∧ r'.Sound zhash ∧ r'.hash = r.hash)

/-- RECEIVE: a piece of a block either repeats bytes the record has, or goes into its gap. -/
lemma receiveData_sound {start stop offset : ℕ} (hr : r.Sound zhash) (hle : start ≤ stop) (hstop : stop ≤ zftpBlockSize)
    (h : r.receiveData zhash start stop payload offset = .ok (r', new)) : Updated zhash r r' new := by
  have hsize : sub32 stop start = stop - start := sub32_of_le (by simp only [zftpBlockSize] at hstop; omega) hle
  rw [receiveData] at h
  split at h
  case isTrue =>
    obtain ⟨_, -, h⟩ := of_bind h
    cases h
    exact .inl ⟨rfl, rfl⟩
  case isFalse =>
    obtain ⟨_, hgap, source, hsrc, r1, hload, h⟩ := of_bind3 h
    obtain ⟨r2, hval, h⟩ := of_bind h
    rw [liteAssert_eq_ok] at hgap
    cases h
    exact .inr ⟨rfl, load_validate_sound hr (length_physicalData hsrc) (by rw [hsize, hgap]; omega) hload hval⟩

/-- COMPLETE: what was missing is filled with zeros. -/
lemma completeWithZeros_sound (hr : r.Sound zhash) (h : r.completeWithZeros zhash = .ok (r', new)) :
    Updated zhash r r' new := by
  rw [completeWithZeros] at h
  split at h
  case isFalse => cases h; exact .inl ⟨rfl, rfl⟩
  case isTrue hlt =>
    obtain ⟨r1, hload, r2, hval, h⟩ := of_bind2 h
    cases h
    have hsize : sub32 zftpBlockSize r.nextGap = zftpBlockSize - r.nextGap :=
      sub32_of_le (by norm_num [zftpBlockSize]) hlt.le
    exact .inr ⟨rfl, load_validate_sound hr (by simp) (by rw [hsize]; omega) hload hval⟩

/-- LOAD: the origin's constructor makes a valid record of the padded data. -/
lemma ofData_eq (d : BlockData) : ofData zhash d = .ok ⟨zhash d.padded, d.padded, zftpBlockSize, true⟩ := by
  rw [ofData, loadDataInternal_eq rfl d.length_le (by simp [placeholder])]
  simp [placeholder, BlockData.padded]

lemma sound_ofData (d : BlockData) :
    (⟨zhash d.padded, d.padded, zftpBlockSize, true⟩ : ZBlockCacheRecord).Sound zhash := by
  refine ⟨fun _ => ?_, fun _ => rfl, nofun⟩
  have := d.length_le
  simp only [BlockData.padded, length_append, length_replicate]
  omega

end ZBlockCacheRecord

end Embassies.Zftp
