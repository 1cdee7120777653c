import Embassies.Lib.Splice
import Embassies.Zftp.WireRequest

/-! `ValidatedZCB` and the results of a request: how a reply is sized and written.

    A `ValidatedZCB` is a send buffer that remembers, for each block-sized slot, the hash of the block last copied
    there, and skips a copy when the hashes agree. A byte of the buffer is `none` until it is written. Offsets need no
    reduction: a write that leaves the buffer is a fault before a pointer can wrap. -/

namespace Embassies.Zftp

/-- `ValidatedZCB`: the buffer, the hashes of its slots, and `debug_offset`. -/
structure ValidatedZCB where
  data : List (Option UInt8)
  hashes : List Hash
  debugOffset : ℕ

namespace ValidatedZCB

/-- `new ValidatedZCB(zcache, socket->zc_allocate(len), socket)`. The count of hashes is
    `len / ZFTP_BLOCK_SIZE - 1 + 1`. -/
def fresh (len : ℕ) : ValidatedZCB where
  data := List.replicate len none
  hashes := List.replicate (u32 (sub32 (len / zftpBlockSize) 1 + 1)) Hash.zero
  debugOffset := 0

/-- Storing through `data()` at `off`. Nothing is stored for an empty `x`. -/
def write (v : ValidatedZCB) (off : ℕ) (x : Bytes) : Checked ValidatedZCB :=
  if x.isEmpty then pure v
  else if off + x.length ≤ v.data.length then
    pure { v with data := splice v.data off (x.map some) }
  else .error .outOfRange

/-- `ZBlockCacheRecord::read(out_buf, off, len)`: the bytes it copies. -/
def blockRead (block : ZBlockCacheRecord) (off len : ℕ) : Checked Bytes := do
  liteAssert (block.valid = true)
  liteAssert (off + len ≤ zftpBlockSize)
  pure ((block.data.drop off).take len)

/-- `read(block, buf_offset, block_offset, len)`. -/
def read (v : ValidatedZCB) (block : ZBlockCacheRecord) (bufOffset blockOffset len : ℕ) :
    Checked ValidatedZCB :=
  if len = zftpBlockSize then do
    liteAssert (blockOffset = 0)
    liteAssert (sub32 bufOffset v.debugOffset % zftpBlockSize = 0)
    match v.hashes[bufOffset / zftpBlockSize]? with
    | none => .error .outOfRange
    | some h =>
      if block.hash = h then pure v -- no need to copy
      else do
        let x ← blockRead block blockOffset len
        let v ← v.write bufOffset x
        pure { v with hashes := v.hashes.set (bufOffset / zftpBlockSize) block.hash }
  else do
    let x ← blockRead block blockOffset len
    v.write bufOffset x

end ValidatedZCB

/-! ### Reading from a cached file -/

/-- `get_validated_merkle_record(location)`. -/
def getValidatedMerkleRecord (t : MerkleTree) (location : ℕ) : Checked ValidatedMerkleRecord := do
  let vmr ← t.get location
  liteAssert (vmr.state = .validated)
  pure vmr

/-- The loop of `ZCachedFile::read(buf, buf_offset, offset, size)`; `lastEnded` is `dbg_file_last_ended`. -/
def readLoop (t : MerkleTree) (bufOffset offset size : ℕ) :
    ℕ → ℕ → ℕ → ℕ → ZBlockCache → ValidatedZCB → Checked (ZBlockCache × ValidatedZCB)
  | 0, _, _, _, _, _ => .error .outOfFuel
  | fuel + 1, blk, bufOff, lastEnded, c, v =>
    if bufOff < size then do
      match ← lookupValidated t c blk with
      | (_, none) => .error .liteAssert
      | (c, some block) => do
        liteAssert (block.valid = true) -- blocks are filled in before read is called
        let blkStart := u32 (blk * zftpBlockSize)
        let blkOff := if offset > blkStart then offset - blkStart else 0
        let blkEndRequest := sub32 (u32 (offset + size)) blkStart
        let blkLen := min (sub32 blkEndRequest blkOff) (sub32 zftpBlockSize blkOff)
        let v ← v.read block (u32 (bufOff + bufOffset)) blkOff blkLen
        liteAssert (u32 (blkStart + blkOff) = lastEnded)
        readLoop t bufOffset offset size fuel (blk + 1) (u32 (bufOff + blkLen))
          (u32 (blkStart + blkOff + blkLen)) c v
    else do
      liteAssert (lastEnded = u32 (offset + size))
      pure (c, v)

/-- `ZCachedFile::read(buf, buf_offset, offset, size)`: a 32-bit range meets at most `2 ^ 16` blocks. -/
def readFile (t : MerkleTree) (c : ZBlockCache) (v : ValidatedZCB) (bufOffset offset size : ℕ) :
    Checked (ZBlockCache × ValidatedZCB) := do
  liteAssert (u32 (offset + size) ≤ t.metadata.fileLen)
  readLoop t bufOffset offset size (zftpBlockSize + 1) (offset / zftpBlockSize) 0 offset c
    { v with debugOffset := bufOffset }

/-! ### `ValidFileResult` -/

section Valid

variable (fileHash : Hash) (t : MerkleTree)

/-- `get_available_data_range(req)`. -/
def getAvailableDataRange (req : WireFileRequest) : DataRange :=
  req.dataRange.intersect (getFileDataRange t)

/-- `ValidFileResult::get_reply_size(req)`. -/
def getReplySize (req : WireFileRequest) : ℕ :=
  u32 (sizeofDataPacket + sizeofMerkleRecord * req.numTreeLocations + req.paddingRequest
    + (getAvailableDataRange t req).size)

/-- The record `fill_reply` writes for the location at `idx`. -/
def recordAt (req : WireFileRequest) (idx : ℕ) : Checked ZFTPMerkleRecord := do
  let location ← req.getTreeLocation idx
  let vmr ← getValidatedMerkleRecord t location
  pure ⟨location, vmr.hash⟩

/-- The loop of `fill_reply` over the tree locations, from `idx` on. -/
def fillRecords (req : WireFileRequest) : ℕ → ℕ → ValidatedZCB → Checked ValidatedZCB
  | 0, _, v => pure v
  | k + 1, idx, v => do
    let zmr ← recordAt t req idx
    let v ← v.write (sizeofDataPacket + sizeofMerkleRecord * idx) zmr.bytes
    fillRecords req k (idx + 1) v

/-- `ValidFileResult::fill_reply(vbuf, req)`. -/
def fillReply (c : ZBlockCache) (v : ValidatedZCB) (req : WireFileRequest) :
    Checked (ZBlockCache × ValidatedZCB) := do
  let range := getAvailableDataRange t req
  let v ← v.write 0 (dataPacketHeader fileHash t.metadata req.numTreeLocations req.paddingRequest
    range)
  let v ← fillRecords t req req.numTreeLocations 0 v
  let data := sizeofDataPacket + sizeofMerkleRecord * req.numTreeLocations
  let v ← v.write data (List.replicate req.paddingRequest 0)
  readFile t c v (data + req.paddingRequest) range.start range.size

end Valid

end Embassies.Zftp
