import Embassies.Zarfile.ChunkDecoder

/-! Files of a zarfile: `ZarfileVFS.cpp`.

    The zarfile is one buffer in memory. `read` copies bytes out of it. `fast_mmap` gives the caller the bytes
    themselves, if one chunk has them all, and cuts them off the chunk so that they are not used again: the
    caller may write to them. -/

namespace Embassies.Zarfile

/-- `ZLCZCBHandle`: a zarfile in memory, at an address. -/
structure ZLCZCBHandle where
  data : Bytes
  address : ℕ
  deriving DecidableEq, Repr

namespace ZLCZCBHandle

/-- `_internal_read(buf, count, offset)`. -/
def internalRead (h : ZLCZCBHandle) (count offset : ℕ) : Checked Bytes := do
  liteAssert (offset < h.data.length)
  liteAssert (u32 (offset + count) ≤ h.data.length)
  if offset + count ≤ h.data.length then .ok (field h.data offset count) else .error .outOfRange

/-- `fast_mmap(len, offset)`, a pointer. -/
def fastMmap (h : ZLCZCBHandle) (len offset : ℕ) : Checked ℕ := do
  liteAssert (offset < h.data.length)
  liteAssert (u64 (offset + len) ≤ h.data.length)
  .ok (h.address + offset)

end ZLCZCBHandle

/-- `ZFTP_METADATA_FLAG_ISDIR`. -/
def zftpMetadataFlagIsdir : ℕ := 1

/-- `is_dir()`. -/
def ZFPhdr.isDir (p : ZFPhdr) : Bool := p.flags &&& zftpMetadataFlagIsdir ≠ 0

/-- `ZarfileVFS`: the zarfile, and the tables that have been read from it. -/
structure ZarfileVFS where
  zarfileHdl : ZLCZCBHandle
  zhdr : ZFZhdr
  ptable : List ZFPhdr
  strtable : Bytes
  chdr : List ZFChdr
  lostMmapOpportunitiesMisaligned : ℕ
  exploitedMmapOpportunities : ℕ
  deriving DecidableEq, Repr

/-- A chunk without the bytes up to the end of what is handed out. -/
def ZFChdr.consume (c : ZFChdr) (len offset : ℕ) : ZFChdr :=
  let oldEnd := u32 (c.zDataOff + c.zDataLen)
  let newStart := u32 (offset + len)
  let offsetDelta := sub32 newStart c.zDataOff
  ⟨u32 (c.zFileOff + offsetDelta), u32 (c.zDataOff + offsetDelta), sub32 oldEnd newStart, c.zPrecious⟩

namespace ZarfileVFS

/-- `lock_chdr(ci)`, with the header it points to. -/
def lockChdr (z : ZarfileVFS) (ci : ℕ) : Checked ZFChdr := do
  liteAssert (ci < z.zhdr.zChunktabCount)
  match z.chdr[ci]? with
  | some chdr => .ok chdr
  | none => .error .outOfRange

/-- The decoder of a file: `ZarfileHandleChunkDecoder`. -/
def decoder (z : ZarfileVFS) (phdr : ZFPhdr) : ChunkDecoder where
  phdr := phdr
  readChdr localChunkIdx := z.lockChdr (u32 (phdr.zChunkIdx + localChunkIdx))
  underlyingZarfileRead len offset := z.zarfileHdl.internalRead len offset

/-- `read(err, dst, len, offset)`; a directory gives EBADF. -/
def read (z : ZarfileVFS) (phdr : ZFPhdr) (len offset : ℕ) : Traced (Option Reading) :=
  if phdr.isDir then .ok none
  else
    match (z.decoder phdr).read (u32 len) (u32 offset) with
    | .error stop => .error stop
    | .ok r => .ok (some r)

/-- The loop of `fast_mmap`. -/
def fastMmapLoop (z : ZarfileVFS) (phdr : ZFPhdr) (len offset : ℕ) : ℕ → ℕ → Checked (ZarfileVFS × Option ℕ)
  | 0, _ => .ok (z, none)
  | n + 1, ci => do
    let chdr ← z.lockChdr (u32 (phdr.zChunkIdx + ci))
    if chdr.zPrecious = false ∧ chdr.zDataOff ≤ offset ∧ u64 (offset + len) ≤ u32 (chdr.zDataOff + chdr.zDataLen) then
      -- hey, here's a contiguous chunk we can just hand out!
      let chunkOffset := sub64 offset chdr.zDataOff
      let zarfileOffset := u64 (chdr.zFileOff + chunkOffset)
      let result ← z.zarfileHdl.fastMmap len zarfileOffset
      if result = 0 then .ok (z, none)
      else if result % 4096 ≠ 0 then
        .ok ({ z with lostMmapOpportunitiesMisaligned := u32 (z.lostMmapOpportunitiesMisaligned + len) }, none)
      else
        .ok ({ z with
          chdr := z.chdr.set (u32 (phdr.zChunkIdx + ci)) (chdr.consume len offset)
          exploitedMmapOpportunities := u32 (z.exploitedMmapOpportunities + len) }, some result)
    else fastMmapLoop z phdr len offset n (ci + 1)

/-- `fast_mmap(len, offset)`. -/
def fastMmap (z : ZarfileVFS) (phdr : ZFPhdr) (len offset : ℕ) : Checked (ZarfileVFS × Option ℕ) := do
  liteAssert (phdr.isDir = false)
  z.fastMmapLoop phdr len offset phdr.zChunkCount 0

end ZarfileVFS

/-! ### Calls -/

/-- A file system and what it has handed out. -/
structure Session where
  vfs : ZarfileVFS
  handed : List Extent

/-- What can happen: calls for a file of the table, and writes of the caller. -/
inductive Call where
  | fastMmap (file len offset : ℕ)
  | read (file len offset : ℕ)
  | store (x : ℕ) (value : UInt8)

namespace Session

/-- The header of an open file. -/
def phdrAt (s : Session) (file : ℕ) : Checked ZFPhdr :=
  match s.vfs.ptable[file]? with
  | some phdr => .ok phdr
  | none => .error .nullDeref

def step (s : Session) : Call → Checked Session
  | .fastMmap file len offset => do
    let phdr ← s.phdrAt file
    match ← s.vfs.fastMmap phdr len offset with
    | (vfs, none) => .ok ⟨vfs, s.handed⟩
    | (vfs, some result) => .ok ⟨vfs, s.handed ++ [⟨result - vfs.zarfileHdl.address, len⟩]⟩
  | .read file len offset => do
    let phdr ← s.phdrAt file
    match s.vfs.read phdr len offset with
    | .error stop => .error stop.1
    | .ok _ => .ok s
  | .store x value =>
    .ok { s with vfs := { s.vfs with zarfileHdl := { s.vfs.zarfileHdl with data := s.vfs.zarfileHdl.data.set x value } } }

/-- What a call touches of the zarfile: the region it hands out, or the bytes it reads, also when it stops. -/
def touches (s : Session) : Call → List Extent
  | .fastMmap file len offset =>
    match s.phdrAt file >>= fun phdr => s.vfs.fastMmap phdr len offset with
    | .ok (vfs, some result) => [⟨result - vfs.zarfileHdl.address, len⟩]
    | _ => []
  | .read file len offset =>
    match s.phdrAt file with
    | .error _ => []
    | .ok phdr =>
      match s.vfs.read phdr len offset with
      | .error stop => stop.2
      | .ok none => []
      | .ok (some r) => r.touched
  | .store _ _ => []

end Session

end Embassies.Zarfile
