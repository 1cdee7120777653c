import Embassies.Zftp.FileResultLaws
import Embassies.Zftp.ReferenceFile
import Embassies.Zftp.RequestBuilderLaws

/-! The reply codec: what `fill_reply` writes, the client's parser reads back.

    A reply is exact (`Replies`) when filling a buffer of `get_reply_size` bytes causes no fault,
    writes every byte of it, and the parser makes of it the records asked for, the metadata, the range
    and the file's bytes. `Encodable` is what this takes of a request: the source checks none of it. -/

namespace Embassies.Zftp

open Checked List Nat ValidatedZCB WireFileRequest DataRange

/-! ### The bytes of the file -/

/-- The byte of the file at `i`, as its block has it. -/
def fileByte (t : MerkleTree) (view : Hash → ZBlockCacheRecord) (i : ℕ) : UInt8 :=
  (view (t.leaf (i / zftpBlockSize)).hash).data.getD (i % zftpBlockSize) 0

/-- The `n` bytes of the file from `a` on. -/
def fileBytes (t : MerkleTree) (view : Hash → ZBlockCacheRecord) (a n : ℕ) : Bytes :=
  (List.range' a n).map (fileByte t view)

section FileBytes

variable {zhash : Bytes → Hash} {t : MerkleTree} {c : ZBlockCache} {v : ValidatedZCB}
  {range : DataRange} {view : Hash → ZBlockCacheRecord}

@[simp] lemma length_fileBytes (view : Hash → ZBlockCacheRecord) (a n : ℕ) : (fileBytes t view a n).length = n := by
  rw [fileBytes, length_map, length_range']

lemma fileBytes_append (view : Hash → ZBlockCacheRecord) (a m n : ℕ) :
    fileBytes t view a m ++ fileBytes t view (a + m) n = fileBytes t view a (m + n) := by
  rw [fileBytes, fileBytes, fileBytes, ← map_append, ← range'_append_1]

lemma piece_eq_fileBytes {a n : ℕ} (hlen : (view (t.leaf (a / zftpBlockSize)).hash).data.length = zftpBlockSize)
    (hfit : a % zftpBlockSize + n ≤ zftpBlockSize) :
    ((view (t.leaf (a / zftpBlockSize)).hash).data.drop (a % zftpBlockSize)).take n = fileBytes t view a n := by
  have hmod := div_add_mod' a zftpBlockSize
  have hpos := zftpBlockSize_pos
  apply ext_getElem
  · rw [length_fileBytes, length_take, length_drop, hlen]
    omega
  · intro i hi hi'
    rw [length_fileBytes] at hi'
    have hsum : a + i = a % zftpBlockSize + i + a / zftpBlockSize * zftpBlockSize := by omega
    have hdiv : (a + i) / zftpBlockSize = a / zftpBlockSize := by
      rw [hsum, add_mul_div_right _ _ hpos, div_eq_of_lt (by omega), zero_add]
    have hrem : (a + i) % zftpBlockSize = a % zftpBlockSize + i := by
      rw [hsum, add_mul_mod_self_right, mod_eq_of_lt (by omega)]
    simp only [fileBytes, getElem_take, getElem_drop, getElem_map, getElem_range', one_mul, fileByte, hdiv, hrem]
    rw [getD_eq_getElem]

/-- A buffer that nothing has been written to from `p` on, and none of whose slots names a block. -/
structure Blank (v : ValidatedZCB) (p : ℕ) : Prop where
  data : ∀ x ∈ v.data.drop p, x = none
  slots : ∀ h ∈ v.hashes, h = Hash.zero

lemma Blank.mono {p q : ℕ} (h : Blank v p) (hle : p ≤ q) : Blank v q := by
  obtain ⟨d, rfl⟩ := Nat.exists_eq_add_of_le hle
  refine ⟨?_, h.slots⟩
  intro x hx
  rw [← drop_drop] at hx
  exact h.data x (mem_of_mem_drop hx)

/-- Where a slot carries the hash of the whole block that is read into it, the block is there. -/
def SlotsAgree (t : MerkleTree) (view : Hash → ZBlockCacheRecord) (v : ValidatedZCB)
    (p a stop : ℕ) : Prop :=
  ∀ k, a ≤ k * zftpBlockSize → (k + 1) * zftpBlockSize ≤ stop →
    v.hashes[(p + (k * zftpBlockSize - a)) / zftpBlockSize]? = some (t.leaf k).hash →
    (v.data.drop (p + (k * zftpBlockSize - a))).take zftpBlockSize =
      (fileBytes t view (k * zftpBlockSize) zftpBlockSize).map some

/-- Reading into a buffer whose slots agree leaves the file's bytes in it. -/
lemma readOut_eq_fileBytes (fuel : ℕ) : ∀ {p a : ℕ}, Serves zhash t c range →
    SlotsAgree t c.view v p a range.stop → range.start ≤ a → a ≤ range.stop →
    range.stop ≤ (a / zftpBlockSize + fuel) * zftpBlockSize → readOut t c.view v range.stop fuel p a =
      (fileBytes t c.view a (range.stop - a)).map some := by
  induction fuel with
  | zero =>
    intro p a _ _ _ hle hfuel
    have := Nat.div_mul_le_self a zftpBlockSize
    rw [Nat.add_zero] at hfuel
    rw [readOut, show range.stop - a = 0 by omega]
    rfl
  | succ fuel ih =>
    intro p a hserves hagree hlo hle hfuel
    by_cases hmore : a < range.stop
    · obtain ⟨hpos, hend, hfit⟩ := pieceLen_bounds hmore
      obtain ⟨-, -, hvalid⟩ := hserves.blocks a hlo hmore
      obtain ⟨hsound, hhash⟩ := hserves.sound.view (t.leaf (a / zftpBlockSize)).hash
      have hpiece : pieceOut v (c.view (t.leaf (a / zftpBlockSize)).hash) p a
          (pieceLen a range.stop) = (fileBytes t c.view a (pieceLen a range.stop)).map some := by
        rw [pieceOut]
        split
        case isTrue hslot =>
          obtain ⟨hfull, hslot⟩ := hslot
          have hcut : a % zftpBlockSize = 0 := by omega
          have hmul : a / zftpBlockSize * zftpBlockSize = a := Nat.div_mul_cancel (Nat.dvd_of_mod_eq_zero hcut)
          have hthere := hagree (a / zftpBlockSize) hmul.ge (by rw [Nat.succ_mul, hmul]; omega)
          rw [hmul, Nat.sub_self, Nat.add_zero] at hthere
          rw [hhash] at hslot
          rw [hfull]
          exact hthere hslot
        case isFalse => rw [piece_eq_fileBytes (hsound.length hvalid) hfit]
      have hrest : readOut t c.view v range.stop fuel (p + pieceLen a range.stop)
          (a + pieceLen a range.stop) = (fileBytes t c.view (a + pieceLen a range.stop)
            (range.stop - (a + pieceLen a range.stop))).map some := by
        by_cases hlast : a + pieceLen a range.stop < range.stop
        · refine ih hserves ?_ (by omega) hend ?_
          · intro k hk hk'
            have hshift : p + pieceLen a range.stop + (k * zftpBlockSize - (a + pieceLen a range.stop))
                = p + (k * zftpBlockSize - a) := by omega
            rw [hshift]
            exact hagree k (by omega) hk'
          · rw [(pieceLen_cut hlast).2, Nat.add_right_comm, Nat.add_assoc]
            exact hfuel
        · rw [readOut_done _ _ _ hlast, show range.stop - (a + pieceLen a range.stop) = 0 by omega]
          rfl
      rw [readOut_succ _ fuel p hmore, hrest, hpiece, ← map_append, fileBytes_append,
        show pieceLen a range.stop + (range.stop - (a + pieceLen a range.stop)) = range.stop - a by
          omega]
    · rw [readOut_done _ _ _ hmore, show range.stop - a = 0 by omega]
      rfl

lemma Blank.slotsAgree {p q a stop : ℕ} (h : Blank v q)
    (hzero : ∀ k, a ≤ k * zftpBlockSize → (k + 1) * zftpBlockSize ≤ stop →
      (t.leaf k).hash ≠ Hash.zero) : SlotsAgree t view v p a stop := by
  intro k hk hk' hslot
  exact absurd (h.slots _ (mem_of_getElem? hslot)) (hzero k hk hk')

/-- The other way: where every byte is written, no whole block has the zero hash. -/
lemma nonzero_of_readOut (fuel : ℕ) : ∀ {p a : ℕ}, Serves zhash t c range → Blank v p →
    v.hashes.length = v.data.length / zftpBlockSize → (∀ x ∈ readOut t c.view v range.stop fuel p a, x ≠ none) →
    range.start ≤ a → a ≤ range.stop → p + (range.stop - a) ≤ v.data.length →
    range.stop ≤ (a / zftpBlockSize + fuel) * zftpBlockSize →
    ∀ k, a ≤ k * zftpBlockSize → (k + 1) * zftpBlockSize ≤ range.stop → (t.leaf k).hash ≠ Hash.zero := by
  have hpos := zftpBlockSize_pos
  induction fuel with
  | zero =>
    intro p a _ _ _ _ _ hle _ hfuel k hk hk'
    have := div_mul_le_self a zftpBlockSize
    rw [add_zero] at hfuel
    rw [succ_mul] at hk'
    omega
  | succ fuel ih =>
    intro p a hserves hblank hslots hall hlo hle hbuf hfuel k hk hk'
    have hmore : a < range.stop := by
      rw [succ_mul] at hk'
      omega
    obtain ⟨hn, hend, hfit⟩ := pieceLen_bounds hmore
    obtain ⟨-, hhash⟩ := hserves.sound.view (t.leaf (a / zftpBlockSize)).hash
    rw [readOut_succ _ fuel p hmore] at hall
    rcases eq_or_lt_of_le hk with heq | hlt
    · -- the block is the piece itself; in a slot with its hash, nothing would be written
      intro hzero
      rw [succ_mul] at hk'
      have hcut : a % zftpBlockSize = 0 := by rw [heq]; exact mul_mod_left _ _
      have hblk : a / zftpBlockSize = k := by rw [heq]; exact mul_div_left _ hpos
      have hfull : pieceLen a range.stop = zftpBlockSize := by
        rw [pieceLen]
        omega
      have hslot : p / zftpBlockSize < v.hashes.length := by
        rw [hslots, lt_iff_add_one_le, le_div_iff_mul_le hpos]
        have := div_mul_le_self p zftpBlockSize
        rw [succ_mul]
        omega
      have hget : v.hashes[p / zftpBlockSize]? = some (c.view (t.leaf (a / zftpBlockSize)).hash).hash := by
        rw [hhash, hblk, hzero, getElem?_eq_getElem hslot, hblank.slots _ (getElem_mem hslot)]
      rw [pieceOut, if_pos ⟨hfull, hget⟩, hfull] at hall
      have hlen : 0 < ((v.data.drop p).take zftpBlockSize).length := by
        rw [length_take, length_drop]
        omega
      have hmem := getElem_mem hlen
      refine hall _ (mem_append_left _ hmem) ?_
      exact hblank.data _ (mem_of_mem_take hmem)
    · have hmod := div_add_mod' a zftpBlockSize
      have hblock : a / zftpBlockSize < k := (div_lt_iff_lt_mul hpos).mpr hlt
      have hnext : (a / zftpBlockSize + 1) * zftpBlockSize ≤ k * zftpBlockSize := mul_le_mul_right _ hblock
      rw [succ_mul] at hnext
      have hlast : a + pieceLen a range.stop < range.stop := by
        rw [succ_mul] at hk'
        omega
      refine ih (p := p + pieceLen a range.stop) hserves (hblank.mono (le_add_right _ _)) hslots ?_
        (by omega) hend (by omega) ?_ k (by omega) hk'
      · intro x hx
        exact hall x (mem_append_right _ hx)
      · rw [(pieceLen_cut hlast).2, add_right_comm, add_assoc]
        exact hfuel

end FileBytes

/-! ### The records -/

section Records

variable {t : MerkleTree} {req : WireFileRequest}

lemma recordAt_eq_ok {i : ℕ} {r : ZFTPMerkleRecord} : recordAt t req i = .ok r ↔
    ∃ l, req.getTreeLocation i = .ok l ∧ l < t.treeSize ∧ (t.node l).state = .validated ∧ r = ⟨l, (t.node l).hash⟩ := by
  constructor
  · intro h
    obtain ⟨l, hl, vmr, hvmr, h⟩ := of_bind2 h
    obtain ⟨vmr', hget, _, hstate, hvmr⟩ := of_bind2 hvmr
    cases hvmr
    rw [liteAssert_eq_ok] at hstate
    rw [MerkleTree.get] at hget
    split at hget
    case isFalse => cases hget
    case isTrue hlt =>
      cases hget
      exact ⟨l, hl, hlt, hstate, (Except.ok.inj h).symm⟩
  · rintro ⟨l, hl, hlt, hstate, rfl⟩
    simp only [recordAt, hl, ok_bind, getValidatedMerkleRecord, MerkleTree.get_of_lt hlt,
      liteAssert_pos hstate, pure_eq_ok]

/-- LOOP over the records: they are written one behind the other. -/
lemma fillRecords_eq_ok (k : ℕ) : ∀ {idx : ℕ} {v v' : ValidatedZCB},
    fillRecords t req k idx v = .ok v' ↔ ∃ rs : List ZFTPMerkleRecord,
      List.Forall₂ (fun i r => recordAt t req i = .ok r) (range' idx k) rs ∧
      (k = 0 ∨ sizeofDataPacket + sizeofMerkleRecord * (idx + k) ≤ v.data.length) ∧
      v' = { v with
        data := splice v.data (sizeofDataPacket + sizeofMerkleRecord * idx)
          ((rs.flatMap ZFTPMerkleRecord.bytes).map some) } := by
  induction k with
  | zero =>
    intro idx v v'
    constructor
    · intro h
      cases h
      exact ⟨[], .nil, .inl rfl, by simp⟩
    · rintro ⟨rs, hrs, -, rfl⟩
      cases hrs
      simp [fillRecords]
  | succ k ih =>
    intro idx v v'
    have hoff : ∀ r : ZFTPMerkleRecord, sizeofDataPacket + sizeofMerkleRecord * (idx + 1) =
        sizeofDataPacket + sizeofMerkleRecord * idx + (r.bytes.map some).length := by
      intro r
      rw [length_map, ZFTPMerkleRecord.length_bytes, Nat.mul_succ, Nat.add_assoc]
    have hne : ∀ r : ZFTPMerkleRecord, r.bytes ≠ [] := by
      intro r hnil
      have := r.length_bytes
      rw [hnil] at this
      cases this
    constructor
    · intro h
      obtain ⟨r, hr, v1, hw, h⟩ := of_bind2 h
      obtain ⟨hfit, rfl⟩ := write_eq_ok.mp hw
      have hfit := hfit.resolve_left (hne r)
      obtain ⟨rs, hrs, hfits, rfl⟩ := ih.mp h
      have hfit' : sizeofDataPacket + sizeofMerkleRecord * idx + (r.bytes.map some).length ≤
          v.data.length := by
        rw [length_map]
        exact hfit
      refine ⟨r :: rs, .cons hr hrs, .inr ?_, ?_⟩
      · rcases hfits with rfl | hfits
        · rw [hoff r]
          exact hfit'
        · rw [length_splice hfit', Nat.add_assoc, Nat.add_comm 1 k] at hfits
          exact hfits
      · simp only [hoff r, splice_splice _ hfit', flatMap_cons, map_append]
    · rintro ⟨rs, hrs, hfits, rfl⟩
      obtain ⟨r, rs, rfl⟩ := exists_cons_of_length_pos
        (l := rs) (by rw [← hrs.length_eq, length_range']; omega)
      obtain ⟨hr, hrs⟩ := forall₂_cons.mp hrs
      have hfits := hfits.resolve_left (Nat.succ_ne_zero k)
      have hfit' : sizeofDataPacket + sizeofMerkleRecord * idx + (r.bytes.map some).length ≤
          v.data.length := by
        rw [← hoff r]
        exact (Nat.add_le_add_left (Nat.mul_le_mul_left _ (by omega)) _).trans hfits
      have hw := v.write_of_fits (show sizeofDataPacket + sizeofMerkleRecord * idx + r.bytes.length ≤
        v.data.length by rw [length_map] at hfit'; exact hfit')
      rw [fillRecords, hr, ok_bind, hw, ok_bind, ih]
      refine ⟨rs, hrs, ?_, ?_⟩
      · right
        rw [length_splice hfit', Nat.add_assoc, Nat.add_comm 1 k]
        exact hfits
      · simp only [hoff r, splice_splice _ hfit', flatMap_cons, map_append]

end Records

/-! ### The whole reply -/

section Fill

variable {zhash : Bytes → Hash} {fileHash : Hash} {t : MerkleTree} {c : ZBlockCache}
  {v : ValidatedZCB} {req : WireFileRequest} {rs : List ZFTPMerkleRecord} {out : ZBlockCache × ValidatedZCB}

lemma DataRange.intersect_bounds (r other : DataRange) :
    (r.intersect other).start ≤ (r.intersect other).stop ∧ (r.intersect other).stop ≤ other.stop := by
  rw [intersect]
  split
  · exact ⟨le_rfl, zero_le _⟩
  · split
    · exact ⟨le_rfl, zero_le _⟩
    · exact ⟨not_lt.mp ‹_›, min_le_right _ _⟩

lemma availableRange_bounds (t : MerkleTree) (req : WireFileRequest) :
    (getAvailableDataRange t req).start ≤ (getAvailableDataRange t req).stop ∧
      (getAvailableDataRange t req).stop ≤ t.metadata.fileLen ∧ (getAvailableDataRange t req).stop < 2 ^ 32 ∧
      (getAvailableDataRange t req).size =
        (getAvailableDataRange t req).stop - (getAvailableDataRange t req).start := by
  obtain ⟨hord, hstop⟩ := intersect_bounds req.dataRange (getFileDataRange t)
  have hlt : (getAvailableDataRange t req).stop < 2 ^ 32 := hstop.trans_lt t.metadata.fileLen_lt
  exact ⟨hord, hstop, hlt, size_of_le hord hlt⟩

/-- Where the payload of the reply starts. -/
def payloadOffset (req : WireFileRequest) : ℕ :=
  sizeofDataPacket + sizeofMerkleRecord * req.numTreeLocations + req.paddingRequest

/-- The reply up to its payload, with the given records. -/
def packetFront (fileHash : Hash) (t : MerkleTree) (req : WireFileRequest)
    (rs : List ZFTPMerkleRecord) : Bytes :=
  dataPacketHeader fileHash t.metadata req.numTreeLocations req.paddingRequest
    (getAvailableDataRange t req)
    ++ (rs.flatMap ZFTPMerkleRecord.bytes ++ List.replicate req.paddingRequest 0)

lemma length_packetFront (h : rs.length = req.numTreeLocations) :
    (packetFront fileHash t req rs).length = payloadOffset req := by
  simp only [packetFront, payloadOffset, length_append, length_dataPacketHeader, length_records, h, length_replicate]
  omega

/-- The buffer when the front of the reply is written, with the given records. -/
def frontWith (fileHash : Hash) (t : MerkleTree) (v : ValidatedZCB) (req : WireFileRequest)
    (rs : List ZFTPMerkleRecord) : ValidatedZCB where
  data := splice v.data 0 ((packetFront fileHash t req rs).map some)
  hashes := v.hashes
  debugOffset := payloadOffset req

/-- `read` on the range of a reply. -/
def readReply (t : MerkleTree) (c : ZBlockCache) (req : WireFileRequest) (v : ValidatedZCB) :
    Checked (ZBlockCache × ValidatedZCB) :=
  readFrom t (getAvailableDataRange t req) (payloadOffset req) zftpBlockSize
    ((getAvailableDataRange t req).start / zftpBlockSize) (getAvailableDataRange t req).start c v

lemma readFile_eq_readReply (c : ZBlockCache) (v : ValidatedZCB) :
    readFile t c v (payloadOffset req) (getAvailableDataRange t req).start (getAvailableDataRange t req).size =
      readReply t c req { v with debugOffset := payloadOffset req } := by
  obtain ⟨hord, hfile, hlt, hsize⟩ := availableRange_bounds t req
  have hend : u32 ((getAvailableDataRange t req).start + (getAvailableDataRange t req).size) ≤ t.metadata.fileLen := by
    rw [hsize, Nat.add_sub_cancel' hord, u32_of_lt hlt]
    exact hfile
  rw [readFile, liteAssert_pos hend, ok_bind, readReply, readFrom, hsize, Nat.sub_self]

/-- INVERSION of `fill_reply`: the front of the reply fits and is written, then the file is read. -/
lemma fillReply_eq_ok : fillReply fileHash t c v req = .ok out ↔ ∃ rs : List ZFTPMerkleRecord,
    List.Forall₂ (fun i r => recordAt t req i = .ok r) (range' 0 req.numTreeLocations) rs ∧
      payloadOffset req ≤ v.data.length ∧ readReply t c req (frontWith fileHash t v req rs) = .ok out := by
  obtain ⟨header, hheader⟩ : ∃ header, dataPacketHeader fileHash t.metadata req.numTreeLocations req.paddingRequest
      (getAvailableDataRange t req) = header := ⟨_, rfl⟩
  have hheaderLen : header.length = sizeofDataPacket := by rw [← hheader, length_dataPacketHeader]
  have hne : header ≠ [] := by
    rintro rfl
    cases hheaderLen
  have hlen1 : sizeofDataPacket ≤ v.data.length → (splice v.data 0 (header.map some)).length = v.data.length := by
    intro hfit
    apply length_splice
    rw [length_map, hheaderLen, zero_add]
    exact hfit
  have hlen2 : ∀ rs : List ZFTPMerkleRecord, rs.length = req.numTreeLocations →
      sizeofDataPacket + sizeofMerkleRecord * req.numTreeLocations ≤ v.data.length →
      (splice (splice v.data 0 (header.map some)) (sizeofDataPacket + sizeofMerkleRecord * 0)
        ((rs.flatMap ZFTPMerkleRecord.bytes).map some)).length = v.data.length := by
    intro rs hlen hfit
    have hlen1 := hlen1 (by omega)
    rw [length_splice, hlen1]
    rw [hlen1, length_map, length_records, hlen]
    omega
  -- what three adjacent writes that fit leave
  have hdata : ∀ rs : List ZFTPMerkleRecord, rs.length = req.numTreeLocations → payloadOffset req ≤ v.data.length →
      splice (splice (splice v.data 0 (header.map some)) (sizeofDataPacket + sizeofMerkleRecord * 0)
        ((rs.flatMap ZFTPMerkleRecord.bytes).map some)) (sizeofDataPacket + sizeofMerkleRecord * req.numTreeLocations)
        ((replicate req.paddingRequest (0 : UInt8)).map some) =
      splice v.data 0 ((packetFront fileHash t req rs).map some) := by
    intro rs hlen hfit
    rw [payloadOffset] at hfit
    have h1 : sizeofDataPacket + sizeofMerkleRecord * 0 = 0 + (header.map some).length := by
      rw [length_map, hheaderLen, mul_zero, zero_add, add_zero]
    have h2 : sizeofDataPacket + sizeofMerkleRecord * req.numTreeLocations =
        0 + (header.map some ++ (rs.flatMap ZFTPMerkleRecord.bytes).map some).length := by
      rw [length_append, length_map, length_map, hheaderLen, length_records, hlen, zero_add]
    rw [h1, splice_splice _ (by omega), h2, splice_splice _ (by rw [← h2]; omega), packetFront, hheader,
      map_append, map_append, append_assoc]
  rw [fillReply, hheader]
  constructor
  · intro h
    obtain ⟨v1, hw1, v2, hw2, v3, hw3, h⟩ := of_bind3 h
    obtain ⟨hfit1, rfl⟩ := write_eq_ok.mp hw1
    obtain ⟨rs, hrs, hfit2, rfl⟩ := (fillRecords_eq_ok _).mp hw2
    obtain ⟨hfit3, rfl⟩ := write_eq_ok.mp hw3
    have hlen : rs.length = req.numTreeLocations := by
      rw [← hrs.length_eq, length_range']
    have hfit1 := hfit1.resolve_left hne
    rw [hheaderLen, zero_add] at hfit1
    simp only [hlen1 hfit1, zero_add] at hfit2
    have hrecords : sizeofDataPacket + sizeofMerkleRecord * req.numTreeLocations ≤ v.data.length := by
      rcases hfit2 with hzero | hfit2
      · rw [hzero]
        exact hfit1
      · exact hfit2
    simp only [hlen2 rs hlen hrecords, length_replicate, replicate_eq_nil_iff] at hfit3
    have hfit : payloadOffset req ≤ v.data.length := by
      rw [payloadOffset]
      rcases hfit3 with hzero | hfit3
      · omega
      · exact hfit3
    refine ⟨rs, hrs, hfit, ?_⟩
    change readFile t c _ (payloadOffset req) _ _ = _ at h
    rw [readFile_eq_readReply] at h
    rw [frontWith, ← hdata rs hlen hfit]
    exact h
  · rintro ⟨rs, hrs, hfit, hread⟩
    have hlen : rs.length = req.numTreeLocations := by
      rw [← hrs.length_eq, length_range']
    have hbound := hfit
    rw [payloadOffset] at hbound
    refine bind_eq_ok.mpr ⟨_, v.write_of_fits (by rw [hheaderLen]; omega), ?_⟩
    refine bind_eq_ok.mpr ⟨_, (fillRecords_eq_ok _).mpr ⟨rs, hrs, .inr ?_, rfl⟩, ?_⟩
    · rw [hlen1 (by omega), zero_add]
      omega
    refine bind_eq_ok.mpr ⟨_, write_of_fits _ ?_, ?_⟩
    · simp only [hlen2 rs hlen (by omega), length_replicate]
      exact hfit
    · simp only [hdata rs hlen hfit]
      change readFile t c _ (payloadOffset req) _ _ = _
      rw [readFile_eq_readReply]
      exact hread

def requestedRecords (t : MerkleTree) (req : WireFileRequest) : List ZFTPMerkleRecord :=
  req.treeLocations.map fun l => ⟨l, (t.node l).hash⟩

/-- The locations are in the packet, and each is a validated node of the tree. -/
structure Located (t : MerkleTree) (req : WireFileRequest) : Prop where
  packet : sizeofRequestPacket + 4 * req.numTreeLocations ≤ req.bytes.length
  validated : ∀ l ∈ req.treeLocations, l < t.treeSize ∧ (t.node l).state = .validated

lemma length_requestedRecords (t : MerkleTree) (req : WireFileRequest) :
    (requestedRecords t req).length = req.numTreeLocations := by
  rw [requestedRecords, length_map, treeLocations, length_map, length_range]

lemma length_front (fileHash : Hash) (t : MerkleTree) (req : WireFileRequest) :
    ((packetFront fileHash t req (requestedRecords t req)).map some).length = payloadOffset req := by
  rw [length_map, length_packetFront (length_requestedRecords t req)]

/-- RECORDS: all of them are found exactly when the locations are validated nodes. -/
lemma records_found_iff (hreq : req.WellFormed) :
    List.Forall₂ (fun i r => recordAt t req i = .ok r) (range' 0 req.numTreeLocations) rs ↔
      Located t req ∧ rs = requestedRecords t req := by
  have hword : ∀ i < req.numTreeLocations, sizeofRequestPacket + 4 * req.numTreeLocations ≤ req.bytes.length →
      req.getTreeLocation i = .ok (word req.bytes (sizeofRequestPacket + 4 * i) 4) := by
    intro i hi hpacket
    exact getTreeLocation_of_fits hreq (by omega)
  rw [forall₂_iff_get]
  simp only [length_range', get_eq_getElem, getElem_range', zero_add, one_mul]
  constructor
  · rintro ⟨hlen, hall⟩
    have hread : ∀ i < req.numTreeLocations, ∃ l, req.getTreeLocation i = .ok l := by
      intro i hi
      obtain ⟨l, hl, -⟩ := recordAt_eq_ok.mp (hall i hi (hlen ▸ hi))
      exact ⟨l, hl⟩
    have hpacket := locations_fit hreq hread
    have heach : ∀ i (hi : i < req.numTreeLocations), word req.bytes (sizeofRequestPacket + 4 * i) 4 < t.treeSize ∧
        (t.node (word req.bytes (sizeofRequestPacket + 4 * i) 4)).state = .validated ∧
        rs.get ⟨i, hlen ▸ hi⟩ = ⟨word req.bytes (sizeofRequestPacket + 4 * i) 4,
          (t.node (word req.bytes (sizeofRequestPacket + 4 * i) 4)).hash⟩ := by
      intro i hi
      obtain ⟨l, hl, hlt, hstate, hr⟩ := recordAt_eq_ok.mp (hall i hi (hlen ▸ hi))
      obtain rfl := Except.ok.inj (hl.symm.trans (hword i hi hpacket))
      exact ⟨hlt, hstate, hr⟩
    refine ⟨⟨hpacket, ?_⟩, ?_⟩
    · intro l hl
      obtain ⟨i, hi, rfl⟩ := mem_map.mp hl
      obtain ⟨hlt, hstate, -⟩ := heach i (mem_range.mp hi)
      exact ⟨hlt, hstate⟩
    · apply ext_getElem
      · rw [length_requestedRecords, hlen]
      · intro i hi hi'
        refine (heach i (hlen ▸ hi)).2.2.trans ?_
        simp only [requestedRecords, treeLocations, getElem_map, getElem_range]
  · rintro ⟨hloc, rfl⟩
    refine ⟨(length_requestedRecords t req).symm, ?_⟩
    intro i hi hi'
    obtain ⟨hlt, hstate⟩ := hloc.validated (word req.bytes (sizeofRequestPacket + 4 * i) 4)
      (mem_map.mpr ⟨i, mem_range.mpr hi, rfl⟩)
    refine recordAt_eq_ok.mpr ⟨_, hword i hi hloc.packet, hlt, hstate, ?_⟩
    simp only [requestedRecords, treeLocations, getElem_map, getElem_range]

/-- A buffer the reply to the request fits into, with a slot for each of its blocks. -/
structure BufferFits (v : ValidatedZCB) (t : MerkleTree) (req : WireFileRequest) : Prop where
  fits : payloadOffset req + (getAvailableDataRange t req).size ≤ v.data.length
  length_lt : v.data.length < 2 ^ 32
  slots : v.hashes.length = v.data.length / zftpBlockSize

/-- The buffer when the front of the reply is written. -/
def frontWritten (fileHash : Hash) (t : MerkleTree) (v : ValidatedZCB) (req : WireFileRequest) :
    ValidatedZCB where
  data := splice v.data 0 ((packetFront fileHash t req (requestedRecords t req)).map some)
  hashes := v.hashes
  debugOffset := payloadOffset req

@[simp] lemma hashes_frontWritten (fileHash : Hash) (t : MerkleTree) (v : ValidatedZCB) (req : WireFileRequest)
    : (frontWritten fileHash t v req).hashes = v.hashes := rfl

lemma length_frontWritten (h : payloadOffset req ≤ v.data.length) :
    (frontWritten fileHash t v req).data.length = v.data.length := by
  apply length_splice
  rw [length_front, zero_add]
  exact h

lemma enough_fuel {stop : ℕ} (h : stop < 2 ^ 32) (blk : ℕ) : stop ≤ (blk + zftpBlockSize) * zftpBlockSize := by
  have hblocks : 2 ^ 32 = zftpBlockSize * zftpBlockSize := by norm_num [zftpBlockSize]
  exact (h.le.trans hblocks.le).trans (mul_le_mul_right _ (le_add_left _ _))

lemma readHead_start (fileHash : Hash) (hv : BufferFits v t req) (hlen : rs.length = req.numTreeLocations) :
    ReadHead (frontWith fileHash t v req rs) (getAvailableDataRange t req) (payloadOffset req)
      zftpBlockSize (getAvailableDataRange t req).start := by
  obtain ⟨hord, hfile, hlt, hsize⟩ := availableRange_bounds t req
  have hfits := hv.fits
  rw [hsize] at hfits
  have hlen : (frontWith fileHash t v req rs).data.length = v.data.length := by
    apply length_splice
    rw [length_map, length_packetFront hlen]
    omega
  refine ⟨le_rfl, hord, fun _ => .inl rfl, hlt, by rw [hlen]; exact hfits, ?_, ?_, rfl, ?_⟩
  · rw [hlen]
    exact hv.length_lt
  · rw [hlen]
    exact hv.slots
  · intro _
    exact enough_fuel hlt _

/-- The file has been read into a buffer behind the front of the reply. -/
def Filled (fileHash : Hash) (t : MerkleTree) (view : Hash → ZBlockCacheRecord) (req : WireFileRequest)
    (v v' : ValidatedZCB) : Prop :=
  ReadDone t view (frontWritten fileHash t v req) v' (getAvailableDataRange t req) (payloadOffset req) (zftpBlockSize + 1)
    (getAvailableDataRange t req).start

/-- FILL: a request with validated locations and an aligned range fills any buffer it fits into. -/
lemma fillReply_total (fileHash : Hash) (hreq : req.WellFormed)
    (hserves : Serves zhash t c (getAvailableDataRange t req)) (hloc : Located t req)
    (halign : (getAvailableDataRange t req).Aligned) (hv : BufferFits v t req) :
    ∃ c' v', fillReply fileHash t c v req = .ok (c', v') ∧ c'.Sound zhash ∧ (∀ k, c'.view k = c.view k) ∧
      Filled fileHash t c.view req v v' := by
  have hfits := hv.fits
  obtain ⟨c', v', hloop, hs', hview, hdone⟩ := readFrom_total halign zftpBlockSize hserves
    (readHead_start fileHash hv (length_requestedRecords t req)) (fun _ => rfl)
  exact ⟨c', v', fillReply_eq_ok.mpr ⟨requestedRecords t req, (records_found_iff hreq).mpr ⟨hloc, rfl⟩, by omega, hloop⟩,
    hs', hview, hdone⟩

/-- INVERSION: a reply that was filled in had validated locations and an aligned range. -/
lemma fillReply_done {out : ZBlockCache × ValidatedZCB} (hreq : req.WellFormed)
    (hserves : Serves zhash t c (getAvailableDataRange t req)) (hv : BufferFits v t req)
    (h : fillReply fileHash t c v req = .ok out) :
    Located t req ∧ (getAvailableDataRange t req).Aligned ∧ Filled fileHash t c.view req v out.2 := by
  obtain ⟨rs, hrs, -, hread⟩ := fillReply_eq_ok.mp h
  obtain ⟨hloc, rfl⟩ := (records_found_iff hreq).mp hrs
  have halign : (getAvailableDataRange t req).Aligned := readFrom_aligned zftpBlockSize hserves
    (readHead_start fileHash hv (length_requestedRecords t req)) (fun _ => rfl) hread
  obtain ⟨c', v', hfill, -, -, hdone⟩ := fillReply_total fileHash hreq hserves hloc halign hv
  cases h.symm.trans hfill
  exact ⟨hloc, halign, hdone⟩

/-! ### The codec -/

/-- The reply a request asks for, as the client is to see it. -/
def expectedReply (fileHash : Hash) (t : MerkleTree) (view : Hash → ZBlockCacheRecord)
    (req : WireFileRequest) : ZFileReplyFromServer where
  fileHash := fileHash
  metadata := t.metadata
  merkleRecords := requestedRecords t req
  payload := fileBytes t view (getAvailableDataRange t req).start
    ((getAvailableDataRange t req).stop - (getAvailableDataRange t req).start)
  dataRange := getAvailableDataRange t req

/-- The server's reply is exact: nothing stops it, it fills the buffer of `get_reply_size` bytes to the
    last byte, and the client accepts these bytes and reads the reply the request asked for. -/
def Replies (fileHash : Hash) (t : MerkleTree) (c : ZBlockCache) (req : WireFileRequest) : Prop :=
  ∃ c' v bytes, fillReply fileHash t c (.fresh (getReplySize t req)) req = .ok (c', v) ∧
    v.data = bytes.map some ∧ bytes.length = getReplySize t req ∧
    ∀ zcb : Datagram, zcb.bytes = bytes →
      ZFileReplyFromServer.parse zcb = .ok (some (expectedReply fileHash t c.view req))

/-- What an exact reply takes of a request. -/
structure Encodable (t : MerkleTree) (req : WireFileRequest) : Prop where
  located : Located t req
  count : req.numTreeLocations < 65536
  size : payloadOffset req + (getAvailableDataRange t req).size < 2 ^ 32
  aligned : (getAvailableDataRange t req).Aligned
  nonzero : ∀ k, (getAvailableDataRange t req).start ≤ k * zftpBlockSize →
    (k + 1) * zftpBlockSize ≤ (getAvailableDataRange t req).stop → (t.leaf k).hash ≠ Hash.zero

section

variable (h : payloadOffset req + (getAvailableDataRange t req).size < 2 ^ 32)
include h

lemma getReplySize_eq :
    getReplySize t req = payloadOffset req + (getAvailableDataRange t req).size := u32_of_lt h

lemma bufferFits_fresh :
    BufferFits (.fresh (getReplySize t req)) t req := by
  have hlen : (fresh (getReplySize t req)).data.length = getReplySize t req := length_replicate
  have hlt : getReplySize t req < 2 ^ 32 := u32_lt _
  refine ⟨by rw [hlen, getReplySize_eq h], hlen.trans_lt hlt, ?_⟩
  rw [hlen, length_hashes_fresh hlt]

lemma blank_frontWritten :
    Blank (frontWritten fileHash t (.fresh (getReplySize t req)) req) (payloadOffset req) := by
  have hlen := length_front fileHash t req
  have hfits := (bufferFits_fresh h).fits
  refine ⟨?_, ?_⟩
  · intro x hx
    rw [frontWritten, drop_splice (by rw [hlen]; omega) (by rw [hlen, zero_add])] at hx
    exact eq_of_mem_replicate (mem_of_mem_drop hx)
  · intro k hmem
    rw [hashes_frontWritten] at hmem
    exact eq_zero_of_mem_fresh hmem

end

lemma parse_count {zcb : Datagram} {r : ZFileReplyFromServer} (h : ZFileReplyFromServer.parse zcb = .ok (some r))
    : r.merkleRecords.length < 65536 := by
  simp only [ZFileReplyFromServer.parse] at h
  split at h
  case isTrue => cases h
  split at h
  case isTrue => cases h
  split at h
  case isTrue => cases h
  obtain ⟨_, -, h⟩ := of_bind h
  split at h
  case isTrue => cases h
  cases h
  rw [length_map, length_range]
  exact word_lt zcb.bytes 35 2

/-- What is read behind the front of a reply. -/
def payloadOut (fileHash : Hash) (t : MerkleTree) (view : Hash → ZBlockCacheRecord) (req : WireFileRequest)
    (v : ValidatedZCB) : List (Option UInt8) :=
  readOut t view (frontWritten fileHash t v req) (getAvailableDataRange t req).stop (zftpBlockSize + 1)
    (payloadOffset req) (getAvailableDataRange t req).start

lemma enough_fuel_succ {stop : ℕ} (h : stop < 2 ^ 32) (blk : ℕ) : stop ≤ (blk + (zftpBlockSize + 1)) * zftpBlockSize :=
  (enough_fuel h blk).trans (mul_le_mul_right _ (le_succ _))

section

variable (hserves : Serves zhash t c (getAvailableDataRange t req))
include hserves

lemma length_payloadOut (hv : BufferFits v t req) :
    (payloadOut fileHash t c.view req v).length = (getAvailableDataRange t req).size := by
  obtain ⟨hord, -, hlt, hrange⟩ := availableRange_bounds t req
  have hfits := hv.fits
  rw [hrange]
  refine length_readOut _ hserves le_rfl hord ?_ (enough_fuel_succ hlt _)
  rw [length_frontWritten (by omega), ← hrange]
  exact hfits

lemma payloadOut_eq
    (hagree : SlotsAgree t c.view (frontWritten fileHash t v req) (payloadOffset req)
      (getAvailableDataRange t req).start (getAvailableDataRange t req).stop) : payloadOut fileHash t c.view req v =
    (fileBytes t c.view (getAvailableDataRange t req).start
      ((getAvailableDataRange t req).stop - (getAvailableDataRange t req).start)).map some := by
  obtain ⟨hord, -, hlt, -⟩ := availableRange_bounds t req
  exact readOut_eq_fileBytes _ hserves hagree le_rfl hord (enough_fuel_succ hlt _)

lemma filled_data (hv : BufferFits v t req)
    (hexact : v.data.length = payloadOffset req + (getAvailableDataRange t req).size) {v' : ValidatedZCB}
    (hdone : Filled fileHash t c.view req v v') :
    v'.data = (packetFront fileHash t req (requestedRecords t req)).map some ++ payloadOut fileHash t c.view req v := by
  have hlen := length_front fileHash t req
  have hadj := splice_splice (payloadOut fileHash t c.view req v) (show 0 + ((packetFront fileHash t req
    (requestedRecords t req)).map some).length ≤ v.data.length by rw [hlen]; omega)
  rw [hlen, Nat.zero_add] at hadj
  have hdata := hdone.data
  rw [Nat.sub_self, Nat.add_zero] at hdata
  rw [hdata]
  refine hadj.trans ?_
  rw [splice_zero, drop_of_length_le, append_nil]
  rw [length_append, hlen, length_payloadOut hserves hv, hexact]

end

lemma length_fresh_reply (h : payloadOffset req + (getAvailableDataRange t req).size < 2 ^ 32) :
    (fresh (getReplySize t req)).data.length = payloadOffset req + (getAvailableDataRange t req).size := by
  rw [← getReplySize_eq h]
  exact length_replicate

lemma size_of_front (h : payloadOffset req ≤ getReplySize t req) :
    payloadOffset req + (getAvailableDataRange t req).size < 2 ^ 32 := by
  have hsize : getReplySize t req = u32 (payloadOffset req + (getAvailableDataRange t req).size) := rfl
  have hsmall : (getAvailableDataRange t req).size < 2 ^ 32 := sub32_lt _ _
  rw [hsize, u32] at h
  omega

lemma size_of_fill (h : fillReply fileHash t c (.fresh (getReplySize t req)) req = .ok out) :
    payloadOffset req + (getAvailableDataRange t req).size < 2 ^ 32 := by
  obtain ⟨rs, -, hfront, -⟩ := fillReply_eq_ok.mp h
  exact size_of_front (hfront.trans length_replicate.le)

lemma Replies.encodable (hreq : req.WellFormed) (hserves : Serves zhash t c (getAvailableDataRange t req))
    (h : Replies fileHash t c req) : Encodable t req := by
  obtain ⟨hord, hfile, hlt, hrange⟩ := availableRange_bounds t req
  obtain ⟨c', v, bytes, hfill, hdata, hlen, hread⟩ := h
  have hsize := size_of_fill hfill
  have hbuf := bufferFits_fresh hsize
  obtain ⟨hloc, halign, hdone⟩ := fillReply_done hreq hserves hbuf hfill
  refine ⟨hloc, ?_, hsize, halign, ?_⟩
  · have hcount := parse_count (hread ⟨bytes, by rw [hlen]; exact u32_lt _⟩ rfl)
    rw [expectedReply, length_requestedRecords] at hcount
    exact hcount
  · have hall := filled_data hserves hbuf (length_fresh_reply hsize) hdone
    rw [hdata] at hall
    have hfits := hbuf.fits
    refine nonzero_of_readOut (zftpBlockSize + 1) hserves (@blank_frontWritten fileHash t req hsize)
      (readHead_start fileHash hbuf (length_requestedRecords t req)).slots ?_ le_rfl hord ?_
      (enough_fuel_succ hlt _)
    · intro x hx hnone
      subst hnone
      have hmem : none ∈ bytes.map some := hall ▸ mem_append_right _ hx
      obtain ⟨b, -, hb⟩ := mem_map.mp hmem
      cases hb
    · rw [length_frontWritten (by omega), ← hrange]
      exact hfits

lemma Encodable.replies (hreq : req.WellFormed) (hserves : Serves zhash t c (getAvailableDataRange t req))
    (henc : Encodable t req) : Replies fileHash t c req := by
  obtain ⟨hord, -, hlt, hrange⟩ := availableRange_bounds t req
  have hbuf := bufferFits_fresh henc.size
  obtain ⟨c', v', hfill, -, -, hdone⟩ := fillReply_total fileHash hreq hserves
    henc.located henc.aligned hbuf
  have hdata := filled_data hserves hbuf (length_fresh_reply henc.size) hdone
  rw [payloadOut_eq hserves ((@blank_frontWritten fileHash t req henc.size).slotsAgree henc.nonzero),
    ← map_append] at hdata
  have hpacket : packetFront fileHash t req (requestedRecords t req) ++
      fileBytes t c.view (getAvailableDataRange t req).start
        ((getAvailableDataRange t req).stop - (getAvailableDataRange t req).start) =
      dataPacket (expectedReply fileHash t c.view req) req.paddingRequest := by
    simp only [packetFront, dataPacket, expectedReply, length_requestedRecords, append_assoc]
  refine ⟨c', v', _, hfill, hdata, ?_, ?_⟩
  · rw [length_append, length_packetFront (length_requestedRecords t req), length_fileBytes,
      getReplySize_eq henc.size, hrange]
  · intro zcb' hzcb
    refine parse_dataPacket (hzcb.trans hpacket) ?_ ?_ ?_ hlt
    · rw [expectedReply, length_requestedRecords]
      exact henc.count
    · intro r hr
      obtain ⟨l, hl, rfl⟩ := mem_map.mp hr
      have hsmall := t.treeSize_lt
      exact lt_of_lt_of_le (henc.located.validated l hl).1 (by omega)
    · exact lt_of_le_of_lt hord hlt

/-- CODEC: for every request the server's parser accepts, on a file that has what is asked for, the
    reply is exact exactly when the request is encodable. -/
theorem replies_iff_encodable {zcb : Datagram} (hparse : WireFileRequest.parse zcb = .ok (some req))
    (hserves : Serves zhash t c (getAvailableDataRange t req)) : Replies fileHash t c req ↔ Encodable t req := by
  have hreq := WireFileRequest.parse_wellFormed hparse
  constructor
  · exact Replies.encodable hreq hserves
  · exact Encodable.replies hreq hserves

end Fill

/-! ### A file of five bytes -/

/-- Five zeros: one block, whose hash is the root. -/
def smallTree : MerkleTree :=
  ((MerkleTree.configureFromMetadata ⟨5, 0, by decide, noFlags_lt⟩).setHash 0 (Hash.fill 1)).setState
    0 .validated

/-- A cache over a DB that has the block of zeros. -/
def smallCache : ZBlockCache :=
  .fresh (some fun h => if h = Hash.fill 1 then some (List.replicate zftpBlockSize 0) else none)

/-- A request packet for one tree location, three bytes of padding and the file's bytes from 1 to 4. -/
def smallPacket (location : UInt8) : Datagram where
  bytes := [0, 20, 0, 0] ++ (Hash.fill 2).bytes ++ [0, 0, 0, 1, 0, 0, 0, 3, 0, 0, 0, 1, 0, 0, 0, 4]
    ++ [0, 0, 0, location]
  length_lt := by
    simp [hashSize]

def smallRequest (location : UInt8) : WireFileRequest :=
  WireFileRequest.ofPacket (smallPacket location).bytes none

lemma smallCache_sound : smallCache.Sound (fun _ => Hash.fill 1) := by
  apply ZBlockCache.sound_fresh
  rintro _ ⟨⟩ k v hv
  dsimp only at hv
  split at hv
  case isTrue hk =>
    cases hv
    exact ⟨length_replicate, hk.symm⟩
  case isFalse => cases hv

lemma smallTree_serves (range : DataRange) (h : range.stop ≤ 5) :
    Serves (fun _ => Hash.fill 1) smallTree smallCache range := by
  refine ⟨smallCache_sound, ?_⟩
  intro i _ hi
  have hzero : i / zftpBlockSize = 0 := div_eq_of_lt (by simp only [zftpBlockSize]; omega)
  rw [hzero]
  exact ⟨by decide, by decide, by decide +kernel⟩

lemma parse_smallPacket (location : UInt8) :
    parse (smallPacket location) = .ok (some (smallRequest location)) := rfl

/-- The root of the small file and three of its bytes are sent and read back. -/
theorem replies_iff_encodable_small : Encodable smallTree (smallRequest 0) ∧
    Replies (Hash.fill 2) smallTree smallCache (smallRequest 0) := by
  have hrange : getAvailableDataRange smallTree (smallRequest 0) = ⟨1, 4⟩ := by decide
  have hshort : ∀ k, ¬(k + 1) * zftpBlockSize ≤ 4 := by
    intro k hk
    simp only [zftpBlockSize] at hk
    omega
  have henc : Encodable smallTree (smallRequest 0) := by
    refine ⟨⟨by decide, by decide⟩, by decide, by decide, ?_, ?_⟩
    · rw [hrange]
      intro k _ hk
      exact absurd hk (hshort k)
    · rw [hrange]
      intro k _ hk
      exact absurd hk (hshort k)
  refine ⟨henc, (replies_iff_encodable (parse_smallPacket 0) (smallTree_serves _ ?_)).mpr henc⟩
  rw [hrange]
  decide

/-- UNCHECKED LOCATION: a request for a node the tree does not have stops the server. -/
theorem not_always_replies :
    ¬∀ (zhash : Bytes → Hash) (fileHash : Hash) (t : MerkleTree) (c : ZBlockCache) (zcb : Datagram)
      (req : WireFileRequest), WireFileRequest.parse zcb = .ok (some req) →
      Serves zhash t c (getAvailableDataRange t req) → Replies fileHash t c req := by
  intro hclaim
  have hrange : getAvailableDataRange smallTree (smallRequest 7) = ⟨1, 4⟩ := by decide
  have hserves := smallTree_serves (getAvailableDataRange smallTree (smallRequest 7)) (by
    rw [hrange]
    decide)
  have h := hclaim _ (Hash.fill 2) smallTree smallCache (smallPacket 7) _ (parse_smallPacket 7) hserves
  have henc := h.encodable (WireFileRequest.parse_wellFormed (parse_smallPacket 7)) hserves
  obtain ⟨hlt, -⟩ := henc.located.validated 7 (by decide)
  revert hlt
  decide

end Embassies.Zftp
