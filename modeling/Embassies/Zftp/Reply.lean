import Embassies.Zftp.DataRange
import Embassies.Zftp.Protocol

/-! `ZFileReplyFromServer`: from a received datagram to a reply.

    Offsets are those of the packed `ZFTPDataPacket`; words are in network order. The parser rejects
    (`none`), accepts, or stops on its `lite_assert` of the record count. Pointers are 32 bits wide, so
    adding `padding_size` to the payload pointer is addition modulo `2 ^ 32`. -/

namespace Embassies.Zftp

open Checked List ZFTPMerkleRecord

/-- A received datagram; its length is a word. -/
structure Datagram where
  bytes : Bytes
  length_lt : bytes.length < 2 ^ 32

/-- `sizeof(ZFTPReplyHeader)`. -/
def sizeofReplyHeader : ℕ := 2

/-- `sizeof(ZFTPDataPacket)`. -/
def sizeofDataPacket : ℕ := 49

/-- `sizeof(ZFTPMerkleRecord)`. -/
def sizeofMerkleRecord : ℕ := 24

/-- `zftp_reply_data`. -/
def zftpReplyData : ℕ := 0

/-- The `hash_t` at the front of `b`. -/
def Hash.ofBytes (b : Bytes) : Hash :=
  ⟨(b ++ List.replicate hashSize 0).take hashSize, by simp [hashSize]⟩

/-- The word of `k` bytes at `off`. -/
def word (b : Bytes) (off k : ℕ) : ℕ := ofBE (field b off k)

lemma word_lt (b : Bytes) (off k : ℕ) : word b off k < 256 ^ k := by
  refine (ofBE_lt _).trans_le (Nat.pow_le_pow_right (by norm_num) ?_)
  rw [field, length_take]
  omega

/-- What an accepted reply gives access to. -/
structure ZFileReplyFromServer where
  fileHash : Hash
  metadata : ZFTPFileMetadata
  merkleRecords : List ZFTPMerkleRecord
  payload : Bytes
  dataRange : DataRange
  deriving DecidableEq

namespace ZFileReplyFromServer

/-- `zdp->metadata`. -/
def readMetadata (b : Bytes) : ZFTPFileMetadata where
  fileLen := word b 27 4
  flags := word b 31 4
  fileLen_lt := word_lt b 27 4
  flags_lt := word_lt b 31 4

/-- `raw_records[i]`. -/
def readMerkleRecord (b : Bytes) (i : ℕ) : ZFTPMerkleRecord where
  treeLocation := word b (sizeofDataPacket + sizeofMerkleRecord * i) 4
  hash := Hash.ofBytes (b.drop (sizeofDataPacket + sizeofMerkleRecord * i + 4))

/-- The constructor: `none` is a reply left invalid. -/
def parse (zcb : Datagram) : Checked (Option ZFileReplyFromServer) :=
  let b := zcb.bytes
  if b.length < sizeofReplyHeader then pure none
  else if word b 0 2 ≠ zftpReplyData then pure none
  else if b.length < sizeofDataPacket then pure none
  else do
    let numMerkleRecords := word b 35 2
    liteAssert (sizeofDataPacket + sizeofMerkleRecord * numMerkleRecords ≤ b.length)
    let prefixBytes := u32 (sizeofDataPacket + sizeofMerkleRecord * numMerkleRecords + word b 37 4)
    if b.length < prefixBytes then pure none
    else pure (some {
      fileHash := Hash.ofBytes (b.drop 7)
      metadata := readMetadata b
      merkleRecords := (List.range numMerkleRecords).map (readMerkleRecord b)
      payload := b.drop prefixBytes
      dataRange := ⟨word b 41 4, word b 45 4⟩ })

lemma parse_total {zcb : Datagram} (h : sizeofDataPacket ≤ zcb.bytes.length → word zcb.bytes 0 2 = zftpReplyData →
      sizeofDataPacket + sizeofMerkleRecord * word zcb.bytes 35 2 ≤ zcb.bytes.length) : ∃ r, parse zcb = .ok r := by
  simp only [parse]
  split
  case isTrue => exact ⟨_, rfl⟩
  split
  case isTrue => exact ⟨_, rfl⟩
  split
  case isTrue => exact ⟨_, rfl⟩
  case isFalse hcode hlen =>
    rw [liteAssert_pos (h (by omega) (not_not.mp hcode)), ok_bind]
    split <;> exact ⟨_, rfl⟩

lemma parse_bounds {zcb : Datagram} {r : ZFileReplyFromServer} (h : parse zcb = .ok (some r)) :
    r.dataRange.start < 2 ^ 32 ∧ r.dataRange.stop < 2 ^ 32 ∧ r.payload.length < 2 ^ 32 := by
  simp only [parse] at h
  split at h
  case isTrue => cases h
  split at h
  case isTrue => cases h
  split at h
  case isTrue => cases h
  obtain ⟨_, -, h⟩ := of_bind h
  split at h
  case isTrue => cases h
  cases h
  refine ⟨word_lt _ 41 4, word_lt _ 45 4, ?_⟩
  have := zcb.length_lt
  rw [length_drop]
  omega

end ZFileReplyFromServer

/-! ### The wire format -/

/-- A `ZFTPMerkleRecord` on the wire. -/
def ZFTPMerkleRecord.bytes (r : ZFTPMerkleRecord) : Bytes := toBE 4 r.treeLocation ++ r.hash.bytes

/-- The fixed part of a `ZFTPDataPacket`. -/
def dataPacketHeader (fileHash : Hash) (m : ZFTPFileMetadata) (numMerkleRecords padding : ℕ)
    (range : DataRange) : Bytes :=
  toBE 2 zftpReplyData ++ (toBE 2 hashSize ++ (toBE 1 zftpLgBlockSize ++ (toBE 2 zftpTreeDegree ++
    (fileHash.bytes ++ (m.bytes ++ (toBE 2 numMerkleRecords ++ (toBE 4 padding ++
    (toBE 4 range.start ++ toBE 4 range.stop))))))))

/-- A whole data packet: the header, the Merkle records, the padding, the payload. -/
def dataPacket (reply : ZFileReplyFromServer) (padding : ℕ) : Bytes :=
  dataPacketHeader reply.fileHash reply.metadata reply.merkleRecords.length padding reply.dataRange
    ++ (reply.merkleRecords.flatMap ZFTPMerkleRecord.bytes
      ++ (List.replicate padding 0 ++ reply.payload))

section Format

variable {fileHash : Hash} {m : ZFTPFileMetadata} {n padding : ℕ} {range : DataRange} {b : Bytes} {zcb : Datagram}

@[simp] lemma ZFTPMerkleRecord.length_bytes (r : ZFTPMerkleRecord) : r.bytes.length = sizeofMerkleRecord := by
  simp [bytes, sizeofMerkleRecord, hashSize]

@[simp] lemma length_dataPacketHeader : (dataPacketHeader fileHash m n padding range).length = sizeofDataPacket := by
  simp [dataPacketHeader, sizeofDataPacket, hashSize]

lemma length_records (rs : List ZFTPMerkleRecord) : (rs.flatMap bytes).length = sizeofMerkleRecord * rs.length := by
  induction rs with
  | nil => rfl
  | cons r rs ih =>
    rw [flatMap_cons, length_append, ih, length_bytes, length_cons, Nat.mul_succ, Nat.add_comm]

lemma length_dataPacket (reply : ZFileReplyFromServer) (padding : ℕ) :
    (dataPacket reply padding).length = sizeofDataPacket
      + sizeofMerkleRecord * reply.merkleRecords.length + padding + reply.payload.length := by
  simp only [dataPacket, length_append, length_dataPacketHeader, length_records, length_replicate]
  omega

lemma Hash.ofBytes_append (h : Hash) (b : Bytes) : Hash.ofBytes (h.bytes ++ b) = h := by
  apply Hash.ext'
  simp only [Hash.ofBytes, append_assoc]
  rw [← h.length_eq, take_left]

lemma word_of_drop {off k x : ℕ} {c : Bytes} (h : b.drop off = toBE k x ++ c) (hx : x < 256 ^ k) :
    word b off k = x := by
  have hlen : (toBE k x).length = k := length_toBE k x
  rw [word, field, h, take_left' hlen, ofBE_toBE_of_lt hx]

section Fields

variable {p : Bytes} (hp : p = dataPacketHeader fileHash m n padding range ++ b)
include hp

lemma drop_code : p.drop 0 = toBE 2 zftpReplyData ++ p.drop 2 := by
  simp [hp, dataPacketHeader, drop_append]

lemma drop_fileHash : p.drop 7 = fileHash.bytes ++ p.drop 27 := by
  simp [hp, dataPacketHeader, drop_append, drop_eq_nil_of_le, hashSize]

lemma drop_fileLen : p.drop 27 = toBE 4 m.fileLen ++ p.drop 31 := by
  simp [hp, dataPacketHeader, ZFTPFileMetadata.bytes, drop_append, drop_eq_nil_of_le, hashSize]

lemma drop_flags : p.drop 31 = toBE 4 m.flags ++ p.drop 35 := by
  simp [hp, dataPacketHeader, ZFTPFileMetadata.bytes, drop_append, drop_eq_nil_of_le, hashSize]

lemma drop_numMerkleRecords : p.drop 35 = toBE 2 n ++ p.drop 37 := by
  simp [hp, dataPacketHeader, drop_append, drop_eq_nil_of_le, hashSize]

lemma drop_padding : p.drop 37 = toBE 4 padding ++ p.drop 41 := by
  simp [hp, dataPacketHeader, drop_append, drop_eq_nil_of_le, hashSize]

lemma drop_dataStart : p.drop 41 = toBE 4 range.start ++ p.drop 45 := by
  simp [hp, dataPacketHeader, drop_append, drop_eq_nil_of_le, hashSize]

lemma drop_dataEnd : p.drop 45 = toBE 4 range.stop ++ b := by
  simp [hp, dataPacketHeader, drop_append, drop_eq_nil_of_le, hashSize]

lemma readMetadata_eq : ZFileReplyFromServer.readMetadata p = m := by
  have hlen := word_of_drop (drop_fileLen hp) m.fileLen_lt
  have hflags := word_of_drop (drop_flags hp) m.flags_lt
  obtain ⟨len, flags, _, _⟩ := m
  simp only [ZFileReplyFromServer.readMetadata, hlen, hflags]

end Fields

lemma readMerkleRecord_eq {h : Bytes} (rest : Bytes) (hh : h.length = sizeofDataPacket)
    (before after : List ZFTPMerkleRecord) {r : ZFTPMerkleRecord} (hloc : r.treeLocation < 2 ^ 32) :
    ZFileReplyFromServer.readMerkleRecord (h ++ ((before ++ r :: after).flatMap bytes ++ rest)) before.length = r := by
  have hlen : (h ++ before.flatMap bytes).length = sizeofDataPacket + sizeofMerkleRecord * before.length := by
    rw [length_append, hh, length_records]
  have hdrop : (h ++ ((before ++ r :: after).flatMap bytes ++ rest)).drop
      (sizeofDataPacket + sizeofMerkleRecord * before.length) = toBE 4 r.treeLocation
        ++ (r.hash.bytes ++ (after.flatMap bytes ++ rest)) := by
    simp only [flatMap_append, flatMap_cons, bytes, append_assoc]
    rw [← append_assoc h, drop_left' hlen]
  have hhash : (h ++ ((before ++ r :: after).flatMap bytes ++ rest)).drop
      (sizeofDataPacket + sizeofMerkleRecord * before.length + 4)
      = r.hash.bytes ++ (after.flatMap bytes ++ rest) := by
    rw [← drop_drop, hdrop, drop_left' (length_toBE 4 _)]
  have hword := word_of_drop hdrop hloc
  obtain ⟨loc, hash⟩ := r
  simp only [ZFileReplyFromServer.readMerkleRecord, hhash, Hash.ofBytes_append, hword]

lemma readMerkleRecords_eq {h : Bytes} (rest : Bytes) (hh : h.length = sizeofDataPacket) {rs : List ZFTPMerkleRecord}
    (hloc : ∀ r ∈ rs, r.treeLocation < 2 ^ 32) :
    (List.range rs.length).map (ZFileReplyFromServer.readMerkleRecord (h ++ (rs.flatMap bytes ++ rest))) = rs := by
  refine ext_getElem (by simp) fun i hi hi' => ?_
  have hsplit : rs = rs.take i ++ rs[i] :: rs.drop (i + 1) := by
    rw [getElem_cons_drop, take_append_drop]
  have hlen : (rs.take i).length = i := by rw [length_take]; omega
  have hread := readMerkleRecord_eq rest hh (rs.take i) (rs.drop (i + 1)) (hloc rs[i] (getElem_mem hi'))
  rw [← hsplit, hlen] at hread
  rw [getElem_map, getElem_range, hread]

/-- What the parser makes of a datagram that starts with a well-formed header. -/
lemma parse_header {tail : Bytes} (hb : zcb.bytes = dataPacketHeader fileHash m n padding range ++ tail)
    (hn : n < 65536) (hfit : sizeofMerkleRecord * n + padding ≤ tail.length)
    (hstart : range.start < 2 ^ 32) (hstop : range.stop < 2 ^ 32) :
    ZFileReplyFromServer.parse zcb = .ok (some
      { fileHash := fileHash
        metadata := m
        merkleRecords := (List.range n).map (ZFileReplyFromServer.readMerkleRecord zcb.bytes)
        payload := tail.drop (sizeofMerkleRecord * n + padding)
        dataRange := range }) := by
  have hlen : zcb.bytes.length = sizeofDataPacket + tail.length := by
    rw [hb, length_append, length_dataPacketHeader]
  have hlt := zcb.length_lt
  have hcode : word zcb.bytes 0 2 = zftpReplyData := word_of_drop (drop_code hb) (by norm_num [zftpReplyData])
  have hnum : word zcb.bytes 35 2 = n := word_of_drop (drop_numMerkleRecords hb) hn
  have hpad : word zcb.bytes 37 4 = padding := word_of_drop (drop_padding hb) (by omega)
  have hs : word zcb.bytes 41 4 = range.start := word_of_drop (drop_dataStart hb) hstart
  have he : word zcb.bytes 45 4 = range.stop := word_of_drop (drop_dataEnd hb) hstop
  have hm : ZFileReplyFromServer.readMetadata zcb.bytes = m := readMetadata_eq hb
  have hfh : Hash.ofBytes (zcb.bytes.drop 7) = fileHash := by
    rw [drop_fileHash hb, Hash.ofBytes_append]
  have hprefix : u32 (sizeofDataPacket + sizeofMerkleRecord * n + padding)
      = sizeofDataPacket + (sizeofMerkleRecord * n + padding) := by
    rw [u32_of_lt (by omega), Nat.add_assoc]
  have hpayload : zcb.bytes.drop (sizeofDataPacket + (sizeofMerkleRecord * n + padding))
      = tail.drop (sizeofMerkleRecord * n + padding) := by
    rw [← drop_drop, hb, drop_left' length_dataPacketHeader]
  have hsz : sizeofReplyHeader ≤ sizeofDataPacket := by norm_num [sizeofReplyHeader, sizeofDataPacket]
  simp only [ZFileReplyFromServer.parse, hcode, hnum, hpad, hs, he, hm, hfh, hprefix, hpayload]
  rw [if_neg (by omega), if_neg (not_not.mpr rfl), if_neg (by omega), liteAssert_pos (by omega),
    ok_bind, if_neg (by omega), pure_eq_ok]

/-- ROUND TRIP: the parser reads back what was written, padding left out. -/
lemma parse_dataPacket {reply : ZFileReplyFromServer} {padding : ℕ} (hb : zcb.bytes = dataPacket reply padding)
    (hn : reply.merkleRecords.length < 65536)
    (hloc : ∀ r ∈ reply.merkleRecords, r.treeLocation < 2 ^ 32)
    (hstart : reply.dataRange.start < 2 ^ 32) (hstop : reply.dataRange.stop < 2 ^ 32) :
    ZFileReplyFromServer.parse zcb = .ok (some reply) := by
  have hlen := length_records reply.merkleRecords
  have hskip : (reply.merkleRecords.flatMap bytes ++ List.replicate padding 0).length
      = sizeofMerkleRecord * reply.merkleRecords.length + padding := by
    rw [length_append, hlen, length_replicate]
  rw [parse_header hb hn (by simp only [length_append, hlen, length_replicate]; omega) hstart hstop, hb, dataPacket,
    readMerkleRecords_eq (List.replicate padding 0 ++ reply.payload) length_dataPacketHeader hloc,
    ← append_assoc (List.flatMap _ _), drop_left' hskip]

end Format

end Embassies.Zftp
