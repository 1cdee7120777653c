import Embassies.Zftp.CachedFile

/-! `ZFileRequest` as it comes off the wire.

    A request keeps a copy of its packet, and the tree locations stay in it: `get_tree_location` reads
    them where they lie. Sums of sizes and pointers into the packet are 32 bits wide, so a count of
    locations that is close to `2 ^ 30` passes the length check of `parse`. -/

namespace Embassies.Zftp

/-- `sizeof(ZFTPRequestPacket)`. -/
def sizeofRequestPacket : ℕ := 40

/-- A parsed `ZFileRequest`. -/
structure WireFileRequest where
  bytes : Bytes
  fileHash : Hash
  urlHint : Option Bytes
  numTreeLocations : ℕ
  paddingRequest : ℕ
  dataRange : DataRange

namespace WireFileRequest

/-- The fields `parse` takes from a packet it has not rejected yet. -/
def ofPacket (b : Bytes) (urlHint : Option Bytes) : WireFileRequest where
  bytes := b
  fileHash := Hash.ofBytes (b.drop 4)
  urlHint := urlHint
  numTreeLocations := word b 24 4
  paddingRequest := word b 28 4
  dataRange := ⟨word b 32 4, word b 36 4⟩

/-- `parse(..)`: `none` is a malformed request. -/
def parse (zcb : Datagram) : Checked (Option WireFileRequest) :=
  let b := zcb.bytes
  let urlHintLen := word b 2 2
  let urlHint := u32 (sizeofRequestPacket + 4 * word b 24 4)
  if b.length < sizeofRequestPacket then pure none
  else if word b 0 2 ≠ hashSize then pure none
  else if b.length < u32 (urlHint + urlHintLen) then pure none
  else if urlHintLen = 0 then pure (some (ofPacket b none))
  else
    -- the hint has to end in a zero
    match b[sub32 (u32 (urlHint + urlHintLen)) 1]? with
    | none => .error .outOfRange
    | some last =>
      if last ≠ 0 then pure none
      else pure (some (ofPacket b (some ((field b urlHint urlHintLen).takeWhile (· ≠ 0)))))

/-- `get_tree_location(idx)`. -/
def getTreeLocation (r : WireFileRequest) (idx : ℕ) : Checked ℕ :=
  let off := u32 (sizeofRequestPacket + 4 * idx)
  if off + 4 ≤ r.bytes.length then pure (word r.bytes off 4) else .error .outOfRange

/-- The tree locations of a request whose packet holds them all. -/
def treeLocations (r : WireFileRequest) : List ℕ :=
  (List.range r.numTreeLocations).map fun i => word r.bytes (sizeofRequestPacket + 4 * i) 4

/-- What holds of every request that `parse` accepts. -/
structure WellFormed (r : WireFileRequest) : Prop where
  length_lt : r.bytes.length < 2 ^ 32
  packet : sizeofRequestPacket ≤ r.bytes.length
  count_lt : r.numTreeLocations < 2 ^ 32
  padding_lt : r.paddingRequest < 2 ^ 32
  start_lt : r.dataRange.start < 2 ^ 32
  stop_lt : r.dataRange.stop < 2 ^ 32

lemma ofPacket_wellFormed {b : Bytes} (h : b.length < 2 ^ 32) (hpacket : sizeofRequestPacket ≤ b.length)
    (hint : Option Bytes) : (ofPacket b hint).WellFormed :=
  ⟨h, hpacket, word_lt b 24 4, word_lt b 28 4, word_lt b 32 4, word_lt b 36 4⟩

variable {r : WireFileRequest}

lemma parse_wellFormed {zcb : Datagram} (h : parse zcb = .ok (some r)) : r.WellFormed := by
  simp only [parse] at h
  split at h
  case isTrue => cases h
  case isFalse hlen =>
  split at h
  case isTrue => cases h
  split at h
  case isTrue => cases h
  split at h
  case isTrue =>
    cases h
    exact ofPacket_wellFormed zcb.length_lt (not_lt.mp hlen) none
  split at h
  case h_1 => cases h
  split at h
  case isTrue => cases h
  case isFalse =>
    cases h
    exact ofPacket_wellFormed zcb.length_lt (not_lt.mp hlen) _

lemma getTreeLocation_of_fits (hr : r.WellFormed) {idx : ℕ} (h : sizeofRequestPacket + 4 * idx + 4 ≤ r.bytes.length) :
    r.getTreeLocation idx = .ok (word r.bytes (sizeofRequestPacket + 4 * idx) 4) := by
  have hlt := hr.length_lt
  simp only [getTreeLocation]
  rw [u32_of_lt (by omega), if_pos h, Checked.pure_eq_ok]

lemma locations_fit (hr : r.WellFormed) (h : ∀ i < r.numTreeLocations, ∃ l, r.getTreeLocation i = .ok l) :
    sizeofRequestPacket + 4 * r.numTreeLocations ≤ r.bytes.length := by
  have hlt := hr.length_lt
  have hall : ∀ i ≤ r.numTreeLocations, sizeofRequestPacket + 4 * i ≤ r.bytes.length := by
    intro i
    induction i with
    | zero => intro _; exact hr.packet
    | succ i ih =>
      intro hi
      have hbelow := ih (by omega)
      obtain ⟨l, hl⟩ := h i hi
      simp only [getTreeLocation] at hl
      rw [u32_of_lt (by omega)] at hl
      split at hl
      case isTrue hfit => omega
      case isFalse => cases hl
  exact hall _ le_rfl

end WireFileRequest

end Embassies.Zftp
