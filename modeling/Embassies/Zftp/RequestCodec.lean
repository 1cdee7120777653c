import Embassies.Lib.Buffer
import Embassies.Zftp.WireRequest

/-! A request on the wire: `OutboundRequest` writes it, `ZFileRequest::parse` reads it.

    The length of the URL hint has sixteen bits on the wire, and lengths are added up in 32 bits on both sides. A request
    comes back as it was if its hint and its sum fit. A packet is taken for what it is unless the sum of its lengths wraps
    to something that it has room for. -/

namespace Embassies.Zftp

open Checked List Nat

namespace OutboundRequest

/-- `url_hint_len`. -/
def urlHintLen (r : OutboundRequest) : ℕ :=
  match r.urlHint with
  | some hint => u32 (hint.length + 1)
  | none => 0

/-- `len`. -/
def len (r : OutboundRequest) : ℕ := u32 (sizeofRequestPacket + 4 * r.locations.length + r.urlHintLen)

/-- `set_location`, for the locations from the `i`th on. -/
def setLocations : Bytes → ℕ → List ℕ → Checked Bytes
  | zrp, _, [] => .ok zrp
  | zrp, i, location :: locations => do
    let zrp ← writeAt zrp (u32 (sizeofRequestPacket + 4 * i)) (toBE 4 location)
    setLocations zrp (i + 1) locations

/-- The fixed part, field by field. -/
def writeHeader (r : OutboundRequest) (zrp : Bytes) : Checked Bytes := do
  let zrp ← writeAt zrp 0 (toBE 2 hashSize)
  let zrp ← writeAt zrp 2 (toBE 2 r.urlHintLen)
  let zrp ← writeAt zrp 4 r.fileHash.bytes
  let zrp ← writeAt zrp 24 (toBE 4 r.locations.length)
  let zrp ← writeAt zrp 28 (toBE 4 r.paddingRequest)
  let zrp ← writeAt zrp 32 (toBE 4 r.dataRange.start)
  writeAt zrp 36 (toBE 4 r.dataRange.stop)

/-- The `memcpy` of the hint with its NUL. -/
def writeUrlHint (r : OutboundRequest) (zrp : Bytes) : Checked Bytes :=
  match r.urlHint with
  | some hint => writeAt zrp (u32 (sizeofRequestPacket + 4 * r.locations.length)) (hint ++ [0])
  | none => .ok zrp

/-- The packet, once all locations have been set. No byte of what `mf_malloc` returns is left, so zeros will do. -/
def packet (r : OutboundRequest) : Checked Bytes := do
  let zrp ← r.writeHeader (List.replicate r.len 0)
  let zrp ← r.writeUrlHint zrp
  setLocations zrp 0 r.locations

/-- The numbers are words, the number of locations is one, and the hint is a string in memory. -/
structure Words (r : OutboundRequest) : Prop where
  count : r.locations.length < 2 ^ 32
  locations : ∀ location ∈ r.locations, location < 2 ^ 32
  padding : r.paddingRequest < 2 ^ 32
  start : r.dataRange.start < 2 ^ 32
  stop : r.dataRange.stop < 2 ^ 32
  hint : ∀ hint, r.urlHint = some hint → 0 ∉ hint ∧ hint.length + 1 < 2 ^ 32

/-- The hint with its NUL. -/
def hintBytes (r : OutboundRequest) : Bytes :=
  match r.urlHint with
  | some hint => hint ++ [0]
  | none => []

/-- The hint's length fits its field, and the packet's length is a 32-bit number. -/
def Fits (r : OutboundRequest) : Prop :=
  r.hintBytes.length < 2 ^ 16 ∧ sizeofRequestPacket + 4 * r.locations.length + r.hintBytes.length < 2 ^ 32

/-- The request that is parsed from the packet has the fields of the request. -/
def RoundTrips (r : OutboundRequest) : Prop :=
  ∃ (zcb : Datagram) (parsed : WireFileRequest), r.packet = .ok zcb.bytes ∧
    WireFileRequest.parse zcb = .ok (some parsed) ∧ parsed.fileHash = r.fileHash ∧ parsed.urlHint = r.urlHint ∧
    parsed.numTreeLocations = r.locations.length ∧
    (∀ (i location : ℕ), r.locations[i]? = some location → parsed.getTreeLocation i = .ok location) ∧
    parsed.paddingRequest = r.paddingRequest ∧ parsed.dataRange = r.dataRange

variable {r : OutboundRequest} {zrp zrp' : Bytes}

lemma Words.urlHintLen_eq (h : r.Words) : r.urlHintLen = r.hintBytes.length := by
  unfold urlHintLen hintBytes
  split
  case h_1 hint heq =>
    rw [length_append, length_singleton]
    exact u32_of_lt (h.hint hint heq).2
  case h_2 => rfl

/-! ### The packet -/

/-- The fixed part of the packet. -/
def header (r : OutboundRequest) : Bytes :=
  toBE 2 hashSize ++ (toBE 2 r.urlHintLen ++ (r.fileHash.bytes ++ (toBE 4 r.locations.length ++
    (toBE 4 r.paddingRequest ++ (toBE 4 r.dataRange.start ++ toBE 4 r.dataRange.stop)))))

def locationBytes (r : OutboundRequest) : Bytes := r.locations.flatMap (toBE 4)

lemma length_header (r : OutboundRequest) : r.header.length = sizeofRequestPacket := by
  simp only [header, length_append, length_toBE, r.fileHash.length_eq]
  rfl

lemma length_flatMap_toBE (locations : List ℕ) : (locations.flatMap (toBE 4)).length = 4 * locations.length := by
  rw [length_flatMap]
  simp [mul_comm]

lemma setLocations_eq : ∀ (locations : List ℕ) (zrp : Bytes) (i : ℕ), zrp.length < 2 ^ 32 →
    sizeofRequestPacket + 4 * i + 4 * locations.length ≤ zrp.length →
    setLocations zrp i locations = .ok (splice zrp (sizeofRequestPacket + 4 * i) (locations.flatMap (toBE 4)))
  | [], zrp, i, _, _ => by rw [setLocations, flatMap_nil, splice_nil]
  | location :: locations, zrp, i, hlt, hfits => by
    rw [length_cons] at hfits
    have hone : sizeofRequestPacket + 4 * i + (toBE 4 location).length ≤ zrp.length := by
      rw [length_toBE]
      omega
    have hjoin := splice_splice (locations.flatMap (toBE 4)) hone
    rw [length_toBE, add_assoc, ← mul_succ] at hjoin
    rw [setLocations, u32_of_lt (by omega), writeAt_of_fits hone, ok_bind,
      setLocations_eq locations _ (i + 1) (by rwa [length_splice hone]) (by rw [length_splice hone]; omega), hjoin,
      flatMap_cons]

lemma writeHeader_eq (hfits : sizeofRequestPacket ≤ zrp.length) :
    r.writeHeader zrp = .ok (splice zrp 0 r.header) := by
  have hhash := r.fileHash.length_eq
  have hpacket : sizeofRequestPacket = 40 := rfl
  have hsize : hashSize = 20 := rfl
  have hfirst : writeAt zrp 0 (toBE 2 hashSize) = .ok (splice zrp 0 (toBE 2 hashSize)) :=
    writeAt_of_fits (by rw [length_toBE]; omega)
  rw [writeHeader, hfirst, ok_bind, writeAt_splice (by simp) (by simp; omega), ok_bind,
    writeAt_splice (by simp) (by simp; omega), ok_bind,
    writeAt_splice (by simp; omega) (by simp; omega), ok_bind,
    writeAt_splice (by simp; omega) (by simp; omega), ok_bind,
    writeAt_splice (by simp; omega) (by simp; omega), ok_bind,
    writeAt_splice (by simp; omega) (by simp; omega)]
  simp only [header, append_assoc]

lemma writeUrlHint_eq (hlt : zrp.length < 2 ^ 32)
    (hfits : sizeofRequestPacket + 4 * r.locations.length + r.hintBytes.length ≤ zrp.length) :
    r.writeUrlHint zrp = .ok (splice zrp (sizeofRequestPacket + 4 * r.locations.length) r.hintBytes) := by
  unfold writeUrlHint hintBytes at *
  cases hopt : r.urlHint with
  | none => exact congrArg _ (splice_nil _ _).symm
  | some hint =>
    rw [hopt] at hfits
    dsimp only at hfits ⊢
    rw [u32_of_lt (by omega), writeAt_of_fits hfits]

/-- PACKET: if its length is right, it is the fixed part, the locations and the hint. -/
lemma packet_eq (hr : r.Words) (hlen : sizeofRequestPacket + 4 * r.locations.length + r.hintBytes.length < 2 ^ 32) :
    r.packet = .ok (r.header ++ (r.locationBytes ++ r.hintBytes)) := by
  have hrlen : r.len = sizeofRequestPacket + 4 * r.locations.length + r.hintBytes.length := by
    rw [len, hr.urlHintLen_eq, u32_of_lt hlen]
  have hlocs : r.locationBytes.length = 4 * r.locations.length := length_flatMap_toBE _
  have hzeros : (replicate r.len (0 : UInt8)).length = r.len := length_replicate
  unfold packet
  generalize replicate r.len (0 : UInt8) = zeros at hzeros ⊢
  have hheader : 0 + r.header.length ≤ zeros.length := by
    rw [length_header]
    omega
  have hzrp : (splice zeros 0 r.header).length = r.len := by rw [length_splice hheader, hzeros]
  have hhint : sizeofRequestPacket + r.locationBytes.length + r.hintBytes.length ≤ (splice zeros 0 r.header).length := by
    omega
  have hjoin := splice_splice_before hhint
  have hjoin' := splice_splice (r.locationBytes ++ r.hintBytes) hheader
  rw [zero_add, length_header] at hjoin'
  have hall : splice zeros 0 (r.header ++ (r.locationBytes ++ r.hintBytes)) =
      r.header ++ (r.locationBytes ++ r.hintBytes) := by
    rw [splice_zero, drop_of_length_le, append_nil]
    rw [length_append, length_append, length_header]
    omega
  rw [writeHeader_eq (by omega), ok_bind, writeUrlHint_eq (by omega) (by omega), ok_bind,
    setLocations_eq r.locations _ 0 (by rw [length_splice (by omega)]; omega) (by rw [length_splice (by omega)]; omega),
    ← hlocs, mul_zero, add_zero, ← locationBytes, hjoin, hjoin', hall]

/-! ### Lengths that do not fit -/

lemma setLocations_fits : ∀ (locations : List ℕ) {zrp zrp' : Bytes} {i : ℕ}, setLocations zrp i locations = .ok zrp' →
    ∀ k < locations.length, u32 (sizeofRequestPacket + 4 * (i + k)) + 4 ≤ zrp.length
  | [], _, _, _, _, k, hk => absurd hk (not_lt_zero k)
  | location :: locations, zrp, zrp', i, h, k, hk => by
    rw [setLocations, bind_eq_ok] at h
    obtain ⟨zrp1, hone, hrest⟩ := h
    cases k with
    | zero =>
      have hfits := (writeAt_eq_ok.mp hone).1
      rwa [length_toBE] at hfits
    | succ k =>
      have hfits := setLocations_fits locations hrest k (lt_of_succ_lt_succ hk)
      rw [length_of_writeAt hone] at hfits
      rwa [add_right_comm] at hfits

lemma length_of_writeHeader (h : r.writeHeader zrp = .ok zrp') : zrp'.length = zrp.length := by
  simp only [writeHeader, bind_eq_ok] at h
  obtain ⟨zrp1, h1, zrp2, h2, zrp3, h3, zrp4, h4, zrp5, h5, zrp6, h6, h7⟩ := h
  rw [length_of_writeAt h7, length_of_writeAt h6, length_of_writeAt h5, length_of_writeAt h4, length_of_writeAt h3,
    length_of_writeAt h2, length_of_writeAt h1]

lemma writeUrlHint_fits (h : r.writeUrlHint zrp = .ok zrp') : zrp'.length = zrp.length ∧
      (r.hintBytes ≠ [] → u32 (sizeofRequestPacket + 4 * r.locations.length) + r.hintBytes.length ≤ zrp.length) := by
  unfold writeUrlHint at h
  unfold hintBytes
  cases hopt : r.urlHint with
  | none =>
    rw [hopt] at h
    cases h
    exact ⟨rfl, absurd rfl⟩
  | some hint =>
    rw [hopt] at h
    exact ⟨length_of_writeAt h, fun _ => (writeAt_eq_ok.mp h).1⟩

/-- LENGTH: if the sum of the lengths wraps, a write is outside of the packet. -/
lemma fits_of_packet (hr : r.Words) (h : r.packet = .ok zrp) :
    sizeofRequestPacket + 4 * r.locations.length + r.hintBytes.length < 2 ^ 32 := by
  rw [packet, bind_eq_ok] at h
  obtain ⟨zrp1, hheader, h⟩ := h
  rw [bind_eq_ok] at h
  obtain ⟨zrp2, hhint, hlocations⟩ := h
  have hlen1 : zrp1.length = r.len := by rw [length_of_writeHeader hheader, length_replicate]
  obtain ⟨hlen2, hfits⟩ := writeUrlHint_fits hhint
  rw [hlen1] at hlen2 hfits
  have hrlen : r.len = u32 (sizeofRequestPacket + 4 * r.locations.length + r.hintBytes.length) := by
    rw [len, hr.urlHintLen_eq]
  have hhintlen : r.hintBytes.length < 2 ^ 32 := by
    unfold hintBytes
    cases hopt : r.urlHint with
    | none => exact Nat.two_pow_pos 32
    | some hint => simpa using (hr.hint hint hopt).2
  have hpacket : sizeofRequestPacket = 40 := rfl
  by_contra hwraps
  rcases Nat.lt_or_ge (sizeofRequestPacket + 4 * r.locations.length) (2 ^ 32) with hlocs | hlocs
  case inl =>
    -- the hint does not fit behind the locations
    have hne : r.hintBytes ≠ [] := by
      intro hnil
      rw [hnil, length_nil] at hwraps
      omega
    have hroom := hfits hne
    rw [u32_of_lt hlocs, hrlen] at hroom
    unfold u32 at hroom
    omega
  case inr =>
    -- the location that would end at `2 ^ 32` does not
    have hroom := setLocations_fits r.locations hlocations (2 ^ 30 - 11) (by omega)
    have hlast : u32 (sizeofRequestPacket + 4 * (0 + (2 ^ 30 - 11))) = 2 ^ 32 - 4 := by decide
    have hlt : r.len < 2 ^ 32 := Nat.mod_lt _ (Nat.two_pow_pos 32)
    rw [hlast, hlen2] at hroom
    omega

end OutboundRequest

/-! ### Parsing -/

namespace WireFileRequest

/-- Where the hint ends, by the numbers in the packet. -/
def lengths (b : Bytes) : ℕ := sizeofRequestPacket + 4 * word b 24 4 + word b 2 2

/-- The packet holds its fixed part, its locations and its hint, which ends in a zero. -/
def Inside (b : Bytes) : Prop :=
  lengths b ≤ b.length ∧ (word b 2 2 ≠ 0 → b[lengths b - 1]? = some 0)

/-- The sum of the lengths wraps to an offset in the packet at which a hint may end, or to zero. -/
def Wraps (b : Bytes) : Prop :=
  2 ^ 32 ≤ lengths b ∧ u32 (lengths b) ≤ b.length ∧
    (word b 2 2 = 0 ∨ u32 (lengths b) = 0 ∨ b[u32 (lengths b) - 1]? = some 0)

/-- The packet is taken for a request if and only if it holds all that it says it holds. -/
def ParsesExactly (zcb : Datagram) : Prop :=
  ∃ parsed, parse zcb = .ok parsed ∧ (parsed.isSome = true ↔ Inside zcb.bytes)

variable {zcb : Datagram}

/-- PARSE: the checks, in their order. -/
lemma parse_eq (zcb : Datagram) :
    parse zcb =
      if zcb.bytes.length < sizeofRequestPacket ∨ word zcb.bytes 0 2 ≠ hashSize ∨
        zcb.bytes.length < u32 (lengths zcb.bytes) then .ok none
      else if word zcb.bytes 2 2 = 0 then .ok (some (ofPacket zcb.bytes none))
      else match zcb.bytes[sub32 (u32 (lengths zcb.bytes)) 1]? with
        | none => .error .outOfRange
        | some last =>
          if last ≠ 0 then .ok none
          else .ok (some (ofPacket zcb.bytes (some ((field zcb.bytes (u32 (sizeofRequestPacket + 4 * word zcb.bytes 24 4))
            (word zcb.bytes 2 2)).takeWhile (· ≠ 0))))) := by
  have hsum : u32 (u32 (sizeofRequestPacket + 4 * word zcb.bytes 24 4) + word zcb.bytes 2 2) = u32 (lengths zcb.bytes) := by
    unfold u32 lengths
    exact mod_add_mod _ _ _
  unfold parse
  simp only [hsum, pure_eq_ok]
  by_cases hshort : zcb.bytes.length < sizeofRequestPacket
  case pos => rw [if_pos hshort, if_pos (Or.inl hshort)]
  case neg =>
  by_cases hhash : word zcb.bytes 0 2 ≠ hashSize
  case pos => rw [if_neg hshort, if_pos hhash, if_pos (Or.inr (Or.inl hhash))]
  case neg =>
  by_cases hlen : zcb.bytes.length < u32 (lengths zcb.bytes)
  case pos => rw [if_neg hshort, if_neg hhash, if_pos hlen, if_pos (Or.inr (Or.inr hlen))]
  case neg =>
    have hnone : ¬(zcb.bytes.length < sizeofRequestPacket ∨ word zcb.bytes 0 2 ≠ hashSize ∨
        zcb.bytes.length < u32 (lengths zcb.bytes)) := by
      tauto
    rewrite [if_neg hshort, if_neg hhash, if_neg hlen, if_neg hnone]
    rfl

lemma not_inside_of_short (h : zcb.bytes.length < sizeofRequestPacket) : ¬ Inside zcb.bytes := by
  rintro ⟨hlen, -⟩
  unfold lengths at hlen
  omega

section

variable (hpacket : sizeofRequestPacket ≤ zcb.bytes.length) (hhash : word zcb.bytes 0 2 = hashSize)
include hpacket hhash

lemma lengths_right {n : ℕ} (hlen : ¬zcb.bytes.length < n) :
    ¬(zcb.bytes.length < sizeofRequestPacket ∨ word zcb.bytes 0 2 ≠ hashSize ∨ zcb.bytes.length < n) := by
  rintro (h | h | h)
  · exact absurd h (not_lt.mpr hpacket)
  · exact h hhash
  · exact hlen h

/-- What becomes of a packet with the right hash length, by the word that its lengths add up to. -/
lemma parse_outcome {n : ℕ} (hn : u32 (lengths zcb.bytes) = n) :
    (parse zcb = .ok none ∧ n ≠ 0 ∧
      ¬(n ≤ zcb.bytes.length ∧ (word zcb.bytes 2 2 ≠ 0 → zcb.bytes[n - 1]? = some 0))) ∨
    (∃ q, parse zcb = .ok (some q)) ∧ n ≤ zcb.bytes.length ∧ (word zcb.bytes 2 2 ≠ 0 → zcb.bytes[n - 1]? = some 0) ∨
    (∃ e, parse zcb = .error e) ∧ n = 0 := by
  rw [parse_eq, hn]
  by_cases hlen : zcb.bytes.length < n
  case pos =>
    rw [if_pos (Or.inr (Or.inr hlen))]
    exact .inl ⟨rfl, by omega, fun h => absurd h.1 (not_le.mpr hlen)⟩
  case neg =>
    rw [if_neg (lengths_right hpacket hhash hlen)]
    have hle := not_lt.mp hlen
    by_cases hhint : word zcb.bytes 2 2 = 0
    case pos =>
      rw [if_pos hhint]
      exact .inr (.inl ⟨⟨_, rfl⟩, hle, absurd hhint⟩)
    case neg =>
      rw [if_neg hhint]
      rcases Nat.eq_zero_or_pos n with hzero | hpos
      case inl =>
        -- the byte before the packet
        have hbefore : zcb.bytes[sub32 n 1]? = none := by
          rw [hzero, getElem?_eq_none_iff]
          have := zcb.length_lt
          unfold sub32
          omega
        rw [hbefore]
        exact .inr (.inr ⟨⟨_, rfl⟩, hzero⟩)
      case inr =>
        have hbelow : n - 1 < zcb.bytes.length := by omega
        rw [sub32_of_le (hn ▸ u32_lt _) hpos, getElem?_eq_getElem hbelow]
        dsimp only
        by_cases hlast : zcb.bytes[n - 1] ≠ 0
        case pos =>
          rw [if_pos hlast]
          exact .inl ⟨rfl, hpos.ne', fun h => hlast (Option.some.inj (h.2 hhint))⟩
        case neg =>
          rw [if_neg hlast]
          exact .inr (.inl ⟨⟨_, rfl⟩, hle, fun _ => congrArg some (not_not.mp hlast)⟩)

lemma parsesExactly_of_lt (hlt : lengths zcb.bytes < 2 ^ 32) : ParsesExactly zcb := by
  rcases parse_outcome hpacket hhash (u32_of_lt hlt) with ⟨hparse, -, hout⟩ | ⟨⟨q, hparse⟩, hin⟩ | ⟨-, hzero⟩
  · exact ⟨none, hparse, fun h => absurd h Bool.false_ne_true, fun h => absurd h hout⟩
  · exact ⟨some q, hparse, fun _ => hin, fun _ => rfl⟩
  · unfold lengths sizeofRequestPacket at hzero
    omega

lemma parsesExactly_iff_of_ge (hge : 2 ^ 32 ≤ lengths zcb.bytes) :
    ParsesExactly zcb ↔ ¬ Wraps zcb.bytes := by
  have hlength := zcb.length_lt
  have hout : ¬ Inside zcb.bytes := by
    rintro ⟨hle, -⟩
    omega
  -- such a packet has to be rejected
  have hreject : ParsesExactly zcb ↔ parse zcb = .ok none := by
    constructor
    · rintro ⟨parsed, hparse, hiff⟩
      cases parsed with
      | none => exact hparse
      | some q => exact absurd (hiff.mp rfl) hout
    · intro hparse
      exact ⟨none, hparse, fun h => absurd h Bool.false_ne_true, fun h => absurd h hout⟩
  rw [hreject]
  rcases parse_outcome hpacket hhash rfl with ⟨hparse, hne, hout⟩ | ⟨⟨q, hparse⟩, hle, hnul⟩ | ⟨⟨e, hparse⟩, hzero⟩
  · refine iff_of_true hparse ?_
    rintro ⟨-, hle, hzero | hzero | hnul⟩
    · exact hout ⟨hle, absurd hzero⟩
    · exact hne hzero
    · exact hout ⟨hle, fun _ => hnul⟩
  · refine iff_of_false (by rw [hparse]; exact nofun) (not_not_intro ⟨hge, hle, ?_⟩)
    by_cases hhint : word zcb.bytes 2 2 = 0
    · exact .inl hhint
    · exact .inr (.inr (hnul hhint))
  · refine iff_of_false (by rw [hparse]; exact nofun) (not_not_intro ⟨hge, ?_, .inr (.inl hzero)⟩)
    exact hzero.trans_le (Nat.zero_le _)

end

/-- PARSED EXACTLY: the length of the hash is right if all is inside, and no sum wraps into the packet. -/
lemma parsesExactly_iff (zcb : Datagram) : ParsesExactly zcb ↔ (Inside zcb.bytes → word zcb.bytes 0 2 = hashSize) ∧
      ¬(sizeofRequestPacket ≤ zcb.bytes.length ∧ word zcb.bytes 0 2 = hashSize ∧ Wraps zcb.bytes) := by
  by_cases hshort : zcb.bytes.length < sizeofRequestPacket
  case pos =>
    have hout := not_inside_of_short hshort
    have hexact : ParsesExactly zcb := by
      refine ⟨none, ?_, fun h => absurd h Bool.false_ne_true, fun h => absurd h hout⟩
      rw [parse_eq, if_pos (Or.inl hshort)]
    exact ⟨fun _ => ⟨fun h => absurd h hout, fun h => absurd h.1 (not_le.mpr hshort)⟩, fun _ => hexact⟩
  case neg =>
  have hpacket := not_lt.mp hshort
  by_cases hhash : word zcb.bytes 0 2 = hashSize
  case neg =>
    have hparse : parse zcb = .ok none := by rw [parse_eq, if_pos (Or.inr (Or.inl hhash))]
    constructor
    · rintro ⟨parsed, hparsed, hiff⟩
      rw [hparse] at hparsed
      cases hparsed
      exact ⟨fun h => absurd (hiff.mpr h) Bool.false_ne_true, fun h => hhash h.2.1⟩
    · rintro ⟨hin, -⟩
      exact ⟨none, hparse, fun h => absurd h Bool.false_ne_true, fun h => absurd (hin h) hhash⟩
  case pos =>
    rcases lt_or_ge (lengths zcb.bytes) (2 ^ 32) with hlt | hge
    case inl =>
      exact ⟨fun _ => ⟨fun _ => hhash, fun h => absurd h.2.2.1 (not_le.mpr hlt)⟩,
        fun _ => parsesExactly_of_lt hpacket hhash hlt⟩
    case inr =>
      rw [parsesExactly_iff_of_ge hpacket hhash hge]
      exact ⟨fun h => ⟨fun _ => hhash, fun hw => h hw.2.2⟩, fun h hw => h.2 ⟨hpacket, hhash, hw⟩⟩

end WireFileRequest

/-! ### There and back -/

namespace OutboundRequest

open WireFileRequest

variable {r : OutboundRequest}

/-- The fields of a packet that starts with the fixed part of a request. -/
structure Carries (r : OutboundRequest) (b : Bytes) : Prop where
  hashLen : word b 0 2 = hashSize
  urlHintLen : word b 2 2 = r.hintBytes.length % 2 ^ 16
  fileHash : Hash.ofBytes (b.drop 4) = r.fileHash
  count : word b 24 4 = r.locations.length
  padding : word b 28 4 = r.paddingRequest
  start : word b 32 4 = r.dataRange.start
  stop : word b 36 4 = r.dataRange.stop

lemma Words.carries (hr : r.Words) (rest : Bytes) : r.Carries (r.header ++ rest) := by
  generalize hp : r.header ++ rest = p
  have hlen : p.drop 0 = toBE 2 hashSize ++ p.drop 2 := by
    simp [← hp, header, drop_append]
  have hhint : p.drop 2 = toBE 2 r.urlHintLen ++ p.drop 4 := by
    simp [← hp, header, drop_append, drop_eq_nil_of_le]
  have hhash : p.drop 4 = r.fileHash.bytes ++ p.drop 24 := by
    simp [← hp, header, drop_append, drop_eq_nil_of_le, hashSize]
  have hcount : p.drop 24 = toBE 4 r.locations.length ++ p.drop 28 := by
    simp [← hp, header, drop_append, drop_eq_nil_of_le, hashSize]
  have hpadding : p.drop 28 = toBE 4 r.paddingRequest ++ p.drop 32 := by
    simp [← hp, header, drop_append, drop_eq_nil_of_le, hashSize]
  have hstart : p.drop 32 = toBE 4 r.dataRange.start ++ p.drop 36 := by
    simp [← hp, header, drop_append, drop_eq_nil_of_le, hashSize]
  have hstop : p.drop 36 = toBE 4 r.dataRange.stop ++ rest := by
    simp [← hp, header, drop_append, drop_eq_nil_of_le, hashSize]
  refine ⟨word_of_drop hlen (by decide), ?_, ?_, word_of_drop hcount hr.count, word_of_drop hpadding hr.padding,
    word_of_drop hstart hr.start, word_of_drop hstop hr.stop⟩
  · rw [word, field, hhint, take_left' (length_toBE 2 _), ofBE_toBE, hr.urlHintLen_eq, show 256 ^ 2 = 2 ^ 16 from rfl]
  · rw [hhash, Hash.ofBytes_append]

lemma word_location (hr : r.Words) {i location : ℕ} (hi : r.locations[i]? = some location) :
    word (r.header ++ (r.locationBytes ++ r.hintBytes)) (sizeofRequestPacket + 4 * i) 4 = location := by
  obtain ⟨hlt, hget⟩ := List.getElem?_eq_some_iff.mp hi
  have hsplit : r.locations = r.locations.take i ++ location :: r.locations.drop (i + 1) := by
    rw [← hget, getElem_cons_drop, take_append_drop]
  have hbefore : (r.header ++ (r.locations.take i).flatMap (toBE 4)).length = sizeofRequestPacket + 4 * i := by
    rw [length_append, length_header, length_flatMap_toBE, length_take_of_le hlt.le]
  have hdrop : (r.header ++ (r.locationBytes ++ r.hintBytes)).drop (sizeofRequestPacket + 4 * i) =
      toBE 4 location ++ ((r.locations.drop (i + 1)).flatMap (toBE 4) ++ r.hintBytes) := by
    rw [locationBytes, hsplit, flatMap_append, flatMap_cons, ← hsplit]
    simp only [append_assoc]
    rw [← append_assoc r.header, drop_left' hbefore]
  exact word_of_drop hdrop (hr.locations location (mem_of_getElem? hi))

lemma takeWhile_hint {hint : Bytes} (h : 0 ∉ hint) : (hint ++ [0]).takeWhile (· ≠ 0) = hint := by
  rw [takeWhile_append_of_pos]
  · simp
  · intro x hx
    simp only [ne_eq, decide_not, Bool.not_eq_eq_eq_not, Bool.not_true, decide_eq_false_iff_not]
    rintro rfl
    exact h hx

/-- A packet that fits is parsed, hint and all. -/
lemma parse_packet (hr : r.Words) (hfits : r.Fits) {zcb : Datagram}
    (hzcb : zcb.bytes = r.header ++ (r.locationBytes ++ r.hintBytes)) :
    parse zcb = .ok (some (ofPacket zcb.bytes r.urlHint)) := by
  obtain ⟨hhint, hsum⟩ := hfits
  have hcarries : r.Carries zcb.bytes := by
    rw [hzcb]
    exact hr.carries _
  have hword : word zcb.bytes 2 2 = r.hintBytes.length := by rw [hcarries.urlHintLen, mod_eq_of_lt hhint]
  have hlocs : r.locationBytes.length = 4 * r.locations.length := length_flatMap_toBE _
  have hlengths : lengths zcb.bytes = sizeofRequestPacket + 4 * r.locations.length + r.hintBytes.length := by
    rw [lengths, hcarries.count, hword]
  have hlength : zcb.bytes.length = lengths zcb.bytes := by
    rw [hlengths, hzcb, length_append, length_append, length_header, hlocs]
    omega
  have hpacket : sizeofRequestPacket ≤ zcb.bytes.length := by omega
  rw [parse_eq, u32_of_lt (by omega), if_neg (lengths_right hpacket hcarries.hashLen hlength.not_lt),
    hword, hcarries.count, u32_of_lt (by omega)]
  cases hopt : r.urlHint with
  | none =>
    have hnil : r.hintBytes = [] := by rw [hintBytes, hopt]
    rw [hnil, length_nil, if_pos rfl]
  | some hint =>
    have hbytes : r.hintBytes = hint ++ [0] := by rw [hintBytes, hopt]
    have hback : r.hintBytes.length = hint.length + 1 := by rw [hbytes, length_append, length_singleton]
    have hlast : zcb.bytes[lengths zcb.bytes - 1]? = some 0 := by
      rw [← hlength, ← getLast?_eq_getElem?, hzcb, hbytes, ← append_assoc, ← append_assoc, getLast?_concat]
    have hfield : field zcb.bytes (sizeofRequestPacket + 4 * r.locations.length) r.hintBytes.length = hint ++ [0] := by
      have hbefore : (r.header ++ r.locationBytes).length = sizeofRequestPacket + 4 * r.locations.length := by
        rw [length_append, length_header, hlocs]
      rw [hzcb, ← append_assoc, field_append hbefore, take_length, hbytes]
    rw [if_neg (by omega), sub32_of_le (by omega) (by omega), hlast, hfield, takeWhile_hint (hr.hint hint hopt).1]
    exact if_neg (not_not.mpr rfl)

lemma roundTrips_of_fits (hr : r.Words) (hfits : r.Fits) : r.RoundTrips := by
  have hlocs : r.locationBytes.length = 4 * r.locations.length := length_flatMap_toBE _
  have hlength : (r.header ++ (r.locationBytes ++ r.hintBytes)).length < 2 ^ 32 := by
    have hsum := hfits.2
    rw [length_append, length_append, length_header, hlocs]
    omega
  have hcarries := hr.carries (r.locationBytes ++ r.hintBytes)
  refine ⟨⟨r.header ++ (r.locationBytes ++ r.hintBytes), hlength⟩, _, packet_eq hr hfits.2, parse_packet hr hfits rfl,
    hcarries.fileHash, rfl, hcarries.count, ?_, hcarries.padding, ?_⟩
  · intro i location hi
    have hlt := (List.getElem?_eq_some_iff.mp hi).1
    have hroom : sizeofRequestPacket + 4 * i + 4 ≤ (r.header ++ (r.locationBytes ++ r.hintBytes)).length := by
      rw [length_append, length_append, length_header, hlocs]
      omega
    rw [getTreeLocation_of_fits (parse_wellFormed (parse_packet hr hfits rfl)) hroom]
    exact congrArg _ (word_location hr hi)
  · exact congrArg₂ DataRange.mk hcarries.start hcarries.stop

end OutboundRequest

namespace WireFileRequest

lemma urlHint_length_le {zcb : Datagram} {parsed : WireFileRequest} {hint : Bytes} (h : parse zcb = .ok (some parsed))
    (hhint : parsed.urlHint = some hint) : hint.length ≤ word zcb.bytes 2 2 := by
  rw [parse_eq] at h
  split at h
  case isTrue => cases h
  split at h
  case isTrue =>
    cases h
    cases hhint
  split at h
  case h_1 => cases h
  split at h
  case isTrue => cases h
  case isFalse =>
    cases h
    cases hhint
    refine (takeWhile_sublist _).length_le.trans ?_
    rw [field, length_take]
    exact min_le_left _ _

end WireFileRequest

namespace OutboundRequest

open WireFileRequest

variable {r : OutboundRequest}

lemma fits_of_roundTrips (hr : r.Words) (h : r.RoundTrips) : r.Fits := by
  obtain ⟨zcb, parsed, hpacket, hparse, -, hhint, -⟩ := h
  have hsum := fits_of_packet hr hpacket
  refine ⟨?_, hsum⟩
  rw [packet_eq hr hsum] at hpacket
  have hcarries : r.Carries zcb.bytes := by
    rw [← Except.ok.inj hpacket]
    exact hr.carries _
  cases hopt : r.urlHint with
  | none =>
    rw [hintBytes, hopt]
    exact Nat.two_pow_pos 16
  | some hint =>
    have hlength : r.hintBytes.length = hint.length + 1 := by
      rw [hintBytes, hopt, length_append, length_singleton]
    have hle := urlHint_length_le hparse (hhint.trans hopt)
    rw [hcarries.urlHintLen, hlength] at hle
    omega

/-- ROUND TRIP: a request comes back if and only if its hint and its packet have lengths that fit. -/
lemma roundTrips_iff (hr : r.Words) : r.RoundTrips ↔ r.Fits := ⟨fits_of_roundTrips hr, roundTrips_of_fits hr⟩

end OutboundRequest

/-- CODEC: a request comes back as it was if and only if its lengths fit; a packet is parsed exactly if and only if a
    packet that holds all has the right hash length and no sum of lengths wraps into the packet. -/
theorem requestCodec_iff (r : OutboundRequest) (hr : r.Words) (zcb : Datagram) : (r.RoundTrips ↔ r.Fits) ∧
      (WireFileRequest.ParsesExactly zcb ↔ (WireFileRequest.Inside zcb.bytes → word zcb.bytes 0 2 = hashSize) ∧
          ¬(sizeofRequestPacket ≤ zcb.bytes.length ∧ word zcb.bytes 0 2 = hashSize ∧
            WireFileRequest.Wraps zcb.bytes)) :=
  ⟨OutboundRequest.roundTrips_iff hr, WireFileRequest.parsesExactly_iff zcb⟩

/-- A request for the first bytes of a file, with one location and the hint `a`. -/
def sampleRequest : OutboundRequest where
  fileHash := Hash.ofBytes []
  urlHint := some [97]
  locations := [7]
  paddingRequest := 0
  dataRange := ⟨0, 100⟩

lemma sampleRequest_words : sampleRequest.Words := by
  refine ⟨by decide, by decide, by decide, by decide, by decide, ?_⟩
  rintro hint ⟨⟩
  exact ⟨by decide, by decide⟩

/-- Forty bytes that promise `2 ^ 30` locations: their size is zero in 32 bits. -/
def overfullPacket : Datagram where
  bytes := toBE 2 hashSize ++ toBE 2 0 ++ List.replicate 20 0 ++ toBE 4 (2 ^ 30) ++ List.replicate 12 0
  length_lt := by decide

theorem requestCodec_iff_sample : sampleRequest.Words ∧ sampleRequest.RoundTrips :=
  ⟨sampleRequest_words, (requestCodec_iff sampleRequest sampleRequest_words overfullPacket).1.mpr ⟨by decide, by decide⟩⟩

lemma wraps_overfullPacket : WireFileRequest.Wraps overfullPacket.bytes := ⟨by decide, by decide, Or.inl (by decide)⟩

theorem not_requestCodec_exact :
    ¬ ∀ (r : OutboundRequest) (zcb : Datagram), r.Words → r.RoundTrips ∧ WireFileRequest.ParsesExactly zcb := by
  intro h
  have hexact := (WireFileRequest.parsesExactly_iff overfullPacket).mp (h sampleRequest overfullPacket sampleRequest_words).2
  exact hexact.2 ⟨by decide, by decide, wraps_overfullPacket⟩

end Embassies.Zftp
