import Embassies.Net.IpPacketLaws

/-! `create_udp_packet_buf` and its inverse.

    A packet is written into a buffer of some capacity: its IP header, for a payload of 64 KiB or more
    an IPv6 extension header with the jumbogram option, and its UDP header. Lengths are stored with the
    width of their field, which drops the high bits of a length that does not fit. -/

namespace Embassies.Net

open Checked List Nat

variable {source a dest : XIPAddr}

def sizeofUDPPacket : ℕ := 8

/-- `PROTOCOL_UDP`. -/
def protocolUdp : ℕ := 17

/-- `UDPEndpoint`; the port is the word its two bytes stand for. -/
structure UDPEndpoint where
  ipaddr : XIPAddr
  port : UInt16

/-- `use_jumbogram(ip_payload_size)`. -/
def useJumbogram (ipPayloadSize : ℕ) : Bool := decide (65536 ≤ ipPayloadSize)

/-- `ip_header_size(version, ip_payload_size)`. -/
def ipHeaderSize (version : XIPVer) (ipPayloadSize : ℕ) : ℕ :=
  match version with
  | .ipv4 => sizeofIP4Header
  | .ipv6 =>
    if useJumbogram ipPayloadSize = true then
      sizeofIP6Header + sizeofXIP6ExtensionHeader + sizeofXIP6Option + sizeofXIP6OptionJumbogram
    else sizeofIP6Header

/-- `udp_packet_length(version, payload_size)`. -/
def udpPacketLength (version : XIPVer) (payloadSize : ℕ) : ℕ :=
  u32 (ipHeaderSize version (u32 (sizeofUDPPacket + payloadSize)) + u32 (sizeofUDPPacket + payloadSize))

/-- The loop of `ip_checksum`: the sum of a header's words in host order. -/
def sumWords : Bytes → ℕ
  | lo :: hi :: rest => lo.toNat + 256 * hi.toNat + sumWords rest
  | _ => 0

/-- `ip_checksum(ipp)`, as the two bytes it is stored in. -/
def ipChecksum (header : Bytes) : Bytes :=
  let acc := sumWords header
  let acc := acc / 65536 + acc % 65536
  let acc := acc / 65536 + acc % 65536   -- possibly one more bit
  let acc := 65535 - acc % 65536         -- invert
  [UInt8.ofNat (acc % 256), UInt8.ofNat (acc / 256)]

/-- The `UDPPacket` header with a given length word. -/
def udpHeader (sourceEp destEp : UDPEndpoint) (length : ℕ) : Bytes :=
  toBE 2 sourceEp.port.toNat ++ (toBE 2 destEp.port.toNat ++ (toBE 2 length ++ [0, 0]))

/-- The `IP4Header` with a given checksum. -/
def ip4Header (source dest : XIPAddr) (totalLength : ℕ) (checksum : Bytes) : Bytes :=
  [0x45] ++ ([0] ++ (toBE 2 totalLength ++ ([0, 0, 0, 0] ++ ([0xff] ++ ([UInt8.ofNat protocolUdp] ++
    (checksum ++ (source.addr ++ dest.addr)))))))

/-- `get_ip4(addr)` and `get_ip6(addr)`. -/
def getIp (version : XIPVer) (a : XIPAddr) : Checked XIPAddr := do
  liteAssert (a.version = version)
  pure a

/-- `create_udp_packet_buf_v4(..)`: the buffer with the headers written. -/
def createUdpPacketBufV4 (localBuffer : Bytes) (sourceEp destEp : UDPEndpoint) (payloadSize : ℕ) :
    Checked Bytes := do
  let source ← getIp .ipv4 sourceEp.ipaddr
  let dest ← getIp .ipv4 destEp.ipaddr
  let totalLength := udpPacketLength .ipv4 payloadSize
  let checksum := ipChecksum (ip4Header source dest totalLength [0, 0])
  let buf ← writeAt localBuffer 0 (ip4Header source dest totalLength checksum)
  writeAt buf sizeofIP4Header (udpHeader sourceEp destEp (sizeofUDPPacket + payloadSize))

/-- The `IP6Header` of a packet. -/
def ip6Header (source dest : XIPAddr) (payloadLen nextHeaderProto : ℕ) : Bytes :=
  [0x60] ++ ([0, 0, 0] ++ (toBE 2 payloadLen ++ ([UInt8.ofNat nextHeaderProto] ++ ([253] ++
    (source.addr ++ dest.addr)))))

def jumbogramHeader (ipPayloadSize : ℕ) : Bytes :=
  [UInt8.ofNat protocolUdp] ++ ([0] ++ ([UInt8.ofNat ip6OptionTypeJumbogram] ++
    ([UInt8.ofNat sizeofXIP6OptionJumbogram] ++ toBE 4 ipPayloadSize)))

/-- `create_udp_packet_buf_v6(..)`: the buffer with the headers written. -/
def createUdpPacketBufV6 (localBuffer : Bytes) (sourceEp destEp : UDPEndpoint) (payloadSize : ℕ) :
    Checked Bytes := do
  let ipPayloadSize := u32 (sizeofUDPPacket + payloadSize)
  let jumbo := useJumbogram ipPayloadSize
  let source ← getIp .ipv6 sourceEp.ipaddr
  let dest ← getIp .ipv6 destEp.ipaddr
  let buf ← writeAt localBuffer 0 (ip6Header source dest (if jumbo = true then 0 else ipPayloadSize)
    (if jumbo = true then ipProtoOptionHeader else protocolUdp))
  let extension := if jumbo = true then jumbogramHeader ipPayloadSize else []
  let buf ← writeAt buf sizeofIP6Header extension
  let actualHeaderSize := sizeofIP6Header + extension.length
  liteAssert (payloadSize ≤ sub32 localBuffer.length actualHeaderSize)
  writeAt buf actualHeaderSize (udpHeader sourceEp destEp
    (if jumbo = true then 0 else sizeofUDPPacket + payloadSize))

/-- `create_udp_packet_buf(local_buffer, buf_capacity, source_ep, dest_ep, payload_size)`. -/
def createUdpPacketBuf (localBuffer : Bytes) (sourceEp destEp : UDPEndpoint) (payloadSize : ℕ) :
    Checked Bytes := do
  liteAssert (udpPacketLength destEp.ipaddr.version payloadSize ≤ localBuffer.length)
  match destEp.ipaddr.version with
  | .ipv4 => createUdpPacketBufV4 localBuffer sourceEp destEp payloadSize
  | .ipv6 => createUdpPacketBufV6 localBuffer sourceEp destEp payloadSize

/-! ### The packet that was built -/

variable {buf out : Bytes} {sourceEp destEp : UDPEndpoint} {n fuel : ℕ} {info : IPInfo} {version : XIPVer}

/-- The decoder reports what the packet was built from. -/
structure Reported (sourceEp destEp : UDPEndpoint) (payloadSize : ℕ) (info : IPInfo) : Prop where
  packetValid : info.packetValid = true
  source : info.source = some sourceEp.ipaddr
  dest : info.dest = some destEp.ipaddr
  protocol : info.layer4Protocol = protocolUdp
  payloadLength : info.payloadLength = payloadSize + sizeofUDPPacket
  packetLength : info.packetLength =
    ipHeaderSize destEp.ipaddr.version (payloadSize + sizeofUDPPacket) + (payloadSize + sizeofUDPPacket)

/-- The lengths that have a place in a packet of the version. -/
def Representable : XIPVer → ℕ → Prop
  | .ipv4, payloadSize => sizeofIP4Header + sizeofUDPPacket + payloadSize < 2 ^ 16
  | .ipv6, payloadSize => payloadSize + 56 < 2 ^ 32

lemma getIp_eq_ok {a' : XIPAddr} : getIp version a = .ok a' ↔ a.version = version ∧ a' = a := by
  rw [getIp, bind_eq_ok]
  constructor
  · rintro ⟨u, hversion, hpure⟩
    exact ⟨(liteAssert_eq_ok _ _).mp hversion, (Except.ok.inj hpure).symm⟩
  · rintro ⟨hversion, rfl⟩
    exact ⟨(), liteAssert_pos hversion, rfl⟩

lemma writeAt_head {x y : Bytes} (h : writeAt buf 0 x = .ok y) :
    x.length ≤ buf.length ∧ y = x ++ buf.drop x.length := by
  obtain ⟨hfits, rfl⟩ := writeAt_eq_ok.mp h
  exact ⟨by omega, splice_zero⟩

lemma writeAt_next {x y rest : Bytes} {off : ℕ} (hoff : x.length = off) (h : writeAt (x ++ rest) off y = .ok out) :
    y.length ≤ rest.length ∧ out = x ++ (y ++ rest.drop y.length) := by
  obtain ⟨hfits, rfl⟩ := writeAt_eq_ok.mp h
  subst hoff
  refine ⟨by simpa using hfits, ?_⟩
  rw [splice, take_left, ← drop_drop, drop_left]

lemma length_addr4 (h : a.version = .ipv4) : a.addr.length = 4 := by
  rw [a.length_eq, h]
  rfl

lemma length_addr6 (h : a.version = .ipv6) : a.addr.length = 16 := by
  rw [a.length_eq, h]
  rfl

lemma length_ipChecksum (header : Bytes) : (ipChecksum header).length = 2 := rfl

lemma length_ip4Header (hs : source.version = .ipv4) (hd : dest.version = .ipv4) (total : ℕ) (header : Bytes) :
    (ip4Header source dest total (ipChecksum header)).length = 20 := by
  simp [ip4Header, length_ipChecksum, length_addr4 hs, length_addr4 hd]

lemma createV4_eq_ok (h : createUdpPacketBufV4 buf sourceEp destEp n = .ok out) :
    sourceEp.ipaddr.version = .ipv4 ∧ destEp.ipaddr.version = .ipv4 ∧ ∃ header rest,
      out = ip4Header sourceEp.ipaddr destEp.ipaddr (udpPacketLength .ipv4 n) (ipChecksum header) ++ rest := by
  obtain ⟨source, hsource, dest, hdest, h⟩ := of_bind2 h
  obtain ⟨hs, rfl⟩ := getIp_eq_ok.mp hsource
  obtain ⟨hd, rfl⟩ := getIp_eq_ok.mp hdest
  obtain ⟨buf1, hwrite, h⟩ := of_bind h
  obtain ⟨-, rfl⟩ := writeAt_head hwrite
  obtain ⟨-, rfl⟩ := writeAt_next (length_ip4Header hs hd _ _) h
  exact ⟨hs, hd, _, _, rfl⟩

lemma addrAt_eq {off : ℕ} {hfits : off + version.addrSize ≤ out.length} (hversion : a.version = version)
    (hfield : field out off version.addrSize = a.addr) :
    addrAt version out off hfits = a := by
  cases a
  subst hversion
  simp only [addrAt, hfield]

lemma ip4Header_fields (hs : source.version = .ipv4) (hd : dest.version = .ipv4) (total : ℕ) (header rest : Bytes) :
    let out := ip4Header source dest total (ipChecksum header) ++ rest
    field out 2 2 = toBE 2 total ∧ byteAt out 9 = protocolUdp ∧ field out 12 4 = source.addr ∧
      field out 16 4 = dest.addr ∧ byteAt out 0 / 16 = 4 ∧ sizeofIP4Header ≤ out.length := by
  have hsource := length_addr4 hs
  have hdest := length_addr4 hd
  have hcheck := length_ipChecksum header
  simp (disch := simp [hcheck, hsource, hdest]) only [byteAt, ip4Header, append_assoc, field_skip,
    field_head, length_cons, length_nil, length_toBE, hcheck, hsource, reduceAdd,
    reduceSub, true_and]
  refine ⟨rfl, rfl, ?_⟩
  simp only [length_append, length_cons, length_nil, length_toBE, hcheck, hsource, hdest,
    sizeofIP4Header]
  omega

/-- V4: what is built is read back exactly when its length fits the header's field. -/
lemma roundTrips_v4 (hn : n < 2 ^ 32) (h : createUdpPacketBufV4 buf sourceEp destEp n = .ok out) :
    (∃ fuel info, decodeIpPacket fuel out = .ok info ∧ Reported sourceEp destEp n info) ↔ Representable .ipv4 n := by
  obtain ⟨hs, hd, header, rest, rfl⟩ := createV4_eq_ok h
  obtain ⟨htotal, hproto, hsource, hdest, hversion, hlen⟩ :=
    ip4Header_fields hs hd (udpPacketLength .ipv4 n) header rest
  generalize ip4Header sourceEp.ipaddr destEp.ipaddr (udpPacketLength .ipv4 n) (ipChecksum header) ++ rest = out at *
  have hdecode : ∀ fuel, decodeIpPacket fuel out = checkDecoded (ip4Info out hlen) := by
    intro fuel
    simp only [decodeIpPacket_eq (le_trans (by decide) hlen), hversion, decodeIp4Packet_eq hlen, ok_bind]
  have hstored : ofBE (field out 2 2) = (28 + n) % 2 ^ 32 % 2 ^ 16 := by
    rw [htotal, ofBE_toBE]
    simp only [udpPacketLength, ipHeaderSize, u32, sizeofIP4Header, sizeofUDPPacket]
    omega
  simp only [hdecode, Representable, sizeofIP4Header, sizeofUDPPacket]
  constructor
  · rintro ⟨_, info, hcheck, hreported⟩
    obtain ⟨rfl, -⟩ := checkDecoded_eq_ok.mp hcheck
    have hlength := hreported.packetLength
    simp only [ip4Info, hstored, hd, ipHeaderSize, sizeofIP4Header, sizeofUDPPacket] at hlength
    omega
  · intro hfits
    have hexact : ofBE (field out 2 2) = 28 + n := by omega
    refine ⟨0, ip4Info out hlen, checkDecoded_eq_ok.mpr ⟨rfl, .inl ⟨⟨rfl, rfl, ?_⟩, ?_, ?_⟩⟩, ?_⟩
    · exact hproto.trans_ne (by decide)
    · simp only [ip4Info, hexact, sub32, sizeofIP4Header]
      omega
    · exact (by decide : 0 < sizeofIP4Header)
    · refine ⟨rfl, ?_, ?_, hproto, ?_, ?_⟩
      · exact congrArg some (addrAt_eq hs hsource)
      · exact congrArg some (addrAt_eq hd hdest)
      · simp only [ip4Info, hexact, sub32, sizeofIP4Header, sizeofUDPPacket]
        omega
      · simp only [ip4Info, hexact, hd, ipHeaderSize, sizeofIP4Header, sizeofUDPPacket]
        omega

lemma length_ip6Header (hs : source.version = .ipv6) (hd : dest.version = .ipv6) (payloadLen proto : ℕ) :
    (ip6Header source dest payloadLen proto).length = 40 := by
  simp [ip6Header, length_addr6 hs, length_addr6 hd]

lemma length_jumbogramHeader (m : ℕ) : (jumbogramHeader m).length = 8 := by
  simp [jumbogramHeader]

lemma ip6Header_fields (hs : source.version = .ipv6) (hd : dest.version = .ipv6) (payloadLen proto : ℕ) (rest : Bytes) :
    let out := ip6Header source dest payloadLen proto ++ rest
    field out 4 2 = toBE 2 payloadLen ∧ field out 6 1 = [UInt8.ofNat proto] ∧
      field out 8 16 = source.addr ∧ field out 24 16 = dest.addr ∧ byteAt out 0 / 16 = 6 ∧
      sizeofIP6Header ≤ out.length := by
  have hsource := length_addr6 hs
  have hdest := length_addr6 hd
  simp (disch := simp [hsource, hdest]) only [byteAt, ip6Header, append_assoc, field_skip,
    field_head, length_cons, length_nil, length_toBE, hsource, reduceAdd,
    reduceSub, true_and]
  refine ⟨rfl, ?_⟩
  simp only [length_append, length_cons, length_nil, length_toBE, hsource, hdest,
    sizeofIP6Header]
  omega

/-- INVERSION of `create_udp_packet_buf_v6`: the headers it writes, and the assert on the size. -/
lemma createV6_eq_ok (h : createUdpPacketBufV6 buf sourceEp destEp n = .ok out) :
    sourceEp.ipaddr.version = .ipv6 ∧ destEp.ipaddr.version = .ipv6 ∧
    ((useJumbogram (u32 (sizeofUDPPacket + n)) = false ∧ n ≤ sub32 buf.length 40 ∧ 40 ≤ buf.length ∧
      ∃ rest, out = ip6Header sourceEp.ipaddr destEp.ipaddr (u32 (sizeofUDPPacket + n)) protocolUdp ++ rest) ∨
    (useJumbogram (u32 (sizeofUDPPacket + n)) = true ∧ n ≤ sub32 buf.length 48 ∧ 48 ≤ buf.length ∧
      ∃ rest, out = ip6Header sourceEp.ipaddr destEp.ipaddr 0 ipProtoOptionHeader ++
        (jumbogramHeader (u32 (sizeofUDPPacket + n)) ++ rest))) := by
  obtain ⟨source, hsource, dest, hdest, h⟩ := of_bind2 h
  obtain ⟨hs, rfl⟩ := getIp_eq_ok.mp hsource
  obtain ⟨hd, rfl⟩ := getIp_eq_ok.mp hdest
  refine ⟨hs, hd, ?_⟩
  obtain ⟨buf1, hwrite, h⟩ := of_bind h
  obtain ⟨hroom, rfl⟩ := writeAt_head hwrite
  obtain ⟨buf2, hext, h⟩ := of_bind h
  obtain ⟨hroom2, rfl⟩ := writeAt_next (length_ip6Header hs hd _ _) hext
  obtain ⟨_, hassert, h⟩ := of_bind h
  have hassert := (liteAssert_eq_ok _ _).mp hassert
  rw [length_ip6Header hs hd] at hroom
  rw [length_drop, length_ip6Header hs hd] at hroom2
  cases hjumbo : useJumbogram (u32 (sizeofUDPPacket + n)) with
  | false =>
    simp only [hjumbo, Bool.false_eq_true, if_false, nil_append, length_nil, drop_zero] at h hassert
    obtain ⟨-, rfl⟩ := writeAt_next (length_ip6Header hs hd _ _) h
    exact .inl ⟨rfl, hassert, hroom, _, rfl⟩
  | true =>
    simp only [hjumbo, if_true, length_jumbogramHeader] at h hassert hroom2
    rw [← append_assoc] at h
    obtain ⟨-, rfl⟩ := writeAt_next (by
      rw [length_append, length_ip6Header hs hd, length_jumbogramHeader]
      rfl) h
    exact .inr ⟨rfl, hassert, by omega, _, append_assoc _ _ _⟩

lemma jumbogramHeader_fields (hs : source.version = .ipv6) (hd : dest.version = .ipv6) (m : ℕ) (rest : Bytes) :
    let out := ip6Header source dest 0 ipProtoOptionHeader ++ (jumbogramHeader m ++ rest)
    byteAt out 40 = protocolUdp ∧ byteAt out 41 = 0 ∧ byteAt out 42 = ip6OptionTypeJumbogram ∧
      byteAt out 43 = sizeofXIP6OptionJumbogram ∧ field out 44 4 = toBE 4 m ∧ 48 ≤ out.length := by
  have hhead := length_ip6Header hs hd 0 ipProtoOptionHeader
  have hjumbo := length_jumbogramHeader m
  dsimp only
  refine ⟨?_, ?_, ?_, ?_, ?_, ?_⟩
  case refine_6 =>
    rw [length_append, length_append, hhead, hjumbo]
    omega
  all_goals
    simp (disch := simp [hhead]) only [byteAt, jumbogramHeader, append_assoc, field_skip, field_head,
      length_cons, length_nil, hhead, reduceAdd, reduceSub]
  all_goals rfl

/-- What is decoded of a packet with the jumbogram option. -/
def jumbogramInfo (out : Bytes) (hlen : sizeofIP6Header ≤ out.length) : IPInfo :=
  { ip6Start out hlen with
    foundJumboLength := true, payloadLength := ofBE (field out 44 4), layer4Protocol := protocolUdp
    payloadOffset := 48, packetValid := true, packetLength := u32 (48 + ofBE (field out 44 4)) }

/-- The scan of a chain of one extension header with the jumbogram option. -/
lemma decode_jumbogram (hlen : 48 ≤ out.length) (hbasic : ofBE (field out 4 2) = 0)
    (h6 : byteAt out 6 = ipProtoOptionHeader)
    (h40 : byteAt out 40 = protocolUdp) (h41 : byteAt out 41 = 0)
    (h42 : byteAt out 42 = ip6OptionTypeJumbogram) (h43 : byteAt out 43 = sizeofXIP6OptionJumbogram) :
    decodeIp6Packet (fuel + 2) {} out = .ok (jumbogramInfo out (le_trans (by decide) hlen)) := by
  have hlen' : sizeofIP6Header ≤ out.length := le_trans (by decide) hlen
  have hext : extHdrLen out 40 = 8 := by rw [extHdrLen, h41]
  have hread : HeaderRead out 6 40 := ⟨by rw [u32_of_lt (by decide)]; omega, by omega, h6, le_trans (by decide) hlen⟩
  have hheld : OptionHeld out 40 8 42 := by
    have hL : byteAt out (42 + 1) = 4 := h43
    refine ⟨?_, by decide, le_trans (by decide) hlen, ?_, by rw [hL]; decide⟩
    · exact le_trans (by decide) hlen
    · rw [hL]
      exact le_trans (by decide) hlen
  have hnext : nextOption out 42 = 48 := by
    have hL : byteAt out (42 + 1) = 4 := h43
    rw [nextOption, hL]
    decide
  have htake : takeOption out 42 (ip6Start out hlen') = .ok ({ ip6Start out hlen' with
      foundJumboLength := true, payloadLength := ofBE (field out 44 4) }, true) := by
    have hL : byteAt out (42 + 1) = sizeofXIP6OptionJumbogram := h43
    rw [takeOption, if_pos h42, scanJumbogram, if_neg (not_not.mpr hL)]
    simp only [ip6Start, Bool.false_eq_true, if_false,
      readBE_of_fits (show 42 + sizeofXIP6Option + 4 ≤ out.length from hlen), ok_bind]
    rfl
  have hscan : scanOptionsForLength (ip6Start out hlen') out 40 (u32 (40 + sizeofXIP6ExtensionHeader)) 8 =
      .ok ({ ip6Start out hlen' with
        foundJumboLength := true, payloadLength := ofBE (field out 44 4) }, true) := by
    have hstart : u32 (40 + sizeofXIP6ExtensionHeader) = 42 := by decide
    have hL : ¬byteAt out (42 + 1) = 0 := by
      rw [show byteAt out (42 + 1) = sizeofXIP6OptionJumbogram from h43]
      decide
    have hlast : sub32 48 40 = 8 := by decide
    rw [scanOptionsForLength, hstart, scanOptionsLoop_held hheld, htake, ok_bind, hnext]
    simp only [Bool.true_eq_false, if_false, if_neg hL, hlast, if_true]
    rfl
  have hproto : byteAt out 40 ≠ ipProtoOptionHeader := by
    rw [h40]
    decide
  have hnext : u32 (40 + 8) = 48 := by decide
  have hchain : u32 (40 + 1) ≤ out.length := le_trans (by decide) hlen
  have hheaders : scanExtHeadersForLength out (fuel + 2) 6 40 (ip6Start out hlen') = .ok { ip6Start out hlen' with
        foundJumboLength := true, payloadLength := ofBE (field out 44 4), layer4Protocol := protocolUdp
        payloadOffset := 48, packetValid := true } := by
    rw [scanExtHeaders_header hread, hext, if_neg (not_lt.mpr (le_trans (by decide) hlen)), hscan, ok_bind, hnext]
    simp only [Bool.true_eq_false, if_false]
    rw [scanExtHeaders_protocol hchain (by omega) hproto]
    simp only [Bool.true_eq_false, if_false, h40]
  rw [decodeIp6Packet_eq hlen', if_neg hbasic.not_gt]
  exact bind_eq_ok.mpr ⟨_, hheaders, rfl⟩

lemma useJumbogram_eq_true {m : ℕ} : useJumbogram m = true ↔ 65536 ≤ m := decide_eq_true_iff

lemma packetLength_chain_lt (hlen : sizeofIP6Header ≤ out.length) (hbasic : ofBE (field out 4 2) = 0)
    (hversion : byteAt out 0 / 16 = 6) (h : decodeIpPacket fuel out = .ok info) : info.packetLength < 2 ^ 32 := by
  simp only [decodeIpPacket_eq (le_trans (by decide) hlen), hversion, decodeIp6Packet_eq hlen, if_neg hbasic.not_gt] at h
  obtain ⟨info1, hdecode, hcheck⟩ := of_bind h
  obtain ⟨info2, -, hpure⟩ := of_bind hdecode
  obtain ⟨rfl, -⟩ := checkDecoded_eq_ok.mp hcheck
  rw [← Except.ok.inj hpure]
  exact u32_lt _

/-- V6, plain: a payload below 64 KiB is read back. -/
lemma roundTrips_basic (hs : sourceEp.ipaddr.version = .ipv6) (hd : destEp.ipaddr.version = .ipv6)
    (hn : sizeofUDPPacket + n < 65536) (rest : Bytes) :
    ∃ fuel info, decodeIpPacket fuel (ip6Header sourceEp.ipaddr destEp.ipaddr (sizeofUDPPacket + n)
      protocolUdp ++ rest) = .ok info ∧ Reported sourceEp destEp n info := by
  obtain ⟨hpayload, hproto, hsource, hdest, hversion, hlen⟩ :=
    ip6Header_fields hs hd (sizeofUDPPacket + n) protocolUdp rest
  generalize ip6Header sourceEp.ipaddr destEp.ipaddr (sizeofUDPPacket + n) protocolUdp ++ rest = out at *
  have hbasic : ofBE (field out 4 2) = 8 + n := by
    rw [hpayload]
    exact ofBE_toBE_of_lt hn
  have hproto : byteAt out 6 = protocolUdp := by
    rw [byteAt, hproto]
    decide
  have hplain : ¬useJumbogram (n + sizeofUDPPacket) = true := by
    rw [useJumbogram_eq_true]
    omega
  refine ⟨0, ip6Info out hlen, ?_, rfl, congrArg some (addrAt_eq hs hsource),
    congrArg some (addrAt_eq hd hdest), hproto, ?_, ?_⟩
  · simp only [decodeIpPacket_eq (le_trans (by decide) hlen), hversion, decodeIp6Packet_eq hlen,
      if_pos (show 0 < ofBE (field out 4 2) by omega), ok_bind]
    refine checkDecoded_eq_ok.mpr ⟨rfl, .inl ⟨⟨rfl, rfl, hproto.trans_ne (by decide)⟩, ?_, ?_⟩⟩
    · simp only [ip6Info, hbasic]
      omega
    · exact (by decide : 0 < sizeofIP6Header)
  · simp only [ip6Info, hbasic, sizeofUDPPacket]
    omega
  · simp only [sizeofUDPPacket] at hn hplain
    simp only [ip6Info, hbasic, hd, ipHeaderSize, hplain, Bool.false_eq_true, if_false, sizeofUDPPacket,
      sizeofIP6Header, u32]
    omega

/-- V6, jumbogram: a larger payload is read back exactly when the whole length is a word. -/
lemma roundTrips_jumbogram (hs : sourceEp.ipaddr.version = .ipv6) (hd : destEp.ipaddr.version = .ipv6)
    (hn : 65536 ≤ sizeofUDPPacket + n) (hlt : sizeofUDPPacket + n < 2 ^ 32) (rest : Bytes) :
    (∃ fuel info, decodeIpPacket fuel (ip6Header sourceEp.ipaddr destEp.ipaddr 0 ipProtoOptionHeader ++
      (jumbogramHeader (sizeofUDPPacket + n) ++ rest)) = .ok info ∧ Reported sourceEp destEp n info) ↔
      Representable .ipv6 n := by
  obtain ⟨hpayload, hproto, hsource, hdest, hversion, hlen⟩ := ip6Header_fields hs hd 0 ipProtoOptionHeader
    (jumbogramHeader (sizeofUDPPacket + n) ++ rest)
  obtain ⟨h40, h41, h42, h43, hjumbo, hlong⟩ := jumbogramHeader_fields hs hd (sizeofUDPPacket + n) rest
  generalize ip6Header sourceEp.ipaddr destEp.ipaddr 0 ipProtoOptionHeader ++
    (jumbogramHeader (sizeofUDPPacket + n) ++ rest) = out at *
  have hbasic : ofBE (field out 4 2) = 0 := by
    rw [hpayload]
    decide
  have h6 : byteAt out 6 = ipProtoOptionHeader := by
    rw [byteAt, hproto]
    decide
  have hsize : ofBE (field out 44 4) = sizeofUDPPacket + n := by
    rw [hjumbo]
    exact ofBE_toBE_of_lt hlt
  have hheader : ipHeaderSize destEp.ipaddr.version (n + sizeofUDPPacket) = 48 := by
    have hlarge : useJumbogram (n + sizeofUDPPacket) = true := useJumbogram_eq_true.mpr (by omega)
    rw [hd, ipHeaderSize, if_pos hlarge]
    rfl
  constructor
  · rintro ⟨fuel, info, hdecode, hreported⟩
    have hword := packetLength_chain_lt hlen hbasic hversion hdecode
    rw [hreported.packetLength, hheader] at hword
    simp only [Representable, sizeofUDPPacket] at hword ⊢
    omega
  · intro hfits
    simp only [Representable] at hfits
    refine ⟨2, jumbogramInfo out hlen, ?_, rfl, congrArg some (addrAt_eq hs hsource),
      congrArg some (addrAt_eq hd hdest), rfl, ?_, ?_⟩
    · simp only [decodeIpPacket_eq (le_trans (by decide) hlen), hversion]
      rw [@decode_jumbogram out 0 hlong hbasic h6 h40 h41 h42 h43, ok_bind]
      refine checkDecoded_eq_ok.mpr ⟨rfl, .inl ⟨⟨rfl, rfl, (by decide : protocolUdp ≠ 0)⟩, ?_, ?_⟩⟩
      · simp only [jumbogramInfo, hsize]
        omega
      · exact (by decide : 0 < 48)
    · simp only [jumbogramInfo, hsize]
      omega
    · rw [hheader]
      simp only [jumbogramInfo, hsize, sizeofUDPPacket, u32]
      omega

lemma roundTrips_v6 (hn : n < 2 ^ 32) (hbuf : buf.length < 2 ^ 32)
    (h : createUdpPacketBufV6 buf sourceEp destEp n = .ok out) :
    (∃ fuel info, decodeIpPacket fuel out = .ok info ∧ Reported sourceEp destEp n info) ↔ Representable .ipv6 n := by
  obtain ⟨hs, hd, ⟨hplain, hassert, hroom, rest, rfl⟩ | ⟨hjumbo, hassert, hroom, rest, rfl⟩⟩ := createV6_eq_ok h
  · -- the assert on the size excludes a sum that wraps
    rw [sub32_of_le hbuf hroom] at hassert
    have hexact : u32 (sizeofUDPPacket + n) = sizeofUDPPacket + n := u32_of_lt (by simp only [sizeofUDPPacket]; omega)
    rw [hexact] at hplain ⊢
    have hsmall : sizeofUDPPacket + n < 65536 := by
      by_contra hlarge
      rw [useJumbogram_eq_true.mpr (not_lt.mp hlarge)] at hplain
      cases hplain
    refine iff_of_true (roundTrips_basic hs hd hsmall rest) ?_
    simp only [Representable]
    omega
  · rw [sub32_of_le hbuf hroom] at hassert
    have hexact : u32 (sizeofUDPPacket + n) = sizeofUDPPacket + n := u32_of_lt (by simp only [sizeofUDPPacket]; omega)
    rw [hexact] at hjumbo ⊢
    exact roundTrips_jumbogram hs hd (useJumbogram_eq_true.mp hjumbo) (by simp only [sizeofUDPPacket]; omega) rest

/-- ROUND TRIP: for every payload size for which a packet is built, the decoder reports what it was built
    from exactly when the size can be represented. -/
theorem udp_roundTrips_iff (sourceEp destEp : UDPEndpoint) (payloadSize : ℕ) (hsize : payloadSize < 2 ^ 32)
    (localBuffer out : Bytes) (hcapacity : localBuffer.length < 2 ^ 32)
    (hbuilt : createUdpPacketBuf localBuffer sourceEp destEp payloadSize = .ok out) :
    (∃ fuel info, decodeIpPacket fuel out = .ok info ∧ Reported sourceEp destEp payloadSize info) ↔
      Representable destEp.ipaddr.version payloadSize := by
  obtain ⟨_, -, hbuilt⟩ := of_bind hbuilt
  cases hversion : destEp.ipaddr.version with
  | ipv4 =>
    rw [hversion] at hbuilt
    exact roundTrips_v4 hsize hbuilt
  | ipv6 =>
    rw [hversion] at hbuilt
    exact roundTrips_v6 hsize hcapacity hbuilt

def host4 (last : UInt8) : UDPEndpoint := ⟨⟨.ipv4, [10, 0, 0, last], rfl⟩, 99⟩

theorem udp_roundTrips_iff_small : ∃ out, createUdpPacketBuf (List.replicate 29 0) (host4 1) (host4 2) 1 = .ok out ∧
      ∃ fuel info, decodeIpPacket fuel out = .ok info ∧ Reported (host4 1) (host4 2) 1 info := by
  have hbuilt : ∃ out, createUdpPacketBuf (List.replicate 29 0) (host4 1) (host4 2) 1 = .ok out := ⟨_, rfl⟩
  obtain ⟨out, hbuilt⟩ := hbuilt
  refine ⟨out, hbuilt, (udp_roundTrips_iff _ _ 1 (by decide) _ out (by decide) hbuilt).mpr ?_⟩
  simp [host4, Representable, sizeofIP4Header, sizeofUDPPacket]

lemma createV4_total (hs : sourceEp.ipaddr.version = .ipv4) (hd : destEp.ipaddr.version = .ipv4)
    (hroom : 28 ≤ buf.length) : ∃ out, createUdpPacketBufV4 buf sourceEp destEp n = .ok out := by
  have hhead := length_ip4Header hs hd (udpPacketLength .ipv4 n)
    (ip4Header sourceEp.ipaddr destEp.ipaddr (udpPacketLength .ipv4 n) [0, 0])
  have hudp : (udpHeader sourceEp destEp (sizeofUDPPacket + n)).length = 8 := by simp [udpHeader]
  have hlen := @length_splice _ buf (ip4Header sourceEp.ipaddr destEp.ipaddr (udpPacketLength .ipv4 n)
    (ipChecksum (ip4Header sourceEp.ipaddr destEp.ipaddr (udpPacketLength .ipv4 n) [0, 0]))) 0
    (by rw [hhead]; omega)
  simp only [createUdpPacketBufV4, getIp_eq_ok.mpr ⟨hs, rfl⟩, getIp_eq_ok.mpr ⟨hd, rfl⟩, ok_bind]
  rw [writeAt_eq_ok.mpr ⟨by rw [hhead]; omega, rfl⟩, ok_bind]
  exact ⟨_, writeAt_eq_ok.mpr ⟨by rw [hlen, hudp]; exact hroom, rfl⟩⟩

/-- TRUNCATED LENGTH: an IPv4 packet of 64 KiB is built with a total length of zero. -/
theorem not_udp_roundTrips : ¬∀ (sourceEp destEp : UDPEndpoint) (payloadSize : ℕ) (localBuffer out : Bytes),
    payloadSize < 2 ^ 32 → localBuffer.length < 2 ^ 32 →
    createUdpPacketBuf localBuffer sourceEp destEp payloadSize = .ok out →
    ∃ fuel info, decodeIpPacket fuel out = .ok info ∧ Reported sourceEp destEp payloadSize info := by
  intro hclaim
  have hlen : (List.replicate 65536 0 : Bytes).length = 65536 := length_replicate
  obtain ⟨out, hbuilt⟩ := @createV4_total (List.replicate 65536 0) (host4 1) (host4 2) 65508 rfl rfl
    (by rw [hlen]; decide)
  have hcreate : createUdpPacketBuf (List.replicate 65536 0) (host4 1) (host4 2) 65508 = .ok out := by
    have hassert : udpPacketLength (host4 2).ipaddr.version 65508 ≤ (List.replicate 65536 0 : Bytes).length := by
      rw [hlen]
      decide
    rw [createUdpPacketBuf, liteAssert_pos hassert, ok_bind]
    exact hbuilt
  have htrip := hclaim _ _ 65508 _ out (by decide) (by rw [hlen]; decide) hcreate
  have hrepresentable := (roundTrips_v4 (by decide) hbuilt).mp htrip
  simp [Representable, sizeofIP4Header, sizeofUDPPacket] at hrepresentable

end Embassies.Net
