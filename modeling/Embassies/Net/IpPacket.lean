import Embassies.Lib.Word
import Embassies.Net.Address

/-! `decode_ip_packet`, the IP packet decoder.

    The capacity is the length of the packet's buffer, so that a read at or beyond the capacity is a
    fault. Offsets and sizes are 32 bits wide, as in the source. The scan of the extension headers has
    no bound of its own and takes fuel; the scan of one header's options advances within the header. -/

namespace Embassies.Net

def sizeofIP4Header : ℕ := 20

def sizeofIP6Header : ℕ := 40

def sizeofXIP6Option : ℕ := 2

def sizeofXIP6ExtensionHeader : ℕ := 2

def sizeofXIP6OptionJumbogram : ℕ := 4

/-- `IP_PROTO_OPTION_HEADER`. -/
def ipProtoOptionHeader : ℕ := 0

/-- `IP6_OPTION_TYPE_JUMBOGRAM`. -/
def ip6OptionTypeJumbogram : ℕ := 0xc2

/-- `IPInfo`; an address that was not set is `none`. -/
structure IPInfo where
  source : Option XIPAddr := none
  dest : Option XIPAddr := none
  layer4Protocol : ℕ := 0
  payloadOffset : ℕ := 0
  payloadLength : ℕ := 0
  packetLength : ℕ := 0
  moreFragments : Bool := false
  fragmentOffset : ℕ := 0
  identification : ℕ := 0
  failure : Option String := none
  packetValid : Bool := false
  foundJumboLength : Bool := false

/-- Set `failure`. -/
def IPInfo.fail (info : IPInfo) (failure : String) : IPInfo := { info with failure := some failure }

/-- The jumbogram branch of the option scan: the length it found, or a failure. -/
def scanJumbogram (packet : Bytes) (optionOffset optionLength : ℕ) (info : IPInfo) :
    Checked (IPInfo × Bool) :=
  if optionLength ≠ sizeofXIP6OptionJumbogram then
    pure (info.fail "invalid jumbogram option length", false)
  else if info.foundJumboLength = true then pure (info.fail "found two jumbo lengths", false)
  else do
    let jumboLength ← readBE packet (optionOffset + sizeofXIP6Option) 4
    pure ({ info with foundJumboLength := true, payloadLength := jumboLength }, true)

/-- The loop of `_6len_scan_options_for_length`. -/
def scanOptionsLoop (packet : Bytes) (headerOffset extHdrLen : ℕ) : ℕ → ℕ → IPInfo →
    Checked (IPInfo × Bool)
  | 0, _, _ => .error .outOfFuel
  | fuel + 1, optionOffset, info =>
    if packet.length < u32 (optionOffset + sizeofXIP6Option) then
      pure (info.fail "packet too short to contain this option header", false)
    else if extHdrLen < sub32 (u32 (optionOffset + sizeofXIP6Option)) headerOffset then
      pure (info.fail "header too short to contain this option header", false)
    else do
      let optionLength ← readBE packet (optionOffset + 1) 1
      if packet.length < u32 (optionOffset + sizeofXIP6Option + optionLength) then
        pure (info.fail "packet too short to contain this option", false)
      else if extHdrLen < sub32 (u32 (optionOffset + optionLength)) headerOffset then
        pure (info.fail "header too short to contain this option", false)
      else do
        let optionType ← readBE packet optionOffset 1
        let (info, goOn) ← if optionType = ip6OptionTypeJumbogram then
            scanJumbogram packet optionOffset optionLength info
          else pure (info, true)
        if goOn = false then pure (info, false)
        -- nice try, infinite-loop-man.
        else if optionLength = 0 then pure (info.fail "zero-length option", false)
        else
          let nextOffset := u32 (optionOffset + sizeofXIP6Option + optionLength)
          if sub32 nextOffset headerOffset = extHdrLen then pure (info, true)
          -- should have discovered this length mismatch already
          else if extHdrLen < sub32 nextOffset headerOffset then .error .liteAssert
          else scanOptionsLoop packet headerOffset extHdrLen fuel nextOffset info

/-- `_6len_scan_options_for_length(..)`. -/
def scanOptionsForLength (info : IPInfo) (packet : Bytes) (headerOffset optionOffset extHdrLen : ℕ) :
    Checked (IPInfo × Bool) :=
  scanOptionsLoop packet headerOffset extHdrLen extHdrLen optionOffset info

/-- `_6len_scan_ext_headers_for_length(..)`. -/
def scanExtHeadersForLength (packet : Bytes) : ℕ → ℕ → ℕ → IPInfo → Checked IPInfo
  | 0, _, _, _ => .error .outOfFuel
  | fuel + 1, headerTypeOffset, headerOffset, info =>
    if packet.length < u32 (headerTypeOffset + 1) then pure (info.fail "bad header chain")
    else do
      let thisHeaderType ← readBE packet headerTypeOffset 1
      if thisHeaderType ≠ ipProtoOptionHeader then
        if info.foundJumboLength = false then pure (info.fail "Never found length field")
        else pure { info with
          layer4Protocol := thisHeaderType, payloadOffset := headerOffset, packetValid := true }
      else do
        let extHdrLenEncoded ← readBE packet (headerOffset + 1) 1
        let extHdrLen := (extHdrLenEncoded + 1) * 8
        if packet.length < u32 (headerOffset + extHdrLen) then
          pure (info.fail "packet too short to contain claimed option header length")
        else do
          let (info, foundInOptions) ← scanOptionsForLength info packet headerOffset
            (u32 (headerOffset + sizeofXIP6ExtensionHeader)) extHdrLen
          if foundInOptions = false then pure info
          else if extHdrLen = 0 then pure (info.fail "zero-length option header")
          else scanExtHeadersForLength packet fuel headerOffset (u32 (headerOffset + extHdrLen)) info

/-- `decode_ip6_packet(info, packet, capacity)`. -/
def decodeIp6Packet (fuel : ℕ) (info : IPInfo) (packet : Bytes) : Checked IPInfo :=
  if packet.length < sizeofIP6Header then pure (info.fail "packet smaller than basic IPv6 header")
  else do
    let source ← readAddr .ipv6 packet 8
    let dest ← readAddr .ipv6 packet 24
    let basicLen ← readBE packet 4 2
    let info := { info with
      source := some source, dest := some dest, moreFragments := false, fragmentOffset := 0 }
    let info ←
      if 0 < basicLen then do
        let nextHeaderProto ← readBE packet 6 1
        pure { info with
          payloadLength := basicLen, packetValid := true, layer4Protocol := nextHeaderProto
          payloadOffset := sizeofIP6Header }
      else scanExtHeadersForLength packet fuel 6 sizeofIP6Header info
    pure { info with packetLength := u32 (info.payloadOffset + info.payloadLength) }

/-- `decode_ip4_packet(info, packet, capacity)`. -/
def decodeIp4Packet (info : IPInfo) (packet : Bytes) : Checked IPInfo :=
  if packet.length < sizeofIP4Header then pure (info.fail "packet smaller than basic IPv4 header")
  else do
    let totalLength ← readBE packet 2 2
    let protocol ← readBE packet 9 1
    let fragField ← readBE packet 6 2
    let identification ← readBE packet 4 2
    let source ← readAddr .ipv4 packet 12
    let dest ← readAddr .ipv4 packet 16
    pure { info with
      packetLength := totalLength
      payloadLength := sub32 totalLength sizeofIP4Header
      layer4Protocol := protocol
      payloadOffset := sizeofIP4Header
      moreFragments := fragField.testBit 13
      fragmentOffset := fragField % 0x2000 * 8
      identification := identification
      source := some source
      dest := some dest
      packetValid := true }

/-- `decode_ip_version(packet)`; `none` is `ipv_err`. -/
def decodeIpVersion (packet : Bytes) : Checked (Option XIPVer) := do
  let first ← readBE packet 0 1
  match first / 16 with
  | 4 => pure (some .ipv4)
  | 6 => pure (some .ipv6)
  | _ => pure none

/-- The checks at the end of `decode_ip_packet`. -/
def checkDecoded (info : IPInfo) : Checked IPInfo :=
  if info.packetValid = true then do
    liteAssert (info.failure = none)
    liteAssert (0 < info.payloadLength)
    -- this could be a valid packet value; making this line a DOS attack
    liteAssert (info.layer4Protocol ≠ 0)
    liteAssert (0 < info.payloadOffset)
    pure info
  else do
    liteAssert (info.failure ≠ none)
    pure info

/-- `decode_ip_packet(info, packet, capacity)`. -/
def decodeIpPacket (fuel : ℕ) (packet : Bytes) : Checked IPInfo :=
  if packet.length < 1 then checkDecoded (IPInfo.fail {} "zero-length packet")
  else do
    let version ← decodeIpVersion packet
    let info ← match version with
      | some .ipv4 => decodeIp4Packet {} packet
      | some .ipv6 => decodeIp6Packet fuel {} packet
      | none => pure (IPInfo.fail {} "invalid ip version field")
    checkDecoded info

end Embassies.Net
