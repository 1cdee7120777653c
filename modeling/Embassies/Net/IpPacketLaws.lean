import Embassies.Net.IpPacket

/-! When the IP packet decoder is safe.

    `Decodable` says for which packets `decode_ip_packet` returns without reading past the capacity or
    failing an assert, and with lengths that fit the packet. The IPv4 header and the plain IPv6 header
    give a condition on their fields. For a chain of extension headers, `OptionsEnd` and `HeadersEnd`
    describe the walks that come to an end: at a header or an option that is refused, or at the payload. -/

namespace Embassies.Net

open Checked List Nat IPInfo

variable {p : Bytes} {h len o t : ℕ} {info info' : IPInfo}

/-- The byte at `i`. -/
def byteAt (p : Bytes) (i : ℕ) : ℕ := ofBE (field p i 1)

lemma byteAt_lt (p : Bytes) (i : ℕ) : byteAt p i < 256 := by
  have hlen : (field p i 1).length ≤ 1 := length_take_le 1 _
  exact (ofBE_lt _).trans_le (Nat.pow_le_pow_right (by decide) hlen)

lemma readByte_of_fits {i : ℕ} (hi : i + 1 ≤ p.length) : readBE p i 1 = .ok (byteAt p i) :=
  readBE_of_fits hi

lemma readByte_eq_ok {i w : ℕ} : readBE p i 1 = .ok w ↔ i + 1 ≤ p.length ∧ w = byteAt p i := readBE_eq_ok

def IPInfo.jumbo (info : IPInfo) : Option ℕ :=
  if info.foundJumboLength = true then some info.payloadLength else none

@[simp] lemma jumbo_fail (info : IPInfo) (msg : String) : (info.fail msg).jumbo = info.jumbo := rfl

/-- Nothing has been decided yet. -/
structure IPInfo.Pending (info : IPInfo) : Prop where
  failure : info.failure = none
  packetValid : info.packetValid = false

/-- The packet was refused with a reason. -/
structure IPInfo.Refused (info : IPInfo) : Prop where
  failure : info.failure ≠ none
  packetValid : info.packetValid = false

lemma IPInfo.Pending.fail (h : info.Pending) (msg : String) : (info.fail msg).Refused :=
  ⟨Option.some_ne_none msg, h.packetValid⟩

/-! ### The options of one header -/

/-- The length checks that the option at `o` passes, with its length byte in the packet. -/
structure OptionHeld (p : Bytes) (h len o : ℕ) : Prop where
  head : u32 (o + sizeofXIP6Option) ≤ p.length
  headIn : sub32 (u32 (o + sizeofXIP6Option)) h ≤ len
  readable : o + sizeofXIP6Option ≤ p.length
  body : u32 (o + sizeofXIP6Option + byteAt p (o + 1)) ≤ p.length
  bodyIn : sub32 (u32 (o + byteAt p (o + 1))) h ≤ len

/-- The option at `o` is skipped, or gives the jumbogram length. -/
structure OptionTaken (p : Bytes) (o : ℕ) (jumbo jumbo' : Option ℕ) : Prop where
  other : byteAt p o ≠ ip6OptionTypeJumbogram → jumbo' = jumbo
  jumbogram : byteAt p o = ip6OptionTypeJumbogram →
    byteAt p (o + 1) = sizeofXIP6OptionJumbogram ∧ jumbo = none ∧ o + sizeofXIP6Option + 4 ≤ p.length ∧
      jumbo' = some (ofBE (field p (o + sizeofXIP6Option) 4))

/-- The option at `o` is refused once its lengths have been checked. -/
def OptionInvalid (p : Bytes) (o : ℕ) (jumbo : Option ℕ) : Prop :=
  (byteAt p o = ip6OptionTypeJumbogram ∧
    (byteAt p (o + 1) ≠ sizeofXIP6OptionJumbogram ∨ jumbo ≠ none)) ∨
  byteAt p (o + 1) = 0

/-- Where the option after the one at `o` starts. -/
def nextOption (p : Bytes) (o : ℕ) : ℕ := u32 (o + sizeofXIP6Option + byteAt p (o + 1))

/-- The options of the header at `h`, from `o` on, come to an end: one of them is refused, or the last
    one ends with the header. -/
inductive OptionsEnd (p : Bytes) (h len : ℕ) : ℕ → Option ℕ → Option (Option ℕ) → Prop
  | head {o : ℕ} {jumbo : Option ℕ} : p.length < u32 (o + sizeofXIP6Option) ∨
      len < sub32 (u32 (o + sizeofXIP6Option)) h → OptionsEnd p h len o jumbo none
  | body {o : ℕ} {jumbo : Option ℕ} : u32 (o + sizeofXIP6Option) ≤ p.length →
      sub32 (u32 (o + sizeofXIP6Option)) h ≤ len → o + sizeofXIP6Option ≤ p.length →
      p.length < u32 (o + sizeofXIP6Option + byteAt p (o + 1)) ∨
        len < sub32 (u32 (o + byteAt p (o + 1))) h → OptionsEnd p h len o jumbo none
  | invalid {o : ℕ} {jumbo : Option ℕ} : OptionHeld p h len o → OptionInvalid p o jumbo →
      OptionsEnd p h len o jumbo none
  | last {o : ℕ} {jumbo jumbo' : Option ℕ} : OptionHeld p h len o → OptionTaken p o jumbo jumbo' →
      byteAt p (o + 1) ≠ 0 → sub32 (nextOption p o) h = len → OptionsEnd p h len o jumbo (some jumbo')
  | more {o : ℕ} {jumbo jumbo' : Option ℕ} {r : Option (Option ℕ)} : OptionHeld p h len o →
      OptionTaken p o jumbo jumbo' → byteAt p (o + 1) ≠ 0 → sub32 (nextOption p o) h < len →
      OptionsEnd p h len (nextOption p o) jumbo' r → OptionsEnd p h len o jumbo r

def reported (info' : IPInfo) (goOn : Bool) : Option (Option ℕ) :=
  if goOn = true then some info'.jumbo else none

/-- What the option scan makes of a packet that was pending. -/
def IPInfo.Scanned (info' : IPInfo) (goOn : Bool) : Prop :=
  if goOn = true then info'.Pending else info'.Refused

lemma jumbo_eq_none : info.jumbo = none ↔ info.foundJumboLength = false := by
  rw [jumbo]
  cases info.foundJumboLength <;> simp

/-- The type of an option decides whether its length is the jumbogram length. -/
def takeOption (p : Bytes) (o : ℕ) (info : IPInfo) : Checked (IPInfo × Bool) :=
  if byteAt p o = ip6OptionTypeJumbogram then scanJumbogram p o (byteAt p (o + 1)) info
  else pure (info, true)

lemma takeOption_ok {goOn : Bool} (hpend : info.Pending) (h : takeOption p o info = .ok (info', goOn)) :
    info'.Scanned goOn ∧ ((goOn = false ∧ OptionInvalid p o info.jumbo) ∨
      (goOn = true ∧ OptionTaken p o info.jumbo info'.jumbo)) := by
  rw [takeOption] at h
  split at h
  case isFalse hother =>
    cases h
    exact ⟨hpend, .inr ⟨rfl, fun _ => rfl, fun htype => absurd htype hother⟩⟩
  case isTrue htype =>
    rw [scanJumbogram] at h
    split at h
    case isTrue hlen =>
      cases h
      exact ⟨hpend.fail _, .inl ⟨rfl, .inl ⟨htype, .inl hlen⟩⟩⟩
    case isFalse hlen =>
      split at h
      case isTrue hfound =>
        cases h
        refine ⟨hpend.fail _, .inl ⟨rfl, .inl ⟨htype, .inr ?_⟩⟩⟩
        simp [jumbo, hfound]
      case isFalse hfound =>
        obtain ⟨w, hw, h⟩ := of_bind h
        cases h
        obtain ⟨hfits, rfl⟩ := readBE_eq_ok.mp hw
        refine ⟨⟨hpend.failure, hpend.packetValid⟩, .inr ⟨rfl, fun hother => absurd htype hother, fun _ => ?_⟩⟩
        exact ⟨not_not.mp hlen, by simpa [jumbo] using hfound, hfits, rfl⟩

lemma takeOption_of_taken {jumbo' : Option ℕ} (hpend : info.Pending) (h : OptionTaken p o info.jumbo jumbo') :
    ∃ info', takeOption p o info = .ok (info', true) ∧ info'.Pending ∧ info'.jumbo = jumbo' := by
  rw [takeOption]
  by_cases htype : byteAt p o = ip6OptionTypeJumbogram
  · obtain ⟨hlen, hnone, hfits, rfl⟩ := h.jumbogram htype
    rw [if_pos htype, scanJumbogram, if_neg (not_not.mpr hlen)]
    simp only [jumbo_eq_none.mp hnone, Bool.false_eq_true, if_false, readBE_of_fits hfits,
      ok_bind, pure_eq_ok]
    exact ⟨_, rfl, ⟨hpend.failure, hpend.packetValid⟩, rfl⟩
  · rw [if_neg htype]
    exact ⟨info, rfl, hpend, (h.other htype).symm⟩

lemma takeOption_of_invalid (hpend : info.Pending) (h : OptionInvalid p o info.jumbo) :
    (∃ info', takeOption p o info = .ok (info', false) ∧ info'.Refused) ∨
      (takeOption p o info = .ok (info, true) ∧ byteAt p (o + 1) = 0) := by
  rw [takeOption]
  by_cases htype : byteAt p o = ip6OptionTypeJumbogram
  · rw [if_pos htype, scanJumbogram]
    by_cases hlen : byteAt p (o + 1) = sizeofXIP6OptionJumbogram
    · rcases h with ⟨-, hne | hfound⟩ | hzero
      · exact absurd hlen hne
      · have hfound : info.foundJumboLength = true := by
          rw [← Bool.not_eq_false]
          exact fun hno => hfound (jumbo_eq_none.mpr hno)
        rw [if_neg (not_not.mpr hlen), if_pos hfound]
        exact .inl ⟨_, rfl, hpend.fail _⟩
      · rw [hzero] at hlen
        cases hlen
    · rw [if_pos hlen]
      exact .inl ⟨_, rfl, hpend.fail _⟩
  · rw [if_neg htype]
    rcases h with ⟨hthat, -⟩ | hzero
    · exact absurd hthat htype
    · exact .inr ⟨rfl, hzero⟩

lemma scanOptionsLoop_held {fuel : ℕ} (hheld : OptionHeld p h len o) (info : IPInfo) :
    scanOptionsLoop p h len (fuel + 1) o info = (do
      let (info, goOn) ← takeOption p o info
      if goOn = false then pure (info, false)
      else if byteAt p (o + 1) = 0 then pure (info.fail "zero-length option", false)
      else if sub32 (nextOption p o) h = len then pure (info, true)
      else if len < sub32 (nextOption p o) h then .error .liteAssert
      else scanOptionsLoop p h len fuel (nextOption p o) info) := by
  have hbyte : o + 1 + 1 ≤ p.length := hheld.readable
  rw [scanOptionsLoop, if_neg (not_lt.mpr hheld.head), if_neg (not_lt.mpr hheld.headIn),
    readByte_of_fits hbyte, ok_bind, if_neg (not_lt.mpr hheld.body),
    if_neg (not_lt.mpr hheld.bodyIn), readByte_of_fits (by omega), ok_bind, takeOption]
  by_cases htype : byteAt p o = ip6OptionTypeJumbogram
  · simp only [if_pos htype]
    rfl
  · simp only [if_neg htype]
    rfl

/-- SCAN, forward: options that were scanned come to an end. -/
lemma optionsEnd_of_scan (fuel : ℕ) : ∀ {o : ℕ} {info info' : IPInfo} {goOn : Bool}, info.Pending →
    scanOptionsLoop p h len fuel o info = .ok (info', goOn) →
    OptionsEnd p h len o info.jumbo (reported info' goOn) ∧ info'.Scanned goOn := by
  induction fuel with
  | zero => intro o info info' goOn _ hscan; cases hscan
  | succ fuel ih =>
    intro o info info' goOn hpend hscan
    by_cases hhead : p.length < u32 (o + sizeofXIP6Option)
    · rw [scanOptionsLoop, if_pos hhead] at hscan
      cases hscan
      exact ⟨.head (.inl hhead), hpend.fail _⟩
    by_cases hheadIn : len < sub32 (u32 (o + sizeofXIP6Option)) h
    · rw [scanOptionsLoop, if_neg hhead, if_pos hheadIn] at hscan
      cases hscan
      exact ⟨.head (.inr hheadIn), hpend.fail _⟩
    have hreadable : o + sizeofXIP6Option ≤ p.length := by
      rw [scanOptionsLoop, if_neg hhead, if_neg hheadIn] at hscan
      obtain ⟨w, hw, -⟩ := of_bind hscan
      exact (readByte_eq_ok.mp hw).1
    have hbyte : o + 1 + 1 ≤ p.length := hreadable
    by_cases hbody : p.length < u32 (o + sizeofXIP6Option + byteAt p (o + 1))
    · rw [scanOptionsLoop, if_neg hhead, if_neg hheadIn, readByte_of_fits hbyte, ok_bind,
        if_pos hbody] at hscan
      cases hscan
      exact ⟨.body (not_lt.mp hhead) (not_lt.mp hheadIn) hreadable (.inl hbody), hpend.fail _⟩
    by_cases hbodyIn : len < sub32 (u32 (o + byteAt p (o + 1))) h
    · rw [scanOptionsLoop, if_neg hhead, if_neg hheadIn, readByte_of_fits hbyte, ok_bind,
        if_neg hbody, if_pos hbodyIn] at hscan
      cases hscan
      exact ⟨.body (not_lt.mp hhead) (not_lt.mp hheadIn) hreadable (.inr hbodyIn), hpend.fail _⟩
    have hheld : OptionHeld p h len o :=
      ⟨not_lt.mp hhead, not_lt.mp hheadIn, hreadable, not_lt.mp hbody, not_lt.mp hbodyIn⟩
    rw [scanOptionsLoop_held hheld] at hscan
    obtain ⟨⟨info1, goOn1⟩, htake, hscan⟩ := of_bind hscan
    obtain ⟨hscanned, ⟨rfl, hinvalid⟩ | ⟨rfl, htaken⟩⟩ := takeOption_ok hpend htake
    · cases hscan
      exact ⟨.invalid hheld hinvalid, hscanned⟩
    · have hpend1 : info1.Pending := hscanned
      simp only [Bool.true_eq_false, if_false] at hscan
      split at hscan
      case isTrue hzero =>
        cases hscan
        exact ⟨.invalid hheld (.inr hzero), hpend1.fail _⟩
      case isFalse hnonzero =>
        split at hscan
        case isTrue hlast =>
          cases hscan
          exact ⟨.last hheld htaken hnonzero hlast, hpend1⟩
        case isFalse hnot =>
          split at hscan
          case isTrue => cases hscan
          case isFalse hle =>
            obtain ⟨hend, hkeeps⟩ := ih hpend1 hscan
            exact ⟨.more hheld htaken hnonzero (lt_of_le_of_ne (not_lt.mp hle) hnot) hend, hkeeps⟩

lemma nextOption_advance (ho : o < 2 ^ 32) (hh : h < 2 ^ 32) (hin : sub32 o h ≤ 2048) :
    sub32 (nextOption p o) h = sub32 o h + sizeofXIP6Option + byteAt p (o + 1) := by
  have hbyte := byteAt_lt p (o + 1)
  simp only [nextOption, sub32, u32, sizeofXIP6Option] at hin ⊢
  omega

/-- SCAN, backward: options that come to an end are scanned, with a round for each byte of the header. -/
lemma scan_of_optionsEnd {jumbo : Option ℕ} {r : Option (Option ℕ)} (hend : OptionsEnd p h len o jumbo r)
    (hh : h < 2 ^ 32) (hlen : len ≤ 2048) : ∀ (fuel : ℕ) (info : IPInfo), info.Pending →
    info.jumbo = jumbo → o < 2 ^ 32 → sub32 o h < len → len ≤ sub32 o h + fuel + 1 →
    ∃ info' goOn, scanOptionsLoop p h len (fuel + 1) o info = .ok (info', goOn) ∧ reported info' goOn = r ∧
      info'.Scanned goOn := by
  induction hend with
  | @head o jumbo hhead =>
    intro fuel info hpend _ _ hlt hfuel
    rw [scanOptionsLoop]
    split
    case isTrue => exact ⟨_, _, rfl, rfl, hpend.fail _⟩
    case isFalse hno =>
      rw [if_pos (hhead.resolve_left hno)]
      exact ⟨_, _, rfl, rfl, hpend.fail _⟩
  | @body o jumbo hhead hheadIn hreadable hbody =>
    intro fuel info hpend _ _ hlt hfuel
    have hbyte : o + 1 + 1 ≤ p.length := hreadable
    rw [scanOptionsLoop, if_neg (not_lt.mpr hhead), if_neg (not_lt.mpr hheadIn), readByte_of_fits hbyte,
      ok_bind]
    split
    case isTrue => exact ⟨_, _, rfl, rfl, hpend.fail _⟩
    case isFalse hno =>
      rw [if_pos (hbody.resolve_left hno)]
      exact ⟨_, _, rfl, rfl, hpend.fail _⟩
  | @invalid o jumbo hheld hinvalid =>
    intro fuel info hpend hjumbo _ hlt hfuel
    rw [scanOptionsLoop_held hheld]
    rcases takeOption_of_invalid hpend (hjumbo ▸ hinvalid) with ⟨info', htake, hrefused⟩ | ⟨htake, hzero⟩
    · rw [htake, ok_bind]
      exact ⟨info', false, rfl, rfl, hrefused⟩
    · rw [htake, ok_bind]
      simp only [Bool.true_eq_false, if_false, hzero, if_true]
      exact ⟨_, _, rfl, rfl, hpend.fail _⟩
  | @last o jumbo jumbo' hheld htaken hnonzero hlast =>
    intro fuel info hpend hjumbo _ hlt hfuel
    obtain ⟨info', htake, hpend', rfl⟩ := takeOption_of_taken hpend (hjumbo ▸ htaken)
    rw [scanOptionsLoop_held hheld, htake, ok_bind]
    simp only [Bool.true_eq_false, if_false, if_neg hnonzero, if_pos hlast]
    exact ⟨info', true, rfl, rfl, hpend'⟩
  | @more o jumbo jumbo' r hheld htaken hnonzero hmore _ ih =>
    intro fuel info hpend hjumbo ho hlt hfuel
    obtain ⟨info', htake, hpend', rfl⟩ := takeOption_of_taken hpend (hjumbo ▸ htaken)
    have hadvance := nextOption_advance (p := p) ho hh (by omega)
    rw [scanOptionsLoop_held hheld, htake, ok_bind]
    simp only [Bool.true_eq_false, if_false, if_neg hnonzero, if_neg hmore.ne, if_neg (not_lt.mpr hmore.le)]
    simp only [sizeofXIP6Option] at hadvance
    obtain ⟨fuel, rfl⟩ := exists_eq_succ_of_ne_zero (show fuel ≠ 0 by omega)
    exact ih fuel info' hpend' rfl (u32_lt _) hmore (by omega)

/-! ### The chain of extension headers -/

/-- The length of the extension header at `h`. -/
def extHdrLen (p : Bytes) (h : ℕ) : ℕ := (byteAt p (h + 1) + 1) * 8

lemma extHdrLen_bounds (p : Bytes) (h : ℕ) : 8 ≤ extHdrLen p h ∧ extHdrLen p h ≤ 2048 := by
  have hbyte := byteAt_lt p (h + 1)
  rw [extHdrLen]
  omega

/-- An extension header at `h`, named by the byte at `t`, whose length byte is in the packet. -/
structure HeaderRead (p : Bytes) (t h : ℕ) : Prop where
  chain : u32 (t + 1) ≤ p.length
  readable : t + 1 ≤ p.length
  option : byteAt p t = ipProtoOptionHeader
  header : h + sizeofXIP6ExtensionHeader ≤ p.length

/-- The chain of headers from `h` on, named by the byte at `t`, comes to an end: it is refused, or the
    payload that the jumbogram length promises is in the packet. -/
inductive HeadersEnd (p : Bytes) : ℕ → ℕ → Option ℕ → Prop
  | chain {t h : ℕ} {jumbo : Option ℕ} : p.length < u32 (t + 1) → HeadersEnd p t h jumbo
  | missing {t h : ℕ} : u32 (t + 1) ≤ p.length → t + 1 ≤ p.length → byteAt p t ≠ ipProtoOptionHeader →
      HeadersEnd p t h none
  | payload {t h n : ℕ} : u32 (t + 1) ≤ p.length → t + 1 ≤ p.length →
      byteAt p t ≠ ipProtoOptionHeader → 0 < h → 0 < n → h + n ≤ p.length → HeadersEnd p t h (some n)
  | long {t h : ℕ} {jumbo : Option ℕ} : HeaderRead p t h → p.length < u32 (h + extHdrLen p h) →
      HeadersEnd p t h jumbo
  | refused {t h : ℕ} {jumbo : Option ℕ} : HeaderRead p t h → u32 (h + extHdrLen p h) ≤ p.length →
      OptionsEnd p h (extHdrLen p h) (u32 (h + sizeofXIP6ExtensionHeader)) jumbo none →
      HeadersEnd p t h jumbo
  | next {t h : ℕ} {jumbo jumbo' : Option ℕ} : HeaderRead p t h → u32 (h + extHdrLen p h) ≤ p.length →
      OptionsEnd p h (extHdrLen p h) (u32 (h + sizeofXIP6ExtensionHeader)) jumbo (some jumbo') →
      HeadersEnd p h (u32 (h + extHdrLen p h)) jumbo' → HeadersEnd p t h jumbo

/-- The payload that was found lies in the packet. -/
structure PayloadFits (p : Bytes) (info : IPInfo) : Prop where
  length_pos : 0 < info.payloadLength
  offset_pos : 0 < info.payloadOffset
  fits : info.payloadOffset + info.payloadLength ≤ p.length

/-- What `decode_ip_packet` asserts of a packet it takes. -/
structure IPInfo.Valid (info : IPInfo) : Prop where
  packetValid : info.packetValid = true
  failure : info.failure = none
  protocol : info.layer4Protocol ≠ 0

lemma scanned_cases {goOn : Bool} (hscanned : info'.Scanned goOn) :
    (goOn = true ∧ info'.Pending) ∨ (goOn = false ∧ info'.Refused) := by
  cases goOn with
  | true => exact .inl ⟨rfl, hscanned⟩
  | false => exact .inr ⟨rfl, hscanned⟩

lemma scanExtHeaders_header {fuel : ℕ} (hread : HeaderRead p t h) (info : IPInfo) :
    scanExtHeadersForLength p (fuel + 1) t h info =
      if p.length < u32 (h + extHdrLen p h) then
        .ok (info.fail "packet too short to contain claimed option header length")
      else (do
        let (info, foundInOptions) ← scanOptionsForLength info p h
          (u32 (h + sizeofXIP6ExtensionHeader)) (extHdrLen p h)
        if foundInOptions = false then pure info
        else scanExtHeadersForLength p fuel h (u32 (h + extHdrLen p h)) info) := by
  have hpos : extHdrLen p h ≠ 0 := by
    have := (extHdrLen_bounds p h).1
    omega
  have hbyte : h + 1 + 1 ≤ p.length := hread.header
  rw [scanExtHeadersForLength, if_neg (not_lt.mpr hread.chain), readByte_of_fits hread.readable,
    ok_bind, if_neg (not_not.mpr hread.option), readByte_of_fits hbyte, ok_bind]
  rw [extHdrLen] at hpos ⊢
  simp only [if_neg hpos]
  rfl

lemma scanExtHeaders_protocol {fuel : ℕ} (hchain : u32 (t + 1) ≤ p.length) (hreadable : t + 1 ≤ p.length)
    (hproto : byteAt p t ≠ ipProtoOptionHeader) (info : IPInfo) :
    scanExtHeadersForLength p (fuel + 1) t h info =
      if info.foundJumboLength = false then .ok (info.fail "Never found length field")
      else .ok { info with
        layer4Protocol := byteAt p t, payloadOffset := h, packetValid := true } := by
  rw [scanExtHeadersForLength, if_neg (not_lt.mpr hchain), readByte_of_fits hreadable, ok_bind,
    if_pos hproto]
  rfl

/-- CHAIN, forward: a chain that was scanned without harm comes to an end. -/
lemma headersEnd_of_scan (fuel : ℕ) : ∀ {t h : ℕ} {info info' : IPInfo}, info.Pending →
    scanExtHeadersForLength p fuel t h info = .ok info' →
    (info'.Valid ∧ (PayloadFits p info' → HeadersEnd p t h info.jumbo)) ∨
      (info'.Refused ∧ HeadersEnd p t h info.jumbo) := by
  induction fuel with
  | zero => intro t h info info' _ hscan; cases hscan
  | succ fuel ih =>
    intro t h info info' hpend hscan
    by_cases hchain : p.length < u32 (t + 1)
    · rw [scanExtHeadersForLength, if_pos hchain] at hscan
      cases hscan
      exact .inr ⟨hpend.fail _, .chain hchain⟩
    have hreadable : t + 1 ≤ p.length := by
      rw [scanExtHeadersForLength, if_neg hchain] at hscan
      obtain ⟨w, hw, -⟩ := of_bind hscan
      exact (readByte_eq_ok.mp hw).1
    by_cases hproto : byteAt p t ≠ ipProtoOptionHeader
    · rw [scanExtHeaders_protocol (not_lt.mp hchain) hreadable hproto] at hscan
      split at hscan
      case isTrue hmissing =>
        cases hscan
        rw [jumbo_eq_none.mpr hmissing]
        exact .inr ⟨hpend.fail _, .missing (not_lt.mp hchain) hreadable hproto⟩
      case isFalse hfound =>
        cases hscan
        have hjumbo : info.jumbo = some info.payloadLength := if_pos (Bool.not_eq_false _ ▸ hfound)
        refine .inl ⟨⟨rfl, hpend.failure, hproto⟩, ?_⟩
        intro hfits
        rw [hjumbo]
        exact .payload (not_lt.mp hchain) hreadable hproto hfits.offset_pos hfits.length_pos hfits.fits
    have hheader : h + sizeofXIP6ExtensionHeader ≤ p.length := by
      rw [scanExtHeadersForLength, if_neg hchain, readByte_of_fits hreadable, ok_bind,
        if_neg hproto] at hscan
      obtain ⟨w, hw, -⟩ := of_bind hscan
      exact (readByte_eq_ok.mp hw).1
    have hread : HeaderRead p t h := ⟨not_lt.mp hchain, hreadable, not_not.mp hproto, hheader⟩
    by_cases hlong : p.length < u32 (h + extHdrLen p h)
    · rw [scanExtHeaders_header hread, if_pos hlong] at hscan
      cases hscan
      exact .inr ⟨hpend.fail _, .long hread hlong⟩
    rw [scanExtHeaders_header hread, if_neg hlong] at hscan
    obtain ⟨⟨info1, goOn⟩, hoptions, hscan⟩ := of_bind hscan
    obtain ⟨hend, hscanned⟩ := optionsEnd_of_scan _ hpend hoptions
    obtain ⟨rfl, hpend1⟩ | ⟨rfl, hrefused⟩ := scanned_cases hscanned
    · rcases ih hpend1 hscan with ⟨hvalid, hrest⟩ | ⟨hrefused, hrest⟩
      · exact .inl ⟨hvalid, fun hfits => .next hread (not_lt.mp hlong) hend (hrest hfits)⟩
      · exact .inr ⟨hrefused, .next hread (not_lt.mp hlong) hend hrest⟩
    · cases hscan
      exact .inr ⟨hrefused, .refused hread (not_lt.mp hlong) hend⟩

lemma scanOptions_of_optionsEnd {jumbo : Option ℕ} {r : Option (Option ℕ)} (hp : p.length < 2 ^ 32)
    (hread : HeaderRead p t h) (hpend : info.Pending) (hjumbo : info.jumbo = jumbo)
    (hend : OptionsEnd p h (extHdrLen p h) (u32 (h + sizeofXIP6ExtensionHeader)) jumbo r) :
    ∃ info' goOn, scanOptionsForLength info p h (u32 (h + sizeofXIP6ExtensionHeader)) (extHdrLen p h) =
      .ok (info', goOn) ∧ reported info' goOn = r ∧ info'.Scanned goOn := by
  obtain ⟨hlo, hhi⟩ := extHdrLen_bounds p h
  have hheader : h + 2 ≤ p.length := hread.header
  have hstart : sub32 (u32 (h + sizeofXIP6ExtensionHeader)) h = 2 := by
    simp only [sub32, u32, sizeofXIP6ExtensionHeader]
    omega
  have hscan := scan_of_optionsEnd hend (by omega) hhi (extHdrLen p h - 1) info hpend hjumbo (u32_lt _) (by omega)
    (by omega)
  rwa [Nat.sub_add_cancel (by omega)] at hscan

/-- CHAIN, backward: a chain that comes to an end is scanned without harm. -/
lemma scan_of_headersEnd {jumbo : Option ℕ} (hp : p.length < 2 ^ 32) (hend : HeadersEnd p t h jumbo) :
    ∀ info : IPInfo, info.Pending → info.jumbo = jumbo →
    ∃ fuel info', scanExtHeadersForLength p fuel t h info = .ok info' ∧
      ((info'.Valid ∧ PayloadFits p info') ∨ info'.Refused) := by
  induction hend with
  | @chain t h jumbo hchain =>
    intro info hpend _
    exact ⟨1, _, by rw [scanExtHeadersForLength, if_pos hchain]; rfl, .inr (hpend.fail _)⟩
  | @missing t h hchain hreadable hproto =>
    intro info hpend hjumbo
    refine ⟨1, _, ?_, .inr (hpend.fail "Never found length field")⟩
    rw [scanExtHeaders_protocol hchain hreadable hproto, if_pos (jumbo_eq_none.mp hjumbo)]
  | @payload t h n hchain hreadable hproto hpos hlen hfits =>
    intro info hpend hjumbo
    have hfound : ¬info.foundJumboLength = false := by
      intro hno
      rw [jumbo_eq_none.mpr hno] at hjumbo
      cases hjumbo
    have hn : info.payloadLength = n := by
      rw [IPInfo.jumbo, if_pos (Bool.not_eq_false _ ▸ hfound)] at hjumbo
      exact Option.some.inj hjumbo
    refine ⟨1, _, by rw [scanExtHeaders_protocol hchain hreadable hproto, if_neg hfound], .inl ?_⟩
    exact ⟨⟨rfl, hpend.failure, hproto⟩, ⟨hn ▸ hlen, hpos, hn ▸ hfits⟩⟩
  | @long t h jumbo hread hlong =>
    intro info hpend _
    exact ⟨1, _, by rw [scanExtHeaders_header hread, if_pos hlong], .inr (hpend.fail _)⟩
  | @refused t h jumbo hread hfits hoptions =>
    intro info hpend hjumbo
    obtain ⟨info', goOn, hscan, hreported, hscanned⟩ :=
      scanOptions_of_optionsEnd hp hread hpend hjumbo hoptions
    obtain ⟨rfl, -⟩ | ⟨rfl, hrefused⟩ := scanned_cases hscanned
    · cases hreported
    · refine ⟨1, info', ?_, .inr hrefused⟩
      rw [scanExtHeaders_header hread, if_neg (not_lt.mpr hfits), hscan, ok_bind]
      rfl
  | @next t h jumbo jumbo' hread hfits hoptions _ ih =>
    intro info hpend hjumbo
    obtain ⟨info', goOn, hscan, hreported, hscanned⟩ :=
      scanOptions_of_optionsEnd hp hread hpend hjumbo hoptions
    obtain ⟨rfl, hpend'⟩ | ⟨rfl, -⟩ := scanned_cases hscanned
    · obtain ⟨fuel, info'', hrest, hdone⟩ := ih info' hpend' (Option.some.inj hreported)
      refine ⟨fuel + 1, info'', ?_, hdone⟩
      rw [scanExtHeaders_header hread, if_neg (not_lt.mpr hfits), hscan, ok_bind]
      exact hrest
    · cases hreported

/-! ### Whole packets -/

lemma checkDecoded_eq_ok : checkDecoded info = .ok info' ↔ info' = info ∧
    ((info.Valid ∧ 0 < info.payloadLength ∧ 0 < info.payloadOffset) ∨ info.Refused) := by
  rw [checkDecoded]
  split
  case isTrue hvalid =>
    have hnot : ¬info.Refused := fun hrefused => by simp [hrefused.packetValid] at hvalid
    simp only [bind_eq_ok, liteAssert_eq_ok, pure_eq_ok, Except.ok.injEq]
    constructor
    · rintro ⟨_, hfailure, _, hlength, _, hproto, _, hoffset, rfl⟩
      exact ⟨rfl, .inl ⟨⟨hvalid, hfailure, hproto⟩, hlength, hoffset⟩⟩
    · rintro ⟨rfl, ⟨hinfo, hlength, hoffset⟩ | hrefused⟩
      · exact ⟨(), hinfo.failure, (), hlength, (), hinfo.protocol, (), hoffset, rfl⟩
      · exact absurd hrefused hnot
  case isFalse hinvalid =>
    simp only [bind_eq_ok, liteAssert_eq_ok, pure_eq_ok, Except.ok.injEq]
    constructor
    · rintro ⟨_, hfailure, rfl⟩
      exact ⟨rfl, .inr ⟨hfailure, Bool.eq_false_iff.mpr hinvalid⟩⟩
    · rintro ⟨rfl, ⟨hinfo, -⟩ | hrefused⟩
      · exact absurd hinfo.packetValid hinvalid
      · exact ⟨(), hrefused.failure, rfl⟩

/-- The decoder returns, and a packet that it takes lies in the buffer. -/
def SafelyDecoded (p : Bytes) : Prop :=
  ∃ fuel info, decodeIpPacket fuel p = .ok info ∧ (info.packetValid = true →
    info.payloadOffset + info.payloadLength = info.packetLength ∧ info.packetLength ≤ p.length)

/-- The fields of an IPv4 header that the decoder relies on. -/
structure Ip4Decodable (p : Bytes) : Prop where
  length_gt : sizeofIP4Header < ofBE (field p 2 2)
  length_le : ofBE (field p 2 2) ≤ p.length
  protocol : byteAt p 9 ≠ 0

/-- The same for an IPv6 header, or the chain of headers behind one without a length. -/
structure Ip6Decodable (p : Bytes) : Prop where
  basic : 0 < ofBE (field p 4 2) → byteAt p 6 ≠ 0 ∧ sizeofIP6Header + ofBE (field p 4 2) ≤ p.length
  chain : ofBE (field p 4 2) = 0 → HeadersEnd p 6 sizeofIP6Header none

/-- The packets that are decoded safely. -/
structure Decodable (p : Bytes) : Prop where
  ip4 : sizeofIP4Header ≤ p.length → byteAt p 0 / 16 = 4 → Ip4Decodable p
  ip6 : sizeofIP6Header ≤ p.length → byteAt p 0 / 16 = 6 → Ip6Decodable p

/-- What the end of `decode_ip_packet` wants of what was decoded. -/
def Harmless (p : Bytes) (info : IPInfo) : Prop :=
  (info.Valid ∧ PayloadFits p info ∧ info.payloadOffset + info.payloadLength = info.packetLength) ∨
    info.Refused

lemma safelyDecoded_iff {decode : ℕ → Checked IPInfo}
    (h : ∀ fuel, decodeIpPacket fuel p = (decode fuel >>= checkDecoded)) :
    SafelyDecoded p ↔ ∃ fuel info, decode fuel = .ok info ∧ Harmless p info := by
  constructor
  · rintro ⟨fuel, info, hdecode, hfits⟩
    rw [h] at hdecode
    obtain ⟨info1, hdecode, hcheck⟩ := of_bind hdecode
    obtain ⟨rfl, ⟨hvalid, hlength, hoffset⟩ | hrefused⟩ := checkDecoded_eq_ok.mp hcheck
    · obtain ⟨hsum, hle⟩ := hfits hvalid.packetValid
      exact ⟨fuel, info, hdecode, .inl ⟨hvalid, ⟨hlength, hoffset, hsum ▸ hle⟩, hsum⟩⟩
    · exact ⟨fuel, info, hdecode, .inr hrefused⟩
  · rintro ⟨fuel, info, hdecode, ⟨hvalid, hfits, hsum⟩ | hrefused⟩
    · refine ⟨fuel, info, ?_, fun _ => ⟨hsum, hsum ▸ hfits.fits⟩⟩
      rw [h, hdecode, ok_bind]
      exact checkDecoded_eq_ok.mpr ⟨rfl, .inl ⟨hvalid, hfits.length_pos, hfits.offset_pos⟩⟩
    · refine ⟨fuel, info, ?_, fun hvalid => ?_⟩
      · rw [h, hdecode, ok_bind]
        exact checkDecoded_eq_ok.mpr ⟨rfl, .inr hrefused⟩
      · rw [hrefused.packetValid] at hvalid
        cases hvalid

lemma pending_empty : IPInfo.Pending {} := ⟨rfl, rfl⟩

/-- What is decoded of an IPv4 packet that has its header. -/
def ip4Info (p : Bytes) (hlen : sizeofIP4Header ≤ p.length) : IPInfo where
  packetLength := ofBE (field p 2 2)
  payloadLength := sub32 (ofBE (field p 2 2)) sizeofIP4Header
  layer4Protocol := byteAt p 9
  payloadOffset := sizeofIP4Header
  moreFragments := (ofBE (field p 6 2)).testBit 13
  fragmentOffset := ofBE (field p 6 2) % 0x2000 * 8
  identification := ofBE (field p 4 2)
  source := some (addrAt .ipv4 p 12 (Nat.le_trans (by decide) hlen))
  dest := some (addrAt .ipv4 p 16 hlen)
  packetValid := true

lemma decodeIp4Packet_eq (hlen : sizeofIP4Header ≤ p.length) :
    decodeIp4Packet {} p = .ok (ip4Info p hlen) := by
  have hwithin : ∀ n ≤ 20, n ≤ p.length := fun n hn => hn.trans hlen
  rw [decodeIp4Packet, if_neg (not_lt.mpr hlen), readBE_of_fits (hwithin _ (by decide)), ok_bind,
    readByte_of_fits (hwithin _ (by decide)), ok_bind, readBE_of_fits (hwithin _ (by decide)),
    ok_bind, readBE_of_fits (hwithin _ (by decide)), ok_bind,
    readAddr_of_fits (hwithin _ (by decide)), ok_bind, readAddr_of_fits hlen, ok_bind]
  rfl

/-- What is decoded of an IPv6 packet before its length is known. -/
def ip6Start (p : Bytes) (hlen : sizeofIP6Header ≤ p.length) : IPInfo where
  source := some (addrAt .ipv6 p 8 (Nat.le_trans (by decide) hlen))
  dest := some (addrAt .ipv6 p 24 hlen)

/-- What is decoded of an IPv6 packet whose header has its length. -/
def ip6Info (p : Bytes) (hlen : sizeofIP6Header ≤ p.length) : IPInfo :=
  { ip6Start p hlen with
    payloadLength := ofBE (field p 4 2), packetValid := true, layer4Protocol := byteAt p 6
    payloadOffset := sizeofIP6Header
    packetLength := u32 (sizeofIP6Header + ofBE (field p 4 2)) }

lemma decodeIp6Packet_eq {fuel : ℕ} (hlen : sizeofIP6Header ≤ p.length) : decodeIp6Packet fuel {} p =
    if 0 < ofBE (field p 4 2) then .ok (ip6Info p hlen) else (do
      let info ← scanExtHeadersForLength p fuel 6 sizeofIP6Header (ip6Start p hlen)
      pure { info with packetLength := u32 (info.payloadOffset + info.payloadLength) }) := by
  have hwithin : ∀ n ≤ 40, n ≤ p.length := fun n hn => hn.trans hlen
  rw [decodeIp6Packet, if_neg (not_lt.mpr hlen), readAddr_of_fits (hwithin _ (by decide)),
    ok_bind, readAddr_of_fits hlen, ok_bind, readBE_of_fits (hwithin _ (by decide)),
    ok_bind]
  simp only [readByte_of_fits (hwithin (6 + 1) (by decide)), ok_bind]
  rfl

lemma harmless_ip4Info (hlen : sizeofIP4Header ≤ p.length) :
    Harmless p (ip4Info p hlen) ↔ Ip4Decodable p := by
  have htotal : ofBE (field p 2 2) < 65536 :=
    (ofBE_lt _).trans_le (Nat.pow_le_pow_right (by decide) (length_take_le 2 _))
  constructor
  · rintro (⟨hvalid, hfits, hsum⟩ | hrefused)
    · have hpos := hfits.length_pos
      have hfit := hfits.fits
      simp only [ip4Info, sizeofIP4Header, sub32] at hpos hfit hsum
      exact ⟨by simp only [sizeofIP4Header]; omega, by omega, hvalid.protocol⟩
    · cases hrefused.packetValid
  · intro h
    have hgt := h.length_gt
    have hle := h.length_le
    simp only [sizeofIP4Header] at hgt
    refine .inl ⟨⟨rfl, rfl, h.protocol⟩, ⟨?_, (by decide : 0 < sizeofIP4Header), ?_⟩, ?_⟩
    · simp only [ip4Info, sizeofIP4Header, sub32]
      omega
    · simp only [ip4Info, sizeofIP4Header, sub32]
      omega
    · simp only [ip4Info, sizeofIP4Header, sub32]
      omega

lemma harmless_ip6Info (hlen : sizeofIP6Header ≤ p.length) (hbasic : 0 < ofBE (field p 4 2)) :
    Harmless p (ip6Info p hlen) ↔ Ip6Decodable p := by
  have hlt : ofBE (field p 4 2) < 65536 :=
    (ofBE_lt _).trans_le (Nat.pow_le_pow_right (by decide) (length_take_le 2 _))
  constructor
  · rintro (⟨hvalid, hfits, -⟩ | hrefused)
    · exact ⟨fun _ => ⟨hvalid.protocol, hfits.fits⟩, fun hzero => absurd hzero hbasic.ne'⟩
    · cases hrefused.packetValid
  · intro h
    obtain ⟨hproto, hfits⟩ := h.basic hbasic
    refine .inl ⟨⟨rfl, rfl, hproto⟩, ⟨hbasic, (by decide : 0 < sizeofIP6Header), hfits⟩, ?_⟩
    simp only [ip6Info, sizeofIP6Header, u32]
    omega

lemma chain_iff (hp : p.length < 2 ^ 32) (hlen : sizeofIP6Header ≤ p.length) (hbasic : ofBE (field p 4 2) = 0) :
    (∃ fuel info, decodeIp6Packet fuel {} p = .ok info ∧ Harmless p info) ↔ Ip6Decodable p := by
  have hpend : (ip6Start p hlen).Pending := ⟨rfl, rfl⟩
  constructor
  · rintro ⟨fuel, info, hdecode, hharmless⟩
    rw [decodeIp6Packet_eq hlen, if_neg hbasic.not_gt] at hdecode
    obtain ⟨info1, hscan, hdecode⟩ := of_bind hdecode
    cases hdecode
    refine ⟨fun hpos => absurd hbasic hpos.ne', fun _ => ?_⟩
    obtain ⟨hvalid, hend⟩ | ⟨-, hend⟩ := headersEnd_of_scan _ hpend hscan
    · rcases hharmless with ⟨-, hfits, -⟩ | hrefused
      · exact hend ⟨hfits.length_pos, hfits.offset_pos, hfits.fits⟩
      · have hno := hrefused.packetValid
        rw [hvalid.packetValid] at hno
        cases hno
    · exact hend
  · intro h
    obtain ⟨fuel, info, hscan, hdone⟩ := scan_of_headersEnd hp (h.chain hbasic) _ hpend rfl
    refine ⟨fuel, { info with packetLength := u32 (info.payloadOffset + info.payloadLength) }, ?_, ?_⟩
    · rw [decodeIp6Packet_eq hlen, if_neg hbasic.not_gt, hscan]
      rfl
    · rcases hdone with ⟨hvalid, hfits⟩ | hrefused
      · have hsum : info.payloadOffset + info.payloadLength < 2 ^ 32 := hfits.fits.trans_lt hp
        refine .inl ⟨⟨hvalid.packetValid, hvalid.failure, hvalid.protocol⟩,
          ⟨hfits.length_pos, hfits.offset_pos, hfits.fits⟩, ?_⟩
        exact (u32_of_lt hsum).symm
      · exact .inr ⟨hrefused.failure, hrefused.packetValid⟩

lemma decodeIpPacket_eq (hlen : 1 ≤ p.length) (fuel : ℕ) : decodeIpPacket fuel p =
    ((match byteAt p 0 / 16 with
      | 4 => decodeIp4Packet {} p
      | 6 => decodeIp6Packet fuel {} p
      | _ => .ok (fail {} "invalid ip version field")) >>= checkDecoded) := by
  rw [decodeIpPacket, if_neg (not_lt.mpr hlen), decodeIpVersion, readByte_of_fits hlen, ok_bind]
  generalize byteAt p 0 / 16 = version
  match version with
  | 0 | 1 | 2 | 3 | 4 | 5 | 6 => rfl
  | _ + 7 => rfl

lemma safelyDecoded_ip4 (hlen : sizeofIP4Header ≤ p.length) (h4 : byteAt p 0 / 16 = 4) :
    SafelyDecoded p ↔ Ip4Decodable p := by
  rw [safelyDecoded_iff (decodeIpPacket_eq (le_trans (by decide) hlen)), ← harmless_ip4Info hlen]
  simp only [h4, decodeIp4Packet_eq hlen]
  exact ⟨fun ⟨_, _, hdecode, hharmless⟩ => Except.ok.inj hdecode ▸ hharmless,
    fun hharmless => ⟨0, _, rfl, hharmless⟩⟩

lemma safelyDecoded_ip6 (hp : p.length < 2 ^ 32) (hlen : sizeofIP6Header ≤ p.length) (h6 : byteAt p 0 / 16 = 6)
    : SafelyDecoded p ↔ Ip6Decodable p := by
  rw [safelyDecoded_iff (decodeIpPacket_eq (Nat.le_trans (by decide) hlen))]
  simp only [h6]
  rcases Nat.eq_zero_or_pos (ofBE (field p 4 2)) with hbasic | hbasic
  · exact chain_iff hp hlen hbasic
  · rw [← harmless_ip6Info hlen hbasic]
    simp only [decodeIp6Packet_eq hlen, if_pos hbasic]
    exact ⟨fun ⟨_, _, hdecode, hharmless⟩ => Except.ok.inj hdecode ▸ hharmless,
      fun hharmless => ⟨0, _, rfl, hharmless⟩⟩

/-- SAFETY: the decoder is safe exactly on the packets whose fields are in order: an IPv4 packet's
    length covers more than its header and no more than the buffer, an IPv6 packet's payload lies in the
    buffer or its chain of extension headers comes to an end, and neither names protocol zero. -/
theorem safelyDecoded_iff_decodable (packet : Bytes) (hcapacity : packet.length < 2 ^ 32) :
    SafelyDecoded packet ↔ Decodable packet := by
  by_cases hempty : packet.length < 1
  · refine iff_of_true ⟨0, IPInfo.fail {} "zero-length packet", ?_, nofun⟩ ?_
    · rw [decodeIpPacket, if_pos hempty]
      rfl
    · refine ⟨fun hlen => ?_, fun hlen => ?_⟩
      · simp only [sizeofIP4Header] at hlen
        omega
      · simp only [sizeofIP6Header] at hlen
        omega
  have hdecode := safelyDecoded_iff (decodeIpPacket_eq (not_lt.mp hempty))
  by_cases h4 : byteAt packet 0 / 16 = 4
  · have h6 : byteAt packet 0 / 16 ≠ 6 := by omega
    by_cases hshort : packet.length < sizeofIP4Header
    · refine iff_of_true ?_ ⟨fun hlen => absurd hlen (not_le.mpr hshort), fun _ hno => absurd hno h6⟩
      simp only [h4] at hdecode
      exact hdecode.mpr ⟨0, _, if_pos hshort, .inr (pending_empty.fail _)⟩
    · rw [safelyDecoded_ip4 (not_lt.mp hshort) h4]
      exact ⟨fun h => ⟨fun _ _ => h, fun _ hno => absurd hno h6⟩, fun h => h.ip4 (not_lt.mp hshort) h4⟩
  by_cases h6 : byteAt packet 0 / 16 = 6
  · by_cases hshort : packet.length < sizeofIP6Header
    · refine iff_of_true ?_ ⟨fun _ hno => absurd hno h4, fun hlen => absurd hlen (not_le.mpr hshort)⟩
      simp only [h6] at hdecode
      exact hdecode.mpr ⟨0, _, if_pos hshort, .inr (pending_empty.fail _)⟩
    · rw [safelyDecoded_ip6 hcapacity (not_lt.mp hshort) h6]
      exact ⟨fun h => ⟨fun _ hno => absurd hno h4, fun _ _ => h⟩, fun h => h.ip6 (not_lt.mp hshort) h6⟩
  · refine iff_of_true (hdecode.mpr ⟨0, IPInfo.fail {} "invalid ip version field", ?_,
      .inr (pending_empty.fail _)⟩) ⟨fun _ hno => absurd hno h4, fun _ hno => absurd hno h6⟩
    split
    case h_1 hno => exact absurd hno h4
    case h_2 hno => exact absurd hno h6
    case h_3 => rfl

def smallIp4Packet (totalLength : UInt8) : Bytes :=
  [0x45, 0, 0, totalLength, 0, 0, 0, 0, 0xff, 17, 0, 0, 10, 0, 0, 1, 10, 0, 0, 2, 7]

theorem safelyDecoded_iff_decodable_small :
    Decodable (smallIp4Packet 21) ∧ SafelyDecoded (smallIp4Packet 21) := by
  have hdecodable : Decodable (smallIp4Packet 21) :=
    ⟨fun _ _ => ⟨by decide, by decide, by decide⟩, fun hlen => absurd hlen (by decide)⟩
  exact ⟨hdecodable, (safelyDecoded_iff_decodable _ (by decide)).mpr hdecodable⟩

/-- NO PAYLOAD: a packet whose total length is that of its header stops the process. -/
theorem not_always_safelyDecoded : ¬∀ packet : Bytes, packet.length < 2 ^ 32 → SafelyDecoded packet := by
  intro hclaim
  have hsafe := hclaim (smallIp4Packet 20) (by decide)
  have hdecodable := (safelyDecoded_ip4 (by decide) (by decide)).mp hsafe
  exact absurd hdecodable.length_gt (by decide)

end Embassies.Net
