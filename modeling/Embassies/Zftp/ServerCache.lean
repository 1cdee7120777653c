import Embassies.Zftp.FileServer

/-! The reply cache of `ZFileServer` is transparent.

    In every reachable state the cached buffer is the reply to the cached request, and every reply sent so far is the
    one a server without a cache sends. Recycling the cached buffer for another request is where the source can break
    this, and `Recyclable` says when it does not: the request takes the buffer's place in the cache, the buffer has the
    size of the reply, and the blocks of both replies are cut at the same places. -/

namespace Embassies.Zftp

open Checked ZFileServer List FileResult Nat WireFileRequest Hash Except

variable {zhash : Bytes → Hash} {answer : Hash → FileResult} {c c₀ : ZBlockCache}
  {req : WireFileRequest}
variable {t : MerkleTree} {s : ZFileServer} {r : WireFileRequest} {result : FileResult} {s' : ZFileServer}
  {other : WireFileRequest} {c' : ZBlockCache} {v v' : ValidatedZCB} {zcb : Datagram} {len : ℕ} (k : ℕ)

/-! ### Filling a buffer -/

/-- The files behind the server: a valid result is only delivered for a file that has what the request asks for. -/
structure Provides (zhash : Bytes → Hash) (answer : Hash → FileResult) (c : ZBlockCache) : Prop where
  sound : c.Sound zhash
  serves : ∀ (req : WireFileRequest) (fileHash : Hash) (t : MerkleTree),
    answer req.fileHash = .valid fileHash t → Serves zhash t c (getAvailableDataRange t req)

lemma Provides.congr (h : Provides zhash answer c₀) (hs : c.Sound zhash) (hview : ∀ k, c.view k = c₀.view k)
    : Provides zhash answer c := by
  refine ⟨hs, ?_⟩
  intro req fileHash t hans
  exact (h.serves req fileHash t hans).congr hs hview

/-- The buffer takes a valid result's reply to the request. -/
def Takes (answer : Hash → FileResult) (req : WireFileRequest) (v : ValidatedZCB) : Prop :=
  ∀ fileHash t, answer req.fileHash = .valid fileHash t → BufferFits v t req

/-- FILL: what is filled in depends on the cache only through its view, and the view stays. -/
lemma fillReply_congr (hp : Provides zhash answer c) (hp0 : Provides zhash answer c₀)
    (hview : ∀ k, c₀.view k = c.view k) (hv : Takes answer req v)
    (h : (answer req.fileHash).fillReply c v req = .ok (c', v')) : c'.Sound zhash ∧ (∀ k, c'.view k = c.view k) ∧
      ∃ c0', (answer req.fileHash).fillReply c₀ v req = .ok (c0', v') := by
  cases hans : answer req.fileHash with
  | valid fileHash t =>
    rw [hans] at h
    obtain ⟨rs, hrs, hfront, hread⟩ := fillReply_eq_ok.mp h
    have hlen : rs.length = req.numTreeLocations := by rw [← hrs.length_eq, length_range']
    obtain ⟨hs', hview', c0', hread0⟩ := readFrom_congr zftpBlockSize (hp.serves req fileHash t hans)
      (hp0.serves req fileHash t hans) hview (readHead_start fileHash (hv fileHash t hans) hlen) (fun _ => rfl) hread
    exact ⟨hs', hview', c0', fillReply_eq_ok.mpr ⟨rs, hrs, hfront, hread0⟩⟩
  | error fileHash code msg =>
    rw [hans] at h
    obtain ⟨v1, hw, h⟩ := of_bind h
    cases h
    exact ⟨hp.sound, fun _ => rfl, c₀, by simp only [FileResult.fillReply, hw, ok_bind, pure_eq_ok]⟩

lemma takes_fresh (h : (answer req.fileHash).fillReply c (.fresh ((answer req.fileHash).getReplySize req)) req =
      .ok (c', v')) : Takes answer req (.fresh ((answer req.fileHash).getReplySize req)) := by
  intro fileHash t hans
  rw [hans] at h ⊢
  exact bufferFits_fresh (size_of_fill h)

lemma cachelessReply_eq (h : (answer req.fileHash).fillReply c (.fresh ((answer req.fileHash).getReplySize req)) req =
      .ok (c', v')) : cachelessReply answer c req = .ok v'.data := by
  rw [cachelessReply]
  simp only [h, ok_bind, pure_eq_ok]

/-! ### Recycling a buffer -/

/-- No whole block that the request asks for has the zero hash. -/
def NonzeroBlocks (answer : Hash → FileResult) (req : WireFileRequest) : Prop :=
  ∀ fileHash t, answer req.fileHash = .valid fileHash t →
    ∀ k, (getAvailableDataRange t req).start ≤ k * zftpBlockSize →
      (k + 1) * zftpBlockSize ≤ (getAvailableDataRange t req).stop → (t.leaf k).hash ≠ Hash.zero

/-- The cached buffer and its length belong to the cached request. -/
structure Cached (answer : Hash → FileResult) (c₀ : ZBlockCache) (req : WireFileRequest)
    (result : FileResult) (v : ValidatedZCB) (len : ℕ) : Prop where
  request : req.WellFormed
  result : result = answer req.fileHash
  length : len = (answer req.fileHash).getReplySize req
  nonzero : NonzeroBlocks answer req
  filled : ∃ c', (answer req.fileHash).fillReply c₀
    (.fresh ((answer req.fileHash).getReplySize req)) req = .ok (c', v)

lemma drop_take_fileBytes {view : Hash → ZBlockCacheRecord} {a n d m : ℕ} (h : d + m ≤ n) :
    ((fileBytes t view a n).drop d).take m = fileBytes t view (a + d) m := by
  have hsplit : fileBytes t view a n = fileBytes t view a d ++ (fileBytes t view (a + d) m ++
      fileBytes t view (a + d + m) (n - (d + m))) := by
    rw [fileBytes_append, fileBytes_append]
    congr 1
    omega
  rw [hsplit, drop_left' (length_fileBytes view a d), take_left' (length_fileBytes view _ m)]

lemma fileBytes_block {range : DataRange} {k : ℕ} (h : Serves zhash t c range) (hlo : range.start ≤ k * zftpBlockSize)
    (hhi : (k + 1) * zftpBlockSize ≤ range.stop) :
    fileBytes t c.view (k * zftpBlockSize) zftpBlockSize = (c.view (t.leaf k).hash).data := by
  have hpos := zftpBlockSize_pos
  have hblk : k * zftpBlockSize / zftpBlockSize = k := mul_div_left _ hpos
  have hcut : k * zftpBlockSize % zftpBlockSize = 0 := mul_mod_left _ _
  rw [succ_mul] at hhi
  obtain ⟨-, -, hvalid⟩ := h.blocks (k * zftpBlockSize) hlo (by omega)
  rw [hblk] at hvalid
  have hlen := (h.sound.view (t.leaf k).hash).1.length hvalid
  have hpiece := @piece_eq_fileBytes t c.view (k * zftpBlockSize) zftpBlockSize
    (by rw [hblk]; exact hlen) (by rw [hcut, zero_add])
  rw [hblk, hcut, drop_zero, take_of_length_le hlen.le] at hpiece
  exact hpiece.symm

lemma block_cut {p start k : ℕ} (h : start % zftpBlockSize = 0) :
    (p + (k * zftpBlockSize - start)) % zftpBlockSize = p % zftpBlockSize := by
  have hzero : (k * zftpBlockSize - start) % zftpBlockSize = 0 :=
    sub_mod_eq_zero_of_mod_eq ((mul_mod_left _ _).trans h.symm)
  rw [add_mod, hzero, add_zero, mod_mod]

/-- SLOTS: in a cached buffer, a slot with a hash other than zero holds the block of that hash, at the
    place where the cached request's replies cut the buffer. -/
lemma Cached.slot {i : ℕ} {h : Hash} (hp0 : Provides zhash answer c₀) (hcached : Cached answer c₀ req result v len)
    (hslot : v.hashes[i]? = some h) (hne : h ≠ Hash.zero) :
    ∃ p, i = p / zftpBlockSize ∧ p % zftpBlockSize = payloadOffset req % zftpBlockSize ∧
      (v.data.drop p).take zftpBlockSize = (c₀.view h).data.map some := by
  obtain ⟨c', hfill⟩ := hcached.filled
  have htakes := takes_fresh hfill
  cases hans : answer req.fileHash with
  | error fileHash code msg =>
    rw [hans] at hfill
    obtain ⟨v1, hw, hfill⟩ := of_bind hfill
    cases hfill
    obtain ⟨-, rfl⟩ := ValidatedZCB.write_eq_ok.mp hw
    dsimp only at hslot
    exact absurd (ValidatedZCB.eq_zero_of_mem_fresh (mem_of_getElem? hslot)) hne
  | valid fileHash t =>
    have hserves := hp0.serves req fileHash t hans
    have hv := htakes fileHash t hans
    rw [hans] at hfill hv
    simp only [getReplySize_valid, fillReply_valid] at hfill hv
    have hsize := size_of_fill hfill
    obtain ⟨-, halign, hdone⟩ := fillReply_done hcached.request hserves hv hfill
    have hdata := filled_data hserves hv (length_fresh_reply hsize) hdone
    rw [payloadOut_eq hserves ((@blank_frontWritten fileHash t req hsize).slotsAgree
      (hcached.nonzero fileHash t hans))] at hdata
    rcases hdone.slots i h hslot with hold | ⟨k, hk, hk', rfl, rfl⟩
    · exact absurd ((@blank_frontWritten fileHash t req hsize).slots _ (mem_of_getElem? hold)) hne
    · refine ⟨_, rfl, ?_, ?_⟩
      · exact block_cut (halign k hk hk')
      · rw [Nat.succ_mul] at hk'
        rw [hdata, ← drop_drop, drop_left' (length_front fileHash _ _), ← map_drop, ← map_take,
          drop_take_fileBytes (by omega), Nat.add_sub_cancel' hk,
          fileBytes_block hserves hk (by rw [Nat.succ_mul]; exact hk')]

lemma filled_length {fileHash : Hash} (hserves : Serves zhash t c (getAvailableDataRange t req))
    (hv : BufferFits v t req) (hdone : Filled fileHash t c.view req v v') : v'.data.length = v.data.length := by
  have hfits := hv.fits
  have hfront := @length_frontWritten fileHash t v req (by omega)
  have hdata := hdone.data
  rw [Nat.sub_self, Nat.add_zero] at hdata
  have hlen : (payloadOut fileHash t c.view req v).length = _ := length_payloadOut hserves hv
  rw [hdata, length_splice, hfront]
  rw [hfront]
  exact (congrArg _ hlen).trans_le hfits

lemma getReplySize_lt (result : FileResult) (req : WireFileRequest) : result.getReplySize req < 2 ^ 32 := by
  cases result with
  | valid fileHash t => exact u32_lt _
  | error fileHash code msg => exact u32_lt _

lemma Cached.lengths (hp0 : Provides zhash answer c₀) (hcached : Cached answer c₀ req result v len) :
    v.data.length = (answer req.fileHash).getReplySize req ∧ v.hashes.length = v.data.length / zftpBlockSize := by
  have hslots := ValidatedZCB.length_hashes_fresh (getReplySize_lt (answer req.fileHash) req)
  obtain ⟨c', hfill⟩ := hcached.filled
  have htakes := takes_fresh hfill
  cases hans : answer req.fileHash with
  | error fileHash code msg =>
    rw [hans] at hfill hslots
    obtain ⟨v1, hw, hfill⟩ := of_bind hfill
    cases hfill
    obtain ⟨hfit, rfl⟩ := ValidatedZCB.write_eq_ok.mp hw
    have hne : errorPacket fileHash code msg ≠ [] := by simp [errorPacket]
    dsimp only
    rw [length_splice (by rw [length_map]; exact hfit.resolve_left hne), ValidatedZCB.length_data_fresh]
    exact ⟨rfl, hslots⟩
  | valid fileHash t =>
    have hserves := hp0.serves req fileHash t hans
    have hv := htakes fileHash t hans
    rw [hans] at hfill hv hslots
    simp only [getReplySize_valid, fillReply_valid] at hfill hv hslots
    obtain ⟨-, -, hdone⟩ := fillReply_done hcached.request hserves hv hfill
    rw [filled_length hserves hv hdone, hdone.length_hashes, hashes_frontWritten, ValidatedZCB.length_data_fresh]
    exact ⟨rfl, hslots⟩

/-- RECYCLED: a cached buffer of the right size, cut at the right places, is filled with what a new
    buffer would be filled with. -/
lemma recycled_exact {creq : WireFileRequest} (hp0 : Provides zhash answer c₀) (hreq : req.WellFormed)
    (hcached : Cached answer c₀ creq result v len) (hlen : v.data.length = (answer req.fileHash).getReplySize req)
    (hcut : payloadOffset req % zftpBlockSize = payloadOffset creq % zftpBlockSize)
    (hnonzero : NonzeroBlocks answer req) (hs : c.Sound zhash) (hview : ∀ k, c.view k = c₀.view k)
    (h : (answer req.fileHash).fillReply c v req = .ok (c', v')) :
    c'.Sound zhash ∧ (∀ k, c'.view k = c.view k) ∧ cachelessReply answer c₀ req = .ok v'.data := by
  obtain ⟨hown, hslots⟩ := hcached.lengths hp0
  have hlt : v.data.length < 2 ^ 32 := hown.trans_lt (getReplySize_lt _ _)
  have hp := hp0.congr hs hview
  have htakes : Takes answer req v := by
    intro fileHash t hans
    rw [hans] at h hlen
    simp only [getReplySize_valid, fillReply_valid] at h hlen
    obtain ⟨rs, -, hfront, -⟩ := fillReply_eq_ok.mp h
    have hsize := size_of_front (hlen ▸ hfront)
    exact ⟨by rw [hlen, getReplySize_eq hsize], hlt, hslots⟩
  obtain ⟨hs', hview', c1, h1⟩ := fillReply_congr hp hp0 (fun k => (hview k).symm) htakes h
  refine ⟨hs', hview', ?_⟩
  cases hans : answer req.fileHash with
  | error fileHash code msg =>
    rw [hans] at h1 hlen
    obtain ⟨v1, hw, h1⟩ := of_bind h1
    cases h1
    obtain ⟨hfit, rfl⟩ := ValidatedZCB.write_eq_ok.mp hw
    have hne : errorPacket fileHash code msg ≠ [] := by simp [errorPacket]
    have hpacket : (errorPacket fileHash code msg).length = sizeofErrorPacket + (msg.length + 1) := by
      simp [errorPacket, sizeofErrorPacket, hashSize]
      omega
    have hfit := hfit.resolve_left hne
    -- the packet is as long as the buffer, so nothing of the old reply is left
    have hexact : v.data.length = (errorPacket fileHash code msg).length := by
      have hwrap : v.data.length = u32 (sizeofErrorPacket + (msg.length + 1)) := hlen
      rw [hpacket] at hfit ⊢
      rw [u32] at hwrap
      omega
    have hbuf : (ValidatedZCB.fresh ((error fileHash code msg).getReplySize req)).data.length
        = (errorPacket fileHash code msg).length := by
      rw [← hexact, hlen]
      exact length_replicate
    have hwrite := ValidatedZCB.write_of_fits (.fresh ((error fileHash code msg).getReplySize req))
      (show 0 + (errorPacket fileHash code msg).length ≤ _ by rw [hbuf, zero_add])
    have hall : ∀ b : List (Option UInt8), b.length = (errorPacket fileHash code msg).length →
        splice b 0 ((errorPacket fileHash code msg).map some) = (errorPacket fileHash code msg).map some := by
      intro b hb
      rw [splice_zero, drop_of_length_le (by rw [length_map, hb]), append_nil]
    obtain ⟨w, hfill, hwdata⟩ : ∃ w, (answer req.fileHash).fillReply c₀
        (.fresh ((answer req.fileHash).getReplySize req)) req = .ok (c₀, w) ∧
        w.data = (errorPacket fileHash code msg).map some := by
      rw [hans]
      exact ⟨_, bind_eq_ok.mpr ⟨_, hwrite, rfl⟩, hall _ hbuf⟩
    rw [cachelessReply_eq hfill, hwdata]
    dsimp only
    rw [hall _ hexact]
  | valid fileHash t =>
    have hserves := hp0.serves req fileHash t hans
    have hv := htakes fileHash t hans
    rw [hans] at h1 hlen
    simp only [getReplySize_valid, fillReply_valid] at h1 hlen
    obtain ⟨rs, -, hfront, -⟩ := fillReply_eq_ok.mp h1
    have hsize := size_of_front (hlen ▸ hfront)
    obtain ⟨hloc, halign, hdone2⟩ := fillReply_done hreq hserves hv h1
    obtain ⟨c3, v3, h3, -, -, hdone3⟩ := fillReply_total fileHash hreq hserves hloc
      halign (bufferFits_fresh hsize)
    have hagree : SlotsAgree t c₀.view (frontWritten fileHash t v req) (payloadOffset req)
        (getAvailableDataRange t req).start (getAvailableDataRange t req).stop := by
      intro k hk hk' hslot
      obtain ⟨p, hp, hpmod, hthere⟩ := hcached.slot hp0 hslot (hnonzero fileHash t hans k hk hk')
      have hsame : p = payloadOffset req + (k * zftpBlockSize - (getAvailableDataRange t req).start) := by
        rw [← div_add_mod p zftpBlockSize, ← hp, hpmod, ← hcut, ← block_cut (halign k hk hk'), div_add_mod]
      rw [frontWritten, drop_splice (by rw [length_front, zero_add]; exact hfront)
        (by rw [length_front, zero_add]; exact le_add_right _ _), ← hsame, hthere,
        fileBytes_block hserves hk hk']
    have hdata2 := filled_data hserves hv (hlen.trans (getReplySize_eq hsize)) hdone2
    have hdata3 := filled_data hserves (bufferFits_fresh hsize) (length_fresh_reply hsize) hdone3
    rw [payloadOut_eq hserves hagree] at hdata2
    rw [payloadOut_eq hserves ((@blank_frontWritten fileHash t req hsize).slotsAgree (hnonzero fileHash t hans))] at hdata3
    have hfill : (answer req.fileHash).fillReply c₀
        (.fresh ((answer req.fileHash).getReplySize req)) req = .ok (c3, v3) := by
      rw [hans]
      exact h3
    rw [cachelessReply_eq hfill, hdata2, hdata3]

/-! ### Equivalent requests -/

/-- What `is_semantically_equivalent` compares. -/
structure Equivalent (r other : WireFileRequest) : Prop where
  fileHash : r.fileHash = other.fileHash
  count : r.numTreeLocations = other.numTreeLocations
  locations : ∀ i < r.numTreeLocations, r.getTreeLocation i = other.getTreeLocation i
  padding : r.paddingRequest = other.paddingRequest
  range : r.dataRange = other.dataRange

lemma sameLocations_true : ∀ {i : ℕ}, sameLocations r other k i = .ok true →
    ∀ j, i ≤ j → j < i + k → r.getTreeLocation j = other.getTreeLocation j := by
  induction k with
  | zero => intro i _ j hlo hhi; omega
  | succ k ih =>
    intro i h j hlo hhi
    obtain ⟨a, ha, b, hb, h⟩ := of_bind2 h
    split at h
    case isTrue => cases h
    case isFalse hab =>
      rcases eq_or_lt_of_le hlo with rfl | hlt
      · rw [ha, hb, not_not.mp hab]
      · exact ih h j hlt (by omega)

lemma isSemanticallyEquivalent_true (h : isSemanticallyEquivalent r other = .ok true) : Equivalent r other := by
  rw [isSemanticallyEquivalent] at h
  split at h
  case isTrue => cases h
  case isFalse hhash =>
    split at h
    case isTrue => cases h
    case isFalse hcount =>
      obtain ⟨same, hsame, h⟩ := of_bind h
      have hall := ok.inj h
      simp only [Bool.and_eq_true, decide_eq_true_eq] at hall
      obtain ⟨⟨rfl, hpadding⟩, hrange⟩ := hall
      refine ⟨not_not.mp hhash, not_not.mp hcount, ?_, hpadding, hrange⟩
      intro i hi
      exact sameLocations_true _ hsame i (zero_le i) (by omega)

lemma sameLocations_fault {e : Fault} : ∀ {i : ℕ}, sameLocations r other k i = .error e → e = .outOfRange := by
  have hget : ∀ (r : WireFileRequest) (i : ℕ), r.getTreeLocation i = .error e → e = .outOfRange := by
    intro r i h
    rw [getTreeLocation] at h
    split at h
    case isTrue => cases h
    case isFalse => exact (error.inj h).symm
  induction k with
  | zero => intro i h; cases h
  | succ k ih =>
    intro i h
    rw [sameLocations] at h
    cases ha : r.getTreeLocation i with
    | error e' =>
      rw [ha, error_bind] at h
      cases h
      exact hget r i ha
    | ok a =>
      cases hb : other.getTreeLocation i with
      | error e' =>
        rw [ha, ok_bind, hb, error_bind] at h
        cases h
        exact hget other i hb
      | ok b =>
        rw [ha, ok_bind, hb, ok_bind] at h
        split at h
        case isTrue => cases h
        case isFalse => exact ih h

lemma fillRecords_equivalent : ∀ {idx : ℕ} {v : ValidatedZCB},
      (∀ i, idx ≤ i → i < idx + k → r.getTreeLocation i = other.getTreeLocation i) →
      fillRecords t r k idx v = fillRecords t other k idx v := by
  induction k with
  | zero => intro idx v _; rfl
  | succ k ih =>
    intro idx v h
    have hrecord : recordAt t r idx = recordAt t other idx := by
      rw [recordAt, recordAt, h idx le_rfl (by omega)]
    rw [fillRecords, fillRecords, hrecord]
    congr 1
    funext zmr
    congr 1
    funext v1
    exact ih fun i hlo hhi => h i (by omega) (by omega)

lemma cachelessReply_equivalent (h : Equivalent r other) :
    cachelessReply answer c r = cachelessReply answer c other := by
  have hrange : ∀ t, getAvailableDataRange t r = getAvailableDataRange t other := by
    intro t
    rw [getAvailableDataRange, getAvailableDataRange, h.range]
  rw [cachelessReply, cachelessReply, ← h.fileHash]
  cases answer r.fileHash with
  | error fileHash code msg => rfl
  | valid fileHash t =>
    have hsize : getReplySize t r = getReplySize t other := by
      rw [getReplySize, getReplySize, h.count, h.padding, hrange]
    have hrecords : ∀ v, fillRecords t r other.numTreeLocations 0 v =
        fillRecords t other other.numTreeLocations 0 v := by
      intro v
      rw [← h.count]
      exact fillRecords_equivalent _ fun i _ hi => h.locations i (by omega)
    simp only [getReplySize_valid, fillReply_valid, hsize, fillReply, h.count, h.padding, hrange, hrecords]

/-! ### Runs of the server -/

/-- INVERSION of `cache_or_discard_result`. -/
lemma cacheOrDiscardResult_cases (h : s.cacheOrDiscardResult req result len = .ok s') :
    (reqIsCachable req = true ∧ minCacheSize ≤ len ∧ ∃ c' v,
      result.fillReply s.blocks (.fresh len) req = .ok (c', v) ∧
      s' = { s with
        cachedReq := some (req, result), cachedVbuf := some v, cachedPayloadLen := len
        blocks := c' }) ∨
    (¬(reqIsCachable req = true ∧ minCacheSize ≤ len) ∧ s' = s) := by
  rw [cacheOrDiscardResult] at h
  split at h
  case isTrue hcond =>
    obtain ⟨_, -, ⟨c', v⟩, hfill, h⟩ := of_bind2 h
    exact .inl ⟨hcond.1, hcond.2, c', v, hfill, (ok.inj h).symm⟩
  case isFalse hcond => exact .inr ⟨hcond, (ok.inj h).symm⟩

/-- What holds of the server's cache and of what it has sent. -/
structure Consistent (zhash : Bytes → Hash) (answer : Hash → FileResult) (c₀ : ZBlockCache)
    (s : ZFileServer) : Prop where
  both : s.cachedReq.isSome = s.cachedVbuf.isSome
  cached : ∀ creq result v, s.cachedReq = some (creq, result) → s.cachedVbuf = some v →
    Cached answer c₀ creq result v s.cachedPayloadLen
  sound : s.blocks.Sound zhash
  view : ∀ k, s.blocks.view k = c₀.view k
  sent : ∀ p ∈ s.sent, cachelessReply answer c₀ p.1 = .ok p.2

/-- The buffer of the reply is recycled only for a request that replaces the cached one, whose reply is
    as long as the buffer and cut at the same places; and no whole block has the zero hash. -/
def Recyclable (answer : Hash → FileResult) (s : ZFileServer) (zcb : Datagram) : Prop :=
  ∀ req, WireFileRequest.parse zcb = .ok (some req) → NonzeroBlocks answer req ∧
    ∀ creq result v, s.cachedReq = some (creq, result) → s.cachedVbuf = some v →
      isSemanticallyEquivalent req creq = .ok false →
      minCacheSize ≤ (answer req.fileHash).getReplySize req →
      (answer req.fileHash).getReplySize req ≤ v.data.length →
      reqIsCachable req = true ∧ v.data.length = (answer req.fileHash).getReplySize req ∧
        payloadOffset req % zftpBlockSize = payloadOffset creq % zftpBlockSize

lemma cacheOrDiscardResult_consistent (h : s.cacheOrDiscardResult req result len = .ok s')
    (hp0 : Provides zhash answer c₀) (hreq : req.WellFormed) (hresult : result = answer req.fileHash)
    (hlen : len = (answer req.fileHash).getReplySize req) (hnonzero : NonzeroBlocks answer req)
    (hs : s.blocks.Sound zhash) (hview : ∀ k, s.blocks.view k = c₀.view k)
    (hsent : ∀ p ∈ s.sent, cachelessReply answer c₀ p.1 = .ok p.2)
    (hkept : ¬(reqIsCachable req = true ∧ minCacheSize ≤ len) → Consistent zhash answer c₀ s) :
    Consistent zhash answer c₀ s' := by
  obtain ⟨-, -, c', v, hfill, rfl⟩ | ⟨hno, rfl⟩ := cacheOrDiscardResult_cases h
  · subst hresult hlen
    obtain ⟨hs', hview', c1, hfill0⟩ := fillReply_congr (hp0.congr hs hview) hp0
      (fun k => (hview k).symm) (takes_fresh hfill) hfill
    refine ⟨rfl, ?_, hs', fun k => (hview' k).trans (hview k), hsent⟩
    rintro creq result w ⟨⟩ ⟨⟩
    exact ⟨hreq, rfl, rfl, hnonzero, c1, hfill0⟩
  · exact hkept hno

/-- INVERSION of `zero_copy_reply_optimization`. -/
lemma zeroCopyReplyOptimization_cases {done : Bool} (h : s.zeroCopyReplyOptimization req = .ok (s', done)) :
    (done = false ∧ s' = s ∧
      ∀ creq result, s.cachedReq = some (creq, result) →
        isSemanticallyEquivalent req creq = .ok false) ∨
    (done = true ∧ ∃ creq result v, s.cachedReq = some (creq, result) ∧ s.cachedVbuf = some v ∧
      Equivalent req creq ∧
      cacheOrDiscardResult
        { s with cachedReq := none, cachedVbuf := none, sent := s.sent ++ [(req, v.data)] }
        creq result s.cachedPayloadLen = .ok s') := by
  rw [zeroCopyReplyOptimization] at h
  cases hreq : s.cachedReq with
  | none =>
    rw [hreq] at h
    cases h
    exact .inl ⟨rfl, rfl, by rintro _ _ ⟨⟩⟩
  | some entry =>
    obtain ⟨creq, result⟩ := entry
    rw [hreq] at h
    obtain ⟨same, hsame, h⟩ := of_bind h
    cases same with
    | false =>
      cases h
      refine .inl ⟨rfl, rfl, ?_⟩
      rintro _ _ ⟨⟩
      exact hsame
    | true =>
      cases hbuf : s.cachedVbuf with
      | none =>
        simp only [hbuf, if_true] at h
        cases h
      | some v =>
        simp only [hbuf, if_true] at h
        obtain ⟨s1, hcache, h⟩ := of_bind h
        cases h
        exact .inr ⟨rfl, creq, result, v, rfl, rfl, isSemanticallyEquivalent_true hsame, hcache⟩

/-- INVERSION of the choice of the buffer. -/
lemma takeVbuf_cases (s : ZFileServer) (len : ℕ) : s.takeVbuf len = (.fresh len, s) ∨
    ∃ v, s.cachedVbuf = some v ∧ len ≤ v.data.length ∧ minCacheSize ≤ len ∧
      s.takeVbuf len = (v, { s with cachedVbuf := none }) := by
  rw [takeVbuf]
  cases hbuf : s.cachedVbuf with
  | none => exact .inl rfl
  | some v =>
    by_cases hfit : len ≤ v.data.length ∧ minCacheSize ≤ len
    · exact .inr ⟨v, rfl, hfit.1, hfit.2, if_pos hfit⟩
    · exact .inl (if_neg hfit)

/-- INVERSION of a worker step. -/
lemma serve_cases (h : s.serve answer zcb = .ok s') : s' = s ∨ ∃ req, parse zcb = .ok (some req) ∧
      (s.zeroCopyReplyOptimization req = .ok (s', true) ∨ (s.zeroCopyReplyOptimization req = .ok (s, false) ∧
          s.sendReply req (answer req.fileHash) = .ok s')) := by
  obtain ⟨parsed, hparse, h⟩ := of_bind h
  cases parsed with
  | none => exact .inl (ok.inj h).symm
  | some req =>
    obtain ⟨⟨s1, done⟩, hzero, hrest⟩ := of_bind h
    refine .inr ⟨req, hparse, ?_⟩
    cases done with
    | true =>
      cases hrest
      exact .inl hzero
    | false =>
      obtain ⟨-, rfl, -⟩ | ⟨hdone, -⟩ := zeroCopyReplyOptimization_cases hzero
      · exact .inr ⟨hzero, hrest⟩
      · cases hdone

lemma Cached.reply (h : Cached answer c₀ req result v len) : cachelessReply answer c₀ req = .ok v.data := by
  obtain ⟨c', hfill⟩ := h.filled
  exact cachelessReply_eq hfill

lemma sent_append {data : List (Option UInt8)} (hsent : ∀ p ∈ s.sent, cachelessReply answer c₀ p.1 = .ok p.2)
    (h : cachelessReply answer c₀ req = .ok data) :
    ∀ p ∈ s.sent ++ [(req, data)], cachelessReply answer c₀ p.1 = .ok p.2 := by
  intro p hp
  rcases mem_append.mp hp with hold | hnew
  · exact hsent p hold
  · rw [mem_singleton.mp hnew]
    exact h

section

variable (hp0 : Provides zhash answer c₀) (hs : Consistent zhash answer c₀ s)
include hp0 hs

lemma zeroCopyReplyOptimization_consistent (h : s.zeroCopyReplyOptimization req = .ok (s', true))
    : Consistent zhash answer c₀ s' := by
  obtain ⟨hdone, -⟩ | ⟨-, creq, result, v, hreq, hbuf, hequiv, hcache⟩ := zeroCopyReplyOptimization_cases h
  · cases hdone
  · have hcached := hs.cached creq result v hreq hbuf
    have hsent := sent_append hs.sent ((cachelessReply_equivalent hequiv).trans hcached.reply)
    refine cacheOrDiscardResult_consistent hcache hp0 hcached.request hcached.result hcached.length
      hcached.nonzero hs.sound hs.view hsent (fun _ => ?_)
    exact ⟨rfl, by rintro _ _ _ ⟨⟩, hs.sound, hs.view, hsent⟩

/-- A request answered by filling in a buffer leaves the cache consistent when it may recycle. -/
lemma sendReply_consistent (hC : Recyclable answer s zcb) (hparse : parse zcb = .ok (some req))
    (hdiffers : ∀ creq result, s.cachedReq = some (creq, result) →
      isSemanticallyEquivalent req creq = .ok false) (h : s.sendReply req (answer req.fileHash) = .ok s') :
    Consistent zhash answer c₀ s' := by
  have hreq := parse_wellFormed hparse
  obtain ⟨hnonzero, hrecycle⟩ := hC req hparse
  rw [sendReply] at h
  obtain htake | ⟨v, hbuf, hfit, hmin, htake⟩ := takeVbuf_cases s ((answer req.fileHash).getReplySize req)
  · simp only [htake] at h
    obtain ⟨⟨c', v'⟩, hfill, h⟩ := of_bind h
    obtain ⟨hs', hview', c1, hfill0⟩ := fillReply_congr (hp0.congr hs.sound hs.view) hp0
      (fun k => (hs.view k).symm) (takes_fresh hfill) hfill
    have hview : ∀ k, c'.view k = c₀.view k := fun k => (hview' k).trans (hs.view k)
    have hsent := sent_append hs.sent (cachelessReply_eq hfill0)
    exact cacheOrDiscardResult_consistent h hp0 hreq rfl rfl hnonzero hs' hview hsent
      (fun _ => ⟨hs.both, hs.cached, hs', hview, hsent⟩)
  · -- the buffer is taken from the cache, so the request has to take its place there
    simp only [htake] at h
    obtain ⟨⟨c', v'⟩, hfill, h⟩ := of_bind h
    obtain ⟨⟨creq, result⟩, hcreq⟩ : ∃ entry, s.cachedReq = some entry := by
      have hsome := hs.both
      rw [hbuf] at hsome
      exact Option.isSome_iff_exists.mp hsome
    have hcached := hs.cached creq result v hcreq hbuf
    obtain ⟨hcachable, hlen, hcut⟩ := hrecycle creq result v hcreq hbuf (hdiffers creq result hcreq) hmin hfit
    obtain ⟨hs', hview', hreply⟩ := recycled_exact hp0 hreq hcached hlen hcut hnonzero hs.sound hs.view hfill
    have hview : ∀ k, c'.view k = c₀.view k := fun k => (hview' k).trans (hs.view k)
    exact cacheOrDiscardResult_consistent h hp0 hreq rfl rfl hnonzero hs' hview
      (sent_append hs.sent hreply) (fun hno => absurd ⟨hcachable, hmin⟩ hno)

/-- STEP: a worker step that recycles only where it may leaves the server consistent. -/
lemma serve_consistent (hC : Recyclable answer s zcb) (h : s.serve answer zcb = .ok s')
    : Consistent zhash answer c₀ s' := by
  obtain rfl | ⟨req, hparse, hzero | ⟨hzero, hsend⟩⟩ := serve_cases h
  · exact hs
  · exact zeroCopyReplyOptimization_consistent hp0 hs hzero
  · obtain ⟨-, -, hdiffers⟩ | ⟨hdone, -⟩ := zeroCopyReplyOptimization_cases hzero
    · exact sendReply_consistent hp0 hs hC hparse hdiffers hsend
    · cases hdone

/-- In a consistent server the cached reply is there, and filling it in again succeeds: the only way to
    stop is a request whose locations are not in its packet. -/
lemma zeroCopyReplyOptimization_fault {e : Fault} (h : s.zeroCopyReplyOptimization req = .error e)
    : e = .outOfRange := by
  rw [zeroCopyReplyOptimization] at h
  cases hreq : s.cachedReq with
  | none =>
    rw [hreq] at h
    cases h
  | some entry =>
    obtain ⟨creq, result⟩ := entry
    rw [hreq] at h
    obtain ⟨v, hbuf⟩ : ∃ v, s.cachedVbuf = some v := by
      have hsome := hs.both
      rw [hreq] at hsome
      exact Option.isSome_iff_exists.mp hsome.symm
    have hcached := hs.cached creq result v hreq hbuf
    have hfault : ∀ e', isSemanticallyEquivalent req creq = .error e' → e' = .outOfRange := by
      intro e' herr
      rw [isSemanticallyEquivalent] at herr
      split at herr
      case isTrue => cases herr
      case isFalse =>
        split at herr
        case isTrue => cases herr
        case isFalse =>
          cases hsame : sameLocations req creq req.numTreeLocations 0 with
          | error e'' =>
            rw [hsame, error_bind] at herr
            cases herr
            exact sameLocations_fault _ hsame
          | ok same =>
            rw [hsame] at herr
            cases herr
    cases hsame : isSemanticallyEquivalent req creq with
    | error e' =>
      simp only [hsame, error_bind] at h
      cases h
      exact hfault _ hsame
    | ok same =>
      simp only [hsame, ok_bind, hbuf] at h
      cases same with
      | false => cases h
      | true =>
        obtain ⟨c', hfill⟩ := hcached.filled
        obtain ⟨-, -, c1, hfill1⟩ := fillReply_congr hp0 (hp0.congr hs.sound hs.view) hs.view (takes_fresh hfill) hfill
        rw [← hcached.length, ← hcached.result] at hfill1
        simp only [if_true, cacheOrDiscardResult, liteAssert, Option.isSome_none, Bool.false_eq_true,
          false_imp_iff, hfill1, ok_bind, pure_eq_ok] at h
        split at h
        case isTrue => cases h
        case isFalse => cases h

end

/-- RUNS: in every state the server reaches recycling only where it may, a request is cached exactly when
    a buffer is, the buffer is the reply to that request, no request finds the buffer gone, and every
    reply that was sent is the reply of a server without a cache. -/
theorem reply_cache_transparent (hp₀ : Provides zhash answer c₀) (zcbs : List Datagram) (s : ZFileServer)
    (hC : Along (serve answer) (Recyclable answer) (fresh c₀) zcbs)
    (hr : run (serve answer) (fresh c₀) zcbs = .ok s) : s.cachedReq.isSome = s.cachedVbuf.isSome ∧
      (∀ creq result v, s.cachedReq = some (creq, result) → s.cachedVbuf = some v →
        cachelessReply answer c₀ creq = .ok v.data) ∧ (∀ req, s.zeroCopyReplyOptimization req ≠ .error .nullDeref) ∧
      ∀ p ∈ s.sent, cachelessReply answer c₀ p.1 = .ok p.2 := by
  have hfresh : Consistent zhash answer c₀ (fresh c₀) :=
    ⟨rfl, by rintro _ _ _ ⟨⟩, hp₀.sound, fun _ => rfl, by rintro _ ⟨⟩⟩
  have hs := run_invariant (fun s zcb s' hs hC h => serve_consistent hp₀ hs hC h) zcbs _ s hfresh hC hr
  refine ⟨hs.both, ?_, ?_, hs.sent⟩
  · intro creq result v hreq hbuf
    exact (hs.cached creq result v hreq hbuf).reply
  · intro req hnull
    cases zeroCopyReplyOptimization_fault hp₀ hs hnull

/-! ### Large replies of a small file -/

/-- A request for a mebibyte of padding and the file's bytes from `start` to `stop`. -/
def paddedPacket (start stop : UInt8) : Datagram where
  bytes := [0, 20, 0, 0] ++ (Hash.fill 2).bytes ++ [0, 0, 0, 0, 0, 16, 0, 0, 0, 0, 0, start, 0, 0, 0, stop]
  length_lt := by
    simp [hashSize]

def paddedRequest (start stop : UInt8) : WireFileRequest :=
  WireFileRequest.ofPacket (paddedPacket start stop).bytes none

def smallAnswer : Hash → FileResult := fun _ => .valid (Hash.fill 2) smallTree

lemma parse_paddedPacket (start stop : UInt8) :
    parse (paddedPacket start stop) = .ok (some (paddedRequest start stop)) := rfl

lemma smallAnswer_provides : Provides (fun _ => fill 1) smallAnswer smallCache := by
  refine ⟨smallCache_sound, ?_⟩
  rintro req _ _ ⟨⟩
  exact smallTree_serves _ (availableRange_bounds smallTree req).2.1

lemma smallAnswer_nonzero (req : WireFileRequest) : NonzeroBlocks smallAnswer req := by
  rintro _ _ ⟨⟩ k - hk
  have hstop : (getAvailableDataRange smallTree req).stop ≤ 5 := (availableRange_bounds smallTree req).2.1
  simp only [zftpBlockSize] at hk
  omega

lemma paddedRequest_fills (start stop : UInt8) (hs : c.Sound fun _ => fill 1)
    (hview : ∀ k, c.view k = smallCache.view k) (hv : BufferFits v smallTree (paddedRequest start stop)) :
    ∃ c' v', fillReply (fill 2) smallTree c v (paddedRequest start stop) = .ok (c', v') ∧
      (c'.Sound fun _ => fill 1) ∧ ∀ k, c'.view k = smallCache.view k := by
  have hserves := (smallAnswer_provides.congr hs hview).serves (paddedRequest start stop) _ _ rfl
  have hloc : Located smallTree (paddedRequest start stop) := ⟨by rfl, by rintro _ ⟨⟩⟩
  have halign : (getAvailableDataRange smallTree (paddedRequest start stop)).Aligned := by
    intro k _ hk
    have hstop := (availableRange_bounds smallTree (paddedRequest start stop)).2.1
    have hlen : smallTree.metadata.fileLen = 5 := rfl
    simp only [zftpBlockSize] at hk
    omega
  obtain ⟨c', v', hfill, hs', hview', -⟩ := fillReply_total (fill 2)
    (parse_wellFormed (parse_paddedPacket start stop)) hserves hloc halign hv
  exact ⟨c', v', hfill, hs', fun k => (hview' k).trans (hview k)⟩

lemma paddedRequest_size : (valid (fill 2) smallTree).getReplySize (paddedRequest 1 4) = minCacheSize + 52 := by
  decide

/-- The server that has answered the first padded request. -/
def paddedServer (c : ZBlockCache) (v : ValidatedZCB) (sent : List (Option UInt8)) : ZFileServer where
  cachedReq := some (paddedRequest 1 4, .valid (Hash.fill 2) smallTree)
  cachedVbuf := some v
  cachedPayloadLen := minCacheSize + 52
  blocks := c
  sent := [(paddedRequest 1 4, sent)]

lemma bufferFits_padded : BufferFits (.fresh (minCacheSize + 52)) smallTree (paddedRequest 1 4) := by
  have hfresh : BufferFits (.fresh (getReplySize smallTree (paddedRequest 1 4))) smallTree
      (paddedRequest 1 4) := bufferFits_fresh (by decide)
  rw [← getReplySize_valid (fill 2), paddedRequest_size] at hfresh
  exact hfresh

lemma recyclable_fresh (zcb : Datagram) : Recyclable smallAnswer (fresh smallCache) zcb := by
  intro req _
  exact ⟨smallAnswer_nonzero req, by rintro _ _ _ ⟨⟩⟩

lemma serve_padded : ∃ c' v v', serve smallAnswer (fresh smallCache) (paddedPacket 1 4) = .ok (paddedServer c' v v') ∧
      Consistent (fun _ => fill 1) smallAnswer smallCache (paddedServer c' v v') := by
  obtain ⟨c1, v1, hfill1, hs1, hview1⟩ := paddedRequest_fills 1 4 smallCache_sound (fun _ => rfl) bufferFits_padded
  obtain ⟨c2, v2, hfill2, -, -⟩ := paddedRequest_fills 1 4 hs1 hview1 bufferFits_padded
  have hcond : reqIsCachable (paddedRequest 1 4) = true ∧ minCacheSize ≤ minCacheSize + 52 :=
    ⟨by decide, le_add_right _ _⟩
  have hserve : serve smallAnswer (fresh smallCache) (paddedPacket 1 4) = .ok (paddedServer c2 v2 v1.data) := by
    simp only [serve, parse_paddedPacket, ok_bind, zeroCopyReplyOptimization, fresh,
      pure_eq_ok, smallAnswer, sendReply, paddedRequest_size, takeVbuf,
      fillReply_valid, hfill1, cacheOrDiscardResult, if_pos hcond, liteAssert,
      Option.isSome_none, Bool.false_eq_true, false_imp_iff, if_true, hfill2, nil_append,
      paddedServer]
  have hfresh : Consistent (fun _ => fill 1) smallAnswer smallCache (fresh smallCache) :=
    ⟨rfl, by rintro _ _ _ ⟨⟩, smallCache_sound, fun _ => rfl, by rintro _ ⟨⟩⟩
  exact ⟨c2, v2, v1.data, hserve, serve_consistent smallAnswer_provides hfresh (recyclable_fresh _) hserve⟩

/-- The same large request twice: the second reply comes from the cache. -/
theorem reply_cache_transparent_twice : ∃ s,
    run (serve smallAnswer) (fresh smallCache) [paddedPacket 1 4, paddedPacket 1 4] = .ok s ∧
      s.sent.length = 2 ∧ s.cachedReq.isSome = s.cachedVbuf.isSome ∧
      ∀ p ∈ s.sent, cachelessReply smallAnswer smallCache p.1 = .ok p.2 := by
  obtain ⟨c₁, v₁, sent₁, h₁, hs₁⟩ := serve_padded
  obtain ⟨c₂, v₂, hfill₂, -, -⟩ := paddedRequest_fills 1 4 hs₁.sound hs₁.view bufferFits_padded
  have hsame : isSemanticallyEquivalent (paddedRequest 1 4) (paddedRequest 1 4) = .ok true := rfl
  have hcond : reqIsCachable (paddedRequest 1 4) = true ∧ minCacheSize ≤ minCacheSize + 52 :=
    ⟨by decide, Nat.le_add_right _ _⟩
  have h₂ : serve smallAnswer (paddedServer c₁ v₁ sent₁) (paddedPacket 1 4) = .ok { paddedServer c₁ v₁ sent₁ with
      cachedVbuf := some v₂
      blocks := c₂
      sent := [(paddedRequest 1 4, sent₁), (paddedRequest 1 4, v₁.data)] } := by
    simp only [paddedServer] at hfill₂ ⊢
    simp only [serve, parse_paddedPacket, ok_bind, zeroCopyReplyOptimization, hsame, if_true,
      cacheOrDiscardResult, if_pos hcond, liteAssert, Option.isSome_none, Bool.false_eq_true,
      false_imp_iff, FileResult.fillReply_valid, hfill₂, pure_eq_ok, singleton_append]
  have hrun : run (serve smallAnswer) (fresh smallCache) [paddedPacket 1 4, paddedPacket 1 4] = .ok {
      paddedServer c₁ v₁ sent₁ with
      cachedVbuf := some v₂
      blocks := c₂
      sent := [(paddedRequest 1 4, sent₁), (paddedRequest 1 4, v₁.data)] } := by
    simp only [run, h₁, h₂, ok_bind]
  have hC : Along (serve smallAnswer) (Recyclable smallAnswer) (fresh smallCache)
      [paddedPacket 1 4, paddedPacket 1 4] := by
    refine ⟨recyclable_fresh _, ?_⟩
    intro s hs
    rw [h₁] at hs
    cases hs
    refine ⟨?_, fun _ _ => trivial⟩
    intro req hreq
    rw [parse_paddedPacket] at hreq
    cases hreq
    refine ⟨smallAnswer_nonzero _, ?_⟩
    rintro creq result v ⟨⟩ - hdiffers
    rw [hsame] at hdiffers
    cases hdiffers
  obtain ⟨hboth, -, -, hsent⟩ := reply_cache_transparent smallAnswer_provides _ _ hC hrun
  exact ⟨_, hrun, rfl, hboth, hsent⟩

/-- RECYCLED FOR AN EMPTY RANGE: the buffer of a cached reply is handed to a request that is not cachable,
    and the cached request stays behind without it. -/
theorem not_reply_cache_transparent : ¬∀ (zhash : Bytes → Hash) (answer : Hash → FileResult) (c₀ : ZBlockCache),
      Provides zhash answer c₀ → ∀ (zcbs : List Datagram) (s : ZFileServer),
      run (serve answer) (fresh c₀) zcbs = .ok s → s.cachedReq.isSome = s.cachedVbuf.isSome := by
  intro hclaim
  obtain ⟨c₁, v₁, sent₁, h₁, hs₁⟩ := serve_padded
  have hcached := hs₁.cached _ _ v₁ rfl rfl
  obtain ⟨hlen, hslots⟩ := hcached.lengths smallAnswer_provides
  have hlen : v₁.data.length = minCacheSize + 52 := hlen.trans paddedRequest_size
  have hsize : (FileResult.valid (Hash.fill 2) smallTree).getReplySize (paddedRequest 0 0) = minCacheSize + 49 := by
    decide
  have hneeds : payloadOffset (paddedRequest 0 0) +
      (getAvailableDataRange smallTree (paddedRequest 0 0)).size = minCacheSize + 49 := by
    decide
  have hfits : BufferFits v₁ smallTree (paddedRequest 0 0) := ⟨by omega, by rw [hlen]; decide, hslots⟩
  obtain ⟨c₂, v₂, hfill₂, -, -⟩ := paddedRequest_fills 0 0 hs₁.sound hs₁.view hfits
  have hdiffers : isSemanticallyEquivalent (paddedRequest 0 0) (paddedRequest 1 4) = .ok false := rfl
  have htake : minCacheSize + 49 ≤ v₁.data.length ∧ minCacheSize ≤ minCacheSize + 49 := ⟨by omega, Nat.le_add_right _ _⟩
  have hnot : ¬(reqIsCachable (paddedRequest 0 0) = true ∧ minCacheSize ≤ minCacheSize + 49) := by
    rintro ⟨hcachable, -⟩
    cases hcachable
  obtain ⟨s₂, h₂, hreq, hbuf⟩ : ∃ s₂, serve smallAnswer (paddedServer c₁ v₁ sent₁) (paddedPacket 0 0) = .ok s₂ ∧
      s₂.cachedReq.isSome = true ∧ s₂.cachedVbuf.isSome = false := by
    simp only [paddedServer] at hfill₂ ⊢
    refine ⟨⟨some (paddedRequest 1 4, .valid (Hash.fill 2) smallTree), none, minCacheSize + 52, c₂,
      [(paddedRequest 1 4, sent₁)] ++ [(paddedRequest 0 0, v₂.data)]⟩, ?_, rfl, rfl⟩
    simp only [serve, parse_paddedPacket, ok_bind, zeroCopyReplyOptimization, hdiffers,
      Bool.false_eq_true, if_false, pure_eq_ok, sendReply, smallAnswer, hsize, takeVbuf,
      if_pos htake, FileResult.fillReply_valid, hfill₂, cacheOrDiscardResult, if_neg hnot]
  have hboth := hclaim _ _ _ smallAnswer_provides [paddedPacket 1 4, paddedPacket 0 0] s₂
    (by simp only [run, h₁, h₂, ok_bind])
  rw [hreq, hbuf] at hboth
  cases hboth

end Embassies.Zftp
