import Embassies.Zftp.Authenticity
import Embassies.Zftp.FileRead
import Embassies.Zftp.ServerCache

/-! A network of caches of one file.

    Every zftp server is a cache: it answers out of its tree and its blocks, and fills them from replies of other
    caches, up to one that has the file itself. The network loses, repeats and reorders replies, and brings replies to
    requests of others. Whatever circulates in such a network is the file's own, and so is what is read from any
    cache: nothing is validated that did not come, over however many caches, from the origin. A running `ZFileServer`
    sends one reply for every request that it accepts, and its replies are of the network. -/

namespace Embassies.Zftp

open HeapTree List MerkleTree

section

variable {zhash : Bytes → Hash} {f : RefFile} {hcf : f.CollisionFree zhash}
variable {t : MerkleTree} {c : ZBlockCache} {zcb : Datagram}

/-- The datagram is what a server with this tree and these blocks sends to a request that has an exact reply. -/
def SendsReply (zhash : Bytes → Hash) (fileHash : Hash) (t : MerkleTree) (c : ZBlockCache) (zcb : Datagram) : Prop :=
  ∃ request req c' v, WireFileRequest.parse request = .ok (some req) ∧
    Serves zhash t c (getAvailableDataRange t req) ∧ Encodable t req ∧
    fillReply fileHash t c (.fresh (getReplySize t req)) req = .ok (c', v) ∧ v.data = zcb.bytes.map some

/-- THE NETWORK: the replies of a server that has the file's tree, and those of caches that have heard only
    datagrams of the network. -/
inductive Circulates (hcf : f.CollisionFree zhash) : Datagram → Prop
  | origin {t : MerkleTree} {c : ZBlockCache} {zcb : Datagram} (htree : AuthenticTree hcf t)
      (hsends : SendsReply zhash (f.fileHash zhash) t c zcb) : Circulates hcf zcb
  | cache {cfg : ZCacheConfig} {blocks : ZBlockCache} {events : List FileEvent} {s : Client} {t : MerkleTree}
      {zcb : Datagram} (himages : AuthenticImages hcf cfg) (hblocks : blocks.Sound zhash)
      (hheard : ∀ zcb, .receive zcb ∈ events → Circulates hcf zcb)
      (hrun : run (fileStep zhash cfg) (Client.fresh (f.fileHash zhash) blocks) events = .ok s)
      (ht : s.file.tree = some t) (hsends : SendsReply zhash (f.fileHash zhash) t s.blocks zcb) : Circulates hcf zcb

/-! ### The bytes of an authentic tree -/

/-- A byte of a padded block. -/
lemma RefFile.getD_block (k : ℕ) {j : ℕ} (hj : j < zftpBlockSize) :
    (f.block k).getD j 0 = f.content.getD (k * zftpBlockSize + j) 0 := by
  simp only [RefFile.block, field, getD_eq_getElem?_getD, getElem?_append, getElem?_replicate, getElem?_take,
    getElem?_drop, length_take, length_drop]
  split
  · rfl
  · rw [getElem?_eq_none (by omega)]
    split <;> rfl

/-- The block at a validated leaf is the file's. -/
lemma AuthenticTree.view_eq (ht : AuthenticTree hcf t) (hc : c.Sound zhash) {k : ℕ} (hk : k < t.numBlocks)
    (hstate : (t.leaf k).state = .validated) (hvalid : (c.view (t.leaf k).hash).valid = true) :
    (c.view (t.leaf k).hash).data = f.block k := by
  have hnum : t.numBlocks = f.numBlocks := by simp only [MerkleTree.numBlocks, ht.metadata]; rfl
  have hdepth : t.treeDepth = f.treeDepth := by simp only [MerkleTree.treeDepth, hnum]; rfl
  have hcol := lt_leaves hk
  have hleaf := (ht.authentic.validated _ hstate).2
  obtain ⟨hsound, hhash⟩ := hc.view (t.leaf k).hash
  refine RefFile.block_binding hcf (hnum ▸ hk) ?_
  rw [hsound.hash hvalid, hhash]
  refine hleaf.trans ?_
  rw [leafLoc, hdepth]
  exact RefFile.hashAt_leaf zhash (hdepth ▸ hcol)

/-- What the tree serves are the bytes of the file. -/
lemma AuthenticTree.fileBytes_eq (ht : AuthenticTree hcf t) {a n : ℕ} (hserves : Serves zhash t c ⟨a, a + n⟩)
    (hfile : a + n ≤ t.metadata.fileLen) : fileBytes t c.view a n = field f.content a n := by
  have hlen : a + n ≤ f.content.length := by rwa [ht.metadata] at hfile
  refine ext_getElem (by rw [length_fileBytes, field, length_take, length_drop]; omega) fun i hi _ => ?_
  rw [length_fileBytes] at hi
  obtain ⟨hk, hstate, hvalid⟩ := hserves.blocks (a + i) (Nat.le_add_right a i) (by dsimp only; omega)
  have hbyte := RefFile.getD_block (f := f) ((a + i) / zftpBlockSize) (Nat.mod_lt (a + i) (by decide))
  rw [Nat.div_add_mod', getD_eq_getElem f.content 0 (by omega)] at hbyte
  simp only [fileBytes, getElem_map, getElem_range', one_mul, fileByte, field, getElem_take, getElem_drop]
  rw [ht.view_eq hserves.sound hk hstate hvalid, hbyte]

/-- A tree that knows only the root is the file's. -/
lemma authenticTree_root (hcf : f.CollisionFree zhash) {root : Hash} (h : root = f.hashAt zhash 0) :
    AuthenticTree hcf (((configureFromMetadata f.metadata).setHash 0 root).setState 0 .validated) :=
  ⟨rfl, ⟨by rw [state_setState, if_pos rfl], nofun⟩, rfl, authentic_root h⟩

/-! ### Replies -/

/-- What a client reads in the datagram. -/
lemma SendsReply.parse {fileHash : Hash} (h : SendsReply zhash fileHash t c zcb) : ∃ req,
    Serves zhash t c (getAvailableDataRange t req) ∧ Located t req ∧
      ZFileReplyFromServer.parse zcb = .ok (some (expectedReply fileHash t c.view req)) := by
  obtain ⟨request, req, c', v, hparse, hserves, henc, hfill, hdata⟩ := h
  have hreplies : Replies fileHash t c req := henc.replies (WireFileRequest.parse_wellFormed hparse) hserves
  obtain ⟨c'', v', bytes, hfill', hdata', -, hread⟩ := hreplies
  cases hfill.symm.trans hfill'
  exact ⟨req, hserves, henc.located, hread zcb (map_injective_iff.mpr (Option.some_injective _)
    (hdata.symm.trans hdata'))⟩

/-- STEP: the reply of a server with the file's tree is rooted in every state of a client. -/
lemma AuthenticTree.rootedStep (ht : AuthenticTree hcf t) (h : SendsReply zhash (f.fileHash zhash) t c zcb)
    (cfg : ZCacheConfig) (s : Client) : RootedStep hcf cfg s (.receive zcb) := by
  intro reply hreply _ r hr _
  obtain ⟨req, -, hlocated, hparse⟩ := h.parse
  cases hparse.symm.trans hreply
  obtain ⟨l, hl, rfl⟩ := mem_map.mp hr
  exact .inr (ht.authentic.validated l (hlocated.validated l hl).2)

/-- RUN: a cache that hears only such servers has the file's tree, if it has one. -/
lemma authentic_of_run {cfg : ZCacheConfig} {blocks : ZBlockCache} {events : List FileEvent} {s : Client}
    (himages : AuthenticImages hcf cfg) (hblocks : blocks.Sound zhash)
    (hheard : ∀ zcb, .receive zcb ∈ events →
      ∃ t c, AuthenticTree hcf t ∧ SendsReply zhash (f.fileHash zhash) t c zcb)
    (hrun : run (fileStep zhash cfg) (Client.fresh (f.fileHash zhash) blocks) events = .ok s) :
    s.Holds zhash (AuthenticFile hcf) := by
  have hrooted : ∀ e ∈ events, ∀ s, RootedStep hcf cfg s e := by
    intro e he s
    cases e with
    | receive zcb =>
      obtain ⟨u, c, hu, hsends⟩ := hheard zcb he
      exact hu.rootedStep hsends cfg s
    | consider req => exact himages
    | withdraw req => trivial
  exact (run_invariant fileStep_authentic events _ s (Client.guarded_fresh ⟨rfl, nofun⟩ hblocks)
    (.of_mem hrooted _) hrun).holds

/-- By induction over how it came about, a datagram was sent by a server that has the file's tree. -/
lemma Circulates.sent (h : Circulates hcf zcb) :
    ∃ t c, AuthenticTree hcf t ∧ SendsReply zhash (f.fileHash zhash) t c zcb := by
  induction h with
  | origin htree hsends => exact ⟨_, _, htree, hsends⟩
  | cache himages hblocks _ hrun ht hsends ih =>
    exact ⟨_, _, (authentic_of_run himages hblocks ih hrun).file.2 _ ht, hsends⟩

/-- NOTHING FALSE CIRCULATES: every datagram of the network is read as a reply with the file's name and metadata,
    hashes of its tree, and its bytes. -/
theorem circulates_authentic (hcf : f.CollisionFree zhash) (zcb : Datagram) (h : Circulates hcf zcb) :
    ∃ reply, ZFileReplyFromServer.parse zcb = .ok (some reply) ∧ reply.fileHash = f.fileHash zhash ∧
      reply.metadata = f.metadata ∧
      (∀ r ∈ reply.merkleRecords, f.Present r.treeLocation ∧ r.hash = f.hashAt zhash r.treeLocation) ∧
      reply.payload = field f.content reply.dataRange.start (reply.dataRange.stop - reply.dataRange.start) := by
  obtain ⟨t, c, ht, hsends⟩ := h.sent
  obtain ⟨req, hserves, hlocated, hparse⟩ := hsends.parse
  obtain ⟨hord, hfile, -, -⟩ := availableRange_bounds t req
  refine ⟨_, hparse, rfl, ht.metadata, fun r hr => ?_, ht.fileBytes_eq ?_ (by omega)⟩
  · obtain ⟨l, hl, rfl⟩ := mem_map.mp hr
    exact ht.authentic.validated l (hlocated.validated l hl).2
  · rwa [Nat.add_sub_of_le hord]

/-- END TO END: what is read from a cache of the network is the file. -/
theorem network_reads_file (hcf : f.CollisionFree zhash) {cfg : ZCacheConfig} {blocks : ZBlockCache}
    {events : List FileEvent} {s : Client} {t : MerkleTree} {len bufOffset offset size : ℕ}
    (himages : AuthenticImages hcf cfg) (hblocks : blocks.Sound zhash)
    (hheard : ∀ zcb, .receive zcb ∈ events → Circulates hcf zcb)
    (hrun : run (fileStep zhash cfg) (Client.fresh (f.fileHash zhash) blocks) events = .ok s)
    (ht : s.file.tree = some t) (hread : Readable zhash t s.blocks len bufOffset offset size)
    (halign : DataRange.Aligned ⟨offset, offset + size⟩) (hzero : Nonzero t ⟨offset, offset + size⟩) :
    ∃ c' v', readFile t s.blocks (.fresh len) bufOffset offset size = .ok (c', v') ∧
      v'.data = splice (List.replicate len none) bufOffset ((field f.content offset size).map some) := by
  have htree := (authentic_of_run himages hblocks (fun zcb hzcb => (hheard zcb hzcb).sent) hrun).file.2 t ht
  obtain ⟨c', v', hrun', hdata⟩ := hread.readsExactly halign hzero
  rw [htree.fileBytes_eq hread.serves hread.inFile] at hdata
  exact ⟨c', v', hrun', hdata⟩

/-! ### The runs of a server -/

section

open ZFileServer

variable {answer : Hash → FileResult} {c₀ : ZBlockCache} {s s' : ZFileServer} {req : WireFileRequest}

/-- The request in a datagram, if the parser accepts it. -/
def accepted (zcb : Datagram) : Option WireFileRequest :=
  match WireFileRequest.parse zcb with
  | .ok parsed => parsed
  | .error _ => none

lemma sent_cacheOrDiscardResult {result : FileResult} {payloadLen : ℕ}
    (h : s.cacheOrDiscardResult req result payloadLen = .ok s') : s'.sent = s.sent := by
  obtain ⟨-, -, c', v, -, rfl⟩ | ⟨-, rfl⟩ := cacheOrDiscardResult_cases h
  · rfl
  · rfl

lemma sendReply_sent {result : FileResult} (h : s.sendReply req result = .ok s') :
    s'.sent.map Prod.fst = s.sent.map Prod.fst ++ [req] := by
  rw [sendReply] at h
  obtain htake | ⟨v, -, -, -, htake⟩ := takeVbuf_cases s (result.getReplySize req)
  · simp only [htake] at h
    obtain ⟨⟨c, v⟩, -, hcache⟩ := of_bind h
    rw [sent_cacheOrDiscardResult hcache, map_append, map_singleton]
  · simp only [htake] at h
    obtain ⟨⟨c, v⟩, -, hcache⟩ := of_bind h
    rw [sent_cacheOrDiscardResult hcache, map_append, map_singleton]

/-- STEP: the request in a datagram is answered once, out of the cache or not, and nothing else is sent. -/
lemma serve_sent {zcb : Datagram} (h : s.serve answer zcb = .ok s') :
    s'.sent.map Prod.fst = s.sent.map Prod.fst ++ (accepted zcb).toList := by
  obtain ⟨parsed, hparse, h⟩ := of_bind h
  rw [accepted, hparse]
  cases parsed with
  | none =>
    cases h
    exact (append_nil _).symm
  | some req =>
    obtain ⟨⟨s₁, done⟩, hzero, hrest⟩ := of_bind h
    obtain ⟨rfl, rfl, -⟩ | ⟨rfl, creq, result, v, -, -, -, hcache⟩ := zeroCopyReplyOptimization_cases hzero
    · exact sendReply_sent hrest
    · cases hrest
      rw [sent_cacheOrDiscardResult hcache, map_append]
      rfl

/-- RUN: so are those of a sequence of datagrams. -/
lemma run_sent (zcbs : List Datagram) : ∀ {s s' : ZFileServer}, run (serve answer) s zcbs = .ok s' →
    s'.sent.map Prod.fst = s.sent.map Prod.fst ++ zcbs.filterMap accepted := by
  induction zcbs with
  | nil =>
    intro s s' h
    cases h
    exact (append_nil _).symm
  | cons zcb zcbs ih =>
    intro s s' h
    obtain ⟨s₁, hserve, hrun⟩ := of_bind h
    rw [ih hrun, serve_sent hserve, append_assoc]
    cases hreq : accepted zcb <;> simp [hreq]

/-- THE SERVER IS IN THE NETWORK: whatever it has cached, a reply that it sends out of the file's tree circulates. -/
theorem server_replies_circulate (hcf : f.CollisionFree zhash) (hp₀ : Provides zhash answer c₀) (zcbs : List Datagram)
    (hC : Along (serve answer) (Recyclable answer) (ZFileServer.fresh c₀) zcbs)
    (hrun : run (serve answer) (ZFileServer.fresh c₀) zcbs = .ok s) {p : WireFileRequest × List (Option UInt8)}
    (hp : p ∈ s.sent) {t : MerkleTree} (hanswer : answer p.1.fileHash = .valid (f.fileHash zhash) t)
    (htree : AuthenticTree hcf t) (henc : Encodable t p.1) :
    ∃ zcb : Datagram, p.2 = zcb.bytes.map some ∧ Circulates hcf zcb := by
  have hfresh : Consistent zhash answer c₀ (ZFileServer.fresh c₀) :=
    ⟨rfl, by rintro _ _ _ ⟨⟩, hp₀.sound, fun _ => rfl, by rintro _ ⟨⟩⟩
  have hs := run_invariant (fun s zcb s' hs hC h => serve_consistent hp₀ hs hC h) zcbs _ s hfresh hC hrun
  obtain ⟨⟨c', v⟩, hfill, hv⟩ := of_bind (hs.sent p hp)
  simp only [hanswer, FileResult.getReplySize_valid, FileResult.fillReply_valid] at hfill
  -- the request came in a datagram
  have hmem := mem_map_of_mem (f := Prod.fst) hp
  rw [run_sent zcbs hrun] at hmem
  obtain ⟨request, -, haccepted⟩ := mem_filterMap.mp hmem
  have hparse : WireFileRequest.parse request = .ok (some p.1) := by
    rw [accepted] at haccepted
    split at haccepted
    case h_1 hok => rw [hok, haccepted]
    case h_2 => cases haccepted
  have hserves := hp₀.serves p.1 _ t hanswer
  have hreplies : Replies (f.fileHash zhash) t c₀ p.1 :=
    henc.replies (WireFileRequest.parse_wellFormed hparse) hserves
  obtain ⟨_, _, bytes, hfill', hdata, hlen, -⟩ := hreplies
  cases hfill.symm.trans hfill'
  exact ⟨⟨bytes, by rw [hlen]; exact u32_lt _⟩, (Except.ok.inj hv).symm.trans hdata,
    .origin htree ⟨request, p.1, c', v, hparse, hserves, henc, hfill, hdata⟩⟩

end

end

/-! ### A network with one cache -/

/-- The file of five zeros that `smallTree` is the tree of. -/
def smallFile : RefFile := ⟨List.replicate 5 0, 0, by decide, by decide⟩

/-- The strings hashed for `smallFile`, and hashes for them. -/
def smallTable : List (Bytes × Hash) :=
  [(toBE 4 5 ++ toBE 4 0 ++ (Hash.fill 1).bytes, Hash.fill 2), (List.replicate 4 0, Hash.fill 3),
    (List.replicate zftpBlockSize 0, Hash.fill 1)]

def smallHash : Bytes → Hash := tableHash smallTable (Hash.fill 7)

lemma smallTable_keys : (smallTable.map Prod.fst).Nodup := by decide

lemma smallHash_block : smallHash (List.replicate zftpBlockSize 0) = Hash.fill 1 :=
  tableHash_mem smallTable_keys (e := (_, Hash.fill 1)) (.tail _ (.tail _ (.head _)))

lemma smallFile_block : smallFile.block 0 = List.replicate zftpBlockSize 0 := by
  simp only [RefFile.block, smallFile, field, zftpBlockSize, zero_mul, drop_zero, take_replicate, length_replicate,
    replicate_append_replicate, show min 65536 5 = 5 from rfl]

lemma smallFile_treeDepth : smallFile.treeDepth = 0 := by decide +kernel

lemma smallFile_root : smallFile.hashAt smallHash 0 = Hash.fill 1 := by
  rw [RefFile.hashAt, smallFile_treeDepth]
  rw [show smallFile.nodeHash smallHash (0 - levelOf 0) (colOf 0) = smallFile.nodeHash smallHash 0 0 from rfl,
    RefFile.nodeHash, if_pos (by decide), smallFile_block, smallHash_block]

lemma smallFile_fileHash : smallFile.fileHash smallHash = Hash.fill 2 := by
  rw [RefFile.fileHash, smallFile_root]
  exact tableHash_mem smallTable_keys (e := (_, Hash.fill 2)) (.head _)

lemma smallFile_collisionFree : smallFile.CollisionFree smallHash := by
  intro x y hy h
  have hkey : ∀ v, (y, v) ∈ smallTable → x = y := fun v hv => tableHash_inj (by decide) smallTable_keys hv h
  cases hy with
  | block k hk =>
    obtain rfl : k = 0 := Nat.lt_one_iff.mp hk
    rw [smallFile_block] at hkey ⊢
    exact hkey _ (.tail _ (.tail _ (.head _)))
  | zeros => exact hkey _ (.tail _ (.head _))
  | pair k _ hk =>
    rw [smallFile_treeDepth] at hk
    exact absurd hk (Nat.not_lt_zero k)
  | file =>
    rw [smallFile_root] at hkey ⊢
    exact hkey _ (.head _)

lemma smallTree_authentic : AuthenticTree smallFile_collisionFree smallTree :=
  authenticTree_root smallFile_collisionFree smallFile_root.symm

lemma smallCache_sound_smallHash : smallCache.Sound smallHash := by
  refine ZBlockCache.sound_fresh ?_
  rintro _ ⟨⟩ k v hv
  dsimp only at hv
  split at hv
  case isTrue hk =>
    cases hv
    exact ⟨length_replicate, smallHash_block.trans hk.symm⟩
  case isFalse => cases hv

/-- A request packet for the root alone. -/
def rootPacket : Datagram where
  bytes := [0, 20, 0, 0] ++ (Hash.fill 2).bytes ++ [0, 0, 0, 1] ++ List.replicate 16 0
  length_lt := by simp [hashSize]

def rootRequest : WireFileRequest := WireFileRequest.ofPacket rootPacket.bytes none

lemma parse_rootPacket : WireFileRequest.parse rootPacket = .ok (some rootRequest) := rfl

lemma not_whole_block {stop : ℕ} (h : stop ≤ 5) (k : ℕ) : ¬(k + 1) * zftpBlockSize ≤ stop := by
  simp only [zftpBlockSize]
  omega

lemma rootRequest_encodable : Encodable smallTree rootRequest := by
  have hshort := not_whole_block (availableRange_bounds smallTree rootRequest).2.1
  exact ⟨⟨by decide, by decide⟩, by decide, by decide, fun k _ hk => absurd hk (hshort k),
    fun k _ hk => absurd hk (hshort k)⟩

lemma rootRequest_serves : Serves smallHash smallTree smallCache (getAvailableDataRange smallTree rootRequest) :=
  ⟨smallCache_sound_smallHash, (smallTree_serves _ (availableRange_bounds smallTree rootRequest).2.1).blocks⟩

lemma rootRequest_replies : Replies (Hash.fill 2) smallTree smallCache rootRequest :=
  rootRequest_encodable.replies (WireFileRequest.parse_wellFormed parse_rootPacket) rootRequest_serves

/-- The origin's reply to the request circulates. -/
lemma rootReply_circulates : ∃ zcb : Datagram, Circulates smallFile_collisionFree zcb ∧
    ZFileReplyFromServer.parse zcb = .ok (some (expectedReply (Hash.fill 2) smallTree smallCache.view rootRequest)) := by
  obtain ⟨c', v, bytes, hfill, hdata, hlen, hread⟩ := rootRequest_replies
  refine ⟨⟨bytes, by rw [hlen]; exact u32_lt _⟩, .origin (c := smallCache) smallTree_authentic ?_, hread _ rfl⟩
  rw [smallFile_fileHash]
  exact ⟨_, _, c', v, parse_rootPacket, rootRequest_serves, rootRequest_encodable, hfill, hdata⟩

/-- The metadata circulates. -/
theorem circulates_authentic_root : ∃ zcb reply, Circulates smallFile_collisionFree zcb ∧
    ZFileReplyFromServer.parse zcb = .ok (some reply) ∧ reply.metadata = smallFile.metadata := by
  obtain ⟨zcb, hzcb, -⟩ := rootReply_circulates
  obtain ⟨reply, hparse, -, hmetadata, -⟩ := circulates_authentic smallFile_collisionFree zcb hzcb
  exact ⟨zcb, reply, hzcb, hparse, hmetadata⟩

/-- What a new cache over a DB that has the block knows after the reply. -/
lemma rootReply_installed : (match installReply smallHash clientConfig (Client.fresh (Hash.fill 2) smallCache)
      (expectedReply (Hash.fill 2) smallTree smallCache.view rootRequest) with
    | .ok s => s.file.tree.map fun t => (t.leaf 0, t.numBlocks, t.metadata.fileLen, (s.blocks.view (Hash.fill 1)).valid)
    | .error _ => none) = some (⟨Hash.fill 1, .validated⟩, 1, 5, true) := by
  decide +kernel

/-- Three bytes are read from the cache that has heard the reply. -/
theorem network_reads_file_small : ∃ zcb s t c' v', Circulates smallFile_collisionFree zcb ∧
    run (fileStep smallHash clientConfig) (Client.fresh (smallFile.fileHash smallHash) smallCache)
      [.receive zcb] = .ok s ∧
    s.file.tree = some t ∧ readFile t s.blocks (.fresh 3) 0 1 3 = .ok (c', v') ∧
    v'.data = splice (List.replicate 3 none) 0 ((field smallFile.content 1 3).map some) := by
  obtain ⟨zcb, hzcb, hparse⟩ := rootReply_circulates
  have hheard : ∀ z, FileEvent.receive z ∈ [FileEvent.receive zcb] → Circulates smallFile_collisionFree z := by
    intro z hz
    cases mem_singleton.mp hz
    exact hzcb
  have himages : AuthenticImages smallFile_collisionFree clientConfig := by
    rintro image (himage | ⟨url, himage⟩) <;> cases himage
  have hinstalled := rootReply_installed
  split at hinstalled
  case h_2 => cases hinstalled
  case h_1 s hs =>
    obtain ⟨t, ht, heq⟩ := Option.map_eq_some_iff.mp hinstalled
    simp only [Prod.mk.injEq] at heq
    obtain ⟨hleaf, hnum, hlen, hvalid⟩ := heq
    have hrun : run (fileStep smallHash clientConfig) (Client.fresh (smallFile.fileHash smallHash) smallCache)
        [.receive zcb] = .ok s := by
      simp only [run, fileStep, receiveDatagram, hparse, Checked.ok_bind, smallFile_fileHash, hs]
    have hsound := (authentic_of_run himages smallCache_sound_smallHash (fun z hz => (hheard z hz).sent) hrun).blocks
    have hread : Readable smallHash t s.blocks 3 0 1 3 := by
      refine ⟨⟨hsound, fun i _ hi => ?_⟩, by omega, by omega, by decide⟩
      have hblock : i / zftpBlockSize = 0 := Nat.div_eq_of_lt (by simp only [zftpBlockSize] at hi ⊢; omega)
      rw [hblock, hnum, hleaf]
      exact ⟨Nat.one_pos, rfl, hvalid⟩
    have hshort := not_whole_block (show 1 + 3 ≤ 5 by decide)
    obtain ⟨c', v', hok, hdata⟩ := network_reads_file smallFile_collisionFree himages smallCache_sound_smallHash hheard
      hrun ht hread (fun k _ hk => absurd hk (hshort k)) (fun k _ hk => absurd hk (hshort k))
    exact ⟨zcb, s, t, c', v', hzcb, hrun, ht, hok, hdata⟩

/-- A server of the file answers the request. -/
lemma serve_rootPacket : ∃ s data,
    run (ZFileServer.serve smallAnswer) (ZFileServer.fresh smallCache) [rootPacket] = .ok s ∧
      s.sent = [(rootRequest, data)] := by
  obtain ⟨c', v, -, hfill, -⟩ := rootRequest_replies
  have hdiscard (s : ZFileServer) (result : FileResult) :
      s.cacheOrDiscardResult rootRequest result (getReplySize smallTree rootRequest) = .ok s := if_neg (by decide)
  refine ⟨{ ZFileServer.fresh smallCache with blocks := c', sent := [(rootRequest, v.data)] }, v.data, ?_, rfl⟩
  simp only [run, ZFileServer.serve, parse_rootPacket, Checked.ok_bind, ZFileServer.zeroCopyReplyOptimization,
    ZFileServer.fresh, Checked.pure_eq_ok, smallAnswer, ZFileServer.sendReply, FileResult.getReplySize_valid,
    ZFileServer.takeVbuf, FileResult.fillReply_valid, hfill, hdiscard, nil_append]

theorem server_replies_circulate_root : ∃ s, run (ZFileServer.serve smallAnswer) (ZFileServer.fresh smallCache)
    [rootPacket] = .ok s ∧ ∃ p ∈ s.sent, ∃ zcb : Datagram, p.2 = zcb.bytes.map some ∧
      Circulates smallFile_collisionFree zcb := by
  obtain ⟨s, data, hrun, hsent⟩ := serve_rootPacket
  have hp : (rootRequest, data) ∈ s.sent := hsent ▸ mem_singleton_self _
  have hprovides : Provides smallHash smallAnswer smallCache := ⟨smallCache_sound_smallHash, fun req fileHash t h =>
    ⟨smallCache_sound_smallHash, (smallAnswer_provides.serves req fileHash t h).blocks⟩⟩
  have hanswer : smallAnswer rootRequest.fileHash = .valid (smallFile.fileHash smallHash) smallTree := by
    rw [smallFile_fileHash, smallAnswer]
  exact ⟨s, hrun, _, hp, server_replies_circulate smallFile_collisionFree hprovides [rootPacket]
    ⟨recyclable_fresh _, fun _ _ => trivial⟩ hrun hp hanswer smallTree_authentic rootRequest_encodable⟩

end Embassies.Zftp
