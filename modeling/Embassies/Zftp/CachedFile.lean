import Embassies.Zftp.BlockCache
import Embassies.Zftp.RequestBuilder

/-! `ZCachedFile` inside its `ZCache`: installing replies, considering and withdrawing requests.

    `Client` is the state the mutex of one cached file protects, together with the block cache it
    shares: the file, the blocks, and the two effects a caller can observe, results delivered to
    requests and requests sent to the origin server. `ZCacheConfig` is what the surrounding `ZCache`
    contributes and these functions only read: whether there is a file client and its payload limit,
    whether there are origins and what probing one does, and the file image the file DB holds. -/

namespace Embassies.Zftp

/-- `ZCachedStatus`. -/
inductive ZCachedStatus where | ignorant | clean | dirty
  deriving DecidableEq

/-- `ZFTPReplyCode` of the results `ZCachedFile` makes up itself. -/
inductive ZFTPReplyCode where | data | hintRequired | errorIncorrectHashForUrl | errorYeahThatIsZero
  deriving DecidableEq

/-- `InternalFileResult`: a `ValidFileResult`, or an `ErrorFileResult` with its code and message. -/
inductive InternalFileResult where
  | valid
  | error (code : ZFTPReplyCode) (msg : String)
  deriving DecidableEq

/-- `ZFileRequest`; `id` is the object's address. -/
structure ZFileRequest where
  id : ℕ
  hash : Hash
  urlHint : Option Bytes
  treeLocations : List ℕ
  paddingRequest : ℕ
  dataRange : DataRange
  deriving DecidableEq

/-- A `ZCachedFile` that came from an origin or the file DB. Both only produce files whose root is validated. -/
structure FileImage where
  fileHash : Hash
  tree : MerkleTree
  root_validated : (tree.node 0).state = .validated

/-- What `ZCache::probe_origins_for_hash(url, hash)` does: the blocks its `ZOriginFile` loads into
    the block cache, the image it installs into this file, and its answer. -/
structure ProbeOutcome where
  loads : List BlockData
  image : Option FileImage
  hashMatch : Bool

/-- What `ZCachedFile` reads of its `ZCache`. -/
structure ZCacheConfig where
  /-- `zfile_client`, by its maximal payload -/
  zfileClient : Option ℕ
  hasOrigins : Bool
  retrieveFile : Option FileImage
  probeOriginsForHash : Bytes → ProbeOutcome

/-- `ZCachedFile`. The tree is there exactly when `metadata_state` is `v_validated`; the other value
    it takes is `v_unknown`. -/
structure ZCachedFile where
  fileHash : Hash
  tree : Option MerkleTree
  status : ZCachedStatus
  progressCounter : ℕ
  waiters : List ZFileRequest
  requestingDataMode : Bool

/-- A cached file, its block cache, and what its callers and the origin server have been sent. -/
structure Client where
  file : ZCachedFile
  blocks : ZBlockCache
  delivered : List (ZFileRequest × InternalFileResult)
  sent : List OutboundRequest

namespace Client

/-- `new ZCachedFile(zcache, file_hash)` over the given block cache. -/
def fresh (fileHash : Hash) (blocks : ZBlockCache) : Client where
  file := ⟨fileHash, none, .ignorant, 0, [], false⟩
  blocks := blocks
  delivered := []
  sent := []

/-- The tree of a file that is past its metadata. -/
def theTree (s : Client) : Checked MerkleTree :=
  match s.file.tree with
  | some t => .ok t
  | none => .error .nullDeref

def setTree (s : Client) (t : MerkleTree) : Client := { s with file := { s.file with tree := some t } }

/-- `req->deliver_result(result)`. -/
def deliver (s : Client) (req : ZFileRequest) (result : InternalFileResult) : Client :=
  { s with delivered := s.delivered ++ [(req, result)] }

end Client

/-! ### Blocks of the file -/

/-- `find_block_hash(block_num, required_validity)`. -/
def findBlockHash (t : MerkleTree) (blockNum : ℕ) (required : ValidityState) :
    Checked (Option Hash) := do
  let leafLoc ← treeIndex t.treeDepth blockNum t.treeSize
  let vmr ← t.get leafLoc
  pure (if vmr.state.rank < required.rank then none else some vmr.hash)

/-- `_lookup_block(block_num, required_validity)`. -/
def lookupBlock (t : MerkleTree) (c : ZBlockCache) (blockNum : ℕ) (required : ValidityState) :
    Checked (ZBlockCache × Option ℕ) := do
  match ← findBlockHash t blockNum required with
  | none => pure (c, none)
  | some h => do
    let (c, p) ← c.lookupBlock h
    pure (c, some p)

/-! ### Installing a reply -/

section Install

variable (zhash : Bytes → Hash)

/-- `_compute_file_hash(metadata, root_hash)`. -/
def computeFileHash (m : ZFTPFileMetadata) (rootHash : Hash) : Hash :=
  zhash (m.bytes ++ rootHash.bytes)

/-- `_find_root_merkle_record_idx(reply)`. -/
def findRootMerkleRecord (reply : ZFileReplyFromServer) : Option ZFTPMerkleRecord :=
  reply.merkleRecords.find? (fun zmr => zmr.treeLocation = 0)

/-- `_install_metadata(reply)`: `none` is `FAIL`. -/
def installMetadata (f : ZCachedFile) (reply : ZFileReplyFromServer) :
    Option (MerkleTree × InstallResult) :=
  match f.tree with
  | some t => some (t, .noEffect)
  | none =>
    match findRootMerkleRecord reply with
    | none => none
    | some root =>
      if computeFileHash zhash reply.metadata root.hash ≠ f.fileHash then none
      else
        let t := MerkleTree.configureFromMetadata reply.metadata
        some ((t.setHash 0 root.hash).setState 0 .validated, .newData)

/-- `next_end_byte`: the end of the block at `nextStartByte`, or of the reply's data. -/
def nextEndByte (reply : ZFileReplyFromServer) (nextStartByte : ℕ) : ℕ :=
  min (u32 (nextStartByte / zftpBlockSize * zftpBlockSize + zftpBlockSize)) reply.dataRange.stop

/-- The end of an iteration of `install_data`: no more data will come for the last block, so fill it
    out so that it acts valid. -/
def completeLast (t : MerkleTree) (c : ZBlockCache) (p block endByte : ℕ) : Checked ZBlockCache :=
  if block = t.numBlocks - 1 ∧ endByte = t.metadata.fileLen then c.completeWithZeros zhash p
  else pure c

/-- One iteration of `install_data(reply)`. -/
def installPiece (t : MerkleTree) (reply : ZFileReplyFromServer) (nextStartByte : ℕ)
    (c : ZBlockCache) : Checked (ZBlockCache × Bool) := do
  let nextStartBlock := nextStartByte / zftpBlockSize
  let blockStartByte := nextStartBlock * zftpBlockSize
  liteAssert (nextStartBlock < t.numBlocks) -- received data beyond last block
  let endByte := nextEndByte reply nextStartByte
  match ← lookupBlock t c nextStartBlock .tentative with
  | (_, none) => .error .liteAssert
  | (c, some p) => do
    let (c, new) ← c.receiveData zhash p (nextStartByte - blockStartByte)
      (endByte - blockStartByte) reply.payload (nextStartByte - reply.dataRange.start)
    let c ← completeLast zhash t c p nextStartBlock endByte
    pure (c, new)

/-- The loop of `install_data(reply)`, with fuel for its blocks. -/
def installDataLoop (t : MerkleTree) (reply : ZFileReplyFromServer) :
    ℕ → ℕ → ZBlockCache → Checked (ZBlockCache × Bool)
  | 0, _, _ => .error .outOfFuel
  | fuel + 1, nextStartByte, c =>
    if nextStartByte < reply.dataRange.stop then do
      let (c, new) ← installPiece zhash t reply nextStartByte c
      let (c, more) ← installDataLoop t reply fuel (nextEndByte reply nextStartByte) c
      pure (c, new || more)
    else pure (c, false)

/-- `install_data(reply)`: a 32-bit range meets at most `2 ^ 16` blocks. -/
def installData (t : MerkleTree) (reply : ZFileReplyFromServer) (c : ZBlockCache) :
    Checked (ZBlockCache × Bool) :=
  installDataLoop zhash t reply (zftpBlockSize + 1) reply.dataRange.start c

/-- `_update_status(new_status)`; storing the file in the file DB has no effect on it. -/
def updateStatus (f : ZCachedFile) (newStatus : ZCachedStatus) : ZCachedFile :=
  { f with status := if newStatus = .dirty then .clean else newStatus }

/-- `install_reply(reply)` up to the point where it signals the waiters: the state, and whether
    the reply told anything new. -/
def installReplyCore (s : Client) (reply : ZFileReplyFromServer) : Checked (Client × Bool) :=
  match installMetadata zhash s.file reply with
  | none => pure (s, false)
  | some (t, ir) => do
    let (t, newRecords) ← t.installMerkleRecords zhash reply.merkleRecords
    let (c, newBytes) ← installData zhash t reply s.blocks
    let causedChange := ir = .newData || newRecords || newBytes
    let (t, ir) ← t.validateTentativeHashes zhash
    liteAssert (ir = .newData → causedChange = true)
    pure ({ s.setTree t with blocks := c }, causedChange)

end Install

/-! ### What a request is missing -/

/-- `round_up_to_block(pos)`: near the top of the address space, and at 0, it stays one block short. -/
def roundUpToBlock (pos : ℕ) : ℕ :=
  let down := sub32 pos 1 / zftpBlockSize * zftpBlockSize
  if u32 (down + zftpBlockSize) < down then down else u32 (down + zftpBlockSize)

/-- `get_file_data_range()`. -/
def getFileDataRange (t : MerkleTree) : DataRange := ⟨0, t.metadata.fileLen⟩

/-- `rounded_set` cut to the file, where `_compute_missing_set` looks for holes. -/
def eligibleSet (t : MerkleTree) (requested : DataRange) : DataRange :=
  DataRange.intersect
    ⟨requested.start / zftpBlockSize * zftpBlockSize, roundUpToBlock requested.stop⟩
    (getFileDataRange t)

/-- What one iteration adds to the missing set, given the block it looked up: `none` when the pieces do not join. -/
def accumulateBlock (eligible missing : DataRange) (start : ℕ) (block : Option ZBlockCacheRecord) :
    Option DataRange :=
  let startBlk := start / zftpBlockSize * zftpBlockSize
  let endBlk := u32 (startBlk + zftpBlockSize)
  match block with
  | none => missing.maybeAccumulate ⟨start, min endBlk eligible.stop⟩
  | some r =>
    if r.valid then some missing
    else
      let gap := r.getMissingRange
      let shifted : DataRange := ⟨u32 (startBlk + gap.1), u32 (startBlk + gap.2)⟩
      missing.maybeAccumulate (shifted.intersect eligible)

/-- `approx_payload_size`: in data mode the bytes missing, in hash mode their leaf hashes. -/
def approxPayloadSize (requestingDataMode : Bool) (missing : DataRange) : ℕ :=
  if requestingDataMode then missing.size
  else missing.size / zftpBlockSize * sizeofMerkleRecord

/-- The block `_compute_missing_set` sees at `blk`. -/
def lookupValidated (t : MerkleTree) (c : ZBlockCache) (blk : ℕ) :
    Checked (ZBlockCache × Option ZBlockCacheRecord) := do
  match ← lookupBlock t c blk .validated with
  | (c, none) => pure (c, none)
  | (c, some p) => do
    let r ← c.deref p
    pure (c, some r)

/-- The loop of `_compute_missing_set`, with fuel for its blocks. -/
def missingLoop (t : MerkleTree) (requestingDataMode : Bool) (maxPayload : ℕ)
    (eligible : DataRange) : ℕ → ℕ → DataRange → ZBlockCache → Checked (ZBlockCache × DataRange)
  | 0, _, _, _ => .error .outOfFuel
  | fuel + 1, start, missing, c =>
    if start < eligible.stop ∧ start / zftpBlockSize < t.numBlocks then do
      let (c, block) ← lookupValidated t c (start / zftpBlockSize)
      match accumulateBlock eligible missing start block with
      | none => pure (c, missing)
      | some missing =>
        -- don't enumerate more than we'll be able to get back in a reply
        if maxPayload ≤ approxPayloadSize requestingDataMode missing then pure (c, missing)
        else
          let endBlk := u32 ((start / zftpBlockSize + 1) * zftpBlockSize)
          missingLoop t requestingDataMode maxPayload eligible fuel endBlk missing c
    else pure (c, missing)

/-- `_compute_missing_set(requested_range)`. -/
def computeMissingSet (cfg : ZCacheConfig) (t : MerkleTree) (requestingDataMode : Bool)
    (c : ZBlockCache) (requested : DataRange) : Checked (ZBlockCache × DataRange) :=
  let eligible := eligibleSet t requested
  missingLoop t requestingDataMode (cfg.zfileClient.getD 1) eligible (zftpBlockSize + 1)
    eligible.start .empty c

/-! ### Requests -/

section Requests

variable (zhash : Bytes → Hash) (cfg : ZCacheConfig)

/-- `_error_reply(req, code, msg)`. -/
def errorReply (s : Client) (req : ZFileRequest) (code : ZFTPReplyCode) (msg : String) : Client :=
  s.deliver req (.error code msg)

/-- The request `_issue_server_request` sends through the file client, and the new `requesting_data_mode`. -/
def outboundRequest (f : ZCachedFile) (maxPayload : ℕ) (missing : DataRange) (req : ZFileRequest) :
    Checked (OutboundRequest × Bool) :=
  match f.tree with
  | none => pure (⟨req.hash, req.urlHint, [0], 0, .empty⟩, f.requestingDataMode) -- the root hash
  | some t => do
    liteAssert (0 < missing.size)
    let builder ← RequestBuilder.buildRequest t maxPayload missing
    pure (builder.asOutboundRequest f.fileHash, builder.requestedAnyData)

/-- `zcache->probe_origins_for_hash(..)` with its effects, `_install_into` being given. -/
def probe (installImage : Client → FileImage → Checked Client) (s : Client) (o : ProbeOutcome) :
    Checked Client := do
  let c ← o.loads.foldlM (fun c inData => do let (c, _) ← c.loadBlock zhash inData; pure c) s.blocks
  match o.image with
  | none => pure { s with blocks := c }
  | some image => installImage { s with blocks := c } image

/-- `_issue_server_request(missing_set, waiting_req)`. -/
def issueServerRequest (installImage : Client → FileImage → Checked Client) (s : Client)
    (missing : DataRange) (req : ZFileRequest) : Checked Client :=
  if req.hash = Hash.zero then
    pure (errorReply s req .errorYeahThatIsZero "Request asks to invert the zero hash.")
  else
    match cfg.zfileClient, req.urlHint, cfg.hasOrigins with
    | some maxPayload, _, _ => do
      let (obr, mode) ← outboundRequest s.file maxPayload missing req
      pure { s with
        sent := s.sent ++ [obr]
        file := { s.file with waiters := s.file.waiters ++ [req], requestingDataMode := mode } }
    | none, some urlHint, true => do
      let outcome := cfg.probeOriginsForHash urlHint
      let s ← probe zhash installImage s outcome
      -- on a match the source asks itself whether to wake up the request, and does not
      if outcome.hashMatch then pure s
      else pure (errorReply s req .errorIncorrectHashForUrl
        "Provided url_hint doesn't map to requested hash.")
    | none, _, _ =>
      pure (errorReply s req .hintRequired "No back-end origin. This message probably not helpful.")

/-- `_consider_request_nolock(req)` after its look at the disk. -/
def considerWith (installImage : Client → FileImage → Checked Client) (s : Client)
    (req : ZFileRequest) : Checked Client :=
  match s.file.tree with
  | none => issueServerRequest zhash cfg installImage s .empty req
  | some t => do
    let (c, missing) ← computeMissingSet cfg t s.file.requestingDataMode s.blocks req.dataRange
    let s := { s with blocks := c }
    if missing.isEmpty then pure (s.deliver req .valid)
    else issueServerRequest zhash cfg installImage s missing req

/-- `_install_image(image, ..)` on a file whose metadata is validated: it only compares. -/
def assertSameImage (s : Client) (image : FileImage) : Checked Client := do
  let t ← s.theTree
  liteAssert (s.file.fileHash = image.fileHash)
  liteAssert (t.treeSize = image.tree.treeSize)
  liteAssert (∀ l < t.treeSize, t.node l = image.tree.node l)
  pure s

/-- `_signal_waiters()` on a file whose metadata is validated and whose status is known: none of the
    requests it reconsiders looks at the disk, and an image that probing brings is only compared. -/
def signalInstalled (s : Client) : Checked Client :=
  run (considerWith zhash cfg assertSameImage) { s with file := { s.file with waiters := [] } }
    s.file.waiters

/-- `_install_image(image, new_status)`. -/
def installImage (newStatus : ZCachedStatus) (s : Client) (image : FileImage) : Checked Client :=
  if s.file.tree.isSome then assertSameImage s image
  else
    let t := { image.tree with parents := [] }
    let f := updateStatus { s.file with fileHash := image.fileHash, tree := some t } newStatus
    signalInstalled zhash cfg { s with file := f }

/-- The disk check of `_consider_request_nolock`. -/
def checkDisk (s : Client) : Checked Client :=
  match s.file.status, cfg.retrieveFile with
  | .ignorant, some image => installImage zhash cfg .clean s image
  | _, _ => pure s

/-- `_consider_request_nolock(req)`. -/
def considerRequest (s : Client) (req : ZFileRequest) : Checked Client := do
  let s ← checkDisk zhash cfg s
  considerWith zhash cfg (installImage zhash cfg .dirty) s req

/-- `withdraw_request(req)`. -/
def withdrawRequest (s : Client) (req : ZFileRequest) : Client :=
  { s with file := { s.file with waiters := s.file.waiters.erase req } }

/-- `_signal_waiters()`: the list is snarfed out and each request reconsidered in turn. -/
def signalWaiters (s : Client) : Checked Client :=
  run (considerRequest zhash cfg) { s with file := { s.file with waiters := [] } } s.file.waiters

/-- `install_reply(reply)`. -/
def installReply (s : Client) (reply : ZFileReplyFromServer) : Checked Client := do
  let (s, causedChange) ← installReplyCore zhash s reply
  if causedChange then do
    let s ← signalWaiters zhash cfg
      { s with file := { s.file with progressCounter := u32 (s.file.progressCounter + 1) } }
    pure { s with file := updateStatus s.file .dirty }
  else pure s

/-- `ZFileClient::run_worker` on one datagram for this file. -/
def receiveDatagram (s : Client) (zcb : Datagram) : Checked Client := do
  match ← ZFileReplyFromServer.parse zcb with
  | none => pure s
  | some reply => installReply zhash cfg s reply

end Requests

end Embassies.Zftp
