import Embassies.Zftp.ReplyCodec

/-! `ZFileServer` and its one-entry reply cache.

    The server answers a request from the cached buffer when it is equivalent to the cached request, and
    otherwise hands it to the file its hash names, which delivers a result; `answer` is that result. A
    `FileResult` refers to its file, whose metadata, validated hashes and valid blocks stay as they are,
    so it can be filled in again later. Sending a buffer sends all of it. -/

namespace Embassies.Zftp

/-- `sizeof(ZFTPErrorPacket)`. -/
def sizeofErrorPacket : ℕ := 24

/-- The `InternalFileResult` delivered to a request: a `ValidFileResult` of a file, or an
    `ErrorFileResult` with its code and message. -/
inductive FileResult where
  | valid (fileHash : Hash) (tree : MerkleTree)
  | error (fileHash : Hash) (code : ℕ) (msg : Bytes)

namespace FileResult

/-- The packet of an `ErrorFileResult`; the message is sent with its terminating zero. -/
def errorPacket (fileHash : Hash) (code : ℕ) (msg : Bytes) : Bytes :=
  toBE 2 code ++ (toBE 2 (msg.length + 1) ++ (fileHash.bytes ++ (msg ++ [0])))

/-- `get_reply_size(req)`. -/
def getReplySize (r : FileResult) (req : WireFileRequest) : ℕ :=
  match r with
  | .valid _ t => Zftp.getReplySize t req
  | .error _ _ msg => u32 (sizeofErrorPacket + (msg.length + 1))

/-- `fill_reply(vbuf, req)`. -/
def fillReply (r : FileResult) (c : ZBlockCache) (v : ValidatedZCB) (req : WireFileRequest) :
    Checked (ZBlockCache × ValidatedZCB) :=
  match r with
  | .valid fileHash t => Zftp.fillReply fileHash t c v req
  | .error fileHash code msg => do
    let v ← v.write 0 (errorPacket fileHash code msg)
    pure (c, v)

@[simp] lemma getReplySize_valid (fileHash : Hash) (t : MerkleTree) (req : WireFileRequest) :
    (valid fileHash t).getReplySize req = Zftp.getReplySize t req := rfl

@[simp] lemma fillReply_valid (fileHash : Hash) (t : MerkleTree) (c : ZBlockCache) (v : ValidatedZCB)
    (req : WireFileRequest) :
    (valid fileHash t).fillReply c v req = Zftp.fillReply fileHash t c v req := rfl

end FileResult

/-- The loop of `is_semantically_equivalent` over the tree locations, from `i` on. -/
def sameLocations (r other : WireFileRequest) : ℕ → ℕ → Checked Bool
  | 0, _ => pure true
  | k + 1, i => do
    let a ← r.getTreeLocation i
    let b ← other.getTreeLocation i
    if a ≠ b then pure false else sameLocations r other k (i + 1)

/-- `is_semantically_equivalent(other)`. -/
def isSemanticallyEquivalent (r other : WireFileRequest) : Checked Bool :=
  if r.fileHash ≠ other.fileHash then pure false
  else if r.numTreeLocations ≠ other.numTreeLocations then pure false
  else do
    let same ← sameLocations r other r.numTreeLocations 0
    pure (same && decide (r.paddingRequest = other.paddingRequest)
      && decide (r.dataRange = other.dataRange))

/-- `MIN_CACHE_SIZE`. -/
def minCacheSize : ℕ := 1048576

/-- `ZFileServer`, with the block cache its files share and the replies sent so far. A request is kept
    together with the result that was delivered to it. -/
structure ZFileServer where
  cachedReq : Option (WireFileRequest × FileResult)
  cachedVbuf : Option ValidatedZCB
  cachedPayloadLen : ℕ
  blocks : ZBlockCache
  sent : List (WireFileRequest × List (Option UInt8))

namespace ZFileServer

/-- A server that has received nothing. -/
def fresh (blocks : ZBlockCache) : ZFileServer := ⟨none, none, 0, blocks, []⟩

/-- `req_is_cachable(req)`. -/
def reqIsCachable (req : WireFileRequest) : Bool := !req.dataRange.isEmpty

/-- `cache_or_discard_result(req, payload_len)`. -/
def cacheOrDiscardResult (s : ZFileServer) (req : WireFileRequest) (result : FileResult)
    (payloadLen : ℕ) : Checked ZFileServer :=
  if reqIsCachable req = true ∧ minCacheSize ≤ payloadLen then do
    -- cache eviction for a 1-line cache
    liteAssert (s.cachedVbuf.isSome = true → s.cachedReq.isSome = true)
    let (c, v) ← result.fillReply s.blocks (.fresh payloadLen) req
    pure { s with
      cachedReq := some (req, result)
      cachedVbuf := some v
      cachedPayloadLen := payloadLen
      blocks := c }
  else pure s

/-- The buffer `send_reply` fills, and the server that has given it away: the cached buffer when it is
    long enough and the reply is large, a new one otherwise. -/
def takeVbuf (s : ZFileServer) (payloadLen : ℕ) : ValidatedZCB × ZFileServer :=
  match s.cachedVbuf with
  | some v =>
    if payloadLen ≤ v.data.length ∧ minCacheSize ≤ payloadLen then (v, { s with cachedVbuf := none })
    else (.fresh payloadLen, s)
  | none => (.fresh payloadLen, s)

/-- `send_reply(req, payload_len)`. -/
def sendReply (s : ZFileServer) (req : WireFileRequest) (result : FileResult) :
    Checked ZFileServer := do
  let payloadLen := result.getReplySize req
  let (vbuf, s) := s.takeVbuf payloadLen
  let (c, vbuf) ← result.fillReply s.blocks vbuf req
  cacheOrDiscardResult { s with blocks := c, sent := s.sent ++ [(req, vbuf.data)] } req result payloadLen

/-- `zero_copy_reply_optimization(req)`: the server, and whether the request was answered. -/
def zeroCopyReplyOptimization (s : ZFileServer) (req : WireFileRequest) :
    Checked (ZFileServer × Bool) :=
  match s.cachedReq with
  | none => pure (s, false)
  | some (creq, result) => do
    if ← isSemanticallyEquivalent req creq then
      match s.cachedVbuf with
      | none => .error .nullDeref
      | some v => do
        let s ← cacheOrDiscardResult
          { s with cachedReq := none, cachedVbuf := none, sent := s.sent ++ [(req, v.data)] }
          creq result s.cachedPayloadLen
        pure (s, true)
    else pure (s, false)

/-- One iteration of `run_worker` on a datagram. -/
def serve (answer : Hash → FileResult) (s : ZFileServer) (zcb : Datagram) : Checked ZFileServer := do
  match ← WireFileRequest.parse zcb with
  | none => pure s
  | some req => do
    match ← s.zeroCopyReplyOptimization req with
    | (s, true) => pure s
    | (s, false) => s.sendReply req (answer req.fileHash)

/-- What a server without a cache sends for a request. -/
def cachelessReply (answer : Hash → FileResult) (c : ZBlockCache) (req : WireFileRequest) :
    Checked (List (Option UInt8)) := do
  let result := answer req.fileHash
  let (_, v) ← result.fillReply c (.fresh (result.getReplySize req)) req
  pure v.data

end ZFileServer

end Embassies.Zftp
