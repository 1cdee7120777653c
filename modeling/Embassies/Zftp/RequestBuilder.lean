import Embassies.Zftp.MerkleTree
import Embassies.Zftp.Reply
import Mathlib.Data.List.Sort

/-! `RequestBuilder`: what to ask the origin server for, given the tree and a missing set.

    The builder collects hash locations (tentatively, then committed) and one contiguous data range within the budget
    `mtu`. The two AVL trees of locations are used as sets; the committed one is read out in increasing order. -/

namespace Embassies.Zftp

/-- The fields `OutboundRequest` writes into its packet. -/
structure OutboundRequest where
  fileHash : Hash
  urlHint : Option Bytes
  locations : List ℕ
  paddingRequest : ℕ
  dataRange : DataRange
  deriving DecidableEq

/-- The members of `RequestBuilder` that its methods change. -/
structure RequestBuilder where
  committedTreeLocations : List ℕ
  tentativeTreeLocations : List ℕ
  requestRange : DataRange

namespace RequestBuilder

/-- `_available()`: an `int` minus an `int`. Where the difference is none the compiled subtraction wraps. -/
def available (mtu : ℕ) (b : RequestBuilder) : ℤ :=
  let consumed := u32 (sizeofDataPacket
    + sizeofMerkleRecord * (b.committedTreeLocations.length + b.tentativeTreeLocations.length)
    + b.requestRange.size)
  int32 (sub32 mtu consumed)

/-- `clear_tentative_locations(COMMIT)`. -/
def commit (b : RequestBuilder) : RequestBuilder :=
  { b with
    committedTreeLocations := b.committedTreeLocations ++ b.tentativeTreeLocations
    tentativeTreeLocations := [] }

/-- `clear_tentative_locations(ABORT)`. -/
def abort (b : RequestBuilder) : RequestBuilder := { b with tentativeTreeLocations := [] }

/-- `request_hash(location)`: the builder, and whether the request is novel. -/
def requestHash (t : MerkleTree) (b : RequestBuilder) (location : ℕ) :
    Checked (RequestBuilder × Bool) :=
  if location ∈ b.committedTreeLocations ∨ location ∈ b.tentativeTreeLocations then pure (b, false)
  else do
    let vmr ← t.get location
    if vmr.state = .unknown then
      pure ({ b with tentativeTreeLocations := b.tentativeTreeLocations ++ [location] }, true)
    else pure (b, false)

/-- The loop of `request_hash_ancestors(block_num)`, from `level` upwards. -/
def requestHashAncestorsFrom (t : MerkleTree) (blockNum : ℕ) :
    ℕ → RequestBuilder → Checked RequestBuilder
  | 0, b => pure b
  | level + 1, b => do
    let location ← treeIndex (level + 1) (blockNum / 2 ^ (t.treeDepth - (level + 1))) t.treeSize
    let sibling ← siblingLocation location
    let (b, _) ← b.requestHash t sibling
    let (b, requestIsNovel) ← b.requestHash t location
    -- no need to go to the root if someone else has already been there
    if requestIsNovel then requestHashAncestorsFrom t blockNum level b else pure b

/-- `request_hash_ancestors(block_num)`. -/
def requestHashAncestors (t : MerkleTree) (b : RequestBuilder) (blockNum : ℕ) :
    Checked RequestBuilder :=
  requestHashAncestorsFrom t blockNum t.treeDepth b

/-- The part of a block that `_build_request` asks for: as much of it as fits. -/
def clip (mtu : ℕ) (b : RequestBuilder) (r : DataRange) : DataRange :=
  if int32 r.size > b.available mtu then ⟨r.start, u32 (r.start + (b.available mtu).toNat)⟩ else r

/-- The loop of `_build_request`, with fuel for its blocks. -/
def buildLoop (t : MerkleTree) (mtu : ℕ) (missing : DataRange) :
    ℕ → ℕ → RequestBuilder → Checked RequestBuilder
  | 0, _, _ => .error .outOfFuel
  | fuel + 1, start, b =>
    if start < missing.stop ∧ 0 < b.available mtu then do
      let blk := start / zftpBlockSize
      let endBlk := u32 ((blk + 1) * zftpBlockSize)
      let b ← b.requestHashAncestors t blk
      -- over budget on hash requests alone: skip these, and the data they'd ride in on
      if b.available mtu < 0 then pure b.abort else do
      let b := b.commit
      let leafLocation ← treeIndex t.treeDepth blk t.treeSize
      let vmr ← t.get leafLocation
      -- only ask for data blocks when the leaf is known
      if vmr.state = .validated then do
        let range ← b.requestRange.accumulate (b.clip mtu ⟨start, min endBlk missing.stop⟩)
        buildLoop t mtu missing fuel endBlk { b with requestRange := range }
      else buildLoop t mtu missing fuel endBlk b
    else pure b

/-- `_build_request(missing_set)`. -/
def buildRequest (t : MerkleTree) (mtu : ℕ) (missing : DataRange) : Checked RequestBuilder := do
  let b ← buildLoop t mtu missing (zftpBlockSize + 1) missing.start ⟨[], [], .empty⟩
  liteAssert (b.tentativeTreeLocations.length = 0)
  liteAssert (0 ≤ b.available mtu)
  pure b

/-- `as_outbound_request()`. -/
def asOutboundRequest (b : RequestBuilder) (fileHash : Hash) : OutboundRequest where
  fileHash := fileHash
  urlHint := none
  locations := b.committedTreeLocations.insertionSort (· ≤ ·)
  paddingRequest := 0
  dataRange := b.requestRange

/-- `requested_any_data()`. -/
def requestedAnyData (b : RequestBuilder) : Bool := 0 < b.requestRange.size

end RequestBuilder

end Embassies.Zftp
