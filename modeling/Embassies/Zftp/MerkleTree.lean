import Embassies.Zftp.TreeMath

/-! The hash tree of a `ZCachedFile`: its nodes, the table `parents_of_tentative_nodes`, and the
    functions that install Merkle records and validate them.

    The tree exists from the moment the metadata is validated (`_configure_from_metadata`), so the
    metadata is one of its fields and fixes the geometry. `_track_parent_of_tentative_nodes` and
    `_assert_root_validated` are virtual, overridden by `ZOriginFile`; `FileKind` says which body
    runs. Reading `tree[l]` beyond the array is the fault `outOfRange`. -/

namespace Embassies.Zftp

open HeapTree Function

/-- `ValidityState`. -/
inductive ValidityState where | unknown | tentative | validated | margin
  deriving DecidableEq

/-- The numeric order of the enumeration, which `find_block_hash` compares by. -/
def ValidityState.rank : ValidityState → ℕ
  | .unknown => 0
  | .tentative => 1
  | .validated => 2
  | .margin => 3

/-- `ValidatedMerkleRecord`; its location is its index. -/
@[ext]
structure ValidatedMerkleRecord where
  hash : Hash
  state : ValidityState
  deriving DecidableEq

/-- `ZCachedFile::InstallResult`. -/
inductive InstallResult where | noEffect | newData | fail
  deriving DecidableEq

/-- The dynamic type of the file: a plain `ZCachedFile` or a `ZOriginFile`. -/
inductive FileKind where | cached | origin
  deriving DecidableEq

/-- `metadata`, `tree` and `parents_of_tentative_nodes` of a configured file. -/
structure MerkleTree where
  metadata : ZFTPFileMetadata
  node : ℕ → ValidatedMerkleRecord
  parents : List ℕ

namespace MerkleTree

def numBlocks (t : MerkleTree) : ℕ := computeNumBlocks t.metadata.fileLen

def treeDepth (t : MerkleTree) : ℕ := computeTreeDepth t.numBlocks

def treeSize (t : MerkleTree) : ℕ := computeTreeSize t.treeDepth

/-- `_configure_from_metadata()`: a zeroed array. -/
def configureFromMetadata (m : ZFTPFileMetadata) : MerkleTree where
  metadata := m
  node := fun _ => ⟨Hash.zero, .unknown⟩
  parents := []

/-- Reading `tree[l]`. -/
def get (t : MerkleTree) (l : ℕ) : Checked ValidatedMerkleRecord :=
  if l < t.treeSize then .ok (t.node l) else .error .outOfRange

def setState (t : MerkleTree) (l : ℕ) (s : ValidityState) : MerkleTree :=
  { t with node := update t.node l { t.node l with state := s } }

def setHash (t : MerkleTree) (l : ℕ) (h : Hash) : MerkleTree :=
  { t with node := update t.node l { t.node l with hash := h } }

variable (zhash : Bytes → Hash)

/-- `_hash_children(ca, cb, &hash)`: the siblings may come in either order. -/
def hashChildren (t : MerkleTree) (ca cb : ℕ) : Checked Hash := do
  let leftSib := if ca < cb then ca else cb
  let rightSib := if ca < cb then cb else ca
  liteAssert (leftSib % 2 = 1)
  liteAssert (leftSib + 1 = rightSib)
  let a ← t.get leftSib
  let b ← t.get rightSib
  pure (zhash (a.hash.bytes ++ b.hash.bytes))

/-- `_track_parent_of_tentative_nodes(parent)`. -/
def trackParentOfTentativeNodes (kind : FileKind) (t : MerkleTree) (parentLoc : ℕ) :
    Checked MerkleTree :=
  match kind with
  | .origin => pure t
  | .cached => do
    -- the parent is not eligible to hash until both its children are at least tentative
    let l ← t.get (leftChild parentLoc)
    if l.state = .unknown then pure t else
    let r ← t.get (rightChild parentLoc)
    if r.state = .unknown then pure t else
    pure { t with parents := t.parents.insert parentLoc }

/-- `_assert_root_validated()`. -/
def assertRootValidated (kind : FileKind) (t : MerkleTree) : Checked Unit :=
  match kind with
  | .origin => pure ()
  | .cached => liteAssert ((t.node 0).state = .validated)

/-- `_mark_node_tentative(location)`, with fuel for the climb. -/
def markNodeTentativeFuel (kind : FileKind) : ℕ → MerkleTree → ℕ → Checked MerkleTree
  | 0, _, _ => .error .outOfFuel
  | fuel + 1, t, location => do
    let vmr ← t.get location
    liteAssert (vmr.state ≠ .validated)
    let t := t.setState location .tentative
    if 0 < location then do
      let parentLoc := parentLocation location
      let parent ← t.get parentLoc
      let t ← t.trackParentOfTentativeNodes kind parentLoc
      let siblingLoc ← siblingLocation location
      let sibling ← t.get siblingLoc
      if parent.state = .unknown ∧ sibling.state ≠ .unknown then do
        -- parent could be hashed!
        let h ← t.hashChildren zhash location siblingLoc
        markNodeTentativeFuel kind fuel (t.setHash parentLoc h) parentLoc
      else pure t
    else do
      t.assertRootValidated kind
      pure t

/-- `_mark_node_tentative(location)`: a 32-bit location has at most 32 ancestors. -/
def markNodeTentative (kind : FileKind) (t : MerkleTree) (location : ℕ) : Checked MerkleTree :=
  t.markNodeTentativeFuel zhash kind 33 location

/-- One iteration of `install_merkle_records`: the tree, and whether the record was new. -/
def installMerkleRecord (t : MerkleTree) (zmr : ZFTPMerkleRecord) : Checked (MerkleTree × Bool) := do
  let vmr ← t.get zmr.treeLocation
  match vmr.state with
  | .validated => do
    liteAssert (vmr.hash = zmr.hash)
    pure (t, false)
  | .tentative => pure (t, false) -- a mismatch is only complained about
  | .unknown => do
    let t ← (t.setHash zmr.treeLocation zmr.hash).markNodeTentative zhash .cached zmr.treeLocation
    pure (t, true)
  | .margin => .error .liteAssert

/-- `install_merkle_records(reply)`. -/
def installMerkleRecords : MerkleTree → List ZFTPMerkleRecord → Checked (MerkleTree × Bool)
  | t, [] => pure (t, false)
  | t, zmr :: rest => do
    let (t, new) ← t.installMerkleRecord zhash zmr
    let (t, more) ← t.installMerkleRecords rest
    pure (t, new || more)

/-- `_mark_hash_validated(vmr)`; its two later tests only return. -/
def markHashValidated (t : MerkleTree) (location : ℕ) : Checked MerkleTree := do
  let t := t.setState location .validated
  liteAssert ((treeUnindex location).1 ≤ t.treeDepth)
  pure t

/-- `_validate_children(parent)`. -/
def validateChildren (t : MerkleTree) (parentLoc : ℕ) : Checked (MerkleTree × InstallResult) := do
  let leftSib := leftChild parentLoc
  let rightSib := u32 (leftSib + 1)
  liteAssert (rightSib < t.treeSize)
  liteAssert ((t.node leftSib).state ≠ .unknown)
  liteAssert ((t.node rightSib).state ≠ .unknown)
  let parentHashComputed ← t.hashChildren zhash leftSib rightSib
  if (t.node parentLoc).hash = parentHashComputed then do
    let t ← t.markHashValidated leftSib
    let t ← t.markHashValidated rightSib
    pure (t, .newData)
  else pure (t, .fail)

/-- The loop of `_validate_tentative_hashes` over the drained table; the last result stays. -/
def validateEach : MerkleTree → InstallResult → List ℕ → Checked (MerkleTree × InstallResult)
  | t, result, [] => pure (t, result)
  | t, _, p :: rest => do
    let (t, ir) ← t.validateChildren zhash p
    validateEach t (if ir = .fail then .fail else .newData) rest

/-- `_validate_tentative_hashes()`. The source drains the table in its bucket order; the tree does
    not depend on that order (`validateEach_spec`). -/
def validateTentativeHashes (t : MerkleTree) : Checked (MerkleTree × InstallResult) :=
  validateEach zhash { t with parents := [] } .noEffect t.parents

end MerkleTree

end Embassies.Zftp
