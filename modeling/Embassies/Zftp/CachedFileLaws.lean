import Embassies.Zftp.CachedFile
import Embassies.Zftp.MerkleLaws

/-! What the functions of `ZCachedFile` leave unchanged.

    Requests never touch the tree, except that an image may be installed where there was none, and
    every function keeps the block cache sound. `considerRequest_inv` says this once, for any property
    `J` of the file's name and tree that the images have. -/

namespace Embassies.Zftp

open Checked

variable {zhash : Bytes → Hash}
variable {t : MerkleTree} {reply : ZFileReplyFromServer} {c : ZBlockCache} {a : ℕ} {c' : ZBlockCache}
  {new changed : Bool} {f : ZCachedFile}

/-! ### Blocks -/

lemma lookupBlock_sound {blk : ℕ} {required : ValidityState} {p : Option ℕ} (hc : c.Sound zhash)
    (h : lookupBlock t c blk required = .ok (c', p)) : c'.Sound zhash ∧ c.Keeps c' := by
  obtain ⟨o, -, h⟩ := of_bind h
  cases o with
  | none => cases h; exact ⟨hc, .refl c⟩
  | some k =>
    obtain ⟨⟨c1, q⟩, hl, h⟩ := of_bind h
    cases h
    obtain ⟨hs, hk, -⟩ := hc.lookupBlock hl
    exact ⟨hs, hk⟩

lemma lookupValidated_sound {blk : ℕ} {r : Option ZBlockCacheRecord} (hc : c.Sound zhash)
    (h : lookupValidated t c blk = .ok (c', r)) : c'.Sound zhash ∧ c.Keeps c' := by
  obtain ⟨⟨c1, p⟩, hl, h⟩ := of_bind h
  have hs := lookupBlock_sound hc hl
  cases p with
  | none => cases h; exact hs
  | some p =>
    obtain ⟨r, -, h⟩ := of_bind h
    cases h
    exact hs

lemma missingLoop_sound {mode : Bool} {maxPayload : ℕ} {eligible : DataRange} :
    ∀ (fuel start : ℕ) (missing : DataRange) (c c' : ZBlockCache) (r : DataRange),
      c.Sound zhash → missingLoop t mode maxPayload eligible fuel start missing c = .ok (c', r) →
      c'.Sound zhash ∧ c.Keeps c'
  | 0, _, _, _, _, _, _, h => nomatch h
  | fuel + 1, start, missing, c, c', r, hc, h => by
      rw [missingLoop] at h
      split at h
      case isFalse => cases h; exact ⟨hc, .refl c⟩
      obtain ⟨⟨c1, block⟩, hl, h⟩ := of_bind h
      obtain ⟨hs, hk⟩ := lookupValidated_sound hc hl
      dsimp only at h
      split at h
      case h_1 => cases h; exact ⟨hs, hk⟩
      split at h
      case isTrue => cases h; exact ⟨hs, hk⟩
      obtain ⟨hs', hk'⟩ := missingLoop_sound fuel _ _ c1 c' r hs h
      exact ⟨hs', hk.trans hk'⟩

/-! ### Installing data -/

lemma piece_bounds (ha : a < reply.dataRange.stop) (hblk : a / zftpBlockSize < t.numBlocks) :
    a - a / zftpBlockSize * zftpBlockSize ≤ nextEndByte reply a - a / zftpBlockSize * zftpBlockSize ∧
      nextEndByte reply a - a / zftpBlockSize * zftpBlockSize ≤ zftpBlockSize := by
  have hnum : t.numBlocks < 65536 := computeNumBlocks_lt t.metadata.fileLen
  simp only [nextEndByte, zftpBlockSize] at *
  rw [u32_of_lt (by omega)]
  omega

lemma completeLast_sound {p block stop : ℕ} (hc : c.Sound zhash) (h : completeLast zhash t c p block stop = .ok c') :
    c'.Sound zhash ∧ c.Keeps c' := by
  rw [completeLast] at h
  split at h
  · obtain ⟨hs, hk, -⟩ := hc.completeWithZeros h
    exact ⟨hs, hk⟩
  · cases h; exact ⟨hc, .refl c⟩

/-- INVERSION of one iteration of `install_data`. -/
lemma installPiece_cases (h : installPiece zhash t reply a c = .ok (c', new)) :
    a / zftpBlockSize < t.numBlocks ∧ ∃ c1 p c2, lookupBlock t c (a / zftpBlockSize) .tentative = .ok (c1, some p) ∧
      c1.receiveData zhash p (a - a / zftpBlockSize * zftpBlockSize)
        (nextEndByte reply a - a / zftpBlockSize * zftpBlockSize) reply.payload
        (a - reply.dataRange.start) = .ok (c2, new) ∧
      completeLast zhash t c2 p (a / zftpBlockSize) (nextEndByte reply a) = .ok c' := by
  obtain ⟨_, hblk, h⟩ := of_bind h
  rw [liteAssert_eq_ok] at hblk
  obtain ⟨⟨c1, p⟩, hl, h⟩ := of_bind h
  cases p with
  | none => cases h
  | some p =>
    obtain ⟨⟨c2, n⟩, hrec, c3, hcomp, h⟩ := of_bind2 h
    cases h
    exact ⟨hblk, c1, p, c2, hl, hrec, hcomp⟩

lemma installPiece_sound (hc : c.Sound zhash) (ha : a < reply.dataRange.stop)
    (h : installPiece zhash t reply a c = .ok (c', new)) : c'.Sound zhash ∧ c.Keeps c' := by
  obtain ⟨hblk, c1, p, c2, hl, hrec, hcomp⟩ := installPiece_cases h
  obtain ⟨hle, hstop⟩ := piece_bounds ha hblk
  obtain ⟨hs1, hk1⟩ := lookupBlock_sound hc hl
  obtain ⟨hs2, hk2, -⟩ := hs1.receiveData hle hstop hrec
  obtain ⟨hs3, hk3⟩ := completeLast_sound hs2 hcomp
  exact ⟨hs3, (hk1.trans hk2).trans hk3⟩

lemma installDataLoop_sound :
    ∀ (fuel a : ℕ) (c c' : ZBlockCache) (new : Bool), c.Sound zhash →
      installDataLoop zhash t reply fuel a c = .ok (c', new) → c'.Sound zhash ∧ c.Keeps c'
  | 0, _, _, _, _, _, h => nomatch h
  | fuel + 1, a, c, c', new, hc, h => by
      rw [installDataLoop] at h
      split at h
      case isFalse => cases h; exact ⟨hc, .refl c⟩
      case isTrue ha =>
        obtain ⟨⟨c1, n⟩, hpiece, ⟨c2, more⟩, hrest, h⟩ := of_bind2 h
        cases h
        obtain ⟨hs1, hk1⟩ := installPiece_sound hc ha hpiece
        obtain ⟨hs2, hk2⟩ := installDataLoop_sound fuel _ c1 _ more hs1 hrest
        exact ⟨hs2, hk1.trans hk2⟩

/-- INVERSION of `install_reply`'s core: refused, or its four parts in turn. -/
lemma installReplyCore_cases {s s' : Client} (h : installReplyCore zhash s reply = .ok (s', changed)) :
    (installMetadata zhash s.file reply = none ∧ s' = s ∧ changed = false) ∨
    ∃ t ir t1 n1 c n2 u r, installMetadata zhash s.file reply = some (t, ir) ∧
      t.installMerkleRecords zhash reply.merkleRecords = .ok (t1, n1) ∧
      installData zhash t1 reply s.blocks = .ok (c, n2) ∧ t1.validateTentativeHashes zhash = .ok (u, r) ∧
      changed = (decide (ir = .newData) || n1 || n2) ∧ s' = { s.setTree u with blocks := c } := by
  rw [installReplyCore] at h
  split at h
  case h_1 hm => cases h; exact .inl ⟨hm, rfl, rfl⟩
  case h_2 t ir hm =>
    obtain ⟨⟨t1, n1⟩, hrec, ⟨c, n2⟩, hdata, ⟨u, r⟩, hval, h⟩ := of_bind3 h
    obtain ⟨_, -, h⟩ := of_bind h
    cases h
    exact .inr ⟨t, ir, t1, n1, c, n2, u, r, hm, hrec, hdata, hval, rfl, rfl⟩

lemma installReplyCore_waiters {s s' : Client} (h : installReplyCore zhash s reply = .ok (s', changed))
    : s'.file.waiters = s.file.waiters := by
  obtain ⟨-, rfl, -⟩ | ⟨_, _, _, _, _, _, _, _, -, -, -, -, -, rfl⟩ := installReplyCore_cases h <;> rfl

/-- The reply is not refused: the metadata is validated already, or the reply's first root record and
    metadata hash to the file's name. -/
def Admits (zhash : Bytes → Hash) (f : ZCachedFile) (reply : ZFileReplyFromServer) : Prop :=
  f.tree.isSome ∨ ∃ root, findRootMerkleRecord reply = some root ∧
    computeFileHash zhash reply.metadata root.hash = f.fileHash

lemma findRootMerkleRecord_loc {root : ZFTPMerkleRecord} (h : findRootMerkleRecord reply = some root) :
    root.treeLocation = 0 := by
  simpa using List.find?_some h

lemma installMetadata_cases {ir : InstallResult} (h : installMetadata zhash f reply = some (t, ir)) :
    (f.tree = some t ∧ ir = .noEffect) ∨
    (f.tree = none ∧ ir = .newData ∧ ∃ root, findRootMerkleRecord reply = some root ∧
      computeFileHash zhash reply.metadata root.hash = f.fileHash ∧
      t = ((MerkleTree.configureFromMetadata reply.metadata).setHash 0 root.hash).setState 0 .validated) := by
  rw [installMetadata] at h
  split at h
  case h_1 t' ht => cases h; exact .inl ⟨ht, rfl⟩
  case h_2 hnone =>
    split at h
    case h_1 => cases h
    case h_2 root hroot =>
      split at h
      case isTrue => cases h
      case isFalse heq => cases h; exact .inr ⟨hnone, rfl, root, hroot, not_not.mp heq, rfl⟩

lemma installMetadata_eq_none : installMetadata zhash f reply = none ↔ ¬Admits zhash f reply := by
  rw [installMetadata, Admits]
  split
  case h_1 t ht => simp [ht]
  case h_2 hnone =>
    split
    case h_1 hroot => simp [hnone, hroot]
    case h_2 root hroot => simp [hnone, hroot]

/-! ### Requests -/

/-- The images that the file DB or a probe of the origins can bring. -/
def ZCacheConfig.HasImage (cfg : ZCacheConfig) (image : FileImage) : Prop :=
  cfg.retrieveFile = some image ∨ ∃ url, (cfg.probeOriginsForHash url).image = some image

section Requests

variable {cfg : ZCacheConfig} {J : Hash → Option MerkleTree → Prop}
variable {s s' : Client} {req : ZFileRequest}

/-- `J` holds of the file's name and tree, and the block cache is sound. -/
structure Client.Holds (zhash : Bytes → Hash) (J : Hash → Option MerkleTree → Prop) (s : Client) :
    Prop where
  file : J s.file.fileHash s.file.tree
  blocks : s.blocks.Sound zhash

/-- An installer of images under which `Holds` is kept. -/
def KeepsHolds (zhash : Bytes → Hash) (cfg : ZCacheConfig) (J : Hash → Option MerkleTree → Prop)
    (install : Client → FileImage → Checked Client) : Prop :=
  ∀ s image s', s.Holds zhash J → cfg.HasImage image → install s image = .ok s' → s'.Holds zhash J

lemma computeMissingSet_sound {t : MerkleTree} {mode : Bool} {c c' : ZBlockCache} {r missing : DataRange}
    (hc : c.Sound zhash)
    (h : computeMissingSet cfg t mode c r = .ok (c', missing)) : c'.Sound zhash ∧ c.Keeps c' :=
  missingLoop_sound _ _ _ c c' missing hc h

lemma loads_sound {ds : List BlockData} {c c' : ZBlockCache} (hc : c.Sound zhash)
    (h : ds.foldlM (fun c d => do let (c, _) ← c.loadBlock zhash d; pure c) c = .ok c') : c'.Sound zhash := by
  induction ds generalizing c with
  | nil => cases h; exact hc
  | cons d ds ih =>
    rw [List.foldlM_cons] at h
    obtain ⟨c1, hd, h⟩ := of_bind h
    obtain ⟨⟨c2, x⟩, hl, hd⟩ := of_bind hd
    cases hd
    exact ih (hc.loadBlock hl).1 h

variable {install : Client → FileImage → Checked Client}

section

variable (hi : KeepsHolds zhash cfg J install) (hs : s.Holds zhash J)
include hi hs

lemma probe_holds {url : Bytes} (h : probe zhash install s (cfg.probeOriginsForHash url) = .ok s')
    : s'.Holds zhash J := by
  obtain ⟨c, hc, h⟩ := of_bind h
  have hs1 : ({ s with blocks := c } : Client).Holds zhash J := ⟨hs.file, loads_sound hs.blocks hc⟩
  split at h
  case h_1 => cases h; exact hs1
  case h_2 image himg => exact hi _ image s' hs1 (.inr ⟨url, himg⟩) h

lemma issueServerRequest_holds {missing : DataRange} (h : issueServerRequest zhash cfg install s missing req = .ok s')
    : s'.Holds zhash J := by
  rw [issueServerRequest] at h
  split at h
  case isTrue => cases h; exact ⟨hs.file, hs.blocks⟩
  split at h
  case h_1 =>
    obtain ⟨⟨obr, mode⟩, -, h⟩ := of_bind h
    cases h
    exact ⟨hs.file, hs.blocks⟩
  case h_2 =>
    obtain ⟨s1, hp, h⟩ := of_bind h
    have hs1 := probe_holds hi hs hp
    split at h <;> cases h
    · exact hs1
    · exact ⟨hs1.file, hs1.blocks⟩
  case h_3 => cases h; exact ⟨hs.file, hs.blocks⟩

lemma considerWith_holds (h : considerWith zhash cfg install s req = .ok s')
    : s'.Holds zhash J := by
  rw [considerWith] at h
  split at h
  case h_1 => exact issueServerRequest_holds hi hs h
  case h_2 =>
    obtain ⟨⟨c, missing⟩, hm, h⟩ := of_bind h
    have hc : ({ s with blocks := c } : Client).Holds zhash J := ⟨hs.file, (computeMissingSet_sound hs.blocks hm).1⟩
    dsimp only at h
    split at h
    · cases h; exact ⟨hc.file, hc.blocks⟩
    · exact issueServerRequest_holds hi hc h

end

lemma assertSameImage_eq {image : FileImage} (h : assertSameImage s image = .ok s') : s' = s := by
  obtain ⟨_, -, _, -, _, -, h⟩ := of_bind3 h
  obtain ⟨_, -, h⟩ := of_bind h
  cases h
  rfl

lemma signalInstalled_holds (hs : s.Holds zhash J) (h : signalInstalled zhash cfg s = .ok s') : s'.Holds zhash J := by
  have hsame : KeepsHolds zhash cfg J assertSameImage := fun _ _ _ hs _ h => assertSameImage_eq h ▸ hs
  refine run_preserves (fun _ _ _ hs h => considerWith_holds hsame hs h) _ _ s' ?_ h
  exact ⟨hs.file, hs.blocks⟩

variable (hJ : ∀ image, cfg.HasImage image →
  J image.fileHash (some { image.tree with parents := [] }))

include hJ

lemma installImage_holds (newStatus : ZCachedStatus) : KeepsHolds zhash cfg J (installImage zhash cfg newStatus) := by
  intro s image s' hs himg h
  rw [installImage] at h
  split at h
  · exact assertSameImage_eq h ▸ hs
  · refine signalInstalled_holds ?_ h
    exact ⟨hJ image himg, hs.blocks⟩

/-- REQUESTS KEEP: whatever holds of the file's name and tree, and of the images, is kept. -/
lemma considerRequest_holds (hs : s.Holds zhash J) (h : considerRequest zhash cfg s req = .ok s') :
    s'.Holds zhash J := by
  obtain ⟨s1, hdisk, h⟩ := of_bind h
  refine considerWith_holds (installImage_holds hJ .dirty) ?_ h
  rw [checkDisk] at hdisk
  split at hdisk
  case h_1 image _ himg => exact installImage_holds hJ .clean s image s1 hs (.inl himg) hdisk
  case h_2 => cases hdisk; exact hs

lemma signalWaiters_holds (hs : s.Holds zhash J) (h : signalWaiters zhash cfg s = .ok s') : s'.Holds zhash J := by
  refine run_preserves (fun _ _ _ hs h => considerRequest_holds hJ hs h) _ _ s' ?_ h
  exact ⟨hs.file, hs.blocks⟩

lemma installReply_holds {reply : ZFileReplyFromServer}
    (hcore : ∀ s1 changed, installReplyCore zhash s reply = .ok (s1, changed) → s1.Holds zhash J)
    (h : installReply zhash cfg s reply = .ok s') : s'.Holds zhash J := by
  obtain ⟨⟨s1, changed⟩, hc, h⟩ := of_bind h
  have hs1 := hcore s1 changed hc
  dsimp only at h
  split at h
  · obtain ⟨s2, hsig, h⟩ := of_bind h
    cases h
    have hs2 : s2.Holds zhash J := by
      refine signalWaiters_holds hJ ?_ hsig
      exact ⟨hs1.file, hs1.blocks⟩
    exact ⟨hs2.file, hs2.blocks⟩
  · cases h; exact hs1

omit hJ

/-- `J` holds, and once a request waits on the file so does `G`, which is about the images that
    reconsidering the request could install. -/
structure Client.Guarded (zhash : Bytes → Hash) (J : Hash → Option MerkleTree → Prop) (G : Prop)
    (s : Client) : Prop where
  holds : s.Holds zhash J
  guard : s.file.waiters ≠ [] → G

variable {G : Prop}

lemma Client.guarded_fresh {fileHash : Hash} {blocks : ZBlockCache} (hJ : J fileHash none)
    (hblocks : blocks.Sound zhash) : (Client.fresh fileHash blocks).Guarded zhash J G :=
  ⟨⟨hJ, hblocks⟩, fun hne => absurd rfl hne⟩

lemma Client.Guarded.withdrawRequest (hs : s.Guarded zhash J G) (req : ZFileRequest) :
    (Zftp.withdrawRequest s req).Guarded zhash J G := by
  refine ⟨⟨hs.holds.file, hs.holds.blocks⟩, fun hne => hs.guard fun hnil => hne ?_⟩
  simp [Zftp.withdrawRequest, hnil]

variable (hGJ : G → ∀ image, cfg.HasImage image →
  J image.fileHash (some { image.tree with parents := [] }))

include hGJ

lemma Client.Guarded.considerRequest (hs : s.Guarded zhash J G) (hG : G)
    (h : Zftp.considerRequest zhash cfg s req = .ok s') : s'.Guarded zhash J G :=
  ⟨considerRequest_holds (hGJ hG) hs.holds h, fun _ => hG⟩

lemma installReply_guarded {reply : ZFileReplyFromServer} (hG : s.file.waiters ≠ [] → G)
    (hcore : ∀ s1 changed, installReplyCore zhash s reply = .ok (s1, changed) → s1.Holds zhash J)
    (h : installReply zhash cfg s reply = .ok s') : s'.Guarded zhash J G := by
  by_cases hw : s.file.waiters = []
  · -- nobody waits, so nothing is reconsidered
    obtain ⟨⟨s1, changed⟩, h1, h⟩ := of_bind h
    have hs1 := hcore s1 changed h1
    have hw1 : s1.file.waiters = [] := (installReplyCore_waiters h1).trans hw
    dsimp only at h
    split at h
    · simp only [signalWaiters, hw1, run, ok_bind, pure_eq_ok, Except.ok.injEq] at h
      subst h
      exact ⟨⟨hs1.file, hs1.blocks⟩, fun hne => absurd rfl hne⟩
    · cases h
      exact ⟨hs1, fun hne => absurd hw1 hne⟩
  · exact ⟨installReply_holds (hGJ (hG hw)) hcore h, fun _ => hG hw⟩

end Requests

/-! ### The file as a system -/

/-- What can happen to a cached file. -/
inductive FileEvent where
  | receive (zcb : Datagram)
  | consider (req : ZFileRequest)
  | withdraw (req : ZFileRequest)

/-- One event, under the file's mutex. -/
def fileStep (zhash : Bytes → Hash) (cfg : ZCacheConfig) (s : Client) : FileEvent → Checked Client
  | .receive zcb => receiveDatagram zhash cfg s zcb
  | .consider req => considerRequest zhash cfg s req
  | .withdraw req => pure (withdrawRequest s req)

end Embassies.Zftp
