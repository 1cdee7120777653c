import Embassies.Zftp.CachedFileLaws
import Embassies.Zftp.ReferenceFile

/-! Merkle authenticity of a cached file under replies from an arbitrary origin.

    `_validate_children` compares a pair of children with whatever hash their parent carries, validated or not, and
    `_mark_node_tentative` gives an unknown parent the hash its children have. A pair of forged records whose parent is
    unknown is therefore validated against the hash it was itself used to compute. What does hold is the invariant
    `Authentic`: as long as every record that arrives where its parent is not validated is the file's own, validated
    nodes carry the file's hashes, and the blocks at validated leaves are the file's blocks. -/

namespace Embassies.Zftp

open HeapTree List MerkleTree

namespace MerkleTree

variable {zhash : Bytes → Hash} {T : Labelling (fun a b : Hash => zhash (a.bytes ++ b.bytes))}
variable {t : MerkleTree} {l : ℕ} {t' : MerkleTree}

/-- The invariant: a validated node has the reference tree's hash; a tentative one has it too, or has
    a validated parent to be checked against. -/
structure Authentic (T : Labelling (fun a b : Hash => zhash (a.bytes ++ b.bytes)))
    (t : MerkleTree) : Prop where
  margin : ∀ l, (t.node l).state ≠ .margin
  validated : ∀ l, (t.node l).state = .validated → T.Has l (t.node l).hash
  tentative : ∀ l, (t.node l).state = .tentative →
    T.Has l (t.node l).hash ∨ (t.node (parent l)).state = .validated

section

variable (h : t.Authentic T)
include h

lemma Authentic.has (hl : (t.node l).state ≠ .unknown) (hp : (t.node (parent l)).state ≠ .validated)
    : T.Has l (t.node l).hash := by
  rcases hs : (t.node l).state with _ | _ | _ | _
  · exact absurd hs hl
  · exact (h.tentative l hs).resolve_right hp
  · exact h.validated l hs
  · exact absurd hs (h.margin l)

lemma Authentic.setHash (x : Hash) (hl : (t.node l).state = .unknown) :
    (t.setHash l x).Authentic T where
  margin k := by rw [state_setHash]; exact h.margin k
  validated k hk := by
    rw [state_setHash] at hk
    have hne : k ≠ l := by rintro rfl; rw [hl] at hk; cases hk
    rw [node_setHash_of_ne t l x hne]
    exact h.validated k hk
  tentative k hk := by
    rw [state_setHash] at hk
    have hne : k ≠ l := by rintro rfl; rw [hl] at hk; cases hk
    rw [node_setHash_of_ne t l x hne, state_setHash]
    exact h.tentative k hk

lemma Authentic.touch (hl : (t.node l).state = .unknown)
    (hok : T.Has l (t.node l).hash ∨ (t.node (parent l)).state = .validated) : (t.touch l).Authentic T where
  margin k := by
    rw [state_touch]; split
    · exact nofun
    · exact h.margin k
  validated k hk := by
    rw [state_touch] at hk
    split at hk
    · cases hk
    · rw [hash_touch]; exact h.validated k hk
  tentative k hk := by
    have hpar : ∀ j, (t.node (parent j)).state = .validated →
        ((t.touch l).node (parent j)).state = .validated := by
      intro j hj
      rw [state_touch, if_neg, hj]
      rintro hjl
      rw [hjl, hl] at hj
      cases hj
    rw [state_touch] at hk
    rw [hash_touch]
    split at hk
    case isTrue hkl => subst hkl; exact hok.imp_right (hpar k)
    case isFalse => exact (h.tentative k hk).imp_right (hpar k)

lemma markNodeTentative_authentic (hl : (t.node l).state = .unknown)
    (hok : T.Has l (t.node l).hash ∨ (t.node (parent l)).state = .validated)
    (hm : t.markNodeTentative zhash .cached l = .ok t') : t'.Authentic T := by
  refine markNodeTentativeFuel_rule (P := fun u k => u.Authentic T ∧ (u.node k).state = .unknown ∧
      (T.Has k (u.node k).hash ∨ (u.node (parent k)).state = .validated))
    ?_ ?_ 33 t t' l ⟨h, hl, hok⟩ hm
  · rintro u k ⟨hu, hk, hok⟩ - - -
    exact hu.touch hk hok
  · rintro u k ⟨hu, hk, hok⟩ hnr - hpar hsib
    have hparv : (u.node (parent k)).state ≠ .validated := by rw [hpar]; exact nofun
    have hk' : T.Has k (u.node k).hash := hok.resolve_right hparv
    have hsib' : T.Has (sib k) (u.node (sib k)).hash := hu.has hsib (by rwa [parent_sib hnr.ne_zero])
    obtain ⟨hleft, hright⟩ := (sib_pair (P := fun j => T.Has j (u.node j).hash) hnr.ne_zero).mp ⟨hk', hsib'⟩
    have hparu := state_touch_parent hnr hpar
    refine ⟨(hu.touch hk hok).setHash _ hparu, by rwa [state_derive], .inl ?_⟩
    rw [hash_derive, if_pos rfl]
    simp only [pairHash, hash_touch]
    exact hleft.combine hright

lemma Authentic.drained {u : MerkleTree} (hwf : t.WellFormed) (hd : Drained zhash { t with parents := [] } t.parents u)
    : u.Authentic T where
  margin l := by
    rw [hd.state]; split
    · exact nofun
    · exact h.margin l
  validated l hl := by
    rw [hd.hash]
    rw [hd.state] at hl
    split at hl
    case isFalse => exact h.validated l hl
    case isTrue hc =>
      obtain ⟨h0, hmem, heq⟩ := hc
      have htr := hwf.tracked (parent l) hmem
      by_cases hp : (t.node (parent l)).state = .validated
      · have hpair : T.Has (parent l) (t.pairHash zhash (parent l)) := heq ▸ h.validated _ hp
        obtain ⟨hleft, hright⟩ := hpair.split
        exact ((sib_pair (P := fun j => T.Has j (t.node j).hash) h0).mpr ⟨hleft, hright⟩).1
      · have hknown :=
          ((sib_pair (P := fun j => (t.node j).state ≠ .unknown) h0).mpr ⟨htr.left, htr.right⟩).1
        exact h.has hknown hp
  tentative l hl := by
    rw [hd.hash]
    rw [hd.state] at hl
    split at hl
    case isTrue => cases hl
    case isFalse =>
      refine (h.tentative l hl).imp_right fun hp => ?_
      rw [hd.state]; split
      · rfl
      · exact hp

lemma installMerkleRecords_authentic {rs : List ZFTPMerkleRecord} {new : Bool}
    (hrs : ∀ r ∈ rs, r.treeLocation ≠ 0 →
      (t.node (parent r.treeLocation)).state = .validated ∨ T.Has r.treeLocation r.hash)
    (hr : t.installMerkleRecords zhash rs = .ok (t', new)) : t'.Authentic T := by
  -- no record of the list changes which nodes are validated, so the condition is the same for all
  refine (installMerkleRecords_rule (I := fun u => t.Grows u ∧ u.Authentic T) ?_ rs t t' new ⟨.refl t, h⟩ hrs hr).2
  rintro u r u' n ⟨hg, hu⟩ hC hu'
  refine ⟨hg.trans (installMerkleRecord_grows hu'), ?_⟩
  obtain ⟨-, ⟨-, -, rfl, -⟩ | ⟨-, rfl, -⟩ | ⟨hs, -, hm⟩⟩ := installMerkleRecord_cases hu'
  · exact hu
  · exact hu
  · have h0 : r.treeLocation ≠ 0 := (markNodeTentativeFuel_ok hm).1.ne_zero
    refine markNodeTentative_authentic (hu.setHash r.hash hs) (by rwa [state_setHash]) ?_ hm
    rw [hash_setHash, if_pos rfl, state_setHash, hg.validated]
    exact (hC h0).symm

end

lemma state_root (m : ZFTPFileMetadata) (root : Hash) (l : ℕ) :
    ((((configureFromMetadata m).setHash 0 root).setState 0 .validated).node l).state =
      if l = 0 then .validated else .unknown := by
  rw [state_setState, state_setHash]
  rfl

lemma authentic_root {m : ZFTPFileMetadata} {root : Hash} (h : root = T.label 0) :
    (((configureFromMetadata m).setHash 0 root).setState 0 .validated).Authentic T := by
  refine ⟨fun l => ?_, fun l hl => ?_, fun l hl => ?_⟩
  · rw [state_root]; split <;> exact nofun
  · rw [state_root] at hl
    split at hl
    case isFalse => cases hl
    case isTrue h0 =>
      subst h0
      rw [hash_setState, hash_setHash, if_pos rfl]
      exact ⟨T.present_root, h⟩
  · rw [state_root] at hl
    split at hl <;> cases hl

end MerkleTree

/-! ### The cached file -/

section File

variable {zhash : Bytes → Hash} {f : RefFile} {hcf : f.CollisionFree zhash} {reply : ZFileReplyFromServer}

/-- A tree of the file, between two replies. -/
structure AuthenticTree (hcf : f.CollisionFree zhash) (t : MerkleTree) : Prop where
  metadata : t.metadata = f.metadata
  wellFormed : t.WellFormed
  drained : t.parents = []
  authentic : t.Authentic (f.labelling hcf)

/-- The file's name is right, and so is its tree once there is one. -/
def AuthenticFile (hcf : f.CollisionFree zhash) (fileHash : Hash) (tree : Option MerkleTree) : Prop :=
  fileHash = f.fileHash zhash ∧ ∀ t, tree = some t → AuthenticTree hcf t

/-- The parent of `l` was validated before the reply; the reply that brings the metadata validates the root itself. -/
def ParentValidated (s : Client) (l : ℕ) : Prop :=
  match s.file.tree with
  | some t => (t.node (parent l)).state = .validated
  | none => parent l = 0

/-- Every record of the reply is the file's own, or arrives below a validated parent. -/
def RootedReply (zhash : Bytes → Hash) (f : RefFile) (s : Client) (reply : ZFileReplyFromServer) :
    Prop :=
  ∀ r ∈ reply.merkleRecords, r.treeLocation ≠ 0 →
    ParentValidated s r.treeLocation ∨
      (f.Present r.treeLocation ∧ r.hash = f.hashAt zhash r.treeLocation)

/-- The images that could be installed are authentic. -/
def AuthenticImages (hcf : f.CollisionFree zhash) (cfg : ZCacheConfig) : Prop :=
  ∀ image, cfg.HasImage image →
    AuthenticFile hcf image.fileHash (some { image.tree with parents := [] })

/-- The condition under which a step keeps the cached file authentic. -/
def RootedStep (hcf : f.CollisionFree zhash) (cfg : ZCacheConfig) (s : Client) : FileEvent → Prop
  | .receive zcb => ∀ reply, ZFileReplyFromServer.parse zcb = .ok (some reply) →
      Admits zhash s.file reply → RootedReply zhash f s reply
  | .consider _ => AuthenticImages hcf cfg
  | .withdraw _ => True

lemma installMetadata_authentic {s : Client} {t : MerkleTree} {ir : InstallResult}
    (hs : AuthenticFile hcf s.file.fileHash s.file.tree)
    (h : installMetadata zhash s.file reply = some (t, ir)) : AuthenticTree hcf t ∧
      ∀ l, ParentValidated s l → (t.node (parent l)).state = .validated := by
  obtain ⟨ht, -⟩ | ⟨hnone, -, root, hroot, heq, rfl⟩ := installMetadata_cases h
  · refine ⟨hs.2 t ht, fun l hl => ?_⟩
    simpa only [ParentValidated, ht] using hl
  · obtain ⟨hm, hr⟩ := RefFile.fileHash_binding hcf (heq.trans hs.1)
    refine ⟨⟨hm, ⟨?_, nofun⟩, rfl, authentic_root hr⟩, fun l hl => ?_⟩
    · rw [state_setState, if_pos rfl]
    · simp only [ParentValidated, hnone] at hl
      rw [state_setState, if_pos hl]

/-- INSTALL: a rooted reply keeps the cached file authentic. -/
lemma installReplyCore_authentic {s s' : Client} {changed : Bool} (hs : s.Holds zhash (AuthenticFile hcf))
    (hrooted : Admits zhash s.file reply → RootedReply zhash f s reply)
    (h : installReplyCore zhash s reply = .ok (s', changed)) : s'.Holds zhash (AuthenticFile hcf) := by
  obtain ⟨-, rfl, -⟩ | ⟨t, ir, t1, n1, c, n2, u, r, hm, hrec, hdata, hval, -, rfl⟩ := installReplyCore_cases h
  · exact hs
  have hadm : Admits zhash s.file reply := by
    by_contra hno
    rw [installMetadata_eq_none.mpr hno] at hm
    cases hm
  obtain ⟨ht, hpar⟩ := installMetadata_authentic hs.file hm
  have hauth : t1.Authentic (f.labelling hcf) := installMerkleRecords_authentic ht.authentic
      (fun r hr h0 => (hrooted hadm r hr h0).imp_left (hpar _)) hrec
  obtain ⟨hwf, hmeta, hu, hparents, hd⟩ := ht.wellFormed.validated hrec hval
  refine ⟨⟨hs.file.1, fun v hv => ?_⟩, (installDataLoop_sound _ _ _ _ _ hs.blocks hdata).1⟩
  cases hv
  exact ⟨hmeta.trans ht.metadata, hu, hparents, hauth.drained hwf hd⟩

lemma fileStep_authentic {cfg : ZCacheConfig} (s : Client) (e : FileEvent) (s' : Client)
    (hs : s.Guarded zhash (AuthenticFile hcf) (AuthenticImages hcf cfg))
    (hC : RootedStep hcf cfg s e) (h : fileStep zhash cfg s e = .ok s') :
    s'.Guarded zhash (AuthenticFile hcf) (AuthenticImages hcf cfg) := by
  cases e with
  | receive zcb =>
    obtain ⟨o, hparse, h⟩ := of_bind h
    cases o with
    | none => cases h; exact hs
    | some reply =>
      exact installReply_guarded id hs.guard (fun _ _ h1 => installReplyCore_authentic hs.holds (hC reply hparse) h1) h
  | consider req => exact hs.considerRequest id hC h
  | withdraw req => cases h; exact hs.withdrawRequest req

/-- AUTHENTICITY: in every run whose replies carry, below unvalidated parents, only the file's own
    records, the metadata is the file's, every validated node carries the file's hash, and every valid
    block at a validated leaf is the file's block. -/
theorem validated_authentic (hcf : f.CollisionFree zhash) {cfg : ZCacheConfig} {blocks : ZBlockCache}
    (hblocks : blocks.Sound zhash) {events : List FileEvent} {s : Client}
    (halong : Along (fileStep zhash cfg) (RootedStep hcf cfg) (Client.fresh (f.fileHash zhash) blocks) events)
    (hrun : run (fileStep zhash cfg) (Client.fresh (f.fileHash zhash) blocks) events = .ok s)
    {t : MerkleTree} (ht : s.file.tree = some t) : t.metadata = f.metadata ∧ (∀ l, (t.node l).state = .validated →
        f.Present l ∧ (t.node l).hash = f.hashAt zhash l) ∧
      ∀ blk l r, blk < t.numBlocks → treeIndex t.treeDepth blk t.treeSize = .ok l →
        (t.node l).state = .validated → s.blocks.peek (t.node l).hash = some r → r.valid = true →
        r.data = f.block blk := by
  have hs := run_invariant fileStep_authentic events _ s (Client.guarded_fresh ⟨rfl, nofun⟩ hblocks) halong hrun
  have htree := hs.holds.file.2 t ht
  refine ⟨htree.metadata, htree.authentic.validated, fun blk l r hblk hl hv hr hvalid => ?_⟩
  obtain ⟨hcol, rfl, -⟩ := treeIndex_eq_ok.mp hl
  obtain ⟨hsound, hhash⟩ := hs.holds.blocks.peek hr
  have hdepth : t.treeDepth = f.treeDepth := by
    simp only [MerkleTree.treeDepth, MerkleTree.numBlocks, htree.metadata]; rfl
  have hnum : t.numBlocks = f.numBlocks := by simp only [MerkleTree.numBlocks, htree.metadata]; rfl
  have hleaf := (htree.authentic.validated _ hv).2
  rw [hdepth] at hcol hleaf
  refine RefFile.block_binding hcf (hnum ▸ hblk) ?_
  rw [hsound.hash hvalid, hhash, hdepth, hleaf]
  exact RefFile.hashAt_leaf zhash hcol

end File

/-! ### An honest and a forged reply -/

/-- A `ZCache` with a file client and nothing else. -/
def clientConfig : ZCacheConfig where
  zfileClient := some 65400
  hasOrigins := false
  retrieveFile := none
  probeOriginsForHash := fun _ => ⟨[], none, false⟩

/-- A reply about `zeroFile` that brings the root and the given records. -/
def zeroReply (records : List ZFTPMerkleRecord) : ZFileReplyFromServer where
  fileHash := Hash.fill 6
  metadata := ⟨196608, 0, by decide, noFlags_lt⟩
  merkleRecords := ⟨0, Hash.fill 5⟩ :: records
  payload := []
  dataRange := .empty

/-- The state of the node at `l` after a step. -/
def nodeAfter (s : Checked Client) (l : ℕ) : Option ValidatedMerkleRecord :=
  match s with
  | .ok s => s.file.tree.map (fun t => t.node l)
  | .error _ => none

lemma nodeAfter_eq_some {s : Checked Client} {l : ℕ} {v : ValidatedMerkleRecord} (h : nodeAfter s l = some v)
    : ∃ s' t, s = .ok s' ∧ s'.file.tree = some t ∧ t.node l = v := by
  cases s with
  | error e => cases h
  | ok s =>
    obtain ⟨t, ht, hv⟩ := Option.map_eq_some_iff.mp h
    exact ⟨s, t, rfl, ht, hv⟩

/-- The datagram of a reply about `zeroFile`. -/
def zeroDatagram (records : List ZFTPMerkleRecord) (h : records.length < 65535) : Datagram where
  bytes := dataPacket (zeroReply records) 0
  length_lt := by
    rw [length_dataPacket]
    simp only [zeroReply, sizeofDataPacket, sizeofMerkleRecord, length_cons, length_nil]
    omega

lemma parse_zeroDatagram (records : List ZFTPMerkleRecord) (h : records.length < 65535)
    (hloc : ∀ r ∈ records, r.treeLocation < 2 ^ 32) :
    ZFileReplyFromServer.parse (zeroDatagram records h) = .ok (some (zeroReply records)) := by
  refine parse_dataPacket rfl ?_ ?_ (by norm_num [zeroReply, DataRange.empty])
    (by norm_num [zeroReply, DataRange.empty])
  · simp only [zeroReply, length_cons]; omega
  · intro r hr
    rcases mem_cons.mp hr with rfl | hr
    · norm_num
    · exact hloc r hr

lemma run_zeroDatagram {records : List ZFTPMerkleRecord} {l : ℕ} {v : ValidatedMerkleRecord} (h : records.length < 65535)
    (hloc : ∀ r ∈ records, r.treeLocation < 2 ^ 32)
    (heval : nodeAfter (installReply zeroHash clientConfig (Client.fresh (Hash.fill 6) (ZBlockCache.fresh none))
      (zeroReply records)) l = some v) :
    ∃ s t, run (fileStep zeroHash clientConfig)
      (Client.fresh (zeroFile.fileHash zeroHash) (ZBlockCache.fresh none)) [.receive (zeroDatagram records h)] = .ok s ∧
      s.file.tree = some t ∧ t.node l = v := by
  obtain ⟨s, t, hs, ht, hnode⟩ := nodeAfter_eq_some heval
  refine ⟨s, t, ?_, ht, hnode⟩
  simp only [run, fileStep, receiveDatagram, parse_zeroDatagram records h hloc, Checked.ok_bind, zeroFile_fileHash, hs]

/-- Two honest records below the root: they arrive under a validated parent, and are validated. -/
theorem validated_authentic_zeroFile : ∃ s t, run (fileStep zeroHash clientConfig)
      (Client.fresh (zeroFile.fileHash zeroHash) (ZBlockCache.fresh none))
      [.receive (zeroDatagram [⟨1, Hash.fill 3⟩, ⟨2, Hash.fill 4⟩] (by decide))] = .ok s ∧
    s.file.tree = some t ∧ (t.node 1).state = .validated ∧ (t.node 1).hash = zeroFile.hashAt zeroHash 1 := by
  have hparse := parse_zeroDatagram [⟨1, Hash.fill 3⟩, ⟨2, Hash.fill 4⟩] (by decide) (by simp)
  obtain ⟨s, t, hrun, ht, hnode⟩ := @run_zeroDatagram [⟨1, Hash.fill 3⟩, ⟨2, Hash.fill 4⟩] 1
    ⟨Hash.fill 3, .validated⟩ (by decide) (by simp) (by decide +kernel)
  have halong : Along (fileStep zeroHash clientConfig) (RootedStep zeroFile_collisionFree clientConfig)
      (Client.fresh (zeroFile.fileHash zeroHash) (ZBlockCache.fresh none))
      [.receive (zeroDatagram [⟨1, Hash.fill 3⟩, ⟨2, Hash.fill 4⟩] (by decide))] := by
    refine ⟨fun reply hreply _ r hr h0 => ?_, fun _ _ => trivial⟩
    cases hparse.symm.trans hreply
    simp only [zeroReply, mem_cons, not_mem_nil, or_false] at hr
    rcases hr with rfl | rfl | rfl
    · exact absurd rfl h0
    · exact .inl rfl
    · exact .inl rfl
  have hblocks : (ZBlockCache.fresh none).Sound zeroHash := .fresh_none
  have hauth := validated_authentic zeroFile_collisionFree hblocks halong hrun ht
  exact ⟨s, t, hrun, ht, by rw [hnode], (hauth.2.1 1 (by rw [hnode])).2⟩

/-- FORGERY: records for locations 3 and 4, below the unknown node 1, are validated although neither is the file's. -/
theorem not_validated_authentic :
    ¬∀ (zhash : Bytes → Hash) (f : RefFile) (cfg : ZCacheConfig) (zcbs : List Datagram) (s : Client)
      (t : MerkleTree), f.CollisionFree zhash → run (receiveDatagram zhash cfg)
        (Client.fresh (f.fileHash zhash) (ZBlockCache.fresh none)) zcbs = .ok s →
      s.file.tree = some t → ∀ l, (t.node l).state = .validated → (t.node l).hash = f.hashAt zhash l := by
  intro hclaim
  obtain ⟨s, t, hrun, ht, hnode⟩ := @run_zeroDatagram [⟨3, Hash.fill 9⟩, ⟨4, Hash.fill 9⟩] 3
    ⟨Hash.fill 9, .validated⟩ (by decide) (by simp) (by decide +kernel)
  have h3 := hclaim zeroHash zeroFile clientConfig
    [zeroDatagram [⟨3, Hash.fill 9⟩, ⟨4, Hash.fill 9⟩] (by decide)] s t zeroFile_collisionFree hrun ht 3 (by rw [hnode])
  have hleaf : zeroFile.hashAt zeroHash 3 = Hash.fill 1 := by
    have h := RefFile.hashAt_leaf zeroHash (f := zeroFile) (c := 0) (by rw [zeroFile_treeDepth]; norm_num)
    rw [zeroFile_treeDepth] at h
    exact h.trans (zeroFile_leaf (by norm_num))
  rw [hnode, hleaf] at h3
  exact absurd h3 (by decide)

end Embassies.Zftp
