import Embassies.Zftp.RequestBuilderLaws

/-! When installing a reply fails no assertion and stays within its arrays.

    `install_reply` trusts the reply in many places. This module says what it trusts, as conditions on
    the state before the step and on the reply: `RecordFits` for a Merkle record, `PieceFits` for a
    piece of data, `DataFits` for all of it. Under them the core of `install_reply` goes through. -/

namespace Embassies.Zftp

open Checked HeapTree List Function MerkleTree Nat ZBlockCacheRecord Option

variable {zhash : Bytes → Hash} {reply : ZFileReplyFromServer} {s : Client}

/-! ### Merkle records -/

namespace MerkleTree

variable {t t' : MerkleTree}
variable {l : ℕ} {r : ZFTPMerkleRecord} {rs : List ZFTPMerkleRecord} {new : Bool}

/-- The record has a place in the tree, and repeats the hash of a validated node. -/
structure RecordFits (t : MerkleTree) (r : ZFTPMerkleRecord) : Prop where
  lt : r.treeLocation < t.treeSize
  margin : (t.node r.treeLocation).state ≠ .margin
  same : (t.node r.treeLocation).state = .validated → (t.node r.treeLocation).hash = r.hash

instance (t : MerkleTree) (r : ZFTPMerkleRecord) : Decidable (t.RecordFits r) :=
  decidable_of_iff (r.treeLocation < t.treeSize ∧ (t.node r.treeLocation).state ≠ .margin ∧
      ((t.node r.treeLocation).state = .validated → (t.node r.treeLocation).hash = r.hash))
    ⟨fun h => ⟨h.1, h.2.1, h.2.2⟩, fun h => ⟨h.lt, h.margin, h.same⟩⟩

lemma installMerkleRecord_total (zhash : Bytes → Hash) (hroot : (t.node 0).state = .validated) (h : t.RecordFits r) :
    ∃ t' new, t.installMerkleRecord zhash r = .ok (t', new) := by
  simp only [installMerkleRecord, get_of_lt h.lt, ok_bind]
  cases hs : (t.node r.treeLocation).state with
  | unknown =>
    have hnr : t.NonRoot r.treeLocation := by
      refine ⟨?_, h.lt⟩
      intro h0
      rw [h0, hroot] at hs
      cases hs
    have hmark : ∃ t', (t.setHash r.treeLocation r.hash).markNodeTentativeFuel zhash .cached 33
        r.treeLocation = .ok t' :=
      markNodeTentativeFuel_total 33 _ _ (hnr.congr rfl) (by rw [state_setHash, hs]; simp)
        (by rw [state_setHash, hroot]) (by have := hnr.small; omega)
    obtain ⟨t', ht'⟩ := hmark
    exact ⟨t', true, by simp only [markNodeTentative, ht', ok_bind, pure_eq_ok]⟩
  | tentative => exact ⟨t, false, rfl⟩
  | validated =>
    simp only [liteAssert_pos (h.same hs), ok_bind]
    exact ⟨t, false, rfl⟩
  | margin => exact absurd hs h.margin

lemma RecordFits.grows (hg : t.Grows t') (h : t.RecordFits r) : t'.RecordFits r := by
  refine ⟨?_, ?_, ?_⟩
  · rw [treeSize_congr hg.metadata]
    exact h.lt
  · intro hm
    exact h.margin ((hg.state_iff _ (by exact nofun) (by exact nofun)).mp hm)
  · intro hv
    have hv' := (hg.validated _).mp hv
    rw [hg.keeps _ (by rw [hv']; exact nofun)]
    exact h.same hv'

/-- RECORDS: what fits the tree at the start still fits when its turn comes. -/
lemma installMerkleRecords_total (zhash : Bytes → Hash) (hroot : (t.node 0).state = .validated)
    (h : ∀ r ∈ rs, t.RecordFits r) :
    ∃ t' new, t.installMerkleRecords zhash rs = .ok (t', new) := by
  induction rs generalizing t with
  | nil => exact ⟨t, false, rfl⟩
  | cons r rs ih =>
    obtain ⟨u, n1, hu⟩ := installMerkleRecord_total zhash hroot (h r mem_cons_self)
    have hg := installMerkleRecord_grows hu
    obtain ⟨t', n2, ht'⟩ := ih ((hg.validated 0).mpr hroot) (fun r' hr' => (h r' (mem_cons_of_mem _ hr')).grows hg)
    refine ⟨t', n1 || n2, ?_⟩
    simp only [installMerkleRecords, hu, ht', ok_bind, pure_eq_ok]

/-! ### Leaves -/

section

variable (hleaf : t.treeSize ≤ left l)
include hleaf

lemma markNodeTentativeFuel_leaf {fuel k : ℕ} (hne : k ≠ l) (h : t.markNodeTentativeFuel zhash .cached fuel k = .ok t')
    : t'.node l = t.node l := by
  refine markNodeTentativeFuel_rule (P := fun u k => u.metadata = t.metadata ∧ k ≠ l ∧ u.node l = t.node l)
    (Q := fun u => u.node l = t.node l) ?_ ?_ fuel t t' k ⟨rfl, hne, rfl⟩ h
  · rintro u k ⟨-, hk, hu⟩ - - -
    rw [← hu]
    exact node_setState_of_ne u k .tentative hk.symm
  · rintro u k ⟨hm, hk, hu⟩ hnr - - -
    have hpar : parent k ≠ l := by
      rintro rfl
      have hlt := hnr.lt
      rw [treeSize_congr hm] at hlt
      rcases eq_left_or_right hnr.ne_zero with hl | hr
      · omega
      · simp only [left, right] at *
        omega
    refine ⟨hm, hpar, ?_⟩
    rw [derive, node_setHash_of_ne _ _ _ hpar.symm, ← hu]
    exact node_setState_of_ne u k .tentative hk.symm

lemma markNodeTentative_leaf_self (h : t.markNodeTentative zhash .cached l = .ok t') :
    t'.node l = ⟨(t.node l).hash, .tentative⟩ := by
  obtain ⟨hnr, hv⟩ := markNodeTentativeFuel_ok h
  rw [markNodeTentative, markNodeTentativeFuel_succ hnr hv] at h
  have htouch : (t.touch l).node l = ⟨(t.node l).hash, .tentative⟩ := update_self _ _ _
  have hpar := parent_ne hnr.ne_zero
  split at h
  case isFalse => cases h; exact htouch
  case isTrue =>
    rw [markNodeTentativeFuel_leaf (t := (t.touch l).derive zhash (parent l)) hleaf hpar h, derive,
      node_setHash_of_ne _ _ _ hpar.symm, htouch]

lemma installMerkleRecord_leaf (h : t.installMerkleRecord zhash r = .ok (t', new)) :
    t'.node l = if (t.node l).state = .unknown ∧ r.treeLocation = l then ⟨r.hash, .tentative⟩ else t.node l := by
  obtain ⟨-, ⟨hs, -, rfl, -⟩ | ⟨hs, rfl, -⟩ | ⟨hs, -, hm⟩⟩ := installMerkleRecord_cases h
  · rw [if_neg]
    rintro ⟨hu, rfl⟩
    rw [hs] at hu
    cases hu
  · rw [if_neg]
    rintro ⟨hu, rfl⟩
    rw [hs] at hu
    cases hu
  · by_cases hl : r.treeLocation = l
    · subst hl
      have hself := markNodeTentative_leaf_self (t := t.setHash r.treeLocation r.hash) hleaf hm
      rw [if_pos ⟨hs, rfl⟩, hself, hash_setHash, if_pos rfl]
    · rw [if_neg (fun hc => hl hc.2), markNodeTentativeFuel_leaf (t := t.setHash r.treeLocation r.hash) hleaf hl hm,
        node_setHash_of_ne _ _ _ (Ne.symm hl)]

end

/-- The hash a leaf has once the reply's records are installed: the one it had, or that of the first record for it. -/
def leafHash (t : MerkleTree) (rs : List ZFTPMerkleRecord) (blk : ℕ) : Option Hash :=
  if (t.leaf blk).state = .unknown then
    (rs.find? (fun r => r.treeLocation = t.leafLoc blk)).map (·.hash)
  else some (t.leaf blk).hash

lemma left_leafLoc (t : MerkleTree) (blk : ℕ) : t.treeSize ≤ left (t.leafLoc blk) := by
  have := Nat.two_pow_pos t.treeDepth
  simp only [treeSize, computeTreeSize, left, leafLoc, pow_succ]
  omega

lemma leafLoc_congr (h : t'.metadata = t.metadata) (blk : ℕ) : t'.leafLoc blk = t.leafLoc blk := by
  simp only [leafLoc, treeDepth, numBlocks, h]

/-- LEAVES: after the records, a leaf is known exactly when it has a hash by `leafHash`. -/
lemma installMerkleRecords_leafHash {blk : ℕ} {x : Hash} (h : t.installMerkleRecords zhash rs = .ok (t', new))
    (hx : t.leafHash rs blk = some x) :
    (t'.leaf blk).state ≠ .unknown ∧ (t'.leaf blk).hash = x := by
  induction rs generalizing t new with
  | nil =>
    cases h
    rw [leafHash] at hx
    split at hx
    · cases hx
    · exact ⟨‹_›, some.inj hx⟩
  | cons r rs ih =>
    obtain ⟨⟨u, n1⟩, hu, ⟨v, n2⟩, hv, h⟩ := of_bind2 h
    cases h
    have hg := installMerkleRecord_grows hu
    have hloc := leafLoc_congr hg.metadata blk
    have hnode := installMerkleRecord_leaf (t.left_leafLoc blk) hu
    refine ih hv ?_
    rw [leafHash] at hx
    rw [leafHash, leaf, hloc]
    by_cases hs : (t.leaf blk).state = .unknown
    · have hs' : (t.node (t.leafLoc blk)).state = .unknown := hs
      rw [if_pos hs, find?_cons] at hx
      by_cases hr : r.treeLocation = t.leafLoc blk
      · simp only [hr, decide_true, map_some] at hx
        rw [if_pos ⟨hs', hr⟩] at hnode
        rw [hnode, if_neg (by exact nofun)]
        exact hx
      · simp only [hr, decide_false] at hx
        rw [if_neg (fun hc => hr hc.2)] at hnode
        rw [hnode, if_pos hs']
        exact hx
    · have hs' : ¬(t.node (t.leafLoc blk)).state = .unknown := hs
      rw [if_neg hs] at hx
      rw [if_neg (fun hc => hs' hc.1)] at hnode
      rw [hnode, if_neg hs']
      exact hx

end MerkleTree

/-! ### Pieces of data -/

def zeroPadded (b : Bytes) : Bytes := b ++ List.replicate (zftpBlockSize - b.length) 0

/-- What a range of `size` bytes at `offset` of a payload stands for: the bytes that are there, then zeros. -/
def pieceBytes (payload : Bytes) (offset size : ℕ) : Bytes :=
  field payload offset size ++ List.replicate (size - (field payload offset size).length) 0

@[simp] lemma length_pieceBytes (payload : Bytes) (offset size : ℕ) :
    (pieceBytes payload offset size).length = size := by
  have hle : (field payload offset size).length ≤ size := by
    rw [field, length_take]
    omega
  rw [pieceBytes, length_append, length_replicate]
  omega

lemma zeroPadded_of_full {b : Bytes} (h : zftpBlockSize ≤ b.length) : zeroPadded b = b := by
  rw [zeroPadded, Nat.sub_eq_zero_of_le h, replicate_zero, append_nil]

lemma length_zeroPadded {b : Bytes} (h : b.length ≤ zftpBlockSize) : (zeroPadded b).length = zftpBlockSize := by
  rw [zeroPadded, length_append, length_replicate]
  omega

/-- The record takes the bytes `[start, stop)` of its block from the payload: it has them already, or they begin at its
    gap and are there. A piece that completes the block, or ends the file, makes the block hash to its key. -/
inductive PieceFits (zhash : Bytes → Hash) (r : ZBlockCacheRecord) (start stop : ℕ) (payload : Bytes)
    (offset : ℕ) (last : Prop) : Prop
  | repeated : start < r.nextGap → stop ≤ r.nextGap →
      (last → r.nextGap < zftpBlockSize → r.valid = false ∧ zhash (zeroPadded r.data) = r.hash) →
      PieceFits zhash r start stop payload offset last
  | next : r.nextGap = start → r.valid = false → offset ≤ payload.length →
      (stop = zftpBlockSize ∨ last →
        zhash (zeroPadded (r.data ++ field payload offset (stop - start))) = r.hash) →
      PieceFits zhash r start stop payload offset last

namespace ZBlockCacheRecord

variable {r : ZBlockCacheRecord} {start stop offset : ℕ} {payload : Bytes}

lemma physicalData_eq {size : ℕ} (hoff : offset ≤ payload.length) (hlen : payload.length < 2 ^ 32) :
    physicalData payload offset size = .ok (field payload offset size) := by
  have hsub : sub32 payload.length offset = payload.length - offset := sub32_of_le hlen hoff
  have htake : field payload offset (min (payload.length - offset) size) = field payload offset size := by
    simp only [field]
    rcases le_total size (payload.length - offset) with h | h
    · rw [min_eq_right h]
    · rw [min_eq_left h, take_of_length_le (by simp), take_of_length_le (by simpa using h)]
  simp only [physicalData, hsub, htake]
  rw [if_neg (by omega), pure_eq_ok]

lemma validate_incomplete (zhash : Bytes → Hash) (hv : r.valid = false) (hgap : r.nextGap < zftpBlockSize) :
    r.validate zhash = .ok r := by
  rw [validate, liteAssert_pos hv, ok_bind, if_pos hgap, pure_eq_ok]

lemma validate_full (hv : r.valid = false) (hgap : r.nextGap = zftpBlockSize) (hhash : zhash r.data = r.hash)
    : r.validate zhash = .ok { r with valid := true } := by
  rw [validate, liteAssert_pos hv, ok_bind, if_neg (by omega), liteAssert_pos hgap,
    ok_bind, liteAssert_pos hhash, ok_bind, pure_eq_ok]

lemma physicalData_beyond {size : ℕ} (hoff : payload.length < offset) (hsize : 0 < size) (hfit : offset + size < 2 ^ 32)
    : physicalData payload offset size = .error .outOfRange := by
  have hsub : sub32 payload.length offset = 2 ^ 32 - (offset - payload.length) := by
    simp only [sub32]
    omega
  have hmin : min (sub32 payload.length offset) size = size := by omega
  simp only [physicalData, hmin]
  rw [if_pos (by omega)]

/-- What a record that waits at `start` holds after a piece, and after its block was completed. -/
def filledData (r : ZBlockCacheRecord) (start stop : ℕ) (payload : Bytes) (offset : ℕ)
    (last : Bool) : Bytes :=
  let b := r.data ++ pieceBytes payload offset (stop - start)
  if last then zeroPadded b else b

/-- The record with the given bytes, checked when they are a whole block. -/
def withData (r : ZBlockCacheRecord) (b : Bytes) : ZBlockCacheRecord :=
  { r with data := b, nextGap := b.length, valid := decide (b.length = zftpBlockSize) }

/-- What an iteration of `install_data` does to the record of its block. -/
def receivePiece (zhash : Bytes → Hash) (r : ZBlockCacheRecord) (start stop : ℕ) (payload : Bytes)
    (offset : ℕ) (last : Bool) : Checked (ZBlockCacheRecord × Bool) := do
  let (r, new) ← r.receiveData zhash start stop payload offset
  if last then do
    let (r, _) ← r.completeWithZeros zhash
    pure (r, new)
  else pure (r, new)

lemma load_validate_yields (source : Bytes) {size : ℕ} {b : Bytes} (hr : r.Sound zhash) (hv : r.valid = false)
    (hsrc : source.length ≤ size) (hfit : r.nextGap + size ≤ zftpBlockSize)
    (hb : r.data ++ (source ++ replicate (size - source.length) 0) = b) :
    Yields (do let r ← r.loadDataInternal source size; let r ← r.validate zhash; pure (r, true))
      (b.length = zftpBlockSize → zhash b = r.hash) (r.withData b, true) := by
  obtain ⟨hlen, -⟩ := hr.gap hv
  have hsize : b.length = r.nextGap + size := by
    simp only [← hb, length_append, length_replicate, hlen]
    omega
  rw [loadDataInternal_eq hlen hsrc hfit, ok_bind, append_assoc, hb, withData, hsize]
  rcases hfit.lt_or_eq with hlt | hfull
  · rw [validate_incomplete, ok_bind, decide_eq_false hlt.ne, ← hv]
    · exact (Yields.ok _).congr (by simp only [hlt.ne, IsEmpty.forall_iff])
    · exact hv
    · exact hlt
  · intro out
    constructor
    · intro h
      obtain ⟨r1, h1, h⟩ := of_bind h
      cases h
      obtain ⟨-, ⟨hlt, -⟩ | ⟨-, hhash, rfl⟩⟩ := validate_cases h1
      · exact absurd hfull hlt.ne
      · exact ⟨fun _ => hhash, by rw [decide_eq_true hfull]⟩
    · rintro ⟨hhash, rfl⟩
      rw [validate_full, ok_bind, decide_eq_true hfull, pure_eq_ok]
      · exact hv
      · exact hfull
      · exact hhash hfull

/-- COMPLETE a record that has a gap, exactly. -/
lemma completeWithZeros_gap_yields (hr : r.Sound zhash) (hv : r.valid = false) :
    Yields (r.completeWithZeros zhash) (zhash (zeroPadded r.data) = r.hash) (r.withData (zeroPadded r.data), true) := by
  obtain ⟨hdata, hgap⟩ := hr.gap hv
  have hsize : sub32 zftpBlockSize r.nextGap = zftpBlockSize - r.nextGap :=
    sub32_of_le (by norm_num [zftpBlockSize]) hgap.le
  have hpad : r.data ++ ([] ++ replicate (zftpBlockSize - r.nextGap - ([] : Bytes).length) 0) = zeroPadded r.data := by
    rw [nil_append, length_nil, Nat.sub_zero, zeroPadded, hdata]
  rw [completeWithZeros, if_pos hgap, hsize]
  refine (load_validate_yields [] hr hv (Nat.zero_le _) (Nat.add_sub_cancel' hgap.le).le hpad).congr ?_
  rw [length_zeroPadded (hdata.trans_le hgap.le), forall_prop_of_true rfl]

lemma completeWithZeros_full (zhash : Bytes → Hash) (h : zftpBlockSize ≤ r.nextGap) :
    r.completeWithZeros zhash = .ok (r, false) := by
  rw [completeWithZeros, if_neg (by omega), pure_eq_ok]

/-! A record that waits at `start`, and a piece from there on. -/

section Gap

variable (hr : r.Sound zhash) (hv : r.valid = false) (hgap : r.nextGap = start) (hlt : start < stop)
include hr hv hgap hlt

lemma length_append_piece (payload : Bytes) (offset : ℕ)
    : (r.data ++ pieceBytes payload offset (stop - start)).length = stop := by
  rw [length_append, length_pieceBytes, (hr.gap hv).1]
  omega

variable (hstop : stop ≤ zftpBlockSize)
include hstop

/-- RECEIVE at the gap, exactly. -/
lemma receiveData_gap_yields (hlen : payload.length < 2 ^ 32)
    (hfit : payload.length < offset → offset + (stop - start) < 2 ^ 32) :
    Yields (r.receiveData zhash start stop payload offset) (offset ≤ payload.length ∧ (stop = zftpBlockSize →
        zhash (r.data ++ pieceBytes payload offset (stop - start)) = r.hash))
      (r.withData (r.data ++ pieceBytes payload offset (stop - start)), true) := by
  have hsize : sub32 stop start = stop - start := sub32_of_le (by simp only [zftpBlockSize] at hstop; omega) hlt.le
  have hsrc : (field payload offset (stop - start)).length ≤ stop - start := by
    rw [field, length_take]
    omega
  have hload := load_validate_yields _ hr hv hsrc (by omega)
    (show _ = r.data ++ pieceBytes payload offset (stop - start) from rfl)
  rw [length_append_piece hr hv hgap hlt] at hload
  rw [receiveData, if_neg (by omega), liteAssert_pos hgap, ok_bind, hsize]
  refine Yields.bind ?_ fun _ => hload
  by_cases hoff : offset ≤ payload.length
  · rw [physicalData_eq hoff hlen]
    exact (Yields.ok _).congr (iff_of_true trivial hoff)
  · rw [physicalData_beyond (by omega) (by omega) (hfit (by omega))]
    exact Yields.error hoff

lemma length_filledData (payload : Bytes) (offset : ℕ) (last : Bool)
    : (r.filledData start stop payload offset last).length = if last then zftpBlockSize else stop := by
  have hlen := length_append_piece hr hv hgap hlt payload offset
  cases last with
  | false => simpa only [filledData, Bool.false_eq_true, if_false] using hlen
  | true => simpa only [filledData, if_true] using length_zeroPadded (hlen.trans_le hstop)

/-- PIECE at the gap, exactly: the payload must reach it, and a block it completes must have its hash. -/
lemma receivePiece_gap_yields (hlen : payload.length < 2 ^ 32)
    (hfit : payload.length < offset → offset + (stop - start) < 2 ^ 32) (last : Bool) :
    let b := r.filledData start stop payload offset last
    Yields (r.receivePiece zhash start stop payload offset last)
      (offset ≤ payload.length ∧ (b.length = zftpBlockSize → zhash b = r.hash)) (r.withData b, true) := by
  have hb := length_append_piece hr hv hgap hlt payload offset
  have hrec := receiveData_gap_yields hr hv hgap hlt hstop hlen hfit
  simp only [length_filledData hr hv hgap hlt hstop payload offset last]
  cases last with
  | false =>
    simp only [receivePiece, filledData, Bool.false_eq_true, if_false]
    exact (hrec.bind fun _ => Yields.ok _).congr (and_iff_left trivial)
  | true =>
    simp only [receivePiece, filledData, if_true, forall_const]
    -- the record between the piece and its completion
    set b := r.data ++ pieceBytes payload offset (stop - start) with hbdef
    by_cases hfull : stop = zftpBlockSize
    · have hcomp : (r.withData b).completeWithZeros zhash = .ok (r.withData b, false) :=
        completeWithZeros_full zhash (by simp only [withData, hb]; exact hfull.ge)
      rw [zeroPadded_of_full (hb.trans hfull).ge]
      refine (hrec.bind fun _ => ?_).congr (by rw [forall_prop_of_true hfull, and_true])
      dsimp only
      rw [hcomp]
      exact Yields.ok _
    · have hv1 : (r.withData b).valid = false := by simp only [withData, hb, decide_eq_false hfull]
      have hs1 : (r.withData b).Sound zhash := by
        refine ⟨fun h => ?_, fun h => ?_, fun _ => ⟨rfl, (hb.trans_le hstop).lt_of_ne (hb.trans_ne hfull)⟩⟩
        all_goals
          rw [hv1] at h
          cases h
      refine Yields.congr (hrec.bind fun _ => (completeWithZeros_gap_yields hs1 hv1).bind fun _ => Yields.ok _) ?_
      simp only [hfull, IsEmpty.forall_iff, and_true]
      rfl

lemma filledData_of_full {last : Bool} (hfull : (r.filledData start stop payload offset last).length = zftpBlockSize) :
    r.filledData start stop payload offset last = zeroPadded (r.data ++ field payload offset (stop - start)) := by
  have hb := length_append_piece hr hv hgap hlt payload offset
  have hpad : zeroPadded (r.data ++ pieceBytes payload offset (stop - start)) =
      zeroPadded (r.data ++ field payload offset (stop - start)) := by
    rw [length_append] at hb
    simp only [zeroPadded, pieceBytes, append_assoc, ← replicate_add, length_append, length_replicate] at hb ⊢
    congr 3
    omega
  cases last with
  | false => exact (zeroPadded_of_full hfull.ge).symm.trans hpad
  | true => exact hpad

end Gap

/-- PIECE: a piece that fits is received, and completed if it is the last; a piece up to the end of the
    block leaves no gap. -/
lemma piece_total {last : Bool} (h : PieceFits zhash r start stop payload offset last) (hr : r.Sound zhash)
    (hlt : start < stop) (hstop : stop ≤ zftpBlockSize) (hlen : payload.length < 2 ^ 32) :
    ∃ r' new, r.receivePiece zhash start stop payload offset last = .ok (r', new) ∧
      (stop = zftpBlockSize → zftpBlockSize ≤ r'.nextGap) := by
  cases h with
  | repeated hgap hle hlast =>
    have hrec : r.receiveData zhash start stop payload offset = .ok (r, false) := by
      rw [receiveData, if_pos hgap, liteAssert_pos hle, ok_bind, pure_eq_ok]
    rw [receivePiece, hrec, ok_bind]
    cases last with
    | false => exact ⟨r, false, rfl, fun hfull => hfull ▸ hle⟩
    | true =>
      by_cases hless : r.nextGap < zftpBlockSize
      · obtain ⟨hv, hhash⟩ := hlast rfl hless
        simp only [if_true, (completeWithZeros_gap_yields hr hv _).mpr ⟨hhash, rfl⟩, ok_bind]
        exact ⟨_, false, rfl, fun hfull => by omega⟩
      · simp only [if_true, completeWithZeros_full zhash (not_lt.mp hless), ok_bind]
        exact ⟨r, false, rfl, fun hfull => hfull ▸ hle⟩
  | next hgap hv hoff hhash =>
    have hlength := length_filledData hr hv hgap hlt hstop payload offset last
    refine ⟨_, true, (receivePiece_gap_yields hr hv hgap hlt hstop hlen (fun h => by omega) last _).mpr
      ⟨⟨hoff, fun hfull => ?_⟩, rfl⟩, fun hfull => ?_⟩
    · rw [filledData_of_full hr hv hgap hlt hstop hfull]
      refine hhash ?_
      cases last with
      | false => exact .inl (hlength.symm.trans hfull)
      | true => exact .inr rfl
    · show zftpBlockSize ≤ length _
      rw [hlength, hfull, ite_self]

end ZBlockCacheRecord

/-! ### The cache under a piece -/

namespace ZBlockCache

variable {c c' : ZBlockCache} {h : Hash} {p : ℕ} {r' : ZBlockCacheRecord} {new : Bool}

lemma update_retrieveBlock (hup : c.update p r' new = .ok c') {k : Hash} (hk : k ≠ r'.hash) :
    c'.retrieveBlock k = c.retrieveBlock k := by
  rw [ZBlockCache.update] at hup
  split at hup
  case isFalse => cases hup; rfl
  case isTrue hv =>
    have hvalid : r'.valid = true := (Bool.and_eq_true_iff.mp hv).2
    rw [storeBlock] at hup
    split at hup
    case h_1 => cases hup; rfl
    case h_2 db hdb =>
      rw [peekData_of_valid hvalid, ok_bind] at hup
      cases hup
      have hdb' : c.zblockDB = some db := hdb
      simp only [retrieveBlock, hdb', update_of_ne hk]

/-- UPDATE: replacing a record of the table replaces it in the view, and nothing else. -/
lemma Sound.update_view (hc : c.Sound zhash) (hp : c.ht h = some p) (hcase : (c.view h).Updated zhash r' new) :
    ∃ c', c.update p r' new = .ok c' ∧ c'.Sound zhash ∧ c'.ht = c.ht ∧
      (∀ k, c'.view k = if k = h then r' else c.view k) ∧ ∀ k, c.CanSupply k → c'.CanSupply k := by
  have hheap := view_of_ht hc hp
  have hhash : r'.hash = h := by
    rcases hcase with ⟨-, rfl⟩ | ⟨-, -, -, hh⟩
    · exact (hc.view h).2
    · exact hh.trans (hc.view h).2
  obtain ⟨c', hup, hs, hkeep, hht, hheap'⟩ := hc.update_either hheap hcase
  have hpeek : ∀ k, c'.peek k = if k = h then some r' else c.peek k := by
    intro k
    simp only [ZBlockCache.peek, hht]
    by_cases hk : k = h
    · subst hk
      simp [hp, hheap']
    · rw [if_neg hk]
      rcases hq : c.ht k with _ | q
      · exact update_retrieveBlock hup (hhash ▸ hk)
      · have hne : q ≠ p := by
          rintro rfl
          obtain ⟨s, hs', rfl⟩ := hc.owned k q hq
          rw [hheap] at hs'
          exact hk ((some.inj hs') ▸ (hc.view h).2)
        simp only [hheap', update_of_ne hne]
  refine ⟨c', hup, hs, hht, ?_, ?_⟩
  · intro k
    rw [ZBlockCache.view, hpeek]
    split <;> rfl
  · intro k hk
    refine hk.imp ?_ ?_
    · intro hdb
      have := hkeep.hasDB
      rw [hdb] at this
      exact isNone_iff_eq_none.mp (by simpa using this)
    · intro hsome
      rw [hpeek]
      split
      · rfl
      · exact hsome

lemma Sound.receiveData_view (hc : c.Sound zhash) (hp : c.ht h = some p) {start stop offset : ℕ} {payload : Bytes}
    (hle : start ≤ stop) (hstop : stop ≤ zftpBlockSize)
    (hrec : (c.view h).receiveData zhash start stop payload offset = .ok (r', new)) :
    ∃ c', c.receiveData zhash p start stop payload offset = .ok (c', new) ∧ c'.Sound zhash ∧
      c'.ht = c.ht ∧ (∀ k, c'.view k = if k = h then r' else c.view k) ∧ ∀ k, c.CanSupply k → c'.CanSupply k := by
  have hcase := receiveData_sound (hc.view h).1 hle hstop hrec
  obtain ⟨c', hup, hs⟩ := hc.update_view hp hcase
  refine ⟨c', ?_, hs⟩
  simp only [ZBlockCache.receiveData, deref, view_of_ht hc hp, hrec, hup, ok_bind, pure_eq_ok]

lemma Sound.completeWithZeros_view (hc : c.Sound zhash) (hp : c.ht h = some p)
    (hrec : (c.view h).completeWithZeros zhash = .ok (r', new)) :
    ∃ c', c.completeWithZeros zhash p = .ok c' ∧ c'.Sound zhash ∧ c'.ht = c.ht ∧
      (∀ k, c'.view k = if k = h then r' else c.view k) ∧ ∀ k, c.CanSupply k → c'.CanSupply k := by
  have hcase := completeWithZeros_sound (hc.view h).1 hrec
  obtain ⟨c', hup, hs⟩ := hc.update_view hp hcase
  refine ⟨c', ?_, hs⟩
  simp only [ZBlockCache.completeWithZeros, deref, view_of_ht hc hp, hrec, hup, ok_bind]

end ZBlockCache

section Data

variable {t : MerkleTree} {reply : ZFileReplyFromServer} {c : ZBlockCache} {a : ℕ}

/-- The piece at `a` is the end of the file. -/
def LastPiece (t : MerkleTree) (reply : ZFileReplyFromServer) (a : ℕ) : Prop :=
  a / zftpBlockSize = t.numBlocks - 1 ∧ nextEndByte reply a = t.metadata.fileLen

lemma nextEndByte_eq (reply : ZFileReplyFromServer) (h : a / zftpBlockSize < t.numBlocks) :
    nextEndByte reply a = min (nextBlock a) reply.dataRange.stop := by
  rw [nextEndByte, ← succ_mul, endBlk_eq h]

lemma PieceFits.mono {r : ZBlockCacheRecord} {start stop offset : ℕ} {payload : Bytes} {last last' : Prop}
    (h : PieceFits zhash r start stop payload offset last)
    (hl : last' → last) : PieceFits zhash r start stop payload offset last' := by
  cases h with
  | repeated h1 h2 h3 => exact .repeated h1 h2 (fun hlast => h3 (hl hlast))
  | next h1 h2 h3 h4 => exact .next h1 h2 h3 (fun hor => h4 (hor.imp_right hl))

instance : Decidable (LastPiece t reply a) := inferInstanceAs (Decidable (_ ∧ _))

/-- What an iteration of `install_data` at `a` does to the record of its block. -/
def pieceAt (zhash : Bytes → Hash) (t : MerkleTree) (reply : ZFileReplyFromServer) (a : ℕ) (r : ZBlockCacheRecord) :
    Checked (ZBlockCacheRecord × Bool) :=
  r.receivePiece zhash (a - a / zftpBlockSize * zftpBlockSize)
    (nextEndByte reply a - a / zftpBlockSize * zftpBlockSize) reply.payload (a - reply.dataRange.start)
    (LastPiece t reply a)

/-- The step `x` on the cache does `out` to the view's record of `h`, and touches no other. -/
def ViewStep (zhash : Bytes → Hash) (c : ZBlockCache) (h : Hash) (x : Checked (ZBlockCache × Bool)) :
    Checked (ZBlockCacheRecord × Bool) → Prop
  | .error e => x = .error e
  | .ok (r', new) => ∃ c', x = .ok (c', new) ∧ c'.Sound zhash ∧ (∀ k, c'.view k = if k = h then r' else c.view k) ∧
      ∀ k, c.CanSupply k → c'.CanSupply k

/-- ITERATION: up to the lookup it is `pieceAt` on the view's record. -/
lemma installPiece_eq (hc : c.Sound zhash) (ha : a < reply.dataRange.stop) (hblk : a / zftpBlockSize < t.numBlocks)
    (hknown : (t.leaf (a / zftpBlockSize)).state ≠ .unknown)
    (hsupply : c.CanSupply (t.leaf (a / zftpBlockSize)).hash) :
    ViewStep zhash c (t.leaf (a / zftpBlockSize)).hash (installPiece zhash t reply a c)
      (pieceAt zhash t reply a (c.view (t.leaf (a / zftpBlockSize)).hash)) := by
  have hnext := lt_blockEnd a
  have hdown := div_mul_le_self a zftpBlockSize
  have hend := nextEndByte_eq reply hblk
  rw [nextBlock, succ_mul] at hend
  have hrank : ¬(t.leaf (a / zftpBlockSize)).state.rank < ValidityState.tentative.rank := by
    revert hknown
    cases (t.leaf (a / zftpBlockSize)).state <;> simp [ValidityState.rank]
  generalize hh : (t.leaf (a / zftpBlockSize)).hash = h at *
  obtain ⟨c1, p, hl⟩ := ZBlockCache.lookupBlock_total hsupply
  obtain ⟨hs1, -, hht1, -⟩ := hc.lookupBlock hl
  obtain ⟨hheap, hview1, hsup1⟩ := hc.lookupBlock_view hl
  have hlookup : lookupBlock t c (a / zftpBlockSize) .tentative = .ok (c1, some p) := by
    simp only [lookupBlock, findBlockHash_eq hblk, ok_bind, if_neg hrank, hh, hl, pure_eq_ok]
  simp only [installPiece, liteAssert_pos hblk, hlookup, ok_bind, pieceAt, receivePiece]
  cases hrec : (c.view h).receiveData zhash (a - a / zftpBlockSize * zftpBlockSize)
      (nextEndByte reply a - a / zftpBlockSize * zftpBlockSize) reply.payload (a - reply.dataRange.start) with
  | error e => simp only [ViewStep, error_bind, ZBlockCache.receiveData, ZBlockCache.deref, hheap, ok_bind, hrec]
  | ok out =>
    obtain ⟨r1, new⟩ := out
    rw [← hview1] at hrec
    obtain ⟨c2, hc2, hs2, hht2, hview2, hsup2⟩ := hs1.receiveData_view hht1 (by omega) (by omega) hrec
    have hv2 : c2.view h = r1 := by rw [hview2, if_pos rfl]
    simp only [hc2, ok_bind]
    by_cases hlast : LastPiece t reply a
    · have hcl : completeLast zhash t c2 p (a / zftpBlockSize) (nextEndByte reply a) = c2.completeWithZeros zhash p :=
        if_pos hlast
      simp only [hcl, decide_eq_true hlast, if_true]
      cases hcomp : r1.completeWithZeros zhash with
      | error e =>
        have hheap2 := ZBlockCache.view_of_ht hs2 (hht2 ▸ hht1)
        simp only [ViewStep, error_bind, ZBlockCache.completeWithZeros, ZBlockCache.deref, hheap2, hv2,
          ok_bind, hcomp]
      | ok out2 =>
        obtain ⟨r2, n⟩ := out2
        obtain ⟨c3, hc3, hs3, -, hview3, hsup3⟩ := hs2.completeWithZeros_view (hht2 ▸ hht1)
          (by rw [hv2]; exact hcomp)
        refine ⟨c3, by simp only [hc3, ok_bind, pure_eq_ok], hs3, ?_,
          fun k hk => hsup3 k (hsup2 k (hsup1 k hk))⟩
        intro k
        rw [hview3, hview2, hview1]
        split <;> rfl
    · have hcl : completeLast zhash t c2 p (a / zftpBlockSize) (nextEndByte reply a) = .ok c2 := if_neg hlast
      simp only [hcl, decide_eq_false hlast, Bool.false_eq_true, if_false, ok_bind, pure_eq_ok]
      refine ⟨c2, rfl, hs2, ?_, fun k hk => hsup2 k (hsup1 k hk)⟩
      intro k
      rw [hview2, hview1]

/-- ITERATION of `install_data` on a piece that fits the record of its block. -/
lemma installPiece_total (hc : c.Sound zhash) (ha : a < reply.dataRange.stop) (hblk : a / zftpBlockSize < t.numBlocks)
    (hknown : (t.leaf (a / zftpBlockSize)).state ≠ .unknown) (hsupply : c.CanSupply (t.leaf (a / zftpBlockSize)).hash)
    (hfits : PieceFits zhash (c.view (t.leaf (a / zftpBlockSize)).hash) (a - a / zftpBlockSize * zftpBlockSize)
      (nextEndByte reply a - a / zftpBlockSize * zftpBlockSize) reply.payload
      (a - reply.dataRange.start) (LastPiece t reply a)) (hlen : reply.payload.length < 2 ^ 32) :
    ∃ c' new, installPiece zhash t reply a c = .ok (c', new) ∧ c'.Sound zhash ∧
      (∀ k, k ≠ (t.leaf (a / zftpBlockSize)).hash → c'.view k = c.view k) ∧
      (nextEndByte reply a < reply.dataRange.stop →
        zftpBlockSize ≤ (c'.view (t.leaf (a / zftpBlockSize)).hash).nextGap) ∧ ∀ k, c.CanSupply k → c'.CanSupply k := by
  have hnext := lt_blockEnd a
  have hdown := div_mul_le_self a zftpBlockSize
  have hend := nextEndByte_eq reply hblk
  rw [nextBlock, succ_mul] at hend
  obtain ⟨r', new, hrec, hfull⟩ := piece_total (hfits.mono of_decide_eq_true) (hc.view _).1 (by omega) (by omega) hlen
  have heq := installPiece_eq hc ha hblk hknown hsupply
  rw [pieceAt, hrec] at heq
  obtain ⟨c', hpc, hs, hview, hsup⟩ := heq
  refine ⟨c', new, hpc, hs, fun k hk => by rw [hview, if_neg hk], fun hmore => ?_, hsup⟩
  rw [hview, if_pos rfl]
  exact hfull (by omega)

def pieceStart (reply : ZFileReplyFromServer) (blk : ℕ) : ℕ :=
  max reply.dataRange.start (blk * zftpBlockSize)

/-- An earlier block of the reply had the hash `k`. -/
def Touched (t : MerkleTree) (reply : ZFileReplyFromServer) (blk : ℕ) (k : Hash) : Prop :=
  ∃ blk', reply.dataRange.start / zftpBlockSize ≤ blk' ∧ blk' < blk ∧
    t.leafHash reply.merkleRecords blk' = some k

/-- The reply's data for block `blk` has a place: the block is one of the file's, its hash is known or
    comes with the reply, there can be a record for it, and that record takes the data unless an earlier
    block of the reply has completed it. -/
structure BlockFits (zhash : Bytes → Hash) (t : MerkleTree) (c : ZBlockCache)
    (reply : ZFileReplyFromServer) (blk : ℕ) (h : Hash) : Prop where
  lt : blk < t.numBlocks
  leafHash : t.leafHash reply.merkleRecords blk = some h
  supply : c.CanSupply h
  piece : Touched t reply blk h ∨
    PieceFits zhash (c.view h) (pieceStart reply blk - blk * zftpBlockSize)
      (nextEndByte reply (pieceStart reply blk) - blk * zftpBlockSize) reply.payload
      (pieceStart reply blk - reply.dataRange.start) (LastPiece t reply (pieceStart reply blk))

def DataFits (zhash : Bytes → Hash) (t : MerkleTree) (c : ZBlockCache)
    (reply : ZFileReplyFromServer) : Prop :=
  ∀ blk, reply.dataRange.start < reply.dataRange.stop →
    reply.dataRange.start / zftpBlockSize ≤ blk → blk * zftpBlockSize < reply.dataRange.stop →
    ∃ h, BlockFits zhash t c reply blk h

/-- The invariant of `install_data` before the piece at `a`: records of earlier blocks are full, the
    others are as they were. -/
structure DataHead (zhash : Bytes → Hash) (t : MerkleTree) (c₀ : ZBlockCache)
    (reply : ZFileReplyFromServer) (a : ℕ) (c : ZBlockCache) : Prop where
  sound : c.Sound zhash
  supply : ∀ k, c₀.CanSupply k → c.CanSupply k
  full : ∀ k, Touched t reply (a / zftpBlockSize) k → zftpBlockSize ≤ (c.view k).nextGap
  fresh : ∀ k, ¬Touched t reply (a / zftpBlockSize) k → c.view k = c₀.view k
  aligned : a = pieceStart reply (a / zftpBlockSize)

variable {t1 : MerkleTree} {c₀ : ZBlockCache} {r : ZBlockCacheRecord} {payload : Bytes} {h : Hash}

lemma PieceFits.of_full {start stop offset : ℕ} {last : Prop} (hfull : zftpBlockSize ≤ r.nextGap) (hlt : start < stop)
    (hstop : stop ≤ zftpBlockSize) : PieceFits zhash r start stop payload offset last :=
  .repeated (by omega) (by omega) (fun _ hless => by omega)

lemma LastPiece.congr (hm : t1.metadata = t.metadata) (h : LastPiece t1 reply a) : LastPiece t reply a := by
  simpa only [LastPiece, numBlocks, hm] using h

lemma Touched.succ {blk : ℕ} {k : Hash} (hlo : reply.dataRange.start / zftpBlockSize ≤ blk)
    (hleaf : t.leafHash reply.merkleRecords blk = some h) :
    Touched t reply (blk + 1) k ↔ Touched t reply blk k ∨ k = h := by
  constructor
  · rintro ⟨blk', h1, h2, h3⟩
    rcases Nat.lt_succ_iff_lt_or_eq.mp h2 with h2 | rfl
    · exact .inl ⟨blk', h1, h2, h3⟩
    · rw [hleaf] at h3
      exact .inr (some.inj h3).symm
  · rintro (⟨blk', h1, h2, h3⟩ | rfl)
    · exact ⟨blk', h1, h2.trans (Nat.lt_succ_self _), h3⟩
    · exact ⟨blk, hlo, Nat.lt_succ_self _, hleaf⟩

lemma DataHead.start_le (h : DataHead zhash t c₀ reply a c) : reply.dataRange.start ≤ a := by
  rw [h.aligned]
  exact le_max_left _ _

lemma DataHead.piece (hhead : DataHead zhash t c₀ reply a c) (hb : BlockFits zhash t c₀ reply (a / zftpBlockSize) h)
    (hlt : a < reply.dataRange.stop) :
    PieceFits zhash (c.view h) (a - a / zftpBlockSize * zftpBlockSize)
      (nextEndByte reply a - a / zftpBlockSize * zftpBlockSize) reply.payload
      (a - reply.dataRange.start) (LastPiece t reply a) := by
  have hnext := lt_blockEnd a
  have hdown := div_mul_le_self a zftpBlockSize
  have hend := nextEndByte_eq reply hb.lt
  rw [nextBlock, succ_mul] at hend
  by_cases htouch : Touched t reply (a / zftpBlockSize) h
  · exact .of_full (hhead.full _ htouch) (by omega) (by omega)
  · rw [hhead.fresh _ htouch]
    have hfirst := hb.piece.resolve_left htouch
    rwa [← hhead.aligned] at hfirst

/-- STEP: after a piece that is not the last the invariant holds at the next block. -/
lemma DataHead.step {c' : ZBlockCache} (hhead : DataHead zhash t c₀ reply a c)
    (hb : BlockFits zhash t c₀ reply (a / zftpBlockSize) h) (hmore : nextEndByte reply a < reply.dataRange.stop)
    (hs' : c'.Sound zhash) (hother : ∀ k, k ≠ h → c'.view k = c.view k) (hfull : zftpBlockSize ≤ (c'.view h).nextGap)
    (hsup : ∀ k, c.CanSupply k → c'.CanSupply k) : nextEndByte reply a / zftpBlockSize = a / zftpBlockSize + 1 ∧
      DataHead zhash t c₀ reply (nextEndByte reply a) c' := by
  have heq : nextEndByte reply a = nextBlock a := by
    have := nextEndByte_eq reply hb.lt
    omega
  have hdiv : nextEndByte reply a / zftpBlockSize = a / zftpBlockSize + 1 := by
    rw [heq, mul_div_block _]
  have htouch : ∀ k, Touched t reply (a / zftpBlockSize + 1) k ↔ _ := fun k =>
    Touched.succ (Nat.div_le_div_right hhead.start_le) hb.leafHash
  refine ⟨hdiv, hs', fun k hk => hsup k (hhead.supply k hk), ?_, ?_, ?_⟩
  · intro k hk
    rw [hdiv, htouch] at hk
    by_cases hne : k = h
    · rw [hne]; exact hfull
    · rw [hother k hne]
      exact hhead.full k (hk.resolve_right hne)
  · intro k hk
    rw [hdiv, htouch, not_or] at hk
    rw [hother k hk.2]
    exact hhead.fresh k hk.1
  · rw [hdiv, pieceStart, heq]
    exact (max_eq_right (hhead.start_le.trans (le_nextBlock a))).symm

/-- DATA: when all of it fits before the reply, the loop of `install_data` goes through. -/
lemma installDataLoop_total (hm : t1.metadata = t.metadata)
    (hleaf : ∀ blk h, t.leafHash reply.merkleRecords blk = some h →
      (t1.leaf blk).state ≠ .unknown ∧ (t1.leaf blk).hash = h)
    (hfits : DataFits zhash t c₀ reply) (hlen : reply.payload.length < 2 ^ 32) (fuel : ℕ) :
    ∀ (a : ℕ) (c : ZBlockCache), DataHead zhash t c₀ reply a c → t.numBlocks ≤ a / zftpBlockSize + fuel →
      ∃ c' new, installDataLoop zhash t1 reply (fuel + 1) a c = .ok (c', new) := by
  have hnum : t1.numBlocks = t.numBlocks := by simp only [numBlocks, hm]
  have hblock : ∀ {a c}, DataHead zhash t c₀ reply a c → a < reply.dataRange.stop →
      ∃ h, BlockFits zhash t c₀ reply (a / zftpBlockSize) h := by
    intro a c hhead hlt
    exact hfits _ (hhead.start_le.trans_lt hlt) (Nat.div_le_div_right hhead.start_le)
      ((Nat.div_mul_le_self _ _).trans_lt hlt)
  induction fuel with
  | zero =>
    intro a c hhead hfuel
    refine ⟨c, false, ?_⟩
    rw [installDataLoop, if_neg, pure_eq_ok]
    intro hlt
    obtain ⟨h, hb⟩ := hblock hhead hlt
    have := hb.lt
    omega
  | succ fuel ih =>
    intro a c hhead hfuel
    rw [installDataLoop]
    split
    case isFalse => exact ⟨c, false, rfl⟩
    case isTrue hlt =>
      obtain ⟨h, hb⟩ := hblock hhead hlt
      obtain ⟨hknown, rfl⟩ := hleaf _ h hb.leafHash
      obtain ⟨c', new, hpc, hs', hother, hfull, hsup⟩ := installPiece_total hhead.sound hlt
        (hnum.symm ▸ hb.lt) hknown (hhead.supply _ hb.supply)
        ((hhead.piece hb hlt).mono (LastPiece.congr hm)) hlen
      have hrest : ∃ c'' more,
          installDataLoop zhash t1 reply (fuel + 1) (nextEndByte reply a) c' = .ok (c'', more) := by
        by_cases hmore : nextEndByte reply a < reply.dataRange.stop
        · obtain ⟨hdiv, hhead'⟩ := hhead.step hb hmore hs' hother (hfull hmore) hsup
          exact ih _ c' hhead' (by rw [hdiv]; omega)
        · exact ⟨c', false, by rw [installDataLoop, if_neg hmore, pure_eq_ok]⟩
      obtain ⟨c'', more, hloop⟩ := hrest
      exact ⟨c'', new || more, by simp only [hpc, hloop, ok_bind, pure_eq_ok]⟩

lemma dataHead_start (hc : c₀.Sound zhash) :
    DataHead zhash t c₀ reply reply.dataRange.start c₀ where
  sound := hc
  supply _ hk := hk
  full k := by
    rintro ⟨blk', h1, h2, -⟩
    omega
  fresh _ _ := rfl
  aligned := (max_eq_left (div_mul_le_self _ _)).symm

end Data

/-! ### The whole reply -/

/-- The tree that the records of an admitted reply go into: the file's, or a new one with the reply's root. -/
def startTree (f : ZCachedFile) (reply : ZFileReplyFromServer) : MerkleTree :=
  match f.tree with
  | some t => t
  | none => ((MerkleTree.configureFromMetadata reply.metadata).setHash 0
      ((findRootMerkleRecord reply).elim Hash.zero (·.hash))).setState 0 .validated

lemma installMetadata_startTree {f : ZCachedFile} {t : MerkleTree} {ir : InstallResult}
    (h : installMetadata zhash f reply = some (t, ir)) : t = startTree f reply := by
  obtain ⟨ht, -⟩ | ⟨hnone, -, root, hroot, -, rfl⟩ := installMetadata_cases h
  · simp only [startTree, ht]
  · simp only [startTree, hnone, hroot, elim_some]

/-- An admitted reply has a place for its records and its data. -/
structure ReplyFits (zhash : Bytes → Hash) (s : Client) (reply : ZFileReplyFromServer) : Prop where
  records : ∀ r ∈ reply.merkleRecords, (startTree s.file reply).RecordFits r
  data : DataFits zhash (startTree s.file reply) s.blocks reply

/-- What holds of a cached file between two steps: a tree is well formed, with nothing left to validate. -/
def Settled (_ : Hash) (tree : Option MerkleTree) : Prop :=
  ∀ t, tree = some t → t.WellFormed ∧ t.parents = []

lemma startTree_settled (hs : Settled s.file.fileHash s.file.tree) (reply : ZFileReplyFromServer) :
    (startTree s.file reply).WellFormed ∧ (startTree s.file reply).parents = [] := by
  rw [startTree]
  split
  case h_1 t ht => exact hs t ht
  case h_2 =>
    refine ⟨⟨?_, nofun⟩, rfl⟩
    rw [state_setState, if_pos rfl]

/-- CORE: a reply that fits is installed without a fault. -/
lemma installReplyCore_total (hs : s.Holds zhash Settled) (hlen : reply.payload.length < 2 ^ 32)
    (hfits : Admits zhash s.file reply → ReplyFits zhash s reply) :
    ∃ s' changed, installReplyCore zhash s reply = .ok (s', changed) := by
  rw [installReplyCore]
  cases hmeta : installMetadata zhash s.file reply with
  | none => exact ⟨s, false, rfl⟩
  | some out =>
    obtain ⟨t, ir⟩ := out
    have hadm : Admits zhash s.file reply := by
      by_contra hno
      rw [installMetadata_eq_none.mpr hno] at hmeta
      cases hmeta
    obtain ⟨hrecords, hdata⟩ := hfits hadm
    obtain ⟨hwf, hparents⟩ := startTree_settled hs.file reply
    rw [← installMetadata_startTree hmeta] at hrecords hdata hwf hparents
    obtain ⟨t1, n1, h1⟩ := installMerkleRecords_total zhash hwf.root hrecords
    have hgrow := installMerkleRecords_grows h1
    have hnum := t.numBlocks_lt
    obtain ⟨c, n2, h2⟩ := installDataLoop_total hgrow.metadata
      (fun blk h hx => installMerkleRecords_leafHash h1 hx) hdata hlen zftpBlockSize _ _
      (dataHead_start hs.blocks) (by simp only [zftpBlockSize]; omega)
    obtain ⟨u, r, h3, -, hnone⟩ := validateTentativeHashes_spec zhash (installMerkleRecords_wellFormed hwf h1)
    have hchange : r = .newData → (decide (ir = .newData) || n1 || n2) = true := by
      intro hr
      cases n1 with
      | true => simp
      | false =>
        -- no new record: the table is still empty, so nothing was validated
        obtain rfl := installMerkleRecords_not_new h1
        rw [hnone hparents] at hr
        cases hr
    refine ⟨{ s.setTree u with blocks := c }, decide (ir = .newData) || n1 || n2, ?_⟩
    simp only [h1, installData, h2, h3, liteAssert_pos hchange, ok_bind, pure_eq_ok]

end Embassies.Zftp
