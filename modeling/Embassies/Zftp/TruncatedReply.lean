import Embassies.Zftp.Installation

/-! Replies that leave trailing zeros out.

    A reply may carry fewer bytes than its data range: what the payload lacks reads as zeros. Where the payload ends
    inside the range, `install_data` must hand the blocks after that point no bytes of the payload at all, but
    `receive_data` computes what is left as a 32-bit difference. This module follows the loop of `install_data` exactly:
    what every record holds afterwards, and for which replies it gets there. -/

namespace Embassies.Zftp

open Checked List Nat ZBlockCacheRecord ZBlockCache ValidityState

variable {zhash : Bytes → Hash}

/-! ### One record -/

namespace ZBlockCacheRecord

variable {r : ZBlockCacheRecord} {start stop offset : ℕ} {payload : Bytes}

lemma receivePiece_full (zhash : Bytes → Hash) (hfull : r.nextGap = zftpBlockSize) (hlt : start < stop)
    (hstop : stop ≤ zftpBlockSize) (last : Bool) :
    r.receivePiece zhash start stop payload offset last = .ok (r, false) := by
  have hrec : r.receiveData zhash start stop payload offset = .ok (r, false) := by
    rw [receiveData, if_pos (by omega), liteAssert_pos (by omega), ok_bind, pure_eq_ok]
  rw [receivePiece, hrec, ok_bind]
  cases last with
  | false => simp only [Bool.false_eq_true, if_false, pure_eq_ok]
  | true => simp only [if_true, completeWithZeros_full zhash hfull.ge, ok_bind, pure_eq_ok]

end ZBlockCacheRecord

/-! ### One iteration -/

section Piece

variable {t : MerkleTree} {reply : ZFileReplyFromServer} {c : ZBlockCache} {blk : ℕ}

def pieceStop (reply : ZFileReplyFromServer) (blk : ℕ) : ℕ :=
  min ((blk + 1) * zftpBlockSize) reply.dataRange.stop

/-- A block that the reply's range meets. -/
structure InRange (reply : ZFileReplyFromServer) (blk : ℕ) : Prop where
  first : reply.dataRange.start / zftpBlockSize ≤ blk
  last : blk * zftpBlockSize < reply.dataRange.stop
  nonempty : reply.dataRange.start < reply.dataRange.stop

section

variable (h : InRange reply blk)
include h

lemma InRange.start_lt : reply.dataRange.start < blk * zftpBlockSize + zftpBlockSize := by
  have := lt_blockEnd reply.dataRange.start
  have hle := mul_le_mul_right zftpBlockSize h.first
  omega

lemma InRange.piece :
    pieceStart reply blk < pieceStop reply blk ∧ blk * zftpBlockSize ≤ pieceStart reply blk ∧
      pieceStop reply blk ≤ blk * zftpBlockSize + zftpBlockSize ∧ pieceStart reply blk < reply.dataRange.stop := by
  have hpos := zftpBlockSize_pos
  have h1 := h.start_lt
  have h2 := h.last
  have h3 := h.nonempty
  simp only [pieceStart, pieceStop, succ_mul]
  omega

lemma InRange.div : pieceStart reply blk / zftpBlockSize = blk := by
  obtain ⟨h1, h2, h3, -⟩ := h.piece
  refine Nat.div_eq_of_lt_le h2 ?_
  rw [Nat.succ_mul]
  omega

lemma InRange.nextEndByte (hlt : blk < t.numBlocks) :
    nextEndByte reply (pieceStart reply blk) = pieceStop reply blk := by
  rw [nextEndByte_eq (t := t) reply (by rw [h.div]; exact hlt), nextBlock, h.div, pieceStop]

end

/-- The iteration for block `blk` completes the file. -/
def endsFile (t : MerkleTree) (reply : ZFileReplyFromServer) (blk : ℕ) : Bool :=
  blk = t.numBlocks - 1 ∧ pieceStop reply blk = t.metadata.fileLen

/-- What the iteration for block `blk` does to a record. -/
def blockPiece (zhash : Bytes → Hash) (t : MerkleTree) (reply : ZFileReplyFromServer) (blk : ℕ)
    (r : ZBlockCacheRecord) : Checked (ZBlockCacheRecord × Bool) :=
  r.receivePiece zhash (pieceStart reply blk - blk * zftpBlockSize)
    (pieceStop reply blk - blk * zftpBlockSize) reply.payload
    (pieceStart reply blk - reply.dataRange.start) (endsFile t reply blk)

/-- ITERATION for block `blk`: up to the lookup it is `blockPiece` on the view's record. -/
lemma InRange.installPiece_eq (hc : c.Sound zhash) (hin : InRange reply blk) (hlt : blk < t.numBlocks)
    (hknown : (t.leaf blk).state ≠ .unknown) (hsupply : c.CanSupply (t.leaf blk).hash) :
    ViewStep zhash c (t.leaf blk).hash (installPiece zhash t reply (pieceStart reply blk) c)
      (blockPiece zhash t reply blk (c.view (t.leaf blk).hash)) := by
  obtain ⟨-, -, -, h4⟩ := hin.piece
  have heq := Zftp.installPiece_eq hc h4 (by rwa [hin.div]) (by rwa [hin.div]) (by rwa [hin.div])
  simpa only [pieceAt, blockPiece, endsFile, LastPiece, hin.div, hin.nextEndByte hlt] using heq

end Piece

/-! ### The loop -/

section Loop

variable {t : MerkleTree} {reply : ZFileReplyFromServer} {c₀ c c' : ZBlockCache} {blk : ℕ}
  {new : Bool}

/-- The reply comes where it was asked for: every block of its range is at least tentatively known and has, or can get,
    a record whose first gap is where the block's part of the range starts. The payload is no longer than the range. -/
structure Awaited (t : MerkleTree) (c : ZBlockCache) (reply : ZFileReplyFromServer) : Prop where
  lt : ∀ blk, InRange reply blk → blk < t.numBlocks
  known : ∀ blk, InRange reply blk → (t.leaf blk).state ≠ .unknown
  supply : ∀ blk, InRange reply blk → c.CanSupply (t.leaf blk).hash
  gap : ∀ blk, InRange reply blk → (c.view (t.leaf blk).hash).valid = false ∧
    (c.view (t.leaf blk).hash).nextGap = pieceStart reply blk - blk * zftpBlockSize
  payload_le : reply.payload.length ≤ reply.dataRange.stop - reply.dataRange.start

/-- No earlier block of the range has the hash of block `blk`. -/
def FirstOfHash (t : MerkleTree) (reply : ZFileReplyFromServer) (blk : ℕ) : Prop :=
  ∀ blk', InRange reply blk' → blk' < blk → (t.leaf blk').hash ≠ (t.leaf blk).hash

/-- What `install_data` leaves in the record of a block. -/
def loadedData (t : MerkleTree) (c : ZBlockCache) (reply : ZFileReplyFromServer) (blk : ℕ) : Bytes :=
  (c.view (t.leaf blk).hash).filledData (pieceStart reply blk - blk * zftpBlockSize)
    (pieceStop reply blk - blk * zftpBlockSize) reply.payload
    (pieceStart reply blk - reply.dataRange.start) (endsFile t reply blk)

/-- `install_data` can load block `blk`: the payload reaches its part, and a block that gets complete has its hash. -/
structure Loads (zhash : Bytes → Hash) (t : MerkleTree) (c : ZBlockCache)
    (reply : ZFileReplyFromServer) (blk : ℕ) : Prop where
  reaches : pieceStart reply blk - reply.dataRange.start ≤ reply.payload.length
  hash : (loadedData t c reply blk).length = zftpBlockSize →
    zhash (loadedData t c reply blk) = (t.leaf blk).hash

/-- The invariant of `install_data` before block `blk`: the first block of each hash so far has loaded
    its record, every other record is as it was. -/
structure Loading (zhash : Bytes → Hash) (t : MerkleTree) (c₀ : ZBlockCache)
    (reply : ZFileReplyFromServer) (blk : ℕ) (c : ZBlockCache) : Prop where
  sound : c.Sound zhash
  supply : ∀ k, c₀.CanSupply k → c.CanSupply k
  fresh : ∀ k, (∀ blk', InRange reply blk' → blk' < blk → (t.leaf blk').hash ≠ k) →
    c.view k = c₀.view k
  loaded : ∀ blk', InRange reply blk' → blk' < blk → FirstOfHash t reply blk' →
    c.view (t.leaf blk').hash =
      (c₀.view (t.leaf blk').hash).withData (loadedData t c₀ reply blk')

lemma InRange.exists_first (t : MerkleTree) (hin : InRange reply blk) :
    ∃ first ≤ blk, InRange reply first ∧ FirstOfHash t reply first ∧ (t.leaf first).hash = (t.leaf blk).hash := by
  induction blk using Nat.strong_induction_on with
  | h blk ih =>
    by_cases hfirst : FirstOfHash t reply blk
    · exact ⟨blk, le_rfl, hin, hfirst, rfl⟩
    · simp only [FirstOfHash, not_forall, not_not] at hfirst
      obtain ⟨blk', hin', hlt, hsame⟩ := hfirst
      obtain ⟨first, hle, h1, h2, h3⟩ := ih blk' hlt hin'
      exact ⟨first, hle.trans hlt.le, h1, h2, h3.trans hsame⟩

namespace Awaited

section

variable (h : Awaited t c₀ reply)
include h

lemma stop_lt (hne : reply.dataRange.start < reply.dataRange.stop) :
    reply.dataRange.stop < 2 ^ 32 := by
  have hpos := zftpBlockSize_pos
  have hin : InRange reply ((reply.dataRange.stop - 1) / zftpBlockSize) := by
    refine ⟨Nat.div_le_div_right (by omega), ?_, hne⟩
    have := Nat.div_mul_le_self (reply.dataRange.stop - 1) zftpBlockSize
    omega
  have hlt := h.lt _ hin
  have hnum := t.numBlocks_lt
  have := Nat.lt_div_mul_add (a := reply.dataRange.stop - 1) (b := zftpBlockSize) hpos
  simp only [zftpBlockSize] at *
  omega

lemma payload_lt : reply.payload.length < 2 ^ 32 := by
  have hle := h.payload_le
  by_cases hne : reply.dataRange.start < reply.dataRange.stop
  · have := h.stop_lt hne
    omega
  · omega

lemma blockPiece_yields (hc : c₀.Sound zhash) (hin : InRange reply blk) :
    Yields (blockPiece zhash t reply blk (c₀.view (t.leaf blk).hash)) (Loads zhash t c₀ reply blk)
      ((c₀.view (t.leaf blk).hash).withData (loadedData t c₀ reply blk), true) := by
  obtain ⟨h1, h2, h3, h4⟩ := hin.piece
  obtain ⟨hv, hgap⟩ := h.gap blk hin
  obtain ⟨hs, hhash⟩ := hc.view (t.leaf blk).hash
  have hstop := h.stop_lt hin.nonempty
  have hle : pieceStop reply blk ≤ reply.dataRange.stop := min_le_right _ _
  refine (receivePiece_gap_yields hs hv hgap (by omega) (by omega) h.payload_lt (fun _ => by omega) _).congr ?_
  rw [hhash]
  exact ⟨fun ⟨hoff, hok⟩ => ⟨hoff, hok⟩, fun ⟨hoff, hok⟩ => ⟨hoff, hok⟩⟩

lemma length_loadedData (hc : c₀.Sound zhash) (hin : InRange reply blk) :
    (loadedData t c₀ reply blk).length =
      if endsFile t reply blk then zftpBlockSize else pieceStop reply blk - blk * zftpBlockSize := by
  obtain ⟨h1, h2, h3, -⟩ := hin.piece
  obtain ⟨hv, hgap⟩ := h.gap blk hin
  exact length_filledData (hc.view _).1 hv hgap (by omega) (by omega) _ _ _

lemma length_loadedData_of_lt (hc : c₀.Sound zhash) {blk' : ℕ} (hin : InRange reply blk) (hin' : InRange reply blk')
    (hlt : blk' < blk) :
    (loadedData t c₀ reply blk').length = zftpBlockSize := by
  have hmul := mul_le_mul_right zftpBlockSize (succ_le_of_lt hlt)
  have hlast := hin.last
  rw [succ_eq_add_one, succ_mul] at hmul
  rw [h.length_loadedData hc hin', pieceStop, succ_mul]
  split
  · rfl
  · omega

end

end Awaited

namespace Loading

lemma start (t : MerkleTree) (reply : ZFileReplyFromServer) (hc : c₀.Sound zhash) :
    Loading zhash t c₀ reply (reply.dataRange.start / zftpBlockSize) c₀ where
  sound := hc
  supply _ hk := hk
  fresh _ _ := rfl
  loaded blk' hin hlt := absurd hin.first (by omega)

section

variable (h : Loading zhash t c₀ reply blk c)
include h

lemma full (hc : c₀.Sound zhash) (hwait : Awaited t c₀ reply) (hin : InRange reply blk)
    (hrep : ¬FirstOfHash t reply blk) :
    (c.view (t.leaf blk).hash).nextGap = zftpBlockSize := by
  obtain ⟨first, hle, hin', hfirst, hsame⟩ := hin.exists_first t
  have hlt : first < blk := lt_of_le_of_ne hle (by rintro rfl; exact hrep hfirst)
  rw [← hsame, h.loaded first hin' hlt hfirst]
  exact hwait.length_loadedData_of_lt hc hin hin' hlt

/-- STEP on a record: the iteration loads the record of a new hash and leaves one it has loaded. -/
lemma next {r' : ZBlockCacheRecord} (hin : InRange reply blk) (hs : c'.Sound zhash)
    (hsup : ∀ k, c.CanSupply k → c'.CanSupply k)
    (hview : ∀ k, c'.view k = if k = (t.leaf blk).hash then r' else c.view k)
    (hnew : FirstOfHash t reply blk →
      r' = (c₀.view (t.leaf blk).hash).withData (loadedData t c₀ reply blk))
    (hrep : ¬FirstOfHash t reply blk → r' = c.view (t.leaf blk).hash) :
    Loading zhash t c₀ reply (blk + 1) c' where
  sound := hs
  supply k hk := hsup k (h.supply k hk)
  fresh k hk := by
    rw [hview, if_neg (hk blk hin (Nat.lt_succ_self _)).symm]
    exact h.fresh k (fun blk' hin' hlt => hk blk' hin' (hlt.trans (Nat.lt_succ_self _)))
  loaded blk' hin' hlt hfirst' := by
    rw [hview]
    rcases Nat.lt_succ_iff_lt_or_eq.mp hlt with hlt | rfl
    · -- an earlier block keeps its record, be it this block's too
      rw [← h.loaded blk' hin' hlt hfirst']
      split
      case isFalse => rfl
      case isTrue hsame =>
        rw [hsame]
        exact hrep (fun hfirst => hfirst blk' hin' hlt hsame)
    · rw [if_pos rfl]
      exact hnew hfirst'

/-- STEP: an iteration that goes through could load its block, if it is the first of its hash. -/
lemma step (hc : c₀.Sound zhash) (hwait : Awaited t c₀ reply) (hin : InRange reply blk)
    (hpiece : installPiece zhash t reply (pieceStart reply blk) c = .ok (c', new)) :
    (FirstOfHash t reply blk → Loads zhash t c₀ reply blk) ∧ Loading zhash t c₀ reply (blk + 1) c' := by
  obtain ⟨h1, h2, h3, -⟩ := hin.piece
  have heq := hin.installPiece_eq h.sound (hwait.lt blk hin) (hwait.known blk hin) (h.supply _ (hwait.supply blk hin))
  by_cases hfirst : FirstOfHash t reply blk
  · rw [h.fresh _ hfirst] at heq
    cases hrec : blockPiece zhash t reply blk (c₀.view (t.leaf blk).hash) with
    | error e =>
      rw [hrec, hpiece] at heq
      cases heq
    | ok out =>
      obtain ⟨hloads, rfl⟩ := (hwait.blockPiece_yields hc hin out).mp hrec
      rw [hrec] at heq
      obtain ⟨c1, hc1, hs, hview, hsup⟩ := heq
      rw [hpiece] at hc1
      cases hc1
      exact ⟨fun _ => hloads, h.next hin hs hsup hview (fun _ => rfl) (fun hno => absurd hfirst hno)⟩
  · rw [blockPiece, receivePiece_full zhash (h.full hc hwait hin hfirst) (by omega) (by omega)] at heq
    obtain ⟨c1, hc1, hs, hview, hsup⟩ := heq
    rw [hpiece] at hc1
    cases hc1
    exact ⟨fun hno => absurd hno hfirst, h.next hin hs hsup hview (fun hno => absurd hno hfirst) (fun _ => rfl)⟩

/-- PROGRESS: an iteration whose block can be loaded goes through. -/
lemma progress (hc : c₀.Sound zhash) (hwait : Awaited t c₀ reply) (hin : InRange reply blk)
    (hloads : FirstOfHash t reply blk → Loads zhash t c₀ reply blk) :
    ∃ c' new, installPiece zhash t reply (pieceStart reply blk) c = .ok (c', new) := by
  obtain ⟨h1, h2, h3, -⟩ := hin.piece
  have heq := hin.installPiece_eq h.sound (hwait.lt blk hin) (hwait.known blk hin) (h.supply _ (hwait.supply blk hin))
  by_cases hfirst : FirstOfHash t reply blk
  · rw [h.fresh _ hfirst, (hwait.blockPiece_yields hc hin _).mpr ⟨hloads hfirst, rfl⟩] at heq
    obtain ⟨c1, hc1, -⟩ := heq
    exact ⟨c1, true, hc1⟩
  · rw [blockPiece, receivePiece_full zhash (h.full hc hwait hin hfirst) (by omega) (by omega)] at heq
    obtain ⟨c1, hc1, -⟩ := heq
    exact ⟨c1, false, hc1⟩

lemma loaded_data (hpast : reply.dataRange.stop ≤ blk * zftpBlockSize) (first : ℕ) (hin : InRange reply first)
    (hfirst : FirstOfHash t reply first) : (c.view (t.leaf first).hash).data = loadedData t c₀ reply first := by
  have hlt : first < blk := by
    by_contra hge
    have hmul := Nat.mul_le_mul_right zftpBlockSize (Nat.le_of_not_lt hge)
    have := hin.last
    omega
  rw [h.loaded first hin hlt hfirst]
  rfl

end

end Loading

lemma installDataLoop_succ (hin : InRange reply blk) (hlt : blk < t.numBlocks) (fuel : ℕ) :
    installDataLoop zhash t reply (fuel + 1) (min (pieceStart reply blk) reply.dataRange.stop) c = (do
      let (c, new) ← installPiece zhash t reply (pieceStart reply blk) c
      let (c, more) ← installDataLoop zhash t reply fuel (min (pieceStart reply (blk + 1)) reply.dataRange.stop) c
      pure (c, new || more)) := by
  obtain ⟨-, -, -, hstart⟩ := hin.piece
  have hnext : pieceStop reply blk = min (pieceStart reply (blk + 1)) reply.dataRange.stop := by
    have := hin.start_lt
    rw [pieceStop, pieceStart, succ_mul, max_eq_right (by omega)]
  rw [min_eq_left hstart.le, installDataLoop, if_pos hstart, hin.nextEndByte hlt, hnext]

lemma installDataLoop_past (zhash : Bytes → Hash) (t : MerkleTree) (c : ZBlockCache)
    (hne : reply.dataRange.start < reply.dataRange.stop)
    (hfirst : reply.dataRange.start / zftpBlockSize ≤ blk) (hout : ¬InRange reply blk) (fuel : ℕ) :
    reply.dataRange.stop ≤ blk * zftpBlockSize ∧
      installDataLoop zhash t reply (fuel + 1) (min (pieceStart reply blk) reply.dataRange.stop) c =
        .ok (c, false) := by
  have hpast : reply.dataRange.stop ≤ blk * zftpBlockSize := by
    by_contra hlt
    exact hout ⟨hfirst, by omega, hne⟩
  refine ⟨hpast, ?_⟩
  have hle : reply.dataRange.stop ≤ pieceStart reply blk := hpast.trans (le_max_right _ _)
  rw [min_eq_right hle, installDataLoop, if_neg (lt_irrefl _), pure_eq_ok]

lemma installData_eq_loop (zhash : Bytes → Hash) (t : MerkleTree) (c : ZBlockCache)
    (hne : reply.dataRange.start < reply.dataRange.stop) :
    installData zhash t reply c = installDataLoop zhash t reply (zftpBlockSize + 1)
      (min (pieceStart reply (reply.dataRange.start / zftpBlockSize)) reply.dataRange.stop) c := by
  rw [installData, pieceStart, max_eq_left (div_mul_le_self _ _), min_eq_left hne.le]

/-- RUN: a loop that goes through could load the first block of every hash, and has. -/
lemma installDataLoop_loading (hc : c₀.Sound zhash) (hwait : Awaited t c₀ reply)
    (hne : reply.dataRange.start < reply.dataRange.stop) (fuel : ℕ) :
    ∀ (blk : ℕ) (c c' : ZBlockCache) (new : Bool), Loading zhash t c₀ reply blk c →
      reply.dataRange.start / zftpBlockSize ≤ blk →
      installDataLoop zhash t reply fuel (min (pieceStart reply blk) reply.dataRange.stop) c = .ok (c', new) →
      (∀ blk', InRange reply blk' → blk ≤ blk' → FirstOfHash t reply blk' → Loads zhash t c₀ reply blk') ∧
      ∃ stop, reply.dataRange.stop ≤ stop * zftpBlockSize ∧ Loading zhash t c₀ reply stop c' := by
  induction fuel with
  | zero => intro blk c c' new _ _ h; cases h
  | succ fuel ih =>
    intro blk c c' new hload hfirst h
    by_cases hin : InRange reply blk
    · rw [installDataLoop_succ hin (hwait.lt blk hin)] at h
      obtain ⟨⟨c1, n1⟩, hpiece, ⟨c2, n2⟩, hrest, h⟩ := of_bind2 h
      cases h
      obtain ⟨hblk, hload1⟩ := hload.step hc hwait hin hpiece
      obtain ⟨hblks, hend⟩ := ih (blk + 1) c1 _ n2 hload1 (by omega) hrest
      refine ⟨fun blk' hin' hle hf => ?_, hend⟩
      rcases hle.eq_or_lt with rfl | hlt
      · exact hblk hf
      · exact hblks blk' hin' hlt hf
    · obtain ⟨hpast, hdone⟩ := installDataLoop_past zhash t c hne hfirst hin fuel
      rw [hdone] at h
      cases h
      refine ⟨fun blk' hin' hle _ => ?_, blk, hpast, hload⟩
      have := mul_le_mul_right zftpBlockSize hle
      have := hin'.last
      omega

/-- RUN: a loop that can load the first block of every hash goes through. -/
lemma installDataLoop_loads (hc : c₀.Sound zhash) (hwait : Awaited t c₀ reply)
    (hne : reply.dataRange.start < reply.dataRange.stop)
    (hloads : ∀ blk', InRange reply blk' → FirstOfHash t reply blk' → Loads zhash t c₀ reply blk')
    (fuel : ℕ) : ∀ (blk : ℕ) (c : ZBlockCache), Loading zhash t c₀ reply blk c →
      reply.dataRange.start / zftpBlockSize ≤ blk → t.numBlocks ≤ blk + fuel →
      ∃ c' new, installDataLoop zhash t reply (fuel + 1)
        (min (pieceStart reply blk) reply.dataRange.stop) c = .ok (c', new) := by
  induction fuel with
  | zero =>
    intro blk c hload hfirst hfuel
    have hout : ¬InRange reply blk := fun hin => by
      have := hwait.lt blk hin
      omega
    exact ⟨c, false, (installDataLoop_past zhash t c hne hfirst hout 0).2⟩
  | succ fuel ih =>
    intro blk c hload hfirst hfuel
    by_cases hin : InRange reply blk
    · obtain ⟨c1, n1, hpiece⟩ := hload.progress hc hwait hin (hloads blk hin)
      obtain ⟨-, hload1⟩ := hload.step hc hwait hin hpiece
      obtain ⟨c2, n2, hrest⟩ := ih (blk + 1) c1 hload1 (by omega) (by omega)
      refine ⟨c2, n1 || n2, ?_⟩
      rw [installDataLoop_succ hin (hwait.lt blk hin), hpiece, ok_bind]
      dsimp only
      rw [hrest, ok_bind, pure_eq_ok]
    · exact ⟨c, false, (installDataLoop_past zhash t c hne hfirst hin _).2⟩

end Loop

/-! ### The reply -/

section Reply

variable {t : MerkleTree} {reply : ZFileReplyFromServer} {c c' : ZBlockCache} {blk : ℕ}

/-- What block `blk` is to hold after the reply: the bytes it had, the payload bytes that belong to it,
    and zeros up to the end of the range; up to the end of the block, where the range ends the file. -/
def blockAfter (t : MerkleTree) (c : ZBlockCache) (reply : ZFileReplyFromServer) (blk : ℕ) : Bytes :=
  let b := (c.view (t.leaf blk).hash).data ++
    pieceBytes reply.payload (pieceStart reply blk - reply.dataRange.start)
      (pieceStop reply blk - pieceStart reply blk)
  if blk + 1 = t.numBlocks ∧ t.metadata.fileLen ≤ reply.dataRange.stop then zeroPadded b else b

/-- Every block of the range holds what it is to hold, and no other record has changed. -/
structure Installed (t : MerkleTree) (c : ZBlockCache) (reply : ZFileReplyFromServer)
    (c' : ZBlockCache) : Prop where
  each : ∀ blk, InRange reply blk → blockAfter t c reply blk <+: (c'.view (t.leaf blk).hash).data
  only : ∀ h, c'.view h = c.view h ∨
    ∃ blk, InRange reply blk ∧ (t.leaf blk).hash = h ∧ (c'.view h).data = blockAfter t c reply blk

/-- The reply's part of block `blk` can be taken: the payload reaches it, the range does not end behind
    the end of the file inside the last block, and a block that gets complete has its hash. -/
structure TakesBlock (zhash : Bytes → Hash) (t : MerkleTree) (c : ZBlockCache)
    (reply : ZFileReplyFromServer) (blk : ℕ) : Prop where
  reaches : pieceStart reply blk - reply.dataRange.start ≤ reply.payload.length
  ends : blk + 1 = t.numBlocks → t.metadata.fileLen ≤ reply.dataRange.stop →
    reply.dataRange.stop = t.metadata.fileLen ∨ t.numBlocks * zftpBlockSize ≤ reply.dataRange.stop
  hash : (blockAfter t c reply blk).length = zftpBlockSize →
    zhash (blockAfter t c reply blk) = (t.leaf blk).hash

/-- The reply's part of block `blk` repeats what an earlier block with the same hash got. -/
def Repeats (t : MerkleTree) (c : ZBlockCache) (reply : ZFileReplyFromServer) (blk : ℕ) : Prop :=
  ∃ blk', InRange reply blk' ∧ blk' < blk ∧ (t.leaf blk').hash = (t.leaf blk).hash ∧
    blockAfter t c reply blk <+: blockAfter t c reply blk'

lemma endsFile_iff (reply : ZFileReplyFromServer) (hlt : blk < t.numBlocks) : endsFile t reply blk = true ↔
      blk + 1 = t.numBlocks ∧ pieceStop reply blk = t.metadata.fileLen := by
  rw [endsFile, decide_eq_true_eq]
  exact and_congr_left' (by omega)

lemma pieceStop_last (reply : ZFileReplyFromServer) (hblk : blk + 1 = t.numBlocks) :
    pieceStop reply blk = min (t.numBlocks * zftpBlockSize) reply.dataRange.stop ∧
      blk * zftpBlockSize + zftpBlockSize = t.numBlocks * zftpBlockSize := by
  have hmul := succ_mul blk zftpBlockSize
  rw [succ_eq_add_one, hblk] at hmul
  exact ⟨by rw [pieceStop, hblk], hmul.symm⟩

lemma loadedData_eq (hin : InRange reply blk) : loadedData t c reply blk =
    let b := (c.view (t.leaf blk).hash).data ++
      pieceBytes reply.payload (pieceStart reply blk - reply.dataRange.start)
        (pieceStop reply blk - pieceStart reply blk)
    if endsFile t reply blk then zeroPadded b else b := by
  obtain ⟨h1, h2, -⟩ := hin.piece
  rw [loadedData, filledData,
    show pieceStop reply blk - blk * zftpBlockSize - (pieceStart reply blk - blk * zftpBlockSize) =
      pieceStop reply blk - pieceStart reply blk by omega]

namespace Awaited

lemma loadedData_eq_blockAfter (h : Awaited t c reply) (hc : c.Sound zhash) (hin : InRange reply blk)
    (hends : blk + 1 = t.numBlocks → t.metadata.fileLen ≤ reply.dataRange.stop →
      reply.dataRange.stop = t.metadata.fileLen ∨ t.numBlocks * zftpBlockSize ≤ reply.dataRange.stop) :
    loadedData t c reply blk = blockAfter t c reply blk := by
  have hend := endsFile_iff reply (h.lt blk hin)
  obtain ⟨h1, h2, h3, -⟩ := hin.piece
  obtain ⟨hv, hgap⟩ := h.gap blk hin
  obtain ⟨hdata, -⟩ := (hc.view (t.leaf blk).hash).1.gap hv
  rw [loadedData_eq hin, blockAfter]
  by_cases hl : blk + 1 = t.numBlocks ∧ t.metadata.fileLen ≤ reply.dataRange.stop
  · simp only [if_pos hl]
    by_cases he : endsFile t reply blk
    · rw [if_pos he]
    · rw [if_neg he]
      have hne : pieceStop reply blk ≠ t.metadata.fileLen := fun hf => he (hend.mpr ⟨hl.1, hf⟩)
      have hcase := hends hl.1 hl.2
      obtain ⟨hstop, hmul⟩ := pieceStop_last reply hl.1
      rw [zeroPadded_of_full]
      rw [length_append, length_pieceBytes, hdata, hgap]
      clear hl hends hend he
      omega
  · simp only [if_neg hl]
    rw [if_neg]
    intro he
    obtain ⟨hblk, hstop⟩ := hend.mp he
    exact hl ⟨hblk, hstop ▸ min_le_right _ _⟩

lemma loads_of_takes (h : Awaited t c reply) (hc : c.Sound zhash) (hin : InRange reply blk)
    (ht : TakesBlock zhash t c reply blk) : Loads zhash t c reply blk := by
  refine ⟨ht.reaches, ?_⟩
  rw [h.loadedData_eq_blockAfter hc hin ht.ends]
  exact ht.hash

lemma takes_of_loads (h : Awaited t c reply) (hc : c.Sound zhash) (hin : InRange reply blk)
    (hl : Loads zhash t c reply blk)
    (hpre : blockAfter t c reply blk <+: loadedData t c reply blk) : TakesBlock zhash t c reply blk := by
  have hends : blk + 1 = t.numBlocks → t.metadata.fileLen ≤ reply.dataRange.stop →
      reply.dataRange.stop = t.metadata.fileLen ∨ t.numBlocks * zftpBlockSize ≤ reply.dataRange.stop := by
    intro hblk hstop
    obtain ⟨h1, h2, h3, -⟩ := hin.piece
    obtain ⟨hv, hgap⟩ := h.gap blk hin
    obtain ⟨hdata, -⟩ := (hc.view (t.leaf blk).hash).1.gap hv
    have hlen := hpre.length_le
    have hlast := hin.last
    rw [h.length_loadedData hc hin, blockAfter, if_pos ⟨hblk, hstop⟩, length_zeroPadded] at hlen
    · obtain ⟨hstop', hmul⟩ := pieceStop_last reply hblk
      clear hblk
      split at hlen
      case isTrue he =>
        obtain ⟨-, hfile⟩ := (endsFile_iff reply (h.lt blk hin)).mp he
        omega
      case isFalse => omega
    · rw [length_append, length_pieceBytes, hdata, hgap]
      omega
  refine ⟨hl.reaches, hends, ?_⟩
  rw [← h.loadedData_eq_blockAfter hc hin hends]
  exact hl.hash

end Awaited

lemma FirstOfHash.unique {blk' : ℕ} (h : FirstOfHash t reply blk) (h' : FirstOfHash t reply blk')
    (hin : InRange reply blk) (hin' : InRange reply blk')
    (hsame : (t.leaf blk').hash = (t.leaf blk).hash) : blk' = blk := by
  rcases lt_trichotomy blk' blk with hlt | heq | hgt
  · exact absurd hsame (h blk' hin' hlt)
  · exact heq
  · exact absurd hsame.symm (h' blk hin hgt)

lemma repeats_first (hcond : ∀ blk, InRange reply blk → (FirstOfHash t reply blk ∧ TakesBlock zhash t c reply blk)
    ∨ Repeats t c reply blk)
    {first : ℕ} (hin1 : InRange reply first) (hfirst : FirstOfHash t reply first) :
    ∀ blk, InRange reply blk → (t.leaf first).hash = (t.leaf blk).hash →
      blockAfter t c reply blk <+: blockAfter t c reply first := by
  intro blk
  induction blk using Nat.strong_induction_on with
  | h blk ih =>
    intro hin hsame
    rcases hcond blk hin with ⟨hf, -⟩ | ⟨blk', hin', hlt, heq, hpre⟩
    · exact hf.unique hfirst hin hin1 hsame ▸ prefix_rfl
    · exact hpre.trans (ih blk' hlt hin' (hsame.trans heq.symm))

/-- INSTALL: a truncated reply fills every block of its range, reads nothing behind its payload and
    leaves every other byte, exactly when the payload reaches the part of every block whose hash comes
    first, and a later block with the same hash repeats the earlier one. -/
theorem installData_installed_iff (hc : c.Sound zhash) (hwait : Awaited t c reply) :
    (∃ c' new, installData zhash t reply c = .ok (c', new) ∧ Installed t c reply c') ↔ ∀ blk, InRange reply blk →
        (FirstOfHash t reply blk ∧ TakesBlock zhash t c reply blk) ∨ Repeats t c reply blk := by
  by_cases hne : reply.dataRange.start < reply.dataRange.stop
  case neg =>
    have hnone : ∀ blk, ¬InRange reply blk := fun blk hin => hne hin.nonempty
    constructor
    · exact fun _ blk hin => absurd hin (hnone blk)
    · intro _
      refine ⟨c, false, ?_, fun blk hin => absurd hin (hnone blk), fun _ => .inl rfl⟩
      rw [installData, installDataLoop, if_neg hne, pure_eq_ok]
  case pos =>
    have hstart := installData_eq_loop zhash t c hne
    have hinit := Loading.start t reply hc
    constructor
    · rintro ⟨c', new, hok, hinst⟩
      rw [hstart] at hok
      obtain ⟨hloads, stop, hpast, hend⟩ := installDataLoop_loading hc hwait hne _ _ _ _ _ hinit le_rfl hok
      have hdata := hend.loaded_data hpast
      have htakes : ∀ first, InRange reply first → FirstOfHash t reply first → TakesBlock zhash t c reply first := by
        intro first hin hf
        refine hwait.takes_of_loads hc hin (hloads first hin hin.first hf) ?_
        rw [← hdata first hin hf]
        exact hinst.each first hin
      intro blk hin
      by_cases hf : FirstOfHash t reply blk
      · exact .inl ⟨hf, htakes blk hin hf⟩
      · obtain ⟨first, hle, hin₁, hfirst, hsame⟩ := hin.exists_first t
        have hlt : first < blk := lt_of_le_of_ne hle (by rintro rfl; exact hf hfirst)
        refine .inr ⟨first, hin₁, hlt, hsame, ?_⟩
        rw [← hwait.loadedData_eq_blockAfter hc hin₁ (htakes first hin₁ hfirst).ends, ← hdata first hin₁ hfirst, hsame]
        exact hinst.each blk hin
    · intro hcond
      have htakes : ∀ first, InRange reply first → FirstOfHash t reply first → TakesBlock zhash t c reply first := by
        intro first hin hf
        rcases hcond first hin with ⟨-, ht⟩ | ⟨blk', hin', hlt, hsame, -⟩
        · exact ht
        · exact absurd hsame (hf blk' hin' hlt)
      have hnum := t.numBlocks_lt
      obtain ⟨c', new, hok⟩ := installDataLoop_loads hc hwait hne
        (fun first hin hf => hwait.loads_of_takes hc hin (htakes first hin hf)) zftpBlockSize _ _ hinit
        le_rfl (by simp only [zftpBlockSize]; omega)
      obtain ⟨-, stop, hpast, hend⟩ := installDataLoop_loading hc hwait hne _ _ _ _ _ hinit le_rfl hok
      have hdata : ∀ first, InRange reply first → FirstOfHash t reply first →
          (c'.view (t.leaf first).hash).data = blockAfter t c reply first := by
        intro first hin hf
        rw [hend.loaded_data hpast first hin hf, hwait.loadedData_eq_blockAfter hc hin (htakes first hin hf).ends]
      refine ⟨c', new, hstart.trans hok, ?_, ?_⟩
      · intro blk hin
        obtain ⟨first, -, hin₁, hfirst, hsame⟩ := hin.exists_first t
        rw [← hsame, hdata first hin₁ hfirst]
        exact repeats_first hcond hin₁ hfirst blk hin hsame
      · intro h
        by_cases hseen : ∃ blk, InRange reply blk ∧ (t.leaf blk).hash = h
        · obtain ⟨blk, hin, rfl⟩ := hseen
          obtain ⟨first, -, hin₁, hfirst, hsame⟩ := hin.exists_first t
          exact .inr ⟨first, hin₁, hsame, by rw [← hsame, hdata first hin₁ hfirst]⟩
        · exact .inl (hend.fresh h (fun blk hin _ hh => hseen ⟨blk, hin, hh⟩))

/-! ### A file of two blocks -/

lemma twoBlocks_lt : 131072 < 2 ^ 32 := by norm_num

/-- A file of two whole blocks with different, tentative hashes. -/
def twoBlockFile : MerkleTree where
  metadata := ⟨131072, 0, twoBlocks_lt, noFlags_lt⟩
  node l := ⟨if l = 1 then Hash.zero else ⟨List.replicate hashSize 1, length_replicate⟩, .tentative⟩
  parents := []

lemma leaf_twoBlockFile (blk : ℕ) : twoBlockFile.leaf blk = twoBlockFile.node (1 + blk) := by
  have hdepth : 2 ^ twoBlockFile.treeDepth - 1 = 1 := by decide
  rw [MerkleTree.leaf, MerkleTree.leafLoc, hdepth]

/-- The reply with the given data, for a request that asked for `[0, stop)`. -/
def replyFromStart (payload : Bytes) (stop : ℕ) : ZFileReplyFromServer where
  fileHash := Hash.zero
  metadata := twoBlockFile.metadata
  merkleRecords := []
  payload := payload
  dataRange := ⟨0, stop⟩

lemma awaited_replyFromStart {payload : Bytes} {stop : ℕ} (hstop : stop ≤ 131072) (hlen : payload.length ≤ stop) :
    Awaited twoBlockFile (.fresh none) (replyFromStart payload stop) where
  lt blk hin := by
    have hlast : blk * 65536 < stop := hin.last
    have hnum : twoBlockFile.numBlocks = 2 := by decide
    omega
  known _ _ := by
    rw [leaf_twoBlockFile]
    exact noConfusion
  supply _ _ := .inl rfl
  gap blk _ := by
    refine ⟨rfl, ?_⟩
    simp [pieceStart, replyFromStart, view, peek, fresh,
      retrieveBlock, placeholder]
  payload_le := hlen

/-- Three bytes for a range of ten. -/
theorem installData_installed_three :
    ∃ c' new, installData (fun _ => Hash.zero) twoBlockFile (replyFromStart [1, 2, 3] 10) (.fresh none) =
      .ok (c', new) ∧ Installed twoBlockFile (.fresh none) (replyFromStart [1, 2, 3] 10) c' := by
  refine (installData_installed_iff .fresh_none
    (awaited_replyFromStart (by norm_num) (by decide))).mpr ?_
  intro blk hin
  have hlast : blk * 65536 < 10 := hin.last
  obtain rfl : blk = 0 := by omega
  refine .inl ⟨fun blk' _ hlt => absurd hlt (Nat.not_lt_zero _), by decide, ?_, ?_⟩
  · intro hblk
    exact absurd hblk (by decide)
  · intro hlen
    exact absurd hlen (by decide)

/-- A reply that leaves a whole second block of zeros out is read behind its end. -/
theorem not_installData_installed :
    ¬∀ (zhash : Bytes → Hash) (t : MerkleTree) (c : ZBlockCache) (reply : ZFileReplyFromServer),
      c.Sound zhash → Awaited t c reply →
      ∃ c' new, installData zhash t reply c = .ok (c', new) ∧ Installed t c reply c' := by
  intro hall
  have hsound : (ZBlockCache.fresh none).Sound (fun _ => Hash.zero) := .fresh_none
  have hwait : Awaited twoBlockFile (.fresh none) (replyFromStart [] 131072) :=
    awaited_replyFromStart (by norm_num) (by decide)
  obtain ⟨c', new, hok, -⟩ := hall _ _ _ _ hsound hwait
  have hin : InRange (replyFromStart [] 131072) 1 := ⟨by decide, by decide, by decide⟩
  have hfirst : FirstOfHash twoBlockFile (replyFromStart [] 131072) 1 := by
    intro blk' _ hlt
    obtain rfl : blk' = 0 := by omega
    rw [leaf_twoBlockFile, leaf_twoBlockFile]
    decide
  rw [installData_eq_loop _ _ _ hin.nonempty] at hok
  obtain ⟨hloads, -⟩ := installDataLoop_loading hsound hwait hin.nonempty _ _ _ _ _
    (Loading.start _ _ hsound) le_rfl hok
  exact absurd (hloads 1 hin hin.first hfirst).reaches (by decide)

end Reply

end Embassies.Zftp
