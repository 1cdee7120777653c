import Embassies.Zftp.FileResult
import Embassies.Zftp.MissingSet

/-! What `fill_reply` writes.

    `ZCachedFile::read` cuts a range of the file at block boundaries. `readOut` is what it leaves in a
    buffer, piece by piece: the bytes of the block, or, where the slot of a whole block already carries
    the block's hash, what was there before. -/

namespace Embassies.Zftp

open Checked List Nat

/-! ### Writes -/

namespace ValidatedZCB

variable {v v' : ValidatedZCB} {off : ℕ} {x : Bytes}
variable {len : ℕ}

/-- INVERSION of a write. -/
lemma write_eq_ok : v.write off x = .ok v' ↔ (x = [] ∨ off + x.length ≤ v.data.length) ∧
      v' = { v with data := splice v.data off (x.map some) } := by
  rw [write]
  cases x with
  | nil =>
    simp only [isEmpty_nil, if_true, true_or, true_and, map_nil, splice_nil]
    exact ⟨fun h => (Except.ok.inj h).symm, fun h => h ▸ rfl⟩
  | cons b x =>
    simp only [isEmpty_cons, Bool.false_eq_true, if_false, cons_ne_nil, false_or]
    split
    case isTrue hfit => exact ⟨fun h => ⟨hfit, (Except.ok.inj h).symm⟩, fun h => h.2 ▸ rfl⟩
    case isFalse hfit => exact iff_of_false nofun (fun h => hfit h.1)

lemma write_of_fits (v : ValidatedZCB) (h : off + x.length ≤ v.data.length) :
    v.write off x = .ok { v with data := splice v.data off (x.map some) } := write_eq_ok.mpr ⟨.inr h, rfl⟩

lemma blockRead_of_valid {zhash : Bytes → Hash} {r : ZBlockCacheRecord} (hv : r.valid = true)
    (hfit : off + len ≤ zftpBlockSize) (hs : r.Sound zhash) : blockRead r off len = .ok ((r.data.drop off).take len) ∧
      ((r.data.drop off).take len).length = len := by
  refine ⟨?_, ?_⟩
  · simp only [blockRead, liteAssert_pos hv, liteAssert_pos hfit, ok_bind, pure_eq_ok]
  · rw [length_take, length_drop, hs.length hv]
    omega

lemma length_hashes_fresh (h : len < 2 ^ 32) : (fresh len).hashes.length = len / zftpBlockSize := by
  simp only [fresh, length_replicate, sub32, u32, zftpBlockSize]
  omega

lemma length_data_fresh (len : ℕ) : (fresh len).data.length = len := length_replicate

lemma eq_zero_of_mem_fresh {h : Hash} (hmem : h ∈ (fresh len).hashes) : h = Hash.zero := by
  simp only [fresh] at hmem
  exact eq_of_mem_replicate hmem

end ValidatedZCB

/-! ### The pieces of a range -/

/-- The length of the piece of a range that starts at `a`: up to the end of the block or the range. -/
def pieceLen (a stop : ℕ) : ℕ := min (stop - a) (zftpBlockSize - a % zftpBlockSize)

/-- The file has the range: each of its bytes lies in a block of the tree whose leaf is validated and
    whose record is valid. -/
structure Serves (zhash : Bytes → Hash) (t : MerkleTree) (c : ZBlockCache) (range : DataRange) :
    Prop where
  sound : c.Sound zhash
  blocks : ∀ i, range.start ≤ i → i < range.stop →
    i / zftpBlockSize < t.numBlocks ∧ (t.leaf (i / zftpBlockSize)).state = .validated ∧
      (c.view (t.leaf (i / zftpBlockSize)).hash).valid = true

/-- What the piece at `a` leaves in the buffer at `p`. -/
def pieceOut (v : ValidatedZCB) (r : ZBlockCacheRecord) (p a n : ℕ) : List (Option UInt8) :=
  if n = zftpBlockSize ∧ v.hashes[p / zftpBlockSize]? = some r.hash then (v.data.drop p).take n
  else ((r.data.drop (a % zftpBlockSize)).take n).map some

/-- What `read` leaves in the buffer from `p` on, for the file's bytes from `a` to `stop`. -/
def readOut (t : MerkleTree) (view : Hash → ZBlockCacheRecord) (v : ValidatedZCB) (stop : ℕ) :
    ℕ → ℕ → ℕ → List (Option UInt8)
  | 0, _, _ => []
  | fuel + 1, p, a =>
    if a < stop then
      pieceOut v (view (t.leaf (a / zftpBlockSize)).hash) p a (pieceLen a stop)
        ++ readOut t view v stop fuel (p + pieceLen a stop) (a + pieceLen a stop)
    else []

/-- Whole blocks are copied only where the range starts at a block. -/
def DataRange.Aligned (r : DataRange) : Prop :=
  ∀ k, r.start ≤ k * zftpBlockSize → (k + 1) * zftpBlockSize ≤ r.stop → r.start % zftpBlockSize = 0

section Read

variable {zhash : Bytes → Hash} {t : MerkleTree} {c : ZBlockCache} {v : ValidatedZCB}
  {range : DataRange} {a : ℕ}
variable {bufOffset : ℕ} {r : ZBlockCacheRecord} {v' : ValidatedZCB} {p : ℕ} (fuel : ℕ) {stop n : ℕ}
  {view : Hash → ZBlockCacheRecord}

lemma Serves.congr {c' : ZBlockCache} (h : Serves zhash t c range) (hs : c'.Sound zhash)
    (hview : ∀ k, c'.view k = c.view k) : Serves zhash t c' range := by
  refine ⟨hs, ?_⟩
  intro i hlo hhi
  rw [hview]
  exact h.blocks i hlo hhi

lemma Serves.lookup (h : Serves zhash t c range) (hlo : range.start ≤ a) (hhi : a < range.stop) :
    ∃ c', lookupValidated t c (a / zftpBlockSize) = .ok (c', some (c.view (t.leaf (a / zftpBlockSize)).hash)) ∧
      c'.Sound zhash ∧ ∀ k, c'.view k = c.view k := by
  obtain ⟨hblk, hstate, hvalid⟩ := h.blocks a hlo hhi
  have hrank : ¬(t.leaf (a / zftpBlockSize)).state.rank < ValidityState.validated.rank := by
    rw [hstate]
    exact lt_irrefl _
  have hsupply : c.CanSupply (t.leaf (a / zftpBlockSize)).hash := by
    right
    rcases hp : c.peek (t.leaf (a / zftpBlockSize)).hash with _ | r
    · rw [ZBlockCache.view, hp] at hvalid
      cases hvalid
    · rfl
  obtain ⟨c', r, hl⟩ := lookupValidated_total h.sound hblk (fun _ => hsupply)
  obtain ⟨hr, hview, -⟩ := lookupValidated_view h.sound hblk hl
  rw [seenBlock, if_neg hrank] at hr
  exact ⟨c', hr ▸ hl, (lookupValidated_sound h.sound hl).1, hview⟩

lemma piece_words (hlo : range.start ≤ a) (hhi : a < range.stop) (hcut : a = range.start ∨ a % zftpBlockSize = 0)
    (hstop : range.stop < 2 ^ 32) :
    u32 (a / zftpBlockSize * zftpBlockSize) = a / zftpBlockSize * zftpBlockSize ∧
    (if range.start > a / zftpBlockSize * zftpBlockSize
      then range.start - a / zftpBlockSize * zftpBlockSize else 0) = a % zftpBlockSize ∧
    sub32 range.stop (a / zftpBlockSize * zftpBlockSize) = range.stop - a / zftpBlockSize * zftpBlockSize ∧
    min (sub32 (range.stop - a / zftpBlockSize * zftpBlockSize) (a % zftpBlockSize))
      (sub32 zftpBlockSize (a % zftpBlockSize)) = pieceLen a range.stop := by
  have hmod := div_add_mod' a zftpBlockSize
  have hmodlt : a % zftpBlockSize < zftpBlockSize := mod_lt _ zftpBlockSize_pos
  refine ⟨u32_of_lt (by omega), ?_, sub32_of_le hstop (by omega), ?_⟩
  · split <;> omega
  · rw [sub32_of_le (by omega) (by omega), sub32_of_le (by norm_num [zftpBlockSize]) hmodlt.le, pieceLen]
    congr 1
    omega

/-- `read` from `a` on, at the block `blk`. -/
def readFrom (t : MerkleTree) (range : DataRange) (bufOffset fuel blk a : ℕ) (c : ZBlockCache) (v : ValidatedZCB) :
    Checked (ZBlockCache × ValidatedZCB) :=
  readLoop t bufOffset range.start (range.stop - range.start) (fuel + 1) blk (a - range.start) a c v

/-- The piece that is read at `a`. -/
def readPiece (t : MerkleTree) (view : Hash → ZBlockCacheRecord) (range : DataRange) (bufOffset a : ℕ)
    (v : ValidatedZCB) : Checked ValidatedZCB :=
  v.read (view (t.leaf (a / zftpBlockSize)).hash) (bufOffset + (a - range.start)) (a % zftpBlockSize)
    (pieceLen a range.stop)

/-- The state of `read` at `a`: a piece starts there, and the rest of the range fits the buffer. -/
structure ReadHead (v : ValidatedZCB) (range : DataRange) (bufOffset fuel a : ℕ) : Prop where
  lo : range.start ≤ a
  hi : a ≤ range.stop
  cut : a < range.stop → a = range.start ∨ a % zftpBlockSize = 0
  stop_lt : range.stop < 2 ^ 32
  fits : bufOffset + (range.stop - range.start) ≤ v.data.length
  length_lt : v.data.length < 2 ^ 32
  slots : v.hashes.length = v.data.length / zftpBlockSize
  debugOffset : v.debugOffset = bufOffset
  fuel : a < range.stop → range.stop ≤ (a / zftpBlockSize + fuel) * zftpBlockSize

/-- ITERATION of `read`: at `a` it copies the piece that starts there. -/
lemma readFrom_step {fuel : ℕ} (hserves : Serves zhash t c range) (h : ReadHead v range bufOffset (fuel + 1) a)
    (hmore : a < range.stop) : ∃ c', Serves zhash t c' range ∧ (∀ k, c'.view k = c.view k) ∧
      readFrom t range bufOffset (fuel + 1) (a / zftpBlockSize) a c v = (readPiece t c.view range bufOffset a v >>= fun v =>
        readFrom t range bufOffset fuel (a / zftpBlockSize + 1) (a + pieceLen a range.stop) c' v) := by
  have hlo := h.lo
  have hstop := h.stop_lt
  have hfits := h.fits
  have hlt := h.length_lt
  obtain ⟨c', hl, hs', hview⟩ := hserves.lookup hlo hmore
  obtain ⟨-, -, hvalid⟩ := hserves.blocks a hlo hmore
  refine ⟨c', hserves.congr hs' hview, hview, ?_⟩
  have hpiece : pieceLen a range.stop ≤ range.stop - a := min_le_left _ _
  have hpos : u32 (a - range.start + bufOffset) = bufOffset + (a - range.start) := by
    rw [u32_of_lt (by omega), Nat.add_comm]
  have hnext : u32 (a - range.start + pieceLen a range.stop) = a + pieceLen a range.stop - range.start := by
    rw [u32_of_lt (by omega)]
    omega
  have hat : u32 a = a := u32_of_lt (by omega)
  have hdone : u32 (a + pieceLen a range.stop) = a + pieceLen a range.stop := u32_of_lt (by omega)
  have hin : a - range.start < range.stop - range.start := by omega
  have hsum : u32 (range.start + (range.stop - range.start)) = range.stop := by
    rw [Nat.add_sub_cancel' (by omega), u32_of_lt hstop]
  have hmod := Nat.div_add_mod' a zftpBlockSize
  obtain ⟨hstart, hoff, hend, hlen⟩ := piece_words hlo hmore (h.cut hmore) hstop
  rw [readFrom, readLoop]
  refine (if_pos hin).trans ?_
  simp only [hl, liteAssert_pos hvalid, ok_bind, hstart, hoff, hsum, hend, hlen, hpos, hmod, hat,
    hnext, hdone, liteAssert_pos, readFrom, readPiece]

/-! ### What a piece does to the buffer -/

lemma pieceLen_bounds (hhi : a < range.stop) : 0 < pieceLen a range.stop ∧ a + pieceLen a range.stop ≤ range.stop ∧
      a % zftpBlockSize + pieceLen a range.stop ≤ zftpBlockSize := by
  have hmodlt : a % zftpBlockSize < zftpBlockSize := mod_lt _ zftpBlockSize_pos
  simp only [pieceLen]
  omega

lemma pieceLen_cut (hmore : a + pieceLen a range.stop < range.stop) : (a + pieceLen a range.stop) % zftpBlockSize = 0 ∧
      (a + pieceLen a range.stop) / zftpBlockSize = a / zftpBlockSize + 1 := by
  have hend : a + pieceLen a range.stop = (a / zftpBlockSize + 1) * zftpBlockSize := by
    have hmod := div_add_mod' a zftpBlockSize
    have hmodlt : a % zftpBlockSize < zftpBlockSize := mod_lt _ zftpBlockSize_pos
    rw [succ_mul]
    simp only [pieceLen] at hmore ⊢
    omega
  rw [hend]
  exact ⟨mul_mod_left _ _, mul_div_left _ zftpBlockSize_pos⟩

lemma readOut_succ (view : Hash → ZBlockCacheRecord) (fuel p : ℕ) (h : a < stop) :
    readOut t view v stop (fuel + 1) p a = pieceOut v (view (t.leaf (a / zftpBlockSize)).hash) p a (pieceLen a stop)
        ++ readOut t view v stop fuel (p + pieceLen a stop) (a + pieceLen a stop) := if_pos h

lemma readOut_done (view : Hash → ZBlockCacheRecord) (fuel p : ℕ) (h : ¬a < stop) :
    readOut t view v stop fuel p a = [] := by
  cases fuel with
  | zero => rfl
  | succ fuel => exact if_neg h

/-- The buffer after a piece: the piece is in it, and a whole block has its hash in the slot. -/
structure PieceRead (v v' : ValidatedZCB) (r : ZBlockCacheRecord) (p a n : ℕ) : Prop where
  data : v'.data = splice v.data p (pieceOut v r p a n)
  slots : v'.hashes.length = v.hashes.length
  other : ∀ i, (n = zftpBlockSize → i ≠ p / zftpBlockSize) → v'.hashes[i]? = v.hashes[i]?
  own : n = zftpBlockSize → v'.hashes[p / zftpBlockSize]? = some r.hash
  debugOffset : v'.debugOffset = v.debugOffset

lemma length_pieceOut (hs : r.Sound zhash) (hv : r.valid = true) (hfit : a % zftpBlockSize + n ≤ zftpBlockSize)
    (hbuf : p + n ≤ v.data.length) : (pieceOut v r p a n).length = n := by
  rw [pieceOut]
  split
  · rw [length_take, length_drop]
    omega
  · rw [length_map, length_take, length_drop, hs.length hv]
    omega

/-- READ: a piece that fits is copied, or found in its slot; a whole block needs an aligned place. -/
lemma read_total (hs : r.Sound zhash) (hv : r.valid = true) (hfit : a % zftpBlockSize + n ≤ zftpBlockSize)
    (hbuf : p + n ≤ v.data.length) (hslots : v.hashes.length = v.data.length / zftpBlockSize)
    (halign : n = zftpBlockSize → sub32 p v.debugOffset % zftpBlockSize = 0) :
    ∃ v', v.read r p (a % zftpBlockSize) n = .ok v' ∧ PieceRead v v' r p a n := by
  obtain ⟨hread, hlen⟩ := ValidatedZCB.blockRead_of_valid hv hfit hs
  have hwrite := v.write_of_fits (show p + ((r.data.drop (a % zftpBlockSize)).take n).length ≤
    v.data.length by rw [hlen]; exact hbuf)
  by_cases hfull : n = zftpBlockSize
  · have hzero : a % zftpBlockSize = 0 := by omega
    have hslot : p / zftpBlockSize < v.hashes.length := by
      rw [hslots, lt_iff_add_one_le, le_div_iff_mul_le zftpBlockSize_pos]
      have := div_mul_le_self p zftpBlockSize
      rw [succ_mul]
      omega
    have hget : v.hashes[p / zftpBlockSize]? = some (v.hashes[p / zftpBlockSize]) := List.getElem?_eq_getElem hslot
    by_cases hhit : r.hash = v.hashes[p / zftpBlockSize]
    · have hread' : v.read r p (a % zftpBlockSize) n = .ok v := by
        rw [ValidatedZCB.read, if_pos hfull]
        simp only [liteAssert_pos hzero, liteAssert_pos (halign hfull), ok_bind, hget, if_pos hhit, pure_eq_ok]
      refine ⟨v, hread', ?_, rfl, fun _ _ => rfl, ?_, rfl⟩
      · rw [pieceOut, if_pos ⟨hfull, by rw [hget, hhit]⟩, splice_self]
      · intro _
        rw [hget, hhit]
    · have hread' : v.read r p (a % zftpBlockSize) n = .ok { v with
          data := splice v.data p (((r.data.drop (a % zftpBlockSize)).take n).map some)
          hashes := v.hashes.set (p / zftpBlockSize) r.hash } := by
        rw [ValidatedZCB.read, if_pos hfull]
        simp only [liteAssert_pos hzero, liteAssert_pos (halign hfull), ok_bind, hget,
          if_neg hhit, hread, hwrite, pure_eq_ok]
      refine ⟨_, hread', ?_, length_set, ?_, ?_, rfl⟩
      · have hmiss : ¬(n = zftpBlockSize ∧ v.hashes[p / zftpBlockSize]? = some r.hash) := by
          rintro ⟨-, heq⟩
          rw [hget] at heq
          exact hhit (Option.some.inj heq).symm
        rw [pieceOut, if_neg hmiss]
      · intro i hi
        exact List.getElem?_set_ne (hi hfull).symm
      · intro _
        exact List.getElem?_set_self hslot
  · have hread' : v.read r p (a % zftpBlockSize) n = .ok { v with
        data := splice v.data p (((r.data.drop (a % zftpBlockSize)).take n).map some) } := by
      rw [ValidatedZCB.read, if_neg hfull, hread, ok_bind, hwrite]
    refine ⟨_, hread', ?_, rfl, fun _ _ => rfl, fun heq => absurd heq hfull, rfl⟩
    rw [pieceOut, if_neg (fun h => hfull h.1)]

/-- INVERSION of a read that fits: the piece is in the buffer. -/
lemma PieceRead.of_ok (hs : r.Sound zhash) (hv : r.valid = true) (hfit : a % zftpBlockSize + n ≤ zftpBlockSize)
    (hbuf : p + n ≤ v.data.length) (hslots : v.hashes.length = v.data.length / zftpBlockSize)
    (h : v.read r p (a % zftpBlockSize) n = .ok v') :
    PieceRead v v' r p a n ∧ (n = zftpBlockSize → sub32 p v.debugOffset % zftpBlockSize = 0) := by
  have halign : n = zftpBlockSize → sub32 p v.debugOffset % zftpBlockSize = 0 := by
    intro hfull
    have hread := h
    rw [ValidatedZCB.read, if_pos hfull] at hread
    obtain ⟨_, -, hread⟩ := of_bind hread
    obtain ⟨_, halign, -⟩ := of_bind hread
    exact (liteAssert_eq_ok _ _).mp halign
  obtain ⟨v'', hread, hpiece⟩ := read_total hs hv hfit hbuf hslots halign
  cases h.symm.trans hread
  exact ⟨hpiece, halign⟩

/-! ### The loop -/

lemma readOut_congr : ∀ {p a : ℕ}, v'.data.drop p = v.data.drop p →
      (∀ i, p / zftpBlockSize ≤ i → v'.hashes[i]? = v.hashes[i]?) →
      readOut t view v' stop fuel p a = readOut t view v stop fuel p a := by
  induction fuel with
  | zero => intro p a _ _; rfl
  | succ fuel ih =>
    intro p a hdata hhash
    by_cases hmore : a < stop
    · rw [readOut_succ view fuel p hmore, readOut_succ view fuel p hmore]
      congr 1
      · rw [pieceOut, pieceOut, hdata, hhash _ le_rfl]
      · apply ih
        · rw [← drop_drop, hdata, drop_drop]
        · intro i hi
          exact hhash i ((Nat.div_le_div_right (Nat.le_add_right _ _)).trans hi)
    · rw [readOut_done view _ p hmore, readOut_done view _ p hmore]

lemma length_readOut : ∀ {p a : ℕ}, Serves zhash t c range → range.start ≤ a →
    a ≤ range.stop → p + (range.stop - a) ≤ v.data.length → range.stop ≤ (a / zftpBlockSize + fuel) * zftpBlockSize →
    (readOut t c.view v range.stop fuel p a).length = range.stop - a := by
  induction fuel with
  | zero =>
    intro p a _ _ hle _ hfuel
    have := div_mul_le_self a zftpBlockSize
    rw [add_zero] at hfuel
    rw [readOut, length_nil]
    omega
  | succ fuel ih =>
    intro p a hserves hlo hle hbuf hfuel
    by_cases hmore : a < range.stop
    · obtain ⟨hpos, hend, hfit⟩ := pieceLen_bounds hmore
      have hrest : (readOut t c.view v range.stop fuel (p + pieceLen a range.stop)
          (a + pieceLen a range.stop)).length = range.stop - (a + pieceLen a range.stop) := by
        by_cases hlast : a + pieceLen a range.stop < range.stop
        · refine ih hserves (by omega) hend (by omega) ?_
          rw [(pieceLen_cut hlast).2, add_right_comm, add_assoc]
          exact hfuel
        · rw [readOut_done _ _ _ hlast, length_nil]
          omega
      obtain ⟨-, -, hvalid⟩ := hserves.blocks a hlo hmore
      rw [readOut_succ _ fuel p hmore, length_append, hrest,
        length_pieceOut (hserves.sound.view _).1 hvalid hfit (by omega)]
      omega
    · rw [readOut_done _ _ _ hmore, length_nil]
      omega

lemma ReadHead.next {fuel : ℕ} (h : ReadHead v range bufOffset (fuel + 1) a) (hmore : a < range.stop)
    (hlen : v'.data.length = v.data.length)
    (hread : PieceRead v v' r (bufOffset + (a - range.start)) a (pieceLen a range.stop)) :
    ReadHead v' range bufOffset fuel (a + pieceLen a range.stop) := by
  obtain ⟨hpos, hend, -⟩ := pieceLen_bounds hmore
  refine ⟨h.lo.trans (le_add_right _ _), hend, fun hm => .inr (pieceLen_cut hm).1, h.stop_lt,
    hlen ▸ h.fits, hlen ▸ h.length_lt, ?_, hread.debugOffset.trans h.debugOffset, ?_⟩
  · rw [hread.slots, hlen]
    exact h.slots
  · intro hm
    rw [(pieceLen_cut hm).2, add_right_comm, add_assoc]
    exact h.fuel hmore

lemma ReadHead.aligned {fuel : ℕ} (h : ReadHead v range bufOffset fuel a) (halign : range.Aligned)
    (hmore : a < range.stop) (hfull : pieceLen a range.stop = zftpBlockSize) :
    sub32 (bufOffset + (a - range.start)) v.debugOffset % zftpBlockSize = 0 := by
  obtain ⟨-, hend, hfit⟩ := pieceLen_bounds hmore
  have hlo := h.lo
  have hfits := h.fits
  have hlt := h.length_lt
  have hzero : a % zftpBlockSize = 0 := by omega
  have hmul : a / zftpBlockSize * zftpBlockSize = a := Nat.div_mul_cancel (Nat.dvd_of_mod_eq_zero hzero)
  have hstart := halign (a / zftpBlockSize) (by rw [hmul]; exact hlo) (by rw [Nat.succ_mul, hmul]; omega)
  rw [h.debugOffset, sub32_of_le (by omega) (Nat.le_add_right _ _), Nat.add_sub_cancel_left]
  exact Nat.sub_mod_eq_zero_of_mod_eq (hzero.trans hstart.symm)

/-- A whole block of the range is read into the slot `i`, and `h` is its hash. -/
def SlotOf (t : MerkleTree) (range : DataRange) (bufOffset i : ℕ) (h : Hash) : Prop :=
  ∃ k, range.start ≤ k * zftpBlockSize ∧ (k + 1) * zftpBlockSize ≤ range.stop ∧
    i = (bufOffset + (k * zftpBlockSize - range.start)) / zftpBlockSize ∧ h = (t.leaf k).hash

/-- What `read` did from `a` on: the bytes are in the buffer, and every slot is as it was or names the
    whole block that was read into it. -/
structure ReadDone (t : MerkleTree) (view : Hash → ZBlockCacheRecord) (v v' : ValidatedZCB)
    (range : DataRange) (bufOffset fuel a : ℕ) : Prop where
  data : v'.data = splice v.data (bufOffset + (a - range.start))
    (readOut t view v range.stop fuel (bufOffset + (a - range.start)) a)
  slots : ∀ i h, v'.hashes[i]? = some h → v.hashes[i]? = some h ∨ SlotOf t range bufOffset i h
  length_hashes : v'.hashes.length = v.hashes.length

lemma ReadHead.done (h : ReadHead v range bufOffset 0 a) : ¬a < range.stop := by
  intro hmore
  have hfuel := h.fuel hmore
  have := div_mul_le_self a zftpBlockSize
  rw [add_zero] at hfuel
  omega

lemma readFrom_done {fuel : ℕ} (h : ReadHead v range bufOffset fuel a) (hdone : ¬a < range.stop) (blk : ℕ) :
    readFrom t range bufOffset fuel blk a c v = .ok (c, v) := by
  have hlo := h.lo
  have hhi := h.hi
  have hend : a = u32 (range.start + (range.stop - range.start)) := by
    rw [Nat.add_sub_cancel' (hlo.trans hhi), u32_of_lt h.stop_lt]
    omega
  have hno : ¬a - range.start < range.stop - range.start := by omega
  rw [readFrom, readLoop]
  refine (if_neg hno).trans ?_
  rw [liteAssert_pos hend, ok_bind, pure_eq_ok]

/-- PIECE: it is read if it is in place, and leaves the rest to be read. -/
lemma ReadHead.piece {fuel : ℕ} (hserves : Serves zhash t c range) (h : ReadHead v range bufOffset (fuel + 1) a)
    (hmore : a < range.stop) :
    (pieceOut v (c.view (t.leaf (a / zftpBlockSize)).hash) (bufOffset + (a - range.start)) a
      (pieceLen a range.stop)).length = pieceLen a range.stop ∧
    ((pieceLen a range.stop = zftpBlockSize → sub32 (bufOffset + (a - range.start)) v.debugOffset % zftpBlockSize = 0) →
      ∃ v', readPiece t c.view range bufOffset a v = .ok v') ∧
    ∀ v', readPiece t c.view range bufOffset a v = .ok v' →
      PieceRead v v' (c.view (t.leaf (a / zftpBlockSize)).hash) (bufOffset + (a - range.start)) a
        (pieceLen a range.stop) ∧ ReadHead v' range bufOffset fuel (a + pieceLen a range.stop) ∧
      (pieceLen a range.stop = zftpBlockSize → sub32 (bufOffset + (a - range.start)) v.debugOffset % zftpBlockSize = 0) := by
  obtain ⟨-, hend, hfit⟩ := pieceLen_bounds hmore
  have hlo := h.lo
  have hfits := h.fits
  obtain ⟨-, -, hvalid⟩ := hserves.blocks a hlo hmore
  obtain ⟨hsound, -⟩ := hserves.sound.view (t.leaf (a / zftpBlockSize)).hash
  have hbound : bufOffset + (a - range.start) + pieceLen a range.stop ≤ v.data.length := by omega
  have hlen := length_pieceOut (v := v) hsound hvalid hfit hbound
  refine ⟨hlen, fun halign => ?_, fun v' hread => ?_⟩
  · obtain ⟨v', hread, -⟩ := read_total hsound hvalid hfit hbound h.slots halign
    exact ⟨v', hread⟩
  · obtain ⟨hpiece, halign⟩ := PieceRead.of_ok hsound hvalid hfit hbound h.slots hread
    have hlen' : v'.data.length = v.data.length := by
      rw [hpiece.data, length_splice (by rw [hlen]; exact hbound)]
    exact ⟨hpiece, h.next hmore hlen' hpiece, halign⟩

/-- The slots after the first piece and the rest. -/
lemma ReadDone.cons {v1 : ValidatedZCB} {fuel : ℕ} (h : ReadHead v range bufOffset (fuel + 1) a)
    (hmore : a < range.stop)
    (hview : (view (t.leaf (a / zftpBlockSize)).hash).hash = (t.leaf (a / zftpBlockSize)).hash)
    (hlen : (pieceOut v (view (t.leaf (a / zftpBlockSize)).hash) (bufOffset + (a - range.start)) a
      (pieceLen a range.stop)).length = pieceLen a range.stop)
    (hread : PieceRead v v1 (view (t.leaf (a / zftpBlockSize)).hash) (bufOffset + (a - range.start)) a
      (pieceLen a range.stop)) (hrest : ReadDone t view v1 v' range bufOffset (fuel + 1) (a + pieceLen a range.stop)) :
    ReadDone t view v v' range bufOffset (fuel + 2) a := by
  obtain ⟨hpos, hend, hfit⟩ := pieceLen_bounds hmore
  have hlo := h.lo
  have hfits := h.fits
  have hp : bufOffset + (a + pieceLen a range.stop - range.start) =
      bufOffset + (a - range.start) + pieceLen a range.stop := by omega
  have hbound : bufOffset + (a - range.start) + pieceLen a range.stop ≤ v.data.length := by omega
  refine ⟨?_, ?_, hrest.length_hashes.trans hread.slots⟩
  · have hcongr : readOut t view v1 range.stop (fuel + 1)
        (bufOffset + (a - range.start) + pieceLen a range.stop) (a + pieceLen a range.stop) =
        readOut t view v range.stop (fuel + 1)
          (bufOffset + (a - range.start) + pieceLen a range.stop) (a + pieceLen a range.stop) := by
      apply readOut_congr
      · rw [hread.data, drop_splice (by rw [hlen]; exact hbound) (by rw [hlen])]
      · intro i hi
        refine hread.other i ?_
        intro hfull heq
        rw [hfull, Nat.add_div_right _ zftpBlockSize_pos] at hi
        omega
    have hsplice := splice_splice (readOut t view v range.stop (fuel + 1)
      (bufOffset + (a - range.start) + pieceLen a range.stop) (a + pieceLen a range.stop))
      (hlen.symm ▸ hbound)
    rw [hlen] at hsplice
    rw [hrest.data, hp, hcongr, hread.data, hsplice, readOut_succ view (fuel + 1) _ hmore]
  · intro i k hk
    rcases hrest.slots i k hk with hold | hnew
    · by_cases hown : pieceLen a range.stop = zftpBlockSize ∧ i = (bufOffset + (a - range.start)) / zftpBlockSize
      · obtain ⟨hfull, rfl⟩ := hown
        have hzero : a % zftpBlockSize = 0 := by omega
        have hmul : a / zftpBlockSize * zftpBlockSize = a := Nat.div_mul_cancel (Nat.dvd_of_mod_eq_zero hzero)
        rw [hread.own hfull] at hold
        refine .inr ⟨a / zftpBlockSize, by rw [hmul]; exact hlo, ?_, by rw [hmul], ?_⟩
        · rw [Nat.succ_mul, hmul]
          omega
        · rw [← hview]
          exact (Option.some.inj hold).symm
      · left
        rw [← hread.other i (fun hfull heq => hown ⟨hfull, heq⟩)]
        exact hold
    · exact .inr hnew

/-- LOOP: an aligned range that fits is read into the buffer. -/
lemma readFrom_total (halign : range.Aligned) (fuel : ℕ) :
    ∀ {a blk : ℕ} {c : ZBlockCache} {v : ValidatedZCB}, Serves zhash t c range →
      ReadHead v range bufOffset fuel a → (a < range.stop → blk = a / zftpBlockSize) →
      ∃ c' v', readFrom t range bufOffset fuel blk a c v = .ok (c', v') ∧ c'.Sound zhash ∧
        (∀ k, c'.view k = c.view k) ∧ ReadDone t c.view v v' range bufOffset (fuel + 1) a := by
  have hstay : ∀ {fuel a blk : ℕ} {c : ZBlockCache} {v : ValidatedZCB}, Serves zhash t c range →
      ReadHead v range bufOffset fuel a → ¬a < range.stop →
      ∃ c' v', readFrom t range bufOffset fuel blk a c v = .ok (c', v') ∧ c'.Sound zhash ∧
        (∀ k, c'.view k = c.view k) ∧ ReadDone t c.view v v' range bufOffset (fuel + 1) a := by
    intro fuel a blk c v hserves h hdone
    refine ⟨c, v, readFrom_done h hdone _, hserves.sound, fun _ => rfl, ?_, fun _ _ hk => .inl hk, rfl⟩
    rw [readOut_done _ _ _ hdone, splice_nil]
  induction fuel with
  | zero => exact fun hserves h _ => hstay hserves h h.done
  | succ fuel ih =>
    intro a blk c v hserves h hblk
    by_cases hmore : a < range.stop
    · obtain rfl := hblk hmore
      obtain ⟨c1, hserves1, hview1, hstep⟩ := readFrom_step hserves h hmore
      obtain ⟨hlen, hreads, hafter⟩ := h.piece hserves hmore
      obtain ⟨v1, hread⟩ := hreads (h.aligned halign hmore)
      obtain ⟨hpiece, hnext, -⟩ := hafter v1 hread
      obtain ⟨c', v', hrest, hs', hview', hdone⟩ := ih hserves1 hnext fun hm => (pieceLen_cut hm).2.symm
      rw [funext hview1] at hdone
      refine ⟨c', v', ?_, hs', fun k => (hview' k).trans (hview1 k),
        hdone.cons h hmore (hserves.sound.view _).2 hlen hpiece⟩
      rw [hstep, hread, ok_bind, hrest]
    · exact hstay hserves h hmore

/-- LOOP, the other way: a range that is read has no whole block that is out of place. -/
lemma readFrom_aligned : ∀ {a blk : ℕ} {c : ZBlockCache} {v : ValidatedZCB} {out : ZBlockCache × ValidatedZCB},
      Serves zhash t c range → ReadHead v range bufOffset fuel a → (a < range.stop → blk = a / zftpBlockSize) →
      readFrom t range bufOffset fuel blk a c v = .ok out →
      ∀ k, a ≤ k * zftpBlockSize → (k + 1) * zftpBlockSize ≤ range.stop → range.start % zftpBlockSize = 0 := by
  have hpos := zftpBlockSize_pos
  induction fuel with
  | zero =>
    intro a blk c v out _ h _ _ k hk hk'
    have hdone := h.done
    rw [Nat.succ_mul] at hk'
    omega
  | succ fuel ih =>
    intro a blk c v out hserves h hblk hrun k hk hk'
    have hmore : a < range.stop := by
      rw [Nat.succ_mul] at hk'
      omega
    obtain rfl := hblk hmore
    obtain ⟨-, hend, hfit⟩ := pieceLen_bounds hmore
    obtain ⟨c1, hserves1, -, hstep⟩ := readFrom_step hserves h hmore
    rw [hstep] at hrun
    obtain ⟨v1, hread, hrest⟩ := of_bind hrun
    obtain ⟨-, hnext, halign⟩ := (h.piece hserves hmore).2.2 v1 hread
    by_cases hfull : pieceLen a range.stop = zftpBlockSize
    · -- a whole block is copied here, so its place was found to be aligned
      have hlo := h.lo
      have hfits := h.fits
      have hlt := h.length_lt
      have hzero : a % zftpBlockSize = 0 := by omega
      have halign := halign hfull
      rw [h.debugOffset, sub32_of_le (by omega) (Nat.le_add_right _ _), Nat.add_sub_cancel_left] at halign
      have hsum := Nat.add_mod (a - range.start) range.start zftpBlockSize
      rw [Nat.sub_add_cancel hlo, hzero, halign, Nat.zero_add, Nat.mod_mod] at hsum
      exact hsum.symm
    · refine ih hserves1 hnext (fun hm => by rw [(pieceLen_cut hm).2]) hrest k ?_ hk'
      have hmod := Nat.div_add_mod' a zftpBlockSize
      have hblock : a / zftpBlockSize < k := by
        by_contra hge
        have hle : k * zftpBlockSize ≤ a / zftpBlockSize * zftpBlockSize := Nat.mul_le_mul_right _ (not_lt.mp hge)
        rw [Nat.succ_mul] at hk'
        apply hfull
        rw [pieceLen]
        omega
      have hnext : (a / zftpBlockSize + 1) * zftpBlockSize ≤ k * zftpBlockSize := Nat.mul_le_mul_right _ hblock
      rw [Nat.succ_mul] at hnext
      omega

/-- LOOP: what is read depends on the cache only through its view, and the view stays. -/
lemma readFrom_congr : ∀ {a blk : ℕ} {c1 c2 c' : ZBlockCache} {v v' : ValidatedZCB}, Serves zhash t c1 range →
      Serves zhash t c2 range → (∀ k, c2.view k = c1.view k) → ReadHead v range bufOffset fuel a →
      (a < range.stop → blk = a / zftpBlockSize) → readFrom t range bufOffset fuel blk a c1 v = .ok (c', v') →
      c'.Sound zhash ∧ (∀ k, c'.view k = c1.view k) ∧ ∃ c2', readFrom t range bufOffset fuel blk a c2 v = .ok (c2', v') := by
  have hstay : ∀ {fuel a blk : ℕ} {c1 c2 c' : ZBlockCache} {v v' : ValidatedZCB},
      Serves zhash t c1 range → ReadHead v range bufOffset fuel a → ¬a < range.stop →
      readFrom t range bufOffset fuel blk a c1 v = .ok (c', v') →
      c'.Sound zhash ∧ (∀ k, c'.view k = c1.view k) ∧ ∃ c2', readFrom t range bufOffset fuel blk a c2 v = .ok (c2', v') := by
    intro fuel a blk c1 c2 c' v v' hserves h hdone hrun
    rw [readFrom_done h hdone] at hrun
    cases hrun
    exact ⟨hserves.sound, fun _ => rfl, c2, readFrom_done h hdone _⟩
  induction fuel with
  | zero => exact fun hserves _ _ h _ => hstay hserves h h.done
  | succ fuel ih =>
    intro a blk c1 c2 c' v v' hserves hserves2 hview h hblk hrun
    by_cases hmore : a < range.stop
    · obtain rfl := hblk hmore
      obtain ⟨d1, hserves1, hview1, hstep1⟩ := readFrom_step hserves h hmore
      obtain ⟨d2, hserves2, hview2, hstep2⟩ := readFrom_step hserves2 h hmore
      rw [hstep1] at hrun
      obtain ⟨v1, hread, hrest⟩ := of_bind hrun
      obtain ⟨-, hnext, -⟩ := (h.piece hserves hmore).2.2 v1 hread
      obtain ⟨hs', hview', c2', hrest2⟩ := ih hserves1 hserves2 (fun k => by rw [hview2, hview1, hview]) hnext
        (fun hm => (pieceLen_cut hm).2.symm) hrest
      refine ⟨hs', fun k => (hview' k).trans (hview1 k), c2', ?_⟩
      rw [hstep2, funext hview, hread, ok_bind, hrest2]
    · exact hstay hserves h hmore hrun

end Read

end Embassies.Zftp
