import Embassies.Zftp.FileResultLaws
import Embassies.Zftp.ReferenceFile

/-! What `ValidatedZCB` leaves out.

    A whole block is not copied when its slot remembers the block's hash. That is invisible as long as the block is still
    there, and nothing but another whole block makes a slot forget: a shorter piece that is written over the block, or a
    whole block at another offset, which has a slot of its own, leaves the old hash in place.

    A read is a plain copy if and only if what its slot remembers is still true of the buffer (`Kept`). The ledger tells
    this from the calls alone, from their offsets, lengths and hashes: a slot may be relied on at the offset that its
    block was read to, until something is written over it. -/

namespace Embassies.Zftp

open Checked List

/-- What is done to a buffer between its creation and its end. -/
inductive BufCall where
  | setDebugOffset (offset : ℕ)
  | read (block : ZBlockCacheRecord) (bufOffset blockOffset len : ℕ)

namespace ValidatedZCB

def call (v : ValidatedZCB) : BufCall → Checked ValidatedZCB
  | .setDebugOffset offset => .ok { v with debugOffset := offset }
  | .read block bufOffset blockOffset len => v.read block bufOffset blockOffset len

variable {zhash : Bytes → Hash} {v v' : ValidatedZCB} {block : ZBlockCacheRecord} {bufOffset blockOffset len : ℕ}
  {c : BufCall}

/-- The bytes a read is for. -/
def copied (block : ZBlockCacheRecord) (blockOffset len : ℕ) : List (Option UInt8) :=
  ((block.data.drop blockOffset).take len).map some

/-- There is a slot for each whole block that fits. -/
def Slotted (v : ValidatedZCB) : Prop := v.hashes.length = v.data.length / zftpBlockSize

/-- A read of a valid block into the buffer; a whole block goes to an aligned place. -/
structure ProperRead (zhash : Bytes → Hash) (v : ValidatedZCB) (block : ZBlockCacheRecord)
    (bufOffset blockOffset len : ℕ) : Prop where
  sound : block.Sound zhash
  valid : block.valid = true
  inBlock : blockOffset + len ≤ zftpBlockSize
  inBuffer : bufOffset + len ≤ v.data.length
  aligned : len = zftpBlockSize → sub32 bufOffset v.debugOffset % zftpBlockSize = 0

def Proper (zhash : Bytes → Hash) (v : ValidatedZCB) : BufCall → Prop
  | .setDebugOffset _ => True
  | .read block bufOffset blockOffset len => ProperRead zhash v block bufOffset blockOffset len

/-- The call does what a plain copy does. -/
def Exact (v : ValidatedZCB) : BufCall → Prop
  | .setDebugOffset _ => True
  | .read block bufOffset blockOffset len =>
    ∃ v', v.read block bufOffset blockOffset len = .ok v' ∧
      v'.data = splice v.data bufOffset (copied block blockOffset len)

/-- A slot that remembers the hash of the block that is read still has the block. -/
def Kept (v : ValidatedZCB) : BufCall → Prop
  | .setDebugOffset _ => True
  | .read block bufOffset _ len => len = zftpBlockSize → v.hashes[bufOffset / zftpBlockSize]? = some block.hash →
    (v.data.drop bufOffset).take zftpBlockSize = block.data.map some

section

variable (h : ProperRead zhash v block bufOffset blockOffset len)
include h

lemma ProperRead.slot_lt (hv : v.Slotted) (hfull : len = zftpBlockSize)
    : bufOffset / zftpBlockSize < v.hashes.length := by
  have hpos := zftpBlockSize_pos
  have hmul := Nat.div_mul_le_self bufOffset zftpBlockSize
  have hbuffer := h.inBuffer
  rw [hv, Nat.lt_iff_add_one_le, Nat.le_div_iff_mul_le hpos, Nat.succ_mul]
  omega

lemma ProperRead.length_copied :
    (copied block blockOffset len).length = len := by
  have hfit := h.inBlock
  rw [copied, length_map, length_take, length_drop, h.sound.length h.valid]
  omega

lemma ProperRead.copied_whole (hfull : len = zftpBlockSize) :
    copied block blockOffset len = block.data.map some := by
  have hfit := h.inBlock
  have hzero : blockOffset = 0 := by omega
  have hdata := h.sound.length h.valid
  rw [copied, hzero, hfull, drop_zero, ← hdata, take_length]

/-- READ: a whole block whose hash is in its slot is left out, everything else is copied. -/
lemma ProperRead.read_eq (hv : v.Slotted) :
    v.read block bufOffset blockOffset len =
      if len = zftpBlockSize ∧ v.hashes[bufOffset / zftpBlockSize]? = some block.hash then .ok v
      else .ok { v with
        data := splice v.data bufOffset (copied block blockOffset len)
        hashes := if len = zftpBlockSize then v.hashes.set (bufOffset / zftpBlockSize) block.hash else v.hashes } := by
  obtain ⟨hread, hlen⟩ := blockRead_of_valid h.valid h.inBlock h.sound
  have hbuffer := h.inBuffer
  have hwrite := v.write_of_fits (show bufOffset + ((block.data.drop blockOffset).take len).length ≤ v.data.length by
    rw [hlen]
    exact hbuffer)
  by_cases hfull : len = zftpBlockSize
  case neg =>
    rw [read, if_neg hfull, if_neg (fun hhit => hfull hhit.1), if_neg hfull, hread, ok_bind, hwrite]
    rfl
  case pos =>
    have hzero : blockOffset = 0 := by
      have hfit := h.inBlock
      omega
    have hslot := h.slot_lt hv hfull
    have hget : v.hashes[bufOffset / zftpBlockSize]? = some (v.hashes[bufOffset / zftpBlockSize]) :=
      List.getElem?_eq_getElem hslot
    rw [read, if_pos hfull, liteAssert_pos hzero, ok_bind, liteAssert_pos (h.aligned hfull), ok_bind, hget]
    dsimp only
    by_cases hhit : block.hash = v.hashes[bufOffset / zftpBlockSize]
    case pos => rw [if_pos hhit, if_pos ⟨hfull, by rw [hhit]⟩, pure_eq_ok]
    case neg =>
      have hmiss : ¬(len = zftpBlockSize ∧ some v.hashes[bufOffset / zftpBlockSize] = some block.hash) := by
        rintro ⟨-, heq⟩
        exact hhit (Option.some.inj heq).symm
      rw [if_neg hhit, if_neg hmiss, if_pos hfull, hread, ok_bind, hwrite, ok_bind, pure_eq_ok]
      rfl

lemma ProperRead.frame (hv : v.Slotted) (hread : v.read block bufOffset blockOffset len = .ok v') :
    v'.data.length = v.data.length ∧ v'.hashes.length = v.hashes.length ∧ v'.debugOffset = v.debugOffset := by
  rw [h.read_eq hv] at hread
  split at hread
  case isTrue =>
    cases hread
    exact ⟨rfl, rfl, rfl⟩
  case isFalse =>
    cases hread
    refine ⟨length_splice ?_, ?_, rfl⟩
    · rw [h.length_copied]
      exact h.inBuffer
    · dsimp only
      split
      · exact length_set
      · rfl

lemma ProperRead.slots (hv : v.Slotted) (hread : v.read block bufOffset blockOffset len = .ok v') :
    (len = zftpBlockSize → v'.hashes[bufOffset / zftpBlockSize]? = some block.hash) ∧
      ∀ i, ¬(len = zftpBlockSize ∧ i = bufOffset / zftpBlockSize) → v'.hashes[i]? = v.hashes[i]? := by
  rw [h.read_eq hv] at hread
  split at hread
  case isTrue hhit =>
    cases hread
    exact ⟨fun _ => hhit.2, fun _ _ => rfl⟩
  case isFalse =>
    cases hread
    dsimp only
    refine ⟨?_, ?_⟩
    · intro hfull
      rw [if_pos hfull, List.getElem?_set_self (h.slot_lt hv hfull)]
    · intro i hi
      split
      case isTrue hfull => exact List.getElem?_set_ne (fun heq => hi ⟨hfull, heq.symm⟩)
      case isFalse => rfl

end

lemma slotted_of_call (hv : v.Slotted) (h : v.Proper zhash c) (hcall : v.call c = .ok v') :
    v'.Slotted := by
  cases c with
  | setDebugOffset offset =>
    cases hcall
    exact hv
  | read block bufOffset blockOffset len =>
    obtain ⟨hdata, hhashes, -⟩ := ProperRead.frame h hv hcall
    rw [Slotted, hdata, hhashes]
    exact hv

/-- ONE READ: it is a plain copy if and only if what its slot remembers is still true. -/
lemma exact_iff_kept (hv : v.Slotted) (h : v.Proper zhash c) : v.Exact c ↔ v.Kept c := by
  cases c with
  | setDebugOffset offset => exact Iff.rfl
  | read block bufOffset blockOffset len =>
    have hlen := h.length_copied
    have hbuffer := h.inBuffer
    simp only [Exact, Kept, h.read_eq hv]
    by_cases hhit : len = zftpBlockSize ∧ v.hashes[bufOffset / zftpBlockSize]? = some block.hash
    case neg =>
      rw [if_neg hhit]
      exact ⟨fun _ hfull hslot => absurd ⟨hfull, hslot⟩ hhit, fun _ => ⟨_, rfl, rfl⟩⟩
    case pos =>
      rw [if_pos hhit]
      obtain ⟨hfull, hslot⟩ := hhit
      have hwhole := ProperRead.copied_whole h hfull
      have hroom : bufOffset ≤ v.data.length := by omega
      rw [hwhole] at hlen ⊢
      constructor
      · rintro ⟨v', hv', hdata⟩ _ _
        cases hv'
        have hthere := slice_splice_self (x := block.data.map some) hroom
        rwa [hlen, ← hdata, hfull] at hthere
      · intro hkept
        refine ⟨v, rfl, ?_⟩
        rw [← hkept hfull hslot, splice_self]

lemma slotted_fresh {n : ℕ} (h : n < 2 ^ 32) : (fresh n).Slotted := by
  unfold Slotted
  rw [length_hashes_fresh h, fresh, length_replicate]

/-! ### The ledger -/

/-- What the calls so far say of each slot: the hash that it remembers, and where the block lies, unless something was
    written over it. -/
abbrev Ledger := ℕ → Hash × Option ℕ

/-- The ledger of a new buffer: every slot has the hash of the `memset`, and no block. -/
def Ledger.blank : Ledger := fun _ => (Hash.zero, none)

/-- A whole block is entered at its offset, and an entry is struck out when something is written over its block. -/
def Ledger.noted (ledger : Ledger) : BufCall → Ledger
  | .setDebugOffset _ => ledger
  | .read block bufOffset _ len => fun i =>
    if len = zftpBlockSize ∧ i = bufOffset / zftpBlockSize then (block.hash, some bufOffset)
    else ((ledger i).1, (ledger i).2.filter fun there => there + zftpBlockSize ≤ bufOffset ∨ bufOffset + len ≤ there)

/-- A whole block has another hash than its slot, or it lies where it is read to. -/
def Ledger.Tells (ledger : Ledger) : BufCall → Prop
  | .setDebugOffset _ => True
  | .read block bufOffset _ len => len = zftpBlockSize → (ledger (bufOffset / zftpBlockSize)).1 = block.hash →
    (ledger (bufOffset / zftpBlockSize)).2 = some bufOffset

/-- THE CONDITION on a sequence of calls: the calls before each read tell that its slot may be relied on. -/
def Ledger.Reliable : Ledger → List BufCall → Prop
  | _, [] => True
  | ledger, c :: calls => ledger.Tells c ∧ Reliable (ledger.noted c) calls

/-- The block has the bytes that go with its hash. -/
def Genuine (contents : Hash → Bytes) : BufCall → Prop
  | .setDebugOffset _ => True
  | .read block _ _ _ => block.data = contents block.hash

/-- What is entered is true of the buffer. -/
structure Balanced (contents : Hash → Bytes) (v : ValidatedZCB) (ledger : Ledger) : Prop where
  remembered : ∀ i h, v.hashes[i]? = some h → h = (ledger i).1
  fits : ∀ i there, (ledger i).2 = some there → there + zftpBlockSize ≤ v.data.length
  there : ∀ i there, (ledger i).2 = some there →
    (v.data.drop there).take zftpBlockSize = (contents (ledger i).1).map some

section

variable {contents : Hash → Bytes} {ledger : Ledger}

lemma balanced_fresh (contents : Hash → Bytes) (n : ℕ) : Balanced contents (fresh n) Ledger.blank where
  remembered i h hget := by
    have hmem := mem_of_getElem? hget
    simp only [fresh, mem_replicate] at hmem
    exact hmem.2
  fits _ _ h := nomatch h
  there _ _ h := nomatch h

lemma Balanced.kept (hb : Balanced contents v ledger) (htells : ledger.Tells c) (hgenuine : Genuine contents c) :
    v.Kept c := by
  cases c with
  | setDebugOffset offset => trivial
  | read block bufOffset blockOffset len =>
    intro hfull hslot
    have hsame := hb.remembered _ _ hslot
    rw [hb.there _ _ (htells hfull hsame.symm), ← hsame, ← hgenuine]

/-- STEP: what is left in the ledger after a read is still true. -/
lemma Balanced.read (hb : Balanced contents v ledger) (hv : v.Slotted)
    (h : ProperRead zhash v block bufOffset blockOffset len) (hgenuine : block.data = contents block.hash)
    (hread : v.read block bufOffset blockOffset len = .ok v')
    (hdata : v'.data = splice v.data bufOffset (copied block blockOffset len)) :
    Balanced contents v' (ledger.noted (.read block bufOffset blockOffset len)) := by
  obtain ⟨hown, hother⟩ := h.slots hv hread
  have hlength := (h.frame hv hread).1
  have hlen := h.length_copied
  have hbuffer := h.inBuffer
  have hroom : bufOffset ≤ v.data.length := by omega
  refine ⟨fun i x hx => ?_, fun i there hthere => ?_, fun i there hthere => ?_⟩ <;>
    by_cases hnew : len = zftpBlockSize ∧ i = bufOffset / zftpBlockSize
  · rw [hnew.2, hown hnew.1] at hx
    simp only [Ledger.noted, if_pos hnew]
    exact (Option.some.inj hx).symm
  · rw [hother i hnew] at hx
    simp only [Ledger.noted, if_neg hnew]
    exact hb.remembered i x hx
  · simp only [Ledger.noted, if_pos hnew] at hthere
    obtain rfl := Option.some.inj hthere
    rw [hlength, ← hnew.1]
    exact hbuffer
  · simp only [Ledger.noted, if_neg hnew] at hthere
    rw [hlength]
    exact hb.fits i there (Option.filter_eq_some_iff.mp hthere).1
  · -- the block that was read
    simp only [Ledger.noted, if_pos hnew] at hthere ⊢
    obtain rfl := Option.some.inj hthere
    have hself := slice_splice_self (x := copied block blockOffset len) hroom
    rw [hlen, ← hdata, hnew.1] at hself
    rw [hself, ← hgenuine, ← h.copied_whole hnew.1, hnew.1]
  · -- a block that the read leaves alone
    simp only [Ledger.noted, if_neg hnew] at hthere ⊢
    obtain ⟨hentry, hapart⟩ := Option.filter_eq_some_iff.mp hthere
    rw [hdata, ← hb.there i there hentry]
    rcases of_decide_eq_true hapart with hbefore | hbehind
    · exact slice_splice_before hroom hbefore
    · rw [drop_splice (by rw [hlen]; exact hbuffer) (by rw [hlen]; exact hbehind)]

/-- RUN: from a buffer of which the ledger is true, reliable reads of genuine blocks are plain copies. -/
lemma exact_of_reliable (calls : List BufCall) : ∀ {v : ValidatedZCB} {ledger : Ledger}, v.Slotted →
    Balanced contents v ledger → Along call (Proper zhash) v calls → (∀ c ∈ calls, Genuine contents c) →
    ledger.Reliable calls → Along call Exact v calls := by
  induction calls with
  | nil => exact fun _ _ _ _ _ => trivial
  | cons c calls ih =>
    rintro v ledger hv hb ⟨hproper, hrest⟩ hgenuine ⟨htells, hreliable⟩
    have hfirst : Genuine contents c := hgenuine c mem_cons_self
    have hexact : v.Exact c := (exact_iff_kept hv hproper).mpr (hb.kept htells hfirst)
    refine ⟨hexact, fun v' hcall => ih (slotted_of_call hv hproper hcall) ?_ (hrest v' hcall)
      (fun c' hc' => hgenuine c' (mem_cons_of_mem _ hc')) hreliable⟩
    cases c with
    | setDebugOffset offset =>
      cases hcall
      exact ⟨hb.remembered, hb.fits, hb.there⟩
    | read block bufOffset blockOffset len =>
      obtain ⟨v₁, hread, hdata⟩ := hexact
      obtain rfl := Except.ok.inj (hcall.symm.trans hread)
      exact hb.read hv hproper hfirst hread hdata

end

/-- INVISIBLE: reads into a new buffer are plain copies, all of them, if the blocks have the bytes of their hashes and
    every whole block has another hash than its slot remembers, or was read to the same offset the last time that its
    slot was used, and nothing was written over it since. -/
theorem copyElision_invisible (zhash : Bytes → Hash) (n : ℕ) (hn : n < 2 ^ 32) (calls : List BufCall)
    (hproper : Along call (Proper zhash) (fresh n) calls) (contents : Hash → Bytes)
    (hgenuine : ∀ c ∈ calls, Genuine contents c) (hreliable : Ledger.blank.Reliable calls) :
    Along call Exact (fresh n) calls :=
  exact_of_reliable calls (slotted_fresh hn) (balanced_fresh contents n) hproper hgenuine hreliable

/-! ### A byte over a block -/

/-- A block of bytes that are all the same. -/
def uniform (x : UInt8) : ZBlockCacheRecord := ⟨Hash.fill x, List.replicate zftpBlockSize x, zftpBlockSize, true⟩

/-- A hash for such blocks. -/
def headHash (b : Bytes) : Hash := Hash.fill (b.headD 0)

/-- Reads of such blocks, or of their first bytes, into the first two blocks of the buffer. -/
def Uniform (v : ValidatedZCB) (c : BufCall) : Prop :=
  ∃ x n, n ≤ zftpBlockSize ∧ ∃ i < 2, i * zftpBlockSize + n ≤ v.data.length ∧ c = .read (uniform x) (i * zftpBlockSize) 0 n

lemma Uniform.proper (h : Uniform v c) (hoffset : v.debugOffset = 0) : v.Proper headHash c := by
  obtain ⟨x, n, hn, i, hi, hroom, rfl⟩ := h
  refine ⟨⟨fun _ => length_replicate, fun _ => ?_, by rintro ⟨⟩⟩, rfl, by omega, hroom, fun _ => ?_⟩
  · rw [headHash, uniform, zftpBlockSize, replicate_succ, headD_cons]
  · rw [hoffset]
    rcases Nat.lt_succ_iff_lt_or_eq.mp hi with hi' | rfl
    · obtain rfl : i = 0 := by omega
      rfl
    · rfl

lemma proper_of_uniform (calls : List BufCall) : ∀ {v : ValidatedZCB}, v.Slotted → v.debugOffset = 0 →
    (∀ c ∈ calls, v.Uniform c) → Along call (Proper headHash) v calls := by
  induction calls with
  | nil => exact fun _ _ _ => trivial
  | cons c calls ih =>
    intro v hv hoffset hall
    have huniform := hall c mem_cons_self
    have hproper := huniform.proper hoffset
    refine ⟨hproper, fun v' hcall => ?_⟩
    have hv' := slotted_of_call hv hproper hcall
    obtain ⟨x, n, -, i, -, -, rfl⟩ := huniform
    obtain ⟨hdata, -, hsame⟩ := ProperRead.frame hproper hv hcall
    refine ih hv' (hsame.trans hoffset) fun c' hc' => ?_
    rw [Uniform, hdata]
    exact hall c' (mem_cons_of_mem _ hc')

/-- A block, a byte behind it, the block again, which is left out, and another block over the byte. -/
def repeated : List BufCall :=
  [.read (uniform 1) 0 0 zftpBlockSize, .read (uniform 2) zftpBlockSize 0 1, .read (uniform 1) 0 0 zftpBlockSize,
    .read (uniform 3) zftpBlockSize 0 zftpBlockSize]

theorem copyElision_invisible_repeated : Along call (Proper headHash) (fresh (2 * zftpBlockSize)) repeated ∧
    Along call Exact (fresh (2 * zftpBlockSize)) repeated := by
  have hproper : Along call (Proper headHash) (fresh (2 * zftpBlockSize)) repeated := by
    refine proper_of_uniform _ (slotted_fresh (by decide)) rfl fun c hc => ?_
    rw [Uniform, length_data_fresh]
    simp only [repeated, mem_cons, not_mem_nil, or_false] at hc
    rcases hc with rfl | rfl | rfl | rfl
    · exact ⟨1, zftpBlockSize, by decide, 0, by decide, by decide, rfl⟩
    · exact ⟨2, 1, by decide, 1, by decide, by decide, rfl⟩
    · exact ⟨1, zftpBlockSize, by decide, 0, by decide, by decide, rfl⟩
    · exact ⟨3, zftpBlockSize, by decide, 1, by decide, by decide, rfl⟩
  refine ⟨hproper, copyElision_invisible headHash _ (by decide) repeated hproper
    (fun h => List.replicate zftpBlockSize (h.bytes.headD 0)) (fun c hc => ?_) ?_⟩
  · simp only [repeated, mem_cons, not_mem_nil, or_false] at hc
    rcases hc with rfl | rfl | rfl | rfl <;> rfl
  · refine ⟨fun _ hslot => ?_, fun hfull => ?_, fun _ _ => ?_, fun _ hslot => ?_, trivial⟩
    · cases hslot
    · exact absurd hfull (by decide)
    · decide
    · exact absurd hslot (by decide)

/-- A block, a byte of another one over it, and the block again. -/
def overwritten : List BufCall :=
  [.read (uniform 1) 0 0 zftpBlockSize, .read (uniform 2) 0 0 1, .read (uniform 1) 0 0 zftpBlockSize]

lemma proper_overwritten : Along call (Proper headHash) (fresh zftpBlockSize) overwritten := by
  refine proper_of_uniform _ (slotted_fresh (by decide)) rfl fun c hc => ?_
  rw [Uniform, length_data_fresh]
  simp only [overwritten, mem_cons, not_mem_nil, or_false] at hc
  rcases hc with rfl | rfl | rfl
  · exact ⟨1, zftpBlockSize, by decide, 0, by decide, by decide, rfl⟩
  · exact ⟨2, 1, by decide, 0, by decide, by decide, rfl⟩
  · exact ⟨1, zftpBlockSize, by decide, 0, by decide, by decide, rfl⟩

/-- A STALE SLOT: the byte stays, for the slot still remembers the block. -/
theorem not_always_exact : ¬ ∀ (zhash : Bytes → Hash) (n : ℕ) (calls : List BufCall), n < 2 ^ 32 →
      Along call (Proper zhash) (fresh n) calls → Along call Exact (fresh n) calls := by
  intro h
  have hsmall : zftpBlockSize < 2 ^ 32 := by decide
  have hslotted := slotted_fresh hsmall
  have hrun := h headHash zftpBlockSize overwritten hsmall proper_overwritten
  obtain ⟨h₁, hproper₁⟩ := proper_overwritten
  obtain ⟨⟨v₁, hread₁, hdata₁⟩, hrun₁⟩ := hrun
  obtain ⟨h₂, hproper₂⟩ := hproper₁ v₁ hread₁
  obtain ⟨⟨v₂, hread₂, hdata₂⟩, hrun₂⟩ := hrun₁ v₁ hread₁
  obtain ⟨h₃, -⟩ := hproper₂ v₂ hread₂
  obtain ⟨hexact₃, -⟩ := hrun₂ v₂ hread₂
  have hslotted₁ : v₁.Slotted := slotted_of_call hslotted h₁ hread₁
  have hslotted₂ : v₂.Slotted := slotted_of_call hslotted₁ h₂ hread₂
  -- the first read leaves its hash in the slot, and the second one lets it stand
  have hslot : v₂.hashes[0 / zftpBlockSize]? = some (uniform 1).hash := by
    rw [(ProperRead.slots h₂ hslotted₁ hread₂).2 _ (fun hfull => absurd hfull.1 (by decide))]
    exact (ProperRead.slots h₁ hslotted hread₁).1 rfl
  have hkept := (exact_iff_kept hslotted₂ h₃).mp hexact₃ rfl hslot
  have hhead : v₂.data[0]? = some (some 2) := by
    rw [hdata₂, splice_zero]
    rfl
  have hone : ((v₂.data.drop 0).take zftpBlockSize)[0]? = some (some 1) := by
    rw [hkept]
    rfl
  rw [drop_zero, List.getElem?_take_of_lt (by decide), hhead] at hone
  cases hone

end ValidatedZCB

end Embassies.Zftp
