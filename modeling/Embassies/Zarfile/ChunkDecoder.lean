import Embassies.Lib.Checked
import Embassies.Lib.Word
import Embassies.Zarfile.Format

/-! Reads of a file in a zarfile: `ChunkDecoder.cpp`.

    The bytes of a file are in chunks of the zarfile, which may overlap and stand in any order. A read goes
    over the headers of all chunks as long as that brings it forward. What it has touched of the zarfile is
    kept also when it stops at an assert. -/

namespace Embassies.Zarfile

/-- Bytes of a zarfile. -/
structure Extent where
  off : ℕ
  len : ℕ
  deriving DecidableEq, Repr

namespace Extent

/-- An offset is one of an extent. -/
def Has (e : Extent) (x : ℕ) : Prop := e.off ≤ x ∧ x < e.off + e.len

/-- Two extents have no byte in common. -/
def Apart (e f : Extent) : Prop := ∀ x, e.Has x → ¬f.Has x

lemma Apart.symm {e f : Extent} (h : Apart e f) : Apart f e := fun x hf he => h x he hf

end Extent

/-- The extent of a chunk. -/
def ZFChdr.extent (c : ZFChdr) : Extent := ⟨c.zFileOff, c.zDataLen⟩

/-- A computation that says what it has touched when it stops. -/
abbrev Traced (α : Type) := Except (Fault × List Extent) α

/-- A read under way: the buffer so far, what is left to read, and what has been touched. -/
structure Reading where
  buf : Bytes
  fileOffset : ℕ
  fileCount : ℕ
  touched : List Extent
  deriving DecidableEq, Repr

/-- `ChunkDecoder`, with its two virtual functions. -/
structure ChunkDecoder where
  phdr : ZFPhdr
  readChdr : ℕ → Checked ZFChdr
  underlyingZarfileRead : ℕ → ℕ → Checked Bytes

namespace ChunkDecoder

/-- One pass over the chunks in `read`. The flag is `progress`. -/
def scan (d : ChunkDecoder) : ℕ → ℕ → Bool → Reading → Traced (Bool × Reading)
  | 0, _, progress, r => .ok (progress, r)
  | n + 1, ci, progress, r =>
    match d.readChdr ci with
    | .error fault => .error (fault, r.touched)
    | .ok chdr =>
      let chunkStart := chdr.zDataOff
      let chunkEnd := u32 (chdr.zDataOff + chdr.zDataLen)
      if r.fileOffset < chunkStart ∨ chunkEnd ≤ r.fileOffset then scan d n (ci + 1) progress r
      else
        let chunkAvail := sub32 chunkEnd r.fileOffset
        let thisReadLen := min r.fileCount chunkAvail
        if thisReadLen = 0 then scan d n (ci + 1) progress r
        else
          let zarfileOffset := u32 (chdr.zFileOff + sub32 r.fileOffset chdr.zDataOff)
          match d.underlyingZarfileRead thisReadLen zarfileOffset with
          | .error fault => .error (fault, r.touched)
          | .ok bytes =>
            let r : Reading := ⟨r.buf ++ bytes, u32 (r.fileOffset + thisReadLen), r.fileCount - thisReadLen,
              r.touched ++ [⟨zarfileOffset, thisReadLen⟩]⟩
            if r.fileCount = 0 then .ok (true, r) else scan d n (ci + 1) true r

/-- Passes over the chunks until one makes no progress. -/
def readLoop (d : ChunkDecoder) : ℕ → Reading → Traced Reading
  | 0, r => .error (.outOfFuel, r.touched)
  | fuel + 1, r =>
    match d.scan d.phdr.zChunkCount 0 false r with
    | .error stop => .error stop
    | .ok (progress, r) => if progress then readLoop d fuel r else .ok r

/-- `read(buf, count, offset)`. -/
def read (d : ChunkDecoder) (count offset : ℕ) : Traced Reading :=
  if u32 (offset + count) ≤ d.phdr.zFileLen then
    if count = 0 then .ok ⟨[], offset, 0, []⟩
    else
      match d.readLoop (count + 2) ⟨[], offset, count, []⟩ with
      | .error stop => .error stop
      | .ok r => if r.fileCount = 0 then .ok r else .error (.liteAssert, r.touched)
  else .error (.liteAssert, [])

/-! ### What is touched -/

/-- What a read has touched, whether it went through or not. -/
def touched : Traced Reading → List Extent
  | .ok r => r.touched
  | .error stop => stop.2

/-- A header whose words are words, and whose chunk is in the address space. -/
structure Sane (c : ZFChdr) : Prop where
  dataOff_lt : c.zDataOff < 2 ^ 32
  extent_lt : c.zFileOff + c.zDataLen < 2 ^ 32

lemma Sane.source {c : ZFChdr} (h : Sane c) {off : ℕ} (count : ℕ) (hlo : c.zDataOff ≤ off)
    (hhi : off < u32 (c.zDataOff + c.zDataLen)) : u32 (c.zDataOff + c.zDataLen) = c.zDataOff + c.zDataLen ∧
      u32 (c.zFileOff + sub32 off c.zDataOff) = c.zFileOff + (off - c.zDataOff) ∧
      min count (sub32 (u32 (c.zDataOff + c.zDataLen)) off) = min count (c.zDataOff + c.zDataLen - off) := by
  obtain ⟨hoff, hlen⟩ := h
  unfold u32 sub32 at *
  omega

/-- An extent is inside one of the chunks of a decoder. -/
def Serves (d : ChunkDecoder) (e : Extent) : Prop :=
  ∃ ci < d.phdr.zChunkCount, ∃ c, d.readChdr ci = .ok c ∧ ∀ x, e.Has x → c.extent.Has x

variable {d : ChunkDecoder}

/-- STEP: a pass touches what the chunks serve. -/
lemma scan_touched (hsane : ∀ ci c, d.readChdr ci = .ok c → Sane c) :
    ∀ (n ci : ℕ) (progress : Bool) (r : Reading), n + ci ≤ d.phdr.zChunkCount → (∀ e ∈ r.touched, d.Serves e) →
      match d.scan n ci progress r with
      | .ok (_, r) => ∀ e ∈ r.touched, d.Serves e
      | .error stop => ∀ e ∈ stop.2, d.Serves e
  | 0, _, _, _, _, hr => by simpa only [scan] using hr
  | n + 1, ci, progress, r, hn, hr => by
    have ih := scan_touched hsane n (ci + 1)
    unfold scan
    cases hc : d.readChdr ci with
    | error fault => simpa only using hr
    | ok c =>
      dsimp only
      by_cases hout : r.fileOffset < c.zDataOff ∨ u32 (c.zDataOff + c.zDataLen) ≤ r.fileOffset
      · rw [if_pos hout]
        exact ih progress r (by omega) hr
      rw [if_neg hout]
      push Not at hout
      obtain ⟨hend, hsource, hmin⟩ := (hsane ci c hc).source r.fileCount hout.1 hout.2
      rw [hmin, hsource]
      by_cases hzero : min r.fileCount (c.zDataOff + c.zDataLen - r.fileOffset) = 0
      · rw [if_pos hzero]
        exact ih progress r (by omega) hr
      rw [if_neg hzero]
      cases hread : d.underlyingZarfileRead (min r.fileCount (c.zDataOff + c.zDataLen - r.fileOffset))
          (c.zFileOff + (r.fileOffset - c.zDataOff)) with
      | error fault => simpa only using hr
      | ok bytes =>
        have hserves : ∀ e ∈ r.touched ++ [⟨c.zFileOff + (r.fileOffset - c.zDataOff),
            min r.fileCount (c.zDataOff + c.zDataLen - r.fileOffset)⟩], d.Serves e := by
          intro e he
          rcases List.mem_append.mp he with hold | hnew
          · exact hr e hold
          · obtain rfl := List.mem_singleton.mp hnew
            refine ⟨ci, by omega, c, hc, fun x hx => ?_⟩
            simp only [Extent.Has, ZFChdr.extent] at hx ⊢
            omega
        dsimp only
        by_cases hdone : r.fileCount - min r.fileCount (c.zDataOff + c.zDataLen - r.fileOffset) = 0
        · rw [if_pos hdone]
          exact hserves
        · rw [if_neg hdone]
          exact ih true ⟨_, _, _, _⟩ (by omega) hserves

/-- RUN: so do the passes of a read. -/
lemma readLoop_touched (hsane : ∀ ci c, d.readChdr ci = .ok c → Sane c) :
    ∀ (fuel : ℕ) (r : Reading), (∀ e ∈ r.touched, d.Serves e) → ∀ e ∈ touched (d.readLoop fuel r), d.Serves e
  | 0, _, hr => hr
  | fuel + 1, r, hr => by
    have hscan := scan_touched hsane d.phdr.zChunkCount 0 false r (by omega) hr
    unfold readLoop
    cases h : d.scan d.phdr.zChunkCount 0 false r with
    | error stop =>
      rw [h] at hscan
      exact hscan
    | ok result =>
      obtain ⟨progress, r'⟩ := result
      rw [h] at hscan
      cases progress with
      | true => exact readLoop_touched hsane fuel r' hscan
      | false => exact hscan

lemma read_touched (hsane : ∀ ci c, d.readChdr ci = .ok c → Sane c) (count offset : ℕ) :
    ∀ e ∈ touched (d.read count offset), d.Serves e := by
  have hloop := readLoop_touched hsane (count + 2) ⟨[], offset, count, []⟩ (by simp)
  unfold read
  split
  · split
    · simp [touched]
    · cases h : d.readLoop (count + 2) ⟨[], offset, count, []⟩ with
      | error stop =>
        rw [h] at hloop
        exact hloop
      | ok r =>
        rw [h] at hloop
        dsimp only
        split <;> exact hloop
  · simp [touched]

end ChunkDecoder

end Embassies.Zarfile
