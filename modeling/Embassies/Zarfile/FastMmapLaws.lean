import Embassies.Zarfile.ZarfileVFS
import Mathlib.Data.List.GetD

/-! What `fast_mmap` hands out.

    The table of chunks of a well-formed zarfile stays well formed: a chunk that is used loses the bytes that are
    handed out, and the rest of it has the same bytes of its file as before. What has been handed out is apart from
    every chunk, so nothing that reads or hands out chunks comes across it again, whatever the callers write there. -/

namespace Embassies.Zarfile

open Checked List ZFChdr

open ChunkDecoder (Sane)

namespace ZarfileVFS

/-- A zarfile whose chunks have the bytes of its files, zero beyond the end, and are disjoint. -/
structure WellFormed (z : ZarfileVFS) (files : ℕ → Bytes) : Prop where
  sane : ∀ c ∈ z.chdr, Sane c
  inside : ∀ c ∈ z.chdr, c.zFileOff + c.zDataLen ≤ z.zarfileHdl.data.length
  apart : z.chdr.Pairwise fun c d => c.extent.Apart d.extent
  count_eq : z.zhdr.zChunktabCount = z.chdr.length
  count_lt : z.chdr.length < 2 ^ 32
  index : ∀ p ∈ z.ptable, ∀ ci < p.zChunkCount, p.zChunkIdx + ci < z.chdr.length
  fileLen : ∀ f p, z.ptable[f]? = some p → (files f).length = p.zFileLen
  contents : ∀ f p, z.ptable[f]? = some p → ∀ ci < p.zChunkCount, ∀ c, z.chdr[p.zChunkIdx + ci]? = some c →
    ∀ i < c.zDataLen, z.zarfileHdl.data[c.zFileOff + i]? = some ((files f).getD (c.zDataOff + i) 0)

variable {z z' : ZarfileVFS} {files : ℕ → Bytes} {phdr : ZFPhdr} {len offset : ℕ} {c : ZFChdr}

lemma chdr_of_lockChdr {ci : ℕ} (h : z.lockChdr ci = .ok c) : z.chdr[ci]? = some c := by
  obtain ⟨_, -, h⟩ := of_bind h
  cases hc : z.chdr[ci]? with
  | none =>
    rw [hc] at h
    cases h
  | some d =>
    rw [hc] at h
    cases h
    rfl

/-! ### The loop -/

/-- A chunk that the loop uses, at an index of the table. -/
structure Hands (z : ZarfileVFS) (phdr : ZFPhdr) (len offset ci : ℕ) (c : ZFChdr) : Prop where
  chdr_eq : z.chdr[u32 (phdr.zChunkIdx + ci)]? = some c
  dataOff_le : c.zDataOff ≤ offset
  end_le : u64 (offset + len) ≤ u32 (c.zDataOff + c.zDataLen)
  off_lt : u64 (c.zFileOff + sub64 offset c.zDataOff) < z.zarfileHdl.data.length
  off_add_le : u64 (u64 (c.zFileOff + sub64 offset c.zDataOff) + len) ≤ z.zarfileHdl.data.length

/-- What a call that returns has done. -/
inductive Outcome (z : ZarfileVFS) (phdr : ZFPhdr) (len offset : ℕ) : ZarfileVFS → Option ℕ → Prop where
  | nothing (lost : ℕ) : Outcome z phdr len offset { z with lostMmapOpportunitiesMisaligned := lost } none
  | region (ci exploited : ℕ) (c : ZFChdr) (hci : ci < phdr.zChunkCount) (h : Hands z phdr len offset ci c) :
      Outcome z phdr len offset { z with
        chdr := z.chdr.set (u32 (phdr.zChunkIdx + ci)) (c.consume len offset)
        exploitedMmapOpportunities := exploited }
        (some (z.zarfileHdl.address + u64 (c.zFileOff + sub64 offset c.zDataOff)))

lemma fastMmapLoop_outcome : ∀ (n ci : ℕ) {result : Option ℕ}, n + ci ≤ phdr.zChunkCount →
    z.fastMmapLoop phdr len offset n ci = .ok (z', result) → Outcome z phdr len offset z' result
  | 0, _, _, _, h => by
    cases h
    exact .nothing _
  | n + 1, ci, result, hn, h => by
    unfold fastMmapLoop at h
    obtain ⟨c, hc, h⟩ := of_bind h
    replace hc := chdr_of_lockChdr hc
    by_cases hfits : c.zPrecious = false ∧ c.zDataOff ≤ offset ∧ u64 (offset + len) ≤ u32 (c.zDataOff + c.zDataLen)
    · rw [if_pos hfits] at h
      obtain ⟨p, hp, h⟩ := of_bind h
      simp only [ZLCZCBHandle.fastMmap, bind_eq_ok, liteAssert_eq_ok, exists_const] at hp
      obtain ⟨hoff, hend, hp⟩ := hp
      cases hp
      split at h
      · cases h
        exact .nothing _
      · split at h
        · cases h
          exact .nothing _
        · cases h
          exact .region ci _ c (by omega) ⟨hc, hfits.2.1, hfits.2.2, hoff, hend⟩
    · rw [if_neg hfits] at h
      exact fastMmapLoop_outcome n (ci + 1) (by omega) h

lemma fastMmap_outcome {result : Option ℕ} (h : z.fastMmap phdr len offset = .ok (z', result)) :
    Outcome z phdr len offset z' result := by
  obtain ⟨_, -, h⟩ := of_bind h
  exact fastMmapLoop_outcome _ _ (by omega) h

/-! ### One region -/

lemma Hands.cut {ci : ℕ} (h : Hands z phdr len offset ci c) (hc : Sane c) (hwrap : offset + len < 2 ^ 64) :
    offset + len ≤ c.zDataOff + c.zDataLen ∧
      u64 (c.zFileOff + sub64 offset c.zDataOff) = c.zFileOff + (offset - c.zDataOff) ∧
      c.consume len offset = ⟨c.zFileOff + (offset + len - c.zDataOff), offset + len,
        c.zDataOff + c.zDataLen - (offset + len), c.zPrecious⟩ := by
  obtain ⟨-, hlo, hhi, -, -⟩ := h
  obtain ⟨hoff, hlen⟩ := hc
  simp only [ZFChdr.consume, ZFChdr.mk.injEq, and_true]
  unfold u32 u64 sub32 sub64 at *
  omega

namespace WellFormed

variable {ci file : ℕ} {c : ZFChdr} {d c' : ZFChdr}

lemma index_eq (h : WellFormed z files) (hp : phdr ∈ z.ptable) (hci : ci < phdr.zChunkCount) :
    u32 (phdr.zChunkIdx + ci) = phdr.zChunkIdx + ci := u32_of_lt ((h.index phdr hp ci hci).trans h.count_lt)

lemma apart_of_ne (h : WellFormed z files) {i j : ℕ} (hi : z.chdr[i]? = some c) (hj : z.chdr[j]? = some d) (hne : i ≠ j)
    : c.extent.Apart d.extent := by
  obtain ⟨hilt, rfl⟩ := List.getElem?_eq_some_iff.mp hi
  obtain ⟨hjlt, rfl⟩ := List.getElem?_eq_some_iff.mp hj
  rcases lt_or_gt_of_ne hne with hlt | hgt
  · exact pairwise_iff_getElem.mp h.apart i j hilt hjlt hlt
  · exact (pairwise_iff_getElem.mp h.apart j i hjlt hilt hgt).symm

lemma region (h : WellFormed z files) (hp : z.ptable[file]? = some phdr) (hci : ci < phdr.zChunkCount)
    (hands : Hands z phdr len offset ci c) (hwrap : offset + len < 2 ^ 64) :
    (∀ x, Extent.Has ⟨c.zFileOff + (offset - c.zDataOff), len⟩ x → c.extent.Has x) ∧
      ∀ i < len, z.zarfileHdl.data[c.zFileOff + (offset - c.zDataOff) + i]? = some ((files file).getD (offset + i) 0) := by
  have hmem := mem_of_getElem? hp
  have hchdr := hands.chdr_eq
  obtain ⟨hend, -, -⟩ := hands.cut (h.sane c (mem_of_getElem? hchdr)) hwrap
  have hlo := hands.dataOff_le
  rw [h.index_eq hmem hci] at hchdr
  constructor
  · intro x hx
    simp only [Extent.Has, extent] at hx ⊢
    omega
  · intro i hi
    have hbyte := h.contents file phdr hp ci hci c hchdr (offset - c.zDataOff + i) (by omega)
    have hoff : c.zDataOff + (offset - c.zDataOff + i) = offset + i := by omega
    rwa [hoff, ← Nat.add_assoc] at hbyte

lemma chdr_set {chdr : List ZFChdr} {i j : ℕ} (hi : chdr[i]? = some c) (hd : (chdr.set i c')[j]? = some d)
    : chdr[j]? = some d ∧ j ≠ i ∨ j = i ∧ d = c' := by
  by_cases hji : j = i
  · subst hji
    rw [List.getElem?_set_self (List.getElem?_eq_some_iff.mp hi).1] at hd
    exact .inr ⟨rfl, (Option.some.inj hd).symm⟩
  · rw [List.getElem?_set_ne (Ne.symm hji)] at hd
    exact .inl ⟨hd, hji⟩

/-- A chunk that is cut down has some of the bytes it had, for the same bytes of its file. -/
lemma set (h : WellFormed z files) {i : ℕ} (hi : z.chdr[i]? = some c) (hsane : Sane c')
    (hoff : c.zFileOff ≤ c'.zFileOff) (hend : c'.zFileOff + c'.zDataLen ≤ c.zFileOff + c.zDataLen)
    (hdata : c'.zDataOff + c.zFileOff = c.zDataOff + c'.zFileOff) (exploited : ℕ) :
    WellFormed { z with chdr := z.chdr.set i c', exploitedMmapOpportunities := exploited } files := by
  have hsub : ∀ x, c'.extent.Has x → c.extent.Has x := by
    intro x hx
    simp only [Extent.Has, extent] at hx ⊢
    omega
  have hmem : ∀ d ∈ z.chdr.set i c', d ∈ z.chdr ∨ d = c' := fun d hd => mem_or_eq_of_mem_set hd
  refine ⟨?_, ?_, ?_, by simpa using h.count_eq, by simpa using h.count_lt, by simpa using h.index, h.fileLen, ?_⟩
  · intro d hd
    rcases hmem d hd with hold | rfl
    · exact h.sane d hold
    · exact hsane
  · intro d hd
    rcases hmem d hd with hold | rfl
    · exact h.inside d hold
    · exact hend.trans (h.inside c (mem_of_getElem? hi))
  · rw [pairwise_iff_getElem]
    intro j k hj hk hjk
    have hcases := chdr_set hi (getElem?_eq_getElem hj)
    have hcases' := chdr_set hi (getElem?_eq_getElem hk)
    rcases hcases with ⟨hjold, hji⟩ | ⟨rfl, hjnew⟩ <;> rcases hcases' with ⟨hkold, hki⟩ | ⟨rfl, hknew⟩
    · exact h.apart_of_ne hjold hkold (by omega)
    · rw [hknew]
      exact fun x hx hx' => h.apart_of_ne hjold hi (by omega) x hx (hsub x hx')
    · rw [hjnew]
      exact fun x hx hx' => h.apart_of_ne hi hkold (by omega) x (hsub x hx) hx'
    · omega
  · intro f p hp ci hci d hd k hk
    rcases chdr_set hi hd with ⟨hold, -⟩ | ⟨hci', rfl⟩
    · exact h.contents f p hp ci hci d hold k hk
    · rw [← hci'] at hi
      have hbyte := h.contents f p hp ci hci c hi (d.zFileOff - c.zFileOff + k) (by omega)
      have hfile : c.zFileOff + (d.zFileOff - c.zFileOff + k) = d.zFileOff + k := by omega
      have hdata' : c.zDataOff + (d.zFileOff - c.zFileOff + k) = d.zDataOff + k := by omega
      rwa [hfile, hdata'] at hbyte

lemma store (h : WellFormed z files) {x : ℕ} (hx : ∀ c ∈ z.chdr, ¬c.extent.Has x) (value : UInt8) :
    WellFormed { z with zarfileHdl := { z.zarfileHdl with data := z.zarfileHdl.data.set x value } } files := by
  refine ⟨h.sane, by simpa using h.inside, h.apart, h.count_eq, h.count_lt, h.index, h.fileLen, ?_⟩
  intro f p hp ci hci c hc i hi
  have hne : x ≠ c.zFileOff + i := by
    rintro rfl
    exact hx c (mem_of_getElem? hc) ⟨Nat.le_add_right _ _, Nat.add_lt_add_left hi _⟩
  rw [getElem?_set_ne hne]
  exact h.contents f p hp ci hci c hc i hi

end WellFormed

end ZarfileVFS

/-! ### Runs -/

namespace Session

open ZarfileVFS

/-- The invariant: the table is well formed, and what has been handed out is apart from it and from each other. -/
structure Safe (files : ℕ → Bytes) (s : Session) : Prop where
  wellFormed : s.vfs.WellFormed files
  pairwise : s.handed.Pairwise Extent.Apart
  apart : ∀ e ∈ s.handed, ∀ c ∈ s.vfs.chdr, e.Apart c.extent

/-- Callers write only to what they have been given; lengths and offsets are those of the types, and those of
    `fast_mmap` are among the given ones. -/
def Allowed (calls : Set (ℕ × ℕ)) (s : Session) : Call → Prop
  | .fastMmap _ len offset => (len, offset) ∈ calls ∧ len < 2 ^ 32 ∧ offset < 2 ^ 64
  | .read _ len offset => len < 2 ^ 32 ∧ offset < 2 ^ 64
  | .store x _ => ∃ e ∈ s.handed, e.Has x

/-- A call touches nothing that has been handed out, and what it hands out has the bytes of the file. -/
def Fresh (files : ℕ → Bytes) (s : Session) (call : Call) : Prop :=
  (∀ e ∈ s.touches call, ∀ e' ∈ s.handed, e.Apart e') ∧
    ∀ file len offset, call = .fastMmap file len offset → ∀ e ∈ s.touches call, e.len = len ∧
      ∀ i < len, s.vfs.zarfileHdl.data[e.off + i]? = some ((files file).getD (offset + i) 0)

variable {files : ℕ → Bytes} {s s' : Session} {file len offset : ℕ} {e : Extent}

lemma phdrAt_eq_ok {phdr : ZFPhdr} : s.phdrAt file = .ok phdr ↔ s.vfs.ptable[file]? = some phdr := by
  unfold phdrAt
  cases s.vfs.ptable[file]? with
  | none => simp
  | some p => simp

lemma mem_touches_fastMmap (he : e ∈ s.touches (.fastMmap file len offset)) :
    ∃ phdr ci c, s.vfs.ptable[file]? = some phdr ∧ ci < phdr.zChunkCount ∧ Hands s.vfs phdr len offset ci c ∧
      e = ⟨u64 (c.zFileOff + sub64 offset c.zDataOff), len⟩ := by
  dsimp only [touches] at he
  cases hp : s.phdrAt file with
  | error fault =>
    rw [hp] at he
    cases he
  | ok phdr =>
    rw [hp, ok_bind] at he
    cases hmap : s.vfs.fastMmap phdr len offset with
    | error fault =>
      rw [hmap] at he
      cases he
    | ok result =>
      obtain ⟨vfs, result⟩ := result
      rw [hmap] at he
      cases fastMmap_outcome hmap with
      | nothing lost => cases he
      | region ci exploited c hci hands =>
        obtain rfl := mem_singleton.mp he
        exact ⟨phdr, ci, c, phdrAt_eq_ok.mp hp, hci, hands, by rw [Nat.add_sub_cancel_left]⟩

lemma step_fastMmap (hstep : s.step (.fastMmap file len offset) = .ok s') :
    (∃ lost, s' = ⟨{ s.vfs with lostMmapOpportunitiesMisaligned := lost }, s.handed⟩) ∨
      ∃ phdr ci c exploited, s.vfs.ptable[file]? = some phdr ∧ ci < phdr.zChunkCount ∧ Hands s.vfs phdr len offset ci c ∧
        s' = ⟨{ s.vfs with
          chdr := s.vfs.chdr.set (u32 (phdr.zChunkIdx + ci)) (c.consume len offset)
          exploitedMmapOpportunities := exploited },
          s.handed ++ [⟨u64 (c.zFileOff + sub64 offset c.zDataOff), len⟩]⟩ := by
  obtain ⟨phdr, hp, ⟨vfs, result⟩, hmap, hstep⟩ := of_bind2 hstep
  cases fastMmap_outcome hmap with
  | nothing lost =>
    cases hstep
    exact .inl ⟨lost, rfl⟩
  | region ci exploited c hci hands =>
    cases hstep
    exact .inr ⟨phdr, ci, c, exploited, phdrAt_eq_ok.mp hp, hci, hands, by rw [Nat.add_sub_cancel_left]⟩

lemma Safe.mem_touches_read (h : Safe files s) (he : e ∈ s.touches (.read file len offset))
    : ∃ c ∈ s.vfs.chdr, ∀ x, e.Has x → c.extent.Has x := by
  dsimp only [touches] at he
  cases hp : s.phdrAt file with
  | error fault =>
    rw [hp] at he
    cases he
  | ok phdr =>
    have hserves := ChunkDecoder.read_touched (d := s.vfs.decoder phdr)
      (fun ci c hc => h.wellFormed.sane c (mem_of_getElem? (chdr_of_lockChdr hc))) (u32 len) (u32 offset)
    have htouched : e ∈ ChunkDecoder.touched ((s.vfs.decoder phdr).read (u32 len) (u32 offset)) := by
      rw [hp] at he
      dsimp only [ZarfileVFS.read] at he
      by_cases hdir : phdr.isDir
      · rw [if_pos hdir] at he
        cases he
      · rw [if_neg hdir] at he
        cases hread : (s.vfs.decoder phdr).read (u32 len) (u32 offset) with
        | error stop =>
          rw [hread] at he
          exact he
        | ok r =>
          rw [hread] at he
          exact he
    obtain ⟨ci, -, c, hc, hsub⟩ := hserves e htouched
    exact ⟨c, mem_of_getElem? (chdr_of_lockChdr hc), hsub⟩

variable {calls : Set (ℕ × ℕ)} {call : Call}

lemma Safe.fresh (h : Safe files s) (hcalls : ∀ c ∈ calls, c.1 < 2 ^ 32 → c.2 < 2 ^ 64 → c.2 + c.1 < 2 ^ 64)
    (hallowed : Allowed calls s call) : Fresh files s call := by
  cases call with
  | fastMmap file len offset =>
    have hwrap := hcalls _ hallowed.1 hallowed.2.1 hallowed.2.2
    refine ⟨?_, ?_⟩
    · intro e he e' he' x hx hx'
      obtain ⟨phdr, ci, c, hp, hci, hands, rfl⟩ := mem_touches_fastMmap he
      have hmem := mem_of_getElem? hands.chdr_eq
      rw [(hands.cut (h.wellFormed.sane c hmem) hwrap).2.1] at hx
      exact h.apart e' he' c hmem x hx' ((h.wellFormed.region hp hci hands hwrap).1 x hx)
    · intro file' len' offset' heq e he
      cases heq
      obtain ⟨phdr, ci, c, hp, hci, hands, rfl⟩ := mem_touches_fastMmap he
      have hmem := mem_of_getElem? hands.chdr_eq
      rw [(hands.cut (h.wellFormed.sane c hmem) hwrap).2.1]
      exact ⟨rfl, (h.wellFormed.region hp hci hands hwrap).2⟩
  | read file len offset =>
    refine ⟨?_, by rintro _ _ _ ⟨⟩⟩
    intro e he e' he' x hx hx'
    obtain ⟨c, hc, hsub⟩ := h.mem_touches_read he
    exact h.apart e' he' c hc x hx' (hsub x hx)
  | store x value => exact ⟨by rintro _ ⟨⟩, by rintro _ _ _ ⟨⟩⟩

/-- STEP: every call keeps the invariant. -/
lemma Safe.step (h : Safe files s) (hcalls : ∀ c ∈ calls, c.1 < 2 ^ 32 → c.2 < 2 ^ 64 → c.2 + c.1 < 2 ^ 64)
    (hallowed : Allowed calls s call) (hstep : s.step call = .ok s') : Safe files s' := by
  cases call with
  | fastMmap file len offset =>
    have hwrap := hcalls _ hallowed.1 hallowed.2.1 hallowed.2.2
    rcases step_fastMmap hstep with ⟨lost, rfl⟩ | ⟨phdr, ci, c, exploited, hp, hci, hands, rfl⟩
    · obtain ⟨⟨hsane, hinside, hdisj, hcount, hlt, hindex, hlen, hcontents⟩, hpairwise, hapart⟩ := h
      exact ⟨⟨hsane, hinside, hdisj, hcount, hlt, hindex, hlen, hcontents⟩, hpairwise, hapart⟩
    · have hmem := mem_of_getElem? hands.chdr_eq
      have hsane := h.wellFormed.sane c hmem
      obtain ⟨hend, hoff, hconsume⟩ := hands.cut hsane hwrap
      have hlo := hands.dataOff_le
      have hextent := hsane.extent_lt
      have hinside := (h.wellFormed.region hp hci hands hwrap).1
      have hwords : offset + len < 2 ^ 32 := by
        have := hands.end_le
        unfold u64 u32 at this
        omega
      rw [hoff, hconsume]
      refine ⟨h.wellFormed.set hands.chdr_eq ⟨hwords, ?_⟩ ?_ ?_ ?_ exploited, ?_, ?_⟩
      · dsimp only
        omega
      · dsimp only
        omega
      · dsimp only
        omega
      · dsimp only
        omega
      · rw [pairwise_append]
        refine ⟨h.pairwise, pairwise_singleton _ _, ?_⟩
        intro e he e' he' x hx hx'
        obtain rfl := mem_singleton.mp he'
        exact h.apart e he c hmem x hx (hinside x hx')
      · intro e he d hd x hx hx'
        obtain ⟨j, hj⟩ := mem_iff_getElem?.mp hd
        rcases mem_append.mp he with hold | hnew <;>
          rcases WellFormed.chdr_set hands.chdr_eq hj with ⟨hd', hne⟩ | ⟨-, rfl⟩
        · exact h.apart e hold d (mem_of_getElem? hd') x hx hx'
        · refine h.apart e hold c hmem x hx ?_
          simp only [Extent.Has, extent] at hx' ⊢
          omega
        · obtain rfl := mem_singleton.mp hnew
          exact h.wellFormed.apart_of_ne hands.chdr_eq hd' hne.symm x (hinside x hx) hx'
        · obtain rfl := mem_singleton.mp hnew
          simp only [Extent.Has, extent] at hx hx'
          omega
  | read file len offset =>
    obtain ⟨phdr, -, hstep⟩ := of_bind hstep
    cases hread : s.vfs.read phdr len offset with
    | error stop =>
      rw [hread] at hstep
      cases hstep
    | ok r =>
      rw [hread] at hstep
      cases hstep
      exact h
  | store x value =>
    obtain ⟨e, he, hx⟩ := hallowed
    cases hstep
    exact ⟨h.wellFormed.store (fun c hc hx' => h.apart e he c hc x hx hx') value, h.pairwise, h.apart⟩

/-! ### A call that wraps around -/

/-- A zarfile of ones with a chunk at the bytes from the negated offset on. -/
def wrapping (len offset : ℕ) : ZarfileVFS where
  zarfileHdl := ⟨List.replicate len 1, 4096⟩
  zhdr := ⟨zMagic, zVersion, 1, 0, sizeofPhdr, 0, 0, len, 0, 1, sizeofChdr⟩
  ptable := [⟨0, 0, len - (2 ^ 64 - offset), 0, 1, 0, 0⟩]
  strtable := []
  chdr := [⟨2 ^ 64 - offset, 0, len - (2 ^ 64 - offset), false⟩]
  lostMmapOpportunitiesMisaligned := 0
  exploitedMmapOpportunities := 0

/-- The file of that zarfile. -/
def wrappingFile (len offset : ℕ) : Bytes := List.replicate (len - (2 ^ 64 - offset)) 1

section Wrapping

variable (len offset : ℕ) (hlen : len < 2 ^ 32) (hoffset : offset < 2 ^ 64) (hwrap : 2 ^ 64 ≤ offset + len)

include hlen hwrap in
lemma wrapping_wellFormed : (wrapping len offset).WellFormed fun _ => wrappingFile len offset where
  sane c hc := by
    obtain rfl := mem_singleton.mp hc
    exact ⟨Nat.two_pow_pos 32, by dsimp only; omega⟩
  inside c hc := by
    obtain rfl := mem_singleton.mp hc
    simp only [wrapping, length_replicate]
    omega
  apart := pairwise_singleton _ _
  count_eq := rfl
  count_lt := by simp [wrapping]
  index p hp ci hci := by
    obtain rfl := mem_singleton.mp hp
    simpa [wrapping] using hci
  fileLen f p hp := by
    obtain rfl := mem_singleton.mp (mem_of_getElem? hp)
    exact length_replicate ..
  contents f p hp ci hci c hc i hi := by
    obtain rfl := mem_singleton.mp (mem_of_getElem? hc)
    dsimp only at hi ⊢
    have hdata : 2 ^ 64 - offset + i < len := by omega
    rw [wrapping, getElem?_replicate_of_lt hdata, wrappingFile, Nat.zero_add, getD_replicate _ hi]

include hlen hoffset hwrap in
lemma touches_wrapping : (⟨wrapping len offset, []⟩ : Session).touches (.fastMmap 0 len offset) = [⟨0, len⟩] := by
  have hfits : u64 (offset + len) ≤ u32 (0 + (len - (2 ^ 64 - offset))) := by
    unfold u64 u32
    omega
  have hstart : u64 (2 ^ 64 - offset + sub64 offset 0) = 0 := by
    unfold u64 sub64
    omega
  have hmap : (wrapping len offset).zarfileHdl.fastMmap len 0 = .ok 4096 := by
    rw [ZLCZCBHandle.fastMmap, liteAssert_pos, liteAssert_pos]
    · rfl
    · simp only [wrapping, length_replicate, u64]
      omega
    · simp only [wrapping, length_replicate]
      omega
  have hloop : ∃ vfs, (wrapping len offset).fastMmapLoop ⟨0, 0, len - (2 ^ 64 - offset), 0, 1, 0, 0⟩ len offset 1 0 =
      .ok (vfs, some 4096) ∧ vfs.zarfileHdl.address = 4096 := by
    have hlock : (wrapping len offset).lockChdr (u32 (0 + 0)) =
        .ok ⟨2 ^ 64 - offset, 0, len - (2 ^ 64 - offset), false⟩ := rfl
    rw [ZarfileVFS.fastMmapLoop, hlock, ok_bind, if_pos ⟨rfl, Nat.zero_le _, hfits⟩]
    dsimp only
    rw [hstart, hmap, ok_bind, if_neg (by decide), if_neg (by decide)]
    exact ⟨_, rfl, rfl⟩
  obtain ⟨vfs, hvfs, haddress⟩ := hloop
  have hphdr : (⟨wrapping len offset, []⟩ : Session).phdrAt 0 = .ok ⟨0, 0, len - (2 ^ 64 - offset), 0, 1, 0, 0⟩ := rfl
  dsimp only [touches]
  rw [hphdr, ok_bind, ZarfileVFS.fastMmap, liteAssert_pos (by simp [ZFPhdr.isDir]), ok_bind, hvfs]
  dsimp only
  rw [haddress]

include hlen hoffset hwrap in
lemma not_fresh_wrapping :
    ¬Fresh (fun _ => wrappingFile len offset) ⟨wrapping len offset, []⟩ (.fastMmap 0 len offset) := by
  rintro ⟨-, hbytes⟩
  have hmem : ⟨0, len⟩ ∈ (⟨wrapping len offset, []⟩ : Session).touches (.fastMmap 0 len offset) := by
    rw [touches_wrapping len offset hlen hoffset hwrap]
    exact mem_singleton.mpr rfl
  have hbyte := (hbytes 0 len offset rfl ⟨0, len⟩ hmem).2 0 (by omega)
  have hbeyond : (wrappingFile len offset).length ≤ offset + 0 := by
    rw [wrappingFile, length_replicate]
    omega
  rw [getD_eq_default _ _ hbeyond, wrapping, getElem?_replicate_of_lt (by dsimp only; omega)] at hbyte
  cases hbyte

end Wrapping

/-- ONCE: for a set of lengths and offsets, each region that a run of calls hands out has the bytes of its file, and no
    call touches what was handed out before it, exactly if no length and offset of the set wrap around together. -/
theorem handsOut_once_iff (calls : Set (ℕ × ℕ)) :
    (∀ (z : ZarfileVFS) (files : ℕ → Bytes), z.WellFormed files → ∀ (cs : List Call) (s : Session),
      Along step (Allowed calls) ⟨z, []⟩ cs → run step ⟨z, []⟩ cs = .ok s →
        s.handed.Pairwise Extent.Apart ∧ ∀ call, Allowed calls s call → Fresh files s call) ↔
      ∀ c ∈ calls, c.1 < 2 ^ 32 → c.2 < 2 ^ 64 → c.2 + c.1 < 2 ^ 64 := by
  constructor
  · rintro h ⟨len, offset⟩ hc hlen hoffset
    by_contra hwrap
    replace hwrap : 2 ^ 64 ≤ offset + len := Nat.le_of_not_lt hwrap
    exact not_fresh_wrapping len offset hlen hoffset hwrap
      ((h _ _ (wrapping_wellFormed len offset hlen hwrap) [] _ trivial rfl).2 _ ⟨hc, hlen, hoffset⟩)
  · intro hcalls z files hz cs s halong hrun
    have hsafe : Safe files s := run_invariant (I := Safe files) (fun _ _ _ hs hallowed hstep => hs.step hcalls hallowed hstep)
      cs _ s ⟨hz, .nil, by rintro _ ⟨⟩⟩ halong hrun
    exact ⟨hsafe.pairwise, fun call hallowed => hsafe.fresh hcalls hallowed⟩

/-- Two pages at an offset one page below zero: the region is not in the chunk. -/
theorem not_handsOut_once : ¬∀ (z : ZarfileVFS) (files : ℕ → Bytes), z.WellFormed files →
    ∀ (cs : List Call) (s : Session), Along step (Allowed Set.univ) ⟨z, []⟩ cs → run step ⟨z, []⟩ cs = .ok s →
      s.handed.Pairwise Extent.Apart ∧ ∀ call, Allowed Set.univ s call → Fresh files s call := by
  intro h
  exact not_fresh_wrapping 8192 (2 ^ 64 - 4096) (by decide) (by decide) (by decide)
    ((h _ _ (wrapping_wellFormed _ _ (by decide) (by decide)) [] _ trivial rfl).2 _ ⟨trivial, by decide, by decide⟩)

end Session

end Embassies.Zarfile
