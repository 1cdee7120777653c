import Embassies.Zftp.Authenticity
import Embassies.Zftp.MissingSetLaws
import Embassies.Zftp.RequestBuilderLaws

/-! What a request asks for, and the trees for which every request is good.

    A range of the file is well served when `RequestBuilder` handles every missing set inside it, under every budget.
    Three things spoil it. A block beyond the tree (a file so long that its blocks are counted as none) has no leaf. A
    block with nothing to ask for (its leaf and its sibling left tentative by earlier replies) gives an empty request.
    And a leaf that is not validated between two that are makes the data two ranges, which `accumulate` asserts away. -/

namespace Embassies.Zftp

open Checked HeapTree List Nat DataRange

namespace RequestBuilder

variable {t : MerkleTree} {b : RequestBuilder} {mtu start blk : ℕ} {missing R : DataRange} {b' : RequestBuilder}

/-- What an outbound request is to be. -/
structure IsGoodRequest (t : MerkleTree) (mtu : ℕ) (missing : DataRange) (r : OutboundRequest) : Prop
    where
  once : r.locations.Nodup
  wanted : ∀ l ∈ r.locations,
    (t.node l).state = .unknown ∧ ∃ blk, Meets missing blk ∧ NearPath t blk l
  ordered : r.dataRange.start ≤ r.dataRange.stop
  data : ∀ x, r.dataRange.start ≤ x → x < r.dataRange.stop →
    missing.start ≤ x ∧ x < missing.stop ∧ (t.leaf (x / zftpBlockSize)).state = .validated
  fits : sizeofDataPacket + sizeofMerkleRecord * r.locations.length
    + (r.dataRange.stop - r.dataRange.start) ≤ mtu
  progress : sizeofDataPacket + sizeofMerkleRecord * (2 * t.treeDepth + 1) ≤ mtu →
    r.locations ≠ [] ∨ r.dataRange.start < r.dataRange.stop

/-- `RequestBuilder` fails no assertion, and what it sends is a good request. -/
def Requests (t : MerkleTree) (mtu : ℕ) (missing : DataRange) : Prop :=
  ∃ b, buildRequest t mtu missing = .ok b ∧
    ∀ fileHash, IsGoodRequest t mtu missing (b.asOutboundRequest fileHash)

lemma perm_locations (b : RequestBuilder) (fileHash : Hash) :
    (b.asOutboundRequest fileHash).locations.Perm b.committedTreeLocations := perm_insertionSort _ _

lemma Plan.isGoodRequest (h : Plan t mtu missing b) (hne : missing.start < missing.stop) (hstop : missing.stop < 2 ^ 32)
    (hprod : ∀ blk, Meets missing blk → Productive t blk)
    (fileHash : Hash) : IsGoodRequest t mtu missing (b.asOutboundRequest fileHash) := by
  have hperm := b.perm_locations fileHash
  have hnodup : b.committedTreeLocations.Nodup := (nodup_append.mp h.located.nodup).1
  refine ⟨hperm.nodup_iff.mpr hnodup, fun l hl => h.wanted l (hperm.mem_iff.mp hl), h.ordered,
    fun x h1 h2 => ?_, ?_, fun henough => ?_⟩
  · obtain ⟨hlo, hval⟩ := h.data x h1 h2
    exact ⟨hlo, h2.trans_le h.stop_le, hval⟩
  · have hcost := h.cost
    rw [RequestBuilder.cost, h.tentative, size_of_le h.ordered (h.stop_le.trans_lt hstop)] at hcost
    rw [hperm.length_eq]
    exact hcost
  · by_contra hnone
    rw [not_or, not_not, not_lt] at hnone
    have hidle : b.Idle := ⟨List.Perm.eq_nil (hnone.1 ▸ hperm.symm), isEmpty_iff.mpr (h.ordered.antisymm hnone.2)⟩
    have hfirst : Meets missing (missing.start / zftpBlockSize) := ⟨le_rfl, (div_mul_le_self _ _).trans_lt hne⟩
    exact h.progress hne henough hidle _ hfirst (hprod _ hfirst)

lemma buildRequest_ok (h : buildRequest t mtu missing = .ok b) :
    buildLoop t mtu missing (zftpBlockSize + 1) missing.start ⟨[], [], .empty⟩ = .ok b ∧ 0 ≤ b.available mtu := by
  obtain ⟨b', hb', -, -, _, hav, h⟩ := of_bind3 h
  cases h
  exact ⟨hb', (liteAssert_eq_ok _ _).mp hav⟩

/-! ### Budgets that leave less than nothing -/

lemma not_requests_of_negative (hmtu : mtu < sizeofDataPacket ∨ 2 ^ 31 + sizeofDataPacket ≤ mtu) (hword : mtu < 2 ^ 32) :
    ¬Requests t mtu missing := by
  rintro ⟨b, hb, -⟩
  obtain ⟨hloop, hav⟩ := buildRequest_ok hb
  have hneg : (⟨[], [], .empty⟩ : RequestBuilder).available mtu < 0 := by
    have hcost : u32 (cost ⟨[], [], .empty⟩) = 49 := by decide
    rw [available, ← cost, hcost, int32, sub32]
    rw [sizeofDataPacket] at hmtu
    split <;> omega
  rw [buildLoop, if_neg (fun hgo => hgo.2.not_gt hneg)] at hloop
  cases hloop
  exact hav.not_gt hneg

/-! ### Missing sets within one block -/

def blockPart (R : DataRange) (blk : ℕ) : DataRange :=
  ⟨max R.start (blk * zftpBlockSize), min R.stop ((blk + 1) * zftpBlockSize)⟩

lemma blockPart_spec (hne : R.start < R.stop) (hblk : Meets R blk) :
    R.start ≤ (blockPart R blk).start ∧ (blockPart R blk).start < (blockPart R blk).stop ∧
      (blockPart R blk).stop ≤ R.stop ∧ (blockPart R blk).start / zftpBlockSize = blk ∧
      (blockPart R blk).stop ≤ (blk + 1) * zftpBlockSize := by
  obtain ⟨hfirst, hlast⟩ := hblk
  have hstart : R.start < (blk + 1) * zftpBlockSize :=
    (lt_nextBlock R.start).trans_le (Nat.mul_le_mul_right _ (Nat.succ_le_succ hfirst))
  have hnext : blk * zftpBlockSize < (blk + 1) * zftpBlockSize :=
    Nat.mul_lt_mul_of_pos_right (Nat.lt_succ_self _) zftpBlockSize_pos
  refine ⟨le_max_left _ _, max_lt (lt_min hne hstart) (lt_min hlast hnext), min_le_left _ _, ?_, min_le_right _ _⟩
  exact Nat.div_eq_of_lt_le (le_max_right _ _) (max_lt hstart hnext)

lemma lt_of_requestHashAncestors (hdepth : 0 < t.treeDepth) (h : b.requestHashAncestors t blk = .ok b')
    : blk < 2 ^ t.treeDepth := by
  rw [requestHashAncestors] at h
  obtain ⟨d, hd⟩ := Nat.exists_eq_succ_of_ne_zero hdepth.ne'
  rw [hd, requestHashAncestorsFrom] at h
  obtain ⟨l, hl, -⟩ := of_bind h
  have hcol := (treeIndex_eq_ok.mp hl).1
  rw [hd, Nat.sub_self, pow_zero, Nat.div_one] at hcol
  rwa [hd]

lemma lt_of_buildLoop {fuel : ℕ} (hlt : start < missing.stop) (hpos : 0 < b.available mtu)
    (h : buildLoop t mtu missing fuel start b = .ok b') :
    start / zftpBlockSize < 2 ^ t.treeDepth := by
  cases fuel with
  | zero => cases h
  | succ fuel =>
    rw [buildLoop, if_pos ⟨hlt, hpos⟩] at h
    obtain ⟨b1, h1, h⟩ := of_bind h
    rcases Nat.eq_zero_or_pos t.treeDepth with hzero | hdepth
    · rw [requestHashAncestors, hzero] at h1
      cases h1
      rw [if_neg (by omega)] at h
      obtain ⟨l, hl, -⟩ := of_bind h
      exact (treeIndex_eq_ok.mp hl).1
    · exact lt_of_requestHashAncestors hdepth h1

/-- The budget at which a range shows what is wrong with it: more than the whole tree costs. -/
def ampleBudget : ℕ := 2 ^ 30

lemma safeBudget_ample : SafeBudget ampleBudget := by
  refine ⟨?_, ?_⟩ <;> norm_num [sizeofDataPacket, ampleBudget]

lemma ample_enough (t : MerkleTree) : sizeofDataPacket + sizeofMerkleRecord * (2 * t.treeDepth + 1) ≤ ampleBudget := by
  have hdepth : t.treeDepth ≤ 16 := computeTreeDepth_le _
  simp only [sizeofDataPacket, sizeofMerkleRecord, ampleBudget]
  omega

lemma cost_start : (⟨[], [], .empty⟩ : RequestBuilder).cost = sizeofDataPacket := rfl

lemma located_start : (⟨[], [], .empty⟩ : RequestBuilder).Located t := ⟨nodup_nil, by rintro _ ⟨⟩⟩

lemma buildRequest_idle (hdiv : missing.start / zftpBlockSize = blk) (hne : missing.start < missing.stop)
    (hend : missing.stop ≤ (blk + 1) * zftpBlockSize)
    (hblk : blk < 2 ^ t.treeDepth) (hword : blk < 65535) (hidle : ¬Productive t blk) :
    ∀ b, buildRequest t ampleBudget missing = .ok b → b = ⟨[], [], .empty⟩ := by
  subst hdiv
  intro b hb
  obtain ⟨hloop, -⟩ := buildRequest_ok hb
  obtain ⟨b1, -, -, hsame, hstep⟩ := buildLoop_succ safeBudget_ample.high located_start hne
    (by norm_num [cost_start, sizeofDataPacket, ampleBudget]) hblk hword
  obtain rfl := hsame hidle
  have hleaf : (t.leaf (missing.start / zftpBlockSize)).state ≠ .validated := fun h => hidle (.inl h)
  rw [hstep, if_neg (by norm_num [cost_start, sizeofDataPacket, ampleBudget]), if_neg hleaf] at hloop
  -- the next block is past the missing set
  rw [show zftpBlockSize = 65535 + 1 from rfl, buildLoop, if_neg (by
    rintro ⟨hlt, -⟩
    exact absurd hlt (not_lt.mpr hend))] at hloop
  cases hloop
  rfl

lemma not_requests_of_idle (hdiv : missing.start / zftpBlockSize = blk) (hne : missing.start < missing.stop)
    (hend : missing.stop ≤ (blk + 1) * zftpBlockSize)
    (hblk : blk < 2 ^ t.treeDepth) (hword : blk < 65535) (hidle : ¬Productive t blk) :
    ¬Requests t ampleBudget missing := by
  rintro ⟨b, hb, hgood⟩
  obtain rfl := buildRequest_idle hdiv hne hend hblk hword hidle b hb
  rcases (hgood Hash.zero).progress (ample_enough t) with hloc | hdata
  · exact hloc rfl
  · exact absurd hdata (lt_irrefl _)

/-! ### A gap between validated leaves -/

lemma DataRange.accumulate_apart {r other : DataRange} (hr : r.start < r.stop) (hapart : r.stop < other.start)
    (ho : other.start ≤ other.stop) (u : DataRange) : r.accumulate other ≠ .ok u := by
  have hne : ¬r.isEmpty = true := by
    rw [DataRange.isEmpty_iff]
    omega
  rw [DataRange.accumulate, DataRange.maybeAccumulate, if_neg hne, if_neg (by omega),
    if_neg (by omega), if_neg (by omega)]
  rintro ⟨⟩

lemma ample_room (hloc : b.Located t) (hsize : b.requestRange.size ≤ zftpBlockSize) :
    b.cost + sizeofMerkleRecord * (2 * t.treeDepth) < ampleBudget := by
  have hlen := hloc.length_le
  have hdepth : t.treeDepth ≤ 16 := computeTreeDepth_le _
  simp only [cost, sizeofDataPacket, sizeofMerkleRecord, ampleBudget, zftpBlockSize] at *
  omega

/-- After data of an earlier block, the loop passes the blocks of a gap and fails at the validated block behind it. -/
lemma buildLoop_gap {k : ℕ} (hend : missing.stop = k * zftpBlockSize + 1) (hval : (t.leaf k).state = .validated)
    (hk : k < 2 ^ t.treeDepth) (hword : k < 65535) (n : ℕ) :
    ∀ (m : ℕ) (b : RequestBuilder), m + n = k → (∀ j, m ≤ j → j < k → (t.leaf j).state ≠ .validated) → b.Located t →
      b.requestRange.start < b.requestRange.stop → b.requestRange.stop < k * zftpBlockSize →
      b.requestRange.size ≤ zftpBlockSize →
      ∀ fuel b', buildLoop t ampleBudget missing fuel (m * zftpBlockSize) b ≠ .ok b' := by
  have hmtu := safeBudget_ample.high
  have hlimit : k * zftpBlockSize + 1 < 2 ^ 32 := by
    simp only [zftpBlockSize]
    omega
  induction n with
  | zero =>
    intro m b hm hgap hloc hrange hapart hsize fuel b' hb'
    obtain rfl : m = k := hm
    have hdiv : m * zftpBlockSize / zftpBlockSize = m := mul_div_block _
    have hroom := ample_room hloc hsize
    have hlt : m * zftpBlockSize < missing.stop := hend ▸ Nat.lt_succ_self _
    cases fuel with
    | zero => cases hb'
    | succ fuel =>
      obtain ⟨b1, hclimb, -, -, hstep⟩ := buildLoop_succ hmtu hloc hlt
        ((Nat.le_add_right _ _).trans_lt hroom) (hdiv.symm ▸ hk) (hdiv.symm ▸ hword)
      have hcost := hclimb.cost_le.trans_lt hroom
      rw [hstep, if_neg (Nat.not_lt.mpr hcost.le), nextBlock, hdiv, if_pos hval] at hb'
      obtain ⟨u, hu, -⟩ := of_bind hb'
      have hcommit : b1.commit.cost ≤ ampleBudget := (cost_commit b1).trans_le hcost.le
      have hnext : m * zftpBlockSize < (m + 1) * zftpBlockSize :=
        Nat.mul_lt_mul_of_pos_right (Nat.lt_succ_self _) zftpBlockSize_pos
      obtain ⟨hfirst, hle, -, -⟩ := clip_block hmtu hcommit hlt (hend ▸ hlimit) hnext (Nat.succ_mul m zftpBlockSize).le
      have hsame : b1.commit.requestRange = b.requestRange := hclimb.ext.range
      rw [hsame] at hu
      exact DataRange.accumulate_apart hrange (hfirst.symm ▸ hapart) (hfirst.symm ▸ hle) u hu
  | succ n ih =>
    intro m b hm hgap hloc hrange hapart hsize fuel b' hb'
    have hmk : m < k := by omega
    have hdiv : m * zftpBlockSize / zftpBlockSize = m := mul_div_block _
    have hroom := ample_room hloc hsize
    have hlt : m * zftpBlockSize < missing.stop := hend ▸ Nat.lt_succ_of_le (Nat.mul_le_mul_right _ hmk.le)
    cases fuel with
    | zero => cases hb'
    | succ fuel =>
      obtain ⟨b1, hclimb, -, -, hstep⟩ := buildLoop_succ hmtu hloc hlt
        ((Nat.le_add_right _ _).trans_lt hroom) (hdiv.symm ▸ hmk.trans hk) (hdiv.symm ▸ hmk.trans hword)
      have hcost := hclimb.cost_le.trans_lt hroom
      rw [hstep, if_neg (Nat.not_lt.mpr hcost.le), nextBlock, hdiv, if_neg (hgap m le_rfl hmk)] at hb'
      have hsame : b1.commit.requestRange = b.requestRange := hclimb.ext.range
      exact ih (m + 1) b1.commit (by omega) (fun j hj => hgap j (by omega))
        hclimb.ext.located.commit (hsame ▸ hrange) (hsame ▸ hapart) (hsame ▸ hsize) fuel b' hb'

/-- The last byte of a validated block, then a gap, then the first byte of a validated block: the
    request for them fails an assertion. -/
lemma not_requests_of_gap {i k : ℕ} (hfrom : missing.start = (i + 1) * zftpBlockSize - 1)
    (hto : missing.stop = k * zftpBlockSize + 1) (hi : (t.leaf i).state = .validated)
    (hk : (t.leaf k).state = .validated) (hik : i + 1 < k)
    (hgap : ∀ j, i + 1 ≤ j → j < k → (t.leaf j).state ≠ .validated) (hin : k < 2 ^ t.treeDepth)
    (hword : k < 65535) : ¬Requests t ampleBudget missing := by
  rintro ⟨b', hb', -⟩
  obtain ⟨hloop, -⟩ := buildRequest_ok hb'
  have hmtu := safeBudget_ample.high
  have hpos := zftpBlockSize_pos
  have hsucc : (i + 1) * zftpBlockSize = i * zftpBlockSize + zftpBlockSize := Nat.succ_mul _ _
  have hbetween : (i + 1) * zftpBlockSize < k * zftpBlockSize := Nat.mul_lt_mul_of_pos_right hik hpos
  have hdiv : missing.start / zftpBlockSize = i := by
    rw [hfrom]
    refine Nat.div_eq_of_lt_le ?_ ?_ <;> omega
  have hlimit : missing.stop < 2 ^ 32 := by
    rw [hto]
    simp only [zftpBlockSize]
    omega
  have hroom : (⟨[], [], .empty⟩ : RequestBuilder).cost + sizeofMerkleRecord * (2 * t.treeDepth)
      < ampleBudget := ample_room located_start (by decide)
  have hlt : missing.start < missing.stop := by omega
  obtain ⟨b1, hclimb, -, -, hstep⟩ := buildLoop_succ hmtu (located_start (t := t)) hlt
    ((Nat.le_add_right _ _).trans_lt hroom) (by rw [hdiv]; omega) (by rw [hdiv]; omega)
  have hcost := hclimb.cost_le.trans_lt hroom
  rw [hstep, if_neg (Nat.not_lt.mpr hcost.le), nextBlock, hdiv, if_pos hi] at hloop
  obtain ⟨u, hu, hloop⟩ := of_bind hloop
  have hcommit : b1.commit.cost < ampleBudget := (cost_commit b1).trans_lt hcost
  have hnext : missing.start < (i + 1) * zftpBlockSize := by omega
  obtain ⟨hfirst, -, hlast, hsome⟩ := clip_block hmtu hcommit.le hlt hlimit hnext (by omega)
  -- the first piece is what the range starts with
  have hempty : b1.commit.requestRange = .empty := hclimb.ext.range
  have hpiece : u = b1.commit.clip ampleBudget ⟨missing.start, min ((i + 1) * zftpBlockSize) missing.stop⟩ := by
    rw [hempty] at hu
    exact (Except.ok.inj hu).symm
  have hsize : u.size ≤ zftpBlockSize := by
    rw [hpiece, size_of_le (by rw [hfirst]; exact (hsome hcommit).le)
      ((hlast.trans_lt hbetween).trans (by omega)), hfirst]
    exact Nat.sub_le_of_le_add (hlast.trans (by omega))
  refine buildLoop_gap hto hk hin hword (k - (i + 1)) (i + 1) _ (by omega) hgap ?_ ?_ ?_ hsize _ _ hloop
  · exact ⟨hclimb.ext.located.commit.nodup, hclimb.ext.located.commit.lt⟩
  · rw [hpiece, hfirst]
    exact hsome hcommit
  · rw [hpiece]
    exact hlast.trans_lt hbetween

lemma exists_gap {P : ℕ → Prop} [DecidablePred P] {i j k : ℕ} (hij : i < j) (hjk : j < k) (hi : P i) (hj : ¬P j)
    (hk : P k) :
    ∃ i' k', i ≤ i' ∧ k' ≤ k ∧ i' + 1 < k' ∧ P i' ∧ P k' ∧ ∀ m, i' + 1 ≤ m → m < k' → ¬P m := by
  have hlast : ∃ i', i ≤ i' ∧ i' < j ∧ P i' ∧ ¬P (i' + 1) := by
    induction j, hij using Nat.le_induction with
    | base => exact ⟨i, le_rfl, Nat.lt_succ_self i, hi, hj⟩
    | succ j hij ih =>
      by_cases h : P j
      · exact ⟨j, by omega, Nat.lt_succ_self j, h, hj⟩
      · obtain ⟨i', h1, h2, h3⟩ := ih (by omega) h
        exact ⟨i', h1, by omega, h3⟩
  obtain ⟨i', hii, hi'j, hPi, hPs⟩ := hlast
  have hex : ∃ m, i' < m ∧ P m := ⟨k, by omega, hk⟩
  obtain ⟨hlt, hP⟩ := Nat.find_spec hex
  refine ⟨i', Nat.find hex, hii, Nat.find_min' hex ⟨by omega, hk⟩, ?_, hPi, hP, ?_⟩
  · rcases Nat.lt_or_eq_of_le (Nat.succ_le_of_lt hlt) with h | h
    · exact h
    · rw [← h] at hP
      exact absurd hP hPs
  · intro m hm hmlt hPm
    exact Nat.find_min hex hmlt ⟨hm, hPm⟩

/-! ### Ranges that are well served -/

/-- Every missing set inside the range leads to a good request, under every budget. -/
def Serves (t : MerkleTree) (R : DataRange) : Prop :=
  ∀ missing mtu, R.start ≤ missing.start → missing.start < missing.stop → missing.stop ≤ R.stop →
    SafeBudget mtu → Requests t mtu missing

/-- The condition on the tree: every block of the range is one of the tree's with something to ask for,
    and the validated leaves among them are consecutive. -/
structure Servable (t : MerkleTree) (R : DataRange) : Prop where
  inTree : ∀ blk, Meets R blk → blk < 2 ^ t.treeDepth
  productive : ∀ blk, Meets R blk → Productive t blk
  convex : Convex t R.start R.stop

lemma Meets.mono (h : Meets missing blk) (hstart : R.start ≤ missing.start) (hstop : missing.stop ≤ R.stop)
    : Meets R blk := ⟨(Nat.div_le_div_right hstart).trans h.1, h.2.trans_le hstop⟩

lemma Meets.lt_word (h : Meets R blk) (hR : R.stop ≤ t.metadata.fileLen) (hblk : blk < 2 ^ t.treeDepth)
    : blk < 65535 := by
  by_cases hlen : t.metadata.fileLen ≤ maxBlocksLen
  · exact Nat.lt_of_mul_lt_mul_right ((h.2.trans_le hR).trans_le hlen)
  · have hzero : t.treeDepth = 0 := by
      rw [MerkleTree.treeDepth, numBlocks_of_gt (Nat.lt_of_not_le hlen)]
      rfl
    rw [hzero] at hblk
    omega

lemma Servable.serves (h : Servable t R) (hR : R.stop ≤ t.metadata.fileLen) : Serves t R := by
  intro missing mtu hstart hne hstop hsafe
  have hlimit : missing.stop < 2 ^ 32 := (hstop.trans hR).trans_lt t.metadata.fileLen_lt
  have hconvex : Convex t missing.start missing.stop := fun i j k hi hij hjk hk =>
    h.convex i j k ((Nat.div_le_div_right hstart).trans hi) hij hjk (hk.trans_le hstop)
  have hin : ∀ blk, Meets missing blk → blk < 2 ^ t.treeDepth ∧ blk < 65535 := fun blk hblk =>
    have hm := hblk.mono hstart hstop
    ⟨h.inTree blk hm, hm.lt_word hR (h.inTree blk hm)⟩
  obtain ⟨b, hb, hplan⟩ := buildRequest_plans hsafe hconvex hin hlimit
  exact ⟨b, hb, hplan.isGoodRequest hne hlimit fun blk hblk =>
    h.productive blk (hblk.mono hstart hstop)⟩

lemma Serves.inTree (h : Serves t R) (hne : R.start < R.stop) (hblk : Meets R blk) : blk < 2 ^ t.treeDepth := by
  obtain ⟨hstart, hpart, hstop, hdiv, -⟩ := blockPart_spec hne hblk
  obtain ⟨b, hb, -⟩ := h _ _ hstart hpart hstop safeBudget_ample
  have hav : 0 < (⟨[], [], .empty⟩ : RequestBuilder).available ampleBudget := by
    rw [available_eq safeBudget_ample.high (by norm_num [cost_start, sizeofDataPacket]), cost_start]
    norm_num [ampleBudget, sizeofDataPacket]
  obtain ⟨hloop, -⟩ := buildRequest_ok hb
  have hlt := lt_of_buildLoop hpart hav hloop
  rwa [hdiv] at hlt

lemma Serves.productive (h : Serves t R) (hne : R.start < R.stop) (hR : R.stop ≤ t.metadata.fileLen)
    (hblk : Meets R blk) : Productive t blk := by
  by_contra hidle
  have hin := h.inTree hne hblk
  have hword := hblk.lt_word hR hin
  obtain ⟨hstart, hpart, hstop, hdiv, hend⟩ := blockPart_spec hne hblk
  exact not_requests_of_idle hdiv hpart hend hin hword hidle (h _ _ hstart hpart hstop safeBudget_ample)

lemma Serves.convex (h : Serves t R) (hne : R.start < R.stop) (hR : R.stop ≤ t.metadata.fileLen) :
    Convex t R.start R.stop := by
  intro i j k hi hij hjk hk hvi hvk
  by_contra hvj
  obtain ⟨i', k', hii, hkk, hik, hPi, hPk, hgap⟩ :=
    exists_gap (P := fun n => (t.leaf n).state = .validated) hij hjk hvi hvj hvk
  have hstop : k' * zftpBlockSize < R.stop := (mul_le_mul_right _ hkk).trans_lt hk
  have hmeets : Meets R k' := ⟨by omega, hstop⟩
  have hin := h.inTree hne hmeets
  have hpos := zftpBlockSize_pos
  have hstart : R.start < (i' + 1) * zftpBlockSize := (lt_nextBlock R.start).trans_le
    (mul_le_mul_right _ (succ_le_succ (hi.trans hii)))
  have hbetween : (i' + 1) * zftpBlockSize < k' * zftpBlockSize := mul_lt_mul_of_pos_right hik hpos
  have hserved := h ⟨(i' + 1) * zftpBlockSize - 1, k' * zftpBlockSize + 1⟩ ampleBudget
    (by dsimp only; omega) (by dsimp only; omega) hstop safeBudget_ample
  exact not_requests_of_gap rfl rfl hPi hPk hik hgap hin (hmeets.lt_word hR hin) hserved

/-- PLANNING: the missing sets inside a range of the file all lead to good requests if and only if the
    tree has something to ask for at each block of the range and its validated leaves are consecutive;
    and no budget below that of an empty reply, or `2 ^ 31` or more above it, leads to a request at all. -/
theorem buildRequest_serves_iff (hne : R.start < R.stop) (hR : R.stop ≤ t.metadata.fileLen) :
    (Serves t R ↔ Servable t R) ∧ ∀ missing mtu, mtu < sizeofDataPacket ∨ 2 ^ 31 + sizeofDataPacket ≤ mtu →
      mtu < 2 ^ 32 → ¬Requests t mtu missing :=
  ⟨⟨fun h => ⟨fun _ => h.inTree hne, fun _ => h.productive hne hR, h.convex hne hR⟩,
    fun h => h.serves hR⟩, fun _ _ => not_requests_of_negative⟩

/-- What holds of the tree after a step. -/
def treeAfter {α : Type} (s : Checked Client) (f : MerkleTree → α) : Option α :=
  match s with
  | .ok s => s.file.tree.map f
  | .error _ => none

lemma treeAfter_eq_some {α : Type} {s : Checked Client} {f : MerkleTree → α} {v : α} (h : treeAfter s f = some v)
    : ∃ s' t, s = .ok s' ∧ s'.file.tree = some t ∧ f t = v := by
  cases s with
  | error e => cases h
  | ok s =>
    obtain ⟨t, ht, hv⟩ := Option.map_eq_some_iff.mp h
    exact ⟨s, t, rfl, ht, hv⟩

/-- A reply with the honest records of the first two leaves: they are validated, the third leaf is unknown, and
    the tree of three blocks is well served. -/
theorem buildRequest_serves_validated : ∃ s t, installReply zeroHash clientConfig
      (Client.fresh (Hash.fill 6) (ZBlockCache.fresh none))
      (zeroReply [⟨1, Hash.fill 3⟩, ⟨2, Hash.fill 4⟩, ⟨3, Hash.fill 1⟩, ⟨4, Hash.fill 1⟩]) = .ok s ∧
    s.file.tree = some t ∧ (t.leaf 1).state = .validated ∧ (t.leaf 2).state = .unknown ∧ Serves t ⟨0, 196608⟩ := by
  have heval : treeAfter (installReply zeroHash clientConfig (Client.fresh (Hash.fill 6) (ZBlockCache.fresh none))
      (zeroReply [⟨1, Hash.fill 3⟩, ⟨2, Hash.fill 4⟩, ⟨3, Hash.fill 1⟩, ⟨4, Hash.fill 1⟩]))
      (fun t => (t.metadata.fileLen, (t.leaf 0).state, (t.leaf 1).state, (t.leaf 2).state)) =
        some (196608, .validated, .validated, .unknown) := by
    decide +kernel
  obtain ⟨s, t, hs, ht, hnodes⟩ := treeAfter_eq_some heval
  obtain ⟨hlen, h0, h1, h2⟩ : t.metadata.fileLen = 196608 ∧ (t.leaf 0).state = .validated ∧
      (t.leaf 1).state = .validated ∧ (t.leaf 2).state = .unknown := by
    simpa only [Prod.mk.injEq] using hnodes
  have hdepth : t.treeDepth = 2 := by
    rw [MerkleTree.treeDepth, MerkleTree.numBlocks, hlen]
    decide
  have hthree : ∀ {blk : ℕ}, blk * zftpBlockSize < 196608 → blk = 0 ∨ blk = 1 ∨ blk = 2 := fun hblk => by
    simp only [zftpBlockSize] at hblk
    omega
  refine ⟨s, t, hs, ht, h1, h2, (buildRequest_serves_iff (by decide) hlen.ge).1.mpr
    ⟨fun blk hblk => ?_, fun blk hblk => ?_, fun i j k _ hij hjk hk hi _ => ?_⟩⟩
  · rw [hdepth]
    rcases hthree hblk.2 with rfl | rfl | rfl <;> decide
  · rcases hthree hblk.2 with rfl | rfl | rfl
    · exact .inl h0
    · exact .inl h1
    · exact .inr ⟨by rw [hdepth]; decide, .inl h2⟩
  · obtain rfl : j = 1 := by
      have := hthree hk
      omega
    exact h1

/-- STUCK: a reply with the two honest records below the root and two forged leaves leaves the forged
    ones tentative. From then on a request for the first block is empty. -/
theorem not_buildRequest_good :
    ¬∀ (zhash : Bytes → Hash) (cfg : ZCacheConfig) (fileHash : Hash) (zcbs : List Datagram) (s : Client)
      (t : MerkleTree), run (receiveDatagram zhash cfg)
        (Client.fresh fileHash (ZBlockCache.fresh none)) zcbs = .ok s → s.file.tree = some t →
      ∀ missing mtu, missing.start < missing.stop → missing.stop ≤ t.metadata.fileLen →
        sizeofDataPacket ≤ mtu → mtu < 2 ^ 31 → Requests t mtu missing := by
  intro hclaim
  have hparse := parse_zeroDatagram
    [⟨1, Hash.fill 3⟩, ⟨2, Hash.fill 4⟩, ⟨3, Hash.fill 9⟩, ⟨4, Hash.fill 9⟩] (by decide) (by simp)
  have heval : treeAfter (installReply zeroHash clientConfig (Client.fresh (Hash.fill 6) (ZBlockCache.fresh none))
      (zeroReply [⟨1, Hash.fill 3⟩, ⟨2, Hash.fill 4⟩, ⟨3, Hash.fill 9⟩, ⟨4, Hash.fill 9⟩]))
      (fun t => (t.metadata.fileLen, (t.node 3).state, (t.node 4).state)) = some (196608, .tentative, .tentative) := by
    decide +kernel
  obtain ⟨s, t, hs, ht, hnodes⟩ := treeAfter_eq_some heval
  obtain ⟨hlen, hleaf, hsib⟩ : t.metadata.fileLen = 196608 ∧ (t.node 3).state = .tentative ∧
      (t.node 4).state = .tentative := by
    simpa only [Prod.mk.injEq] using hnodes
  have hdepth : t.treeDepth = 2 := by
    rw [MerkleTree.treeDepth, MerkleTree.numBlocks, hlen]
    decide
  have hloc : t.leafLoc 0 = 3 := by
    rw [MerkleTree.leafLoc, hdepth]
    rfl
  have hidle : ¬Productive t 0 := by
    rintro (hval | ⟨-, hunk | hunk⟩)
    · rw [MerkleTree.leaf, hloc, hleaf] at hval
      cases hval
    · rw [MerkleTree.leaf, hloc, hleaf] at hunk
      cases hunk
    · rw [hloc, show sib 3 = 4 from rfl, hsib] at hunk
      cases hunk
  have hdiv : (⟨0, 1⟩ : DataRange).start / zftpBlockSize = 0 := by decide
  refine not_requests_of_idle hdiv Nat.one_pos (by decide)
    (by rw [hdepth]; decide) (by decide) hidle (hclaim zeroHash clientConfig (Hash.fill 6)
      [zeroDatagram [⟨1, Hash.fill 3⟩, ⟨2, Hash.fill 4⟩, ⟨3, Hash.fill 9⟩, ⟨4, Hash.fill 9⟩] (by decide)]
      s t ?_ ht ⟨0, 1⟩ ampleBudget Nat.one_pos ?_ ?_ ?_)
  · simp only [run, receiveDatagram, hparse, ok_bind, hs]
  · rw [hlen]
    decide
  · norm_num [sizeofDataPacket, ampleBudget]
  · norm_num [ampleBudget]

end RequestBuilder

end Embassies.Zftp
