import Embassies.Utils.CoalescingWords

/-! Best fit: which free range `allocate_range` takes.

    The sizes are compared by the sign of a 32-bit difference. A request of more than `2^31` bytes, which no range can
    serve, compares as smaller than the ranges that are more than `2^31` bytes smaller than it. The search then starts at
    the root of the by-size tree the wrong way round, and whether it is misled is decided there. -/

namespace Embassies.Utils

open Checked List Range

namespace AVLTree

variable {E K L : Type} [LinearOrder L] {c : AVLKeys E K} {rank : K → L} {S : Set K} {t : AVLTree E} {M : Set E} {key : K}
  {v : Label E}

def AtRoot (t : AVLTree E) (e : E) : Prop := ∃ root n, t.tree = some root ∧ t.get root = .ok n ∧ n.element = some e

lemma search_none_iff (equal candidate : E → Bool) {l r : BinaryTree (Label E)}
    (hright : ∀ w ∈ inorder r, equal w.elem = true ∨ candidate w.elem = true → equal v.elem = true ∨ candidate v.elem = true) :
    search equal candidate .left (join .left l v r) = none ↔ ¬(equal v.elem = true ∨ candidate v.elem = true) := by
  rw [search_join]
  split
  case isTrue hequal => exact iff_of_false nofun (not_not_intro (.inl hequal))
  split
  case isTrue hcandidate => exact iff_of_false nofun (not_not_intro (.inr hcandidate))
  case isFalse hequal hcandidate =>
    refine iff_of_true ?_ (not_or.mpr ⟨hequal, hcandidate⟩)
    cases hsearch : search equal candidate .left r with
    | none => rfl
    | some w =>
      obtain ⟨hw, haccept⟩ := mem_of_search w hsearch
      exact absurd (hright w hw haccept) (not_or.mpr ⟨hequal, hcandidate⟩)

lemma At.atRoot_iff {l r : BinaryTree (Label E)} (hat : t.At (.node v l r) []) {e : E} :
    t.AtRoot e ↔ e = v.elem := by
  have htree : t.tree = some v.addr := hat.pathLinked
  constructor
  · rintro ⟨root, n, hroot, hget, helement⟩
    cases hroot.symm.trans htree
    cases Except.ok.inj (hget.symm.trans hat.linked.1)
    exact (Option.some.inj helement).symm
  · rintro rfl
    exact ⟨v.addr, _, htree, hat.linked.1, cell_element ..⟩

lemma Stores.mem_of_atRoot (h : Stores c rank S t M) {e : E} (hroot : t.AtRoot e) : e ∈ M := by
  obtain ⟨xs, ⟨tree, hat, -, rfl⟩, -, hmem⟩ := h
  cases tree with
  | nil =>
    obtain ⟨root, n, hnone, -⟩ := hroot
    cases hnone.symm.trans (show t.tree = none from hat.pathLinked)
  | node v l r =>
    obtain rfl := hat.atRoot_iff.mp hroot
    exact (hmem v.elem).mp (mem_map_of_mem (mem_append_right _ mem_cons_self))

/-- A search that accepts small elements rather than large ones finds nothing exactly when it does not accept the root. -/
lemma Stores.searchUp_none_iff (h : Stores c rank S t M)
    (hanti : ∀ x ∈ M, ∀ y ∈ M, rank (c.getKey x) < rank (c.getKey y) →
      (c.eq (c.getKey y) key = true ∨ c.gt (c.getKey y) key = true) →
      c.eq (c.getKey x) key = true ∨ c.gt (c.getKey x) key = true) : t.findFirstGreaterThanOrEqualTo c key = .ok none ↔
      ∀ e, t.AtRoot e → ¬(c.eq (c.getKey e) key = true ∨ c.gt (c.getKey e) key = true) := by
  obtain ⟨xs, ⟨tree, hat, -, rfl⟩, hsorted, hmem⟩ := h
  have htree : t.tree = rootAddr tree := hat.pathLinked
  cases tree with
  | nil =>
    refine iff_of_true ?_ ?_
    · rw [AVLTree.findFirstGreaterThanOrEqualTo, findNode, htree]
      rfl
    · rintro e ⟨root, n, hroot, -⟩
      rw [htree] at hroot
      cases hroot
  | node v l r =>
    have hlabel : ∀ w ∈ inorder (.node v l r), w.elem ∈ M := fun w hw => (hmem w.elem).mp (mem_map_of_mem hw)
    have hself : v ∈ inorder (.node v l r) := mem_append_right _ mem_cons_self
    have hnode := search_none_iff (fun e => c.eq (c.getKey e) key) (fun e => c.gt (c.getKey e) key) (v := v) (l := l) (r := r) ?_
    · rw [AVLTree.findFirstGreaterThanOrEqualTo, hat.findNode_eq, ok_bind,
        elementOf_spec hat fun w hw => (mem_of_search w hw).1]
      simp only [hat.atRoot_iff, forall_eq]
      rw [← hnode, join]
      cases search _ _ _ _ with
      | none => exact iff_of_true rfl rfl
      | some w => exact iff_of_false (by rintro ⟨⟩) (by rintro ⟨⟩)
    · intro w hw
      have hpair : rank (c.getKey v.elem) < rank (c.getKey w.elem) := by
        have hpairwise := pairwise_map.mp hsorted.pairwise
        rw [inorder, pairwise_append, pairwise_cons] at hpairwise
        exact hpairwise.2.1.1 w hw
      exact hanti v.elem (hlabel v hself) w.elem (hlabel w (mem_append_right _ (mem_cons_of_mem v hw))) hpair

end AVLTree

namespace CoalescingAllocator

open AVLTree Range

variable {U : Type} {s : CoalescingAllocator U} {F : Set Range} {A : Set (RangeByStartElt U)} {r : Range} {size : ℕ}

/-- The free ranges once the first `size` bytes of `r` are allocated: the others, and the remainder of `r`. -/
def remaining (F : Set Range) (r : Range) (size : ℕ) : Set Range :=
  { q | q ∈ F ∧ q ≠ r ∨ r.start + size < r.stop ∧ q = ⟨r.start + size, r.stop⟩ }

/-- The smallest of the free ranges that are large enough, the lowest among equals. -/
structure Smallest (F : Set Range) (size : ℕ) (r : Range) : Prop where
  mem : r ∈ F
  large : size ≤ r.size
  least : ∀ q ∈ F, size ≤ q.size → r.size < q.size ∨ r.size = q.size ∧ r.start ≤ q.start

/-- BEST FIT: the request fails no assert; it is granted exactly when some free range is large enough, and then with the
    front of the smallest one, everything else staying as it is. -/
def BestFit (s : CoalescingAllocator U) (F : Set Range) (A : Set (RangeByStartElt U)) (size : ℕ) (u : U) : Prop :=
  (s.allocateRange size u = .ok (s, none) ∧ ∀ r ∈ F, r.size < size) ∨
  ∃ r s', Smallest F size r ∧ s.allocateRange size u = .ok (s', some ⟨r.start, r.start + size⟩) ∧
    s'.Layout (remaining F r size) (insert ⟨⟨r.start, r.start + size⟩, some ⟨s.nextObj, u⟩⟩ A)

lemma remaining_of_eq (hstop : r.stop ≤ r.start + size) : remaining F r size = F \ {r} := by
  ext q
  refine or_iff_left ?_
  rintro ⟨hlt, -⟩
  omega

lemma remaining_of_lt (hstop : r.start + size < r.stop) :
    remaining F r size = insert ⟨r.start + size, r.stop⟩ (F \ {r}) := by
  ext q
  rw [Set.mem_insert_iff, or_comm]
  exact or_congr Iff.rfl (and_iff_right hstop)

lemma remaining_spec (h : Coalesced start stop F) (hr : r ∈ F) (hpos : 0 < size) (hsize : r.start + size ≤ r.stop) :
    Coalesced start stop (remaining F r size) ∧
      freeSpace (remaining F r size) = freeSpace F \ Set.Ico r.start (r.start + size) := by
  have hothers : Coalesced start stop (F \ {r}) := h.mono Set.sdiff_subset
  have hspace := h.disjointed.covered_diff hr
  rcases Nat.lt_or_eq_of_le hsize with hlt | heq
  · rw [remaining_of_lt hlt]
    refine ⟨hothers.insert hlt ?_, ?_⟩
    · rintro q ⟨hq, hne⟩
      have hgap := h.gap q hq r hr hne
      dsimp only
      omega
    · have hends := diff_union_ends (b := r.start) (c := r.start + size) le_rfl (by omega) hsize
        (fun x hx => (⟨r, hr, hx⟩ : x ∈ freeSpace F))
      rw [Set.Ico_self, Set.union_empty] at hends
      rw [freeSpace, covered_insert, hspace]
      exact hends
  · rw [remaining_of_eq heq.ge]
    refine ⟨hothers, ?_⟩
    rw [freeSpace, hspace, heq]

lemma eq_of_freeSpace_eq {F' : Set Range} (h : Coalesced start stop F) (h' : Coalesced start stop F')
    (heq : freeSpace F = freeSpace F') : F = F' := by
  have hsub : ∀ {G G' : Set Range}, Coalesced start stop G → Coalesced start stop G' →
      freeSpace G = freeSpace G' → G ⊆ G' := by
    intro G G' hG hG' hspace q hq
    obtain ⟨p, hp, hstart, hstop⟩ := hG.exists_of_covered_eq hG' hspace hq
    have hpq : p = q := by
      cases p
      cases q
      simp_all
    exact hpq ▸ hp
  exact Set.Subset.antisymm (hsub h h' heq) (hsub h' h heq.symm)

lemma bestFit_of_le (h : s.Layout F A) (hpos : 0 < size) (hsize : size ≤ 2 ^ 31) (u : U) : BestFit s F A size u := by
  rcases allocateRange_spec h hsize u with ⟨hrun, hzero | hnone⟩ | ⟨r, s', F', hr, -, hlarge, hbest, hrun, hlayout, hspace, -⟩
  · omega
  · exact Or.inl ⟨hrun, hnone⟩
  · refine Or.inr ⟨r, s', ⟨hr, hlarge, ?_⟩, hrun, ?_⟩
    · intro q hq hq'
      have hle := hbest q hq hq'
      rwa [sizeRank, sizeRank, Prod.Lex.toLex_le_toLex] at hle
    · rw [size_eq] at hlarge
      obtain ⟨hcoalesced, hcovered⟩ := remaining_spec h.free.coalesced hr hpos (by omega)
      have hF : F' = remaining F r size :=
        eq_of_freeSpace_eq hlayout.free.coalesced hcoalesced (hspace.trans hcovered.symm)
      exact hF ▸ hlayout

lemma accepts_iff (hr : r ∈ sizeKeys) (hlarge : 2 ^ 31 < size) (hword : size < 2 ^ 32) :
    (bySize.eq (bySize.getKey r) ⟨0, size⟩ = true ∨ bySize.gt (bySize.getKey r) ⟨0, size⟩ = true) ↔
      r.size + 2 ^ 31 < size := by
  obtain ⟨-, hle, hpos⟩ : r.start < 2 ^ 31 ∧ r.size ≤ 2 ^ 31 ∧ 0 < r.size := hr
  have hkeySize : (⟨0, size⟩ : Range).size = size := size_eq _
  have hsub : sub32 r.size size = r.size + 2 ^ 32 - size := Nat.mod_eq_of_lt (by omega)
  have hne : int32 (sub32 r.size size) ≠ 0 := by
    rw [hsub, int32]
    split <;> omega
  have hcmp : cmpSize r ⟨0, size⟩ = int32 (sub32 r.size size) := by
    rw [cmpSize, hkeySize, if_pos hne]
  have hsign : 0 < int32 (sub32 r.size size) ↔ r.size + 2 ^ 31 < size := by
    rw [hsub, int32]
    split <;> omega
  show (decide (cmpSize r ⟨0, size⟩ = 0) = true ∨ decide (0 < cmpSize r ⟨0, size⟩) = true) ↔ _
  rw [decide_eq_true_eq, decide_eq_true_eq, hcmp, hsign]
  exact or_iff_right hne

/-- A request of more than `2^31` bytes is turned down exactly when the root does not mislead the search. -/
lemma bestFit_iff_of_lt (h : s.Layout F A) (hlarge : 2 ^ 31 < size) (hword : size < 2 ^ 32) (u : U) :
    BestFit s F A size u ↔ ∀ r, s.freeBySizeTree.AtRoot r → size ≤ r.size + 2 ^ 31 := by
  have hnone : ∀ r ∈ F, r.size < size := by
    intro r hr
    have hkey := h.free.mem_sizeKeys hr
    have hle : r.size ≤ 2 ^ 31 := hkey.2.1
    omega
  have hmisled : ∀ r ∈ F, (bySize.eq (bySize.getKey r) ⟨0, size⟩ = true ∨ bySize.gt (bySize.getKey r) ⟨0, size⟩ = true ↔
      r.size + 2 ^ 31 < size) := fun r hr => accepts_iff (h.free.mem_sizeKeys hr) hlarge hword
  have hsearch : s.freeBySizeTree.findFirstGreaterThanOrEqualTo bySize ⟨0, size⟩ = .ok none ↔
      ∀ r, s.freeBySizeTree.AtRoot r →
        ¬(bySize.eq (bySize.getKey r) ⟨0, size⟩ = true ∨ bySize.gt (bySize.getKey r) ⟨0, size⟩ = true) := by
    refine h.free.size.searchUp_none_iff ?_
    intro p hp q hq hlt haccept
    have hle : p.size ≤ q.size := by
      have hrank : sizeRank p < sizeRank q := hlt
      rw [sizeRank, sizeRank, Prod.Lex.toLex_lt_toLex] at hrank
      omega
    have hq' := (hmisled q hq).mp haccept
    exact (hmisled p hp).mpr (by omega)
  have hturned : BestFit s F A size u ↔ s.freeBySizeTree.findFirstGreaterThanOrEqualTo bySize ⟨0, size⟩ = .ok none := by
    have hne : size ≠ 0 := by omega
    obtain ⟨x, hfind, hx⟩ := h.free.size.findFirstGreaterThanOrEqualTo_mem ⟨0, size⟩
    rw [hfind]
    cases x with
    | none =>
      refine iff_of_true (Or.inl ⟨?_, hnone⟩) rfl
      rw [allocateRange, if_neg hne, hfind, ok_bind, pure_eq_ok]
    | some q =>
      have hrun : s.allocateRange size u = .error .liteAssert := by
        rw [allocateRange, if_neg hne, hfind, ok_bind]
        exact allocateFrom_large h (hx q rfl).1 hlarge u
      refine iff_of_false ?_ (by rintro ⟨⟩)
      rintro (⟨hok, -⟩ | ⟨r, s', -, hok, -⟩)
      · cases hok.symm.trans hrun
      · cases hok.symm.trans hrun
  rw [hturned, hsearch]
  refine forall_congr' fun r => forall_congr' fun hroot => ?_
  rw [hmisled r (h.free.size.mem_of_atRoot hroot), not_lt]

/-- EXACTLY WHEN: for every state below `2^31` and every word, the request is served by best fit if and only if the range
    at the root of the by-size tree is not more than `2^31` bytes smaller than what is asked for. -/
theorem bestFit_iff (s : CoalescingAllocator U) (F : Set Range) (A : Set (RangeByStartElt U)) (h : s.Layout F A)
    (size : ℕ) (hpos : 0 < size) (hword : size < 2 ^ 32) (u : U) :
    BestFit s F A size u ↔ ∀ r, s.freeBySizeTree.AtRoot r → size ≤ r.size + 2 ^ 31 := by
  rcases Nat.lt_or_ge (2 ^ 31) size with hlarge | hle
  · exact bestFit_iff_of_lt h hlarge hword u
  · exact iff_of_true (bestFit_of_le h hpos hle u) fun r _ => by omega

lemma layout_tenBytes : ∃ (s : CoalescingAllocator Unit) (F : Set Range), (init true).createEmptyRange ⟨4096, 4106⟩ = .ok s ∧
    s.Layout F ∅ ∧ freeSpace F = Set.Ico 4096 4106 := by
  have h := init_layout (U := Unit) true
  obtain ⟨a, b, F, hrun, hfree, hspace⟩ := createEmptyRange_spec (r := ⟨4096, 4106⟩) h.free (by decide) (by decide) (by
    rw [freeSpace, covered_empty]
    exact Set.disjoint_empty _)
  rw [freeSpace, freeSpace, covered_empty, Set.empty_union] at hspace
  refine ⟨_, F, hrun, ⟨hfree, h.allocated.congr rfl rfl, ?_⟩, hspace⟩
  rw [allocatedSpace, covered_empty]
  exact Set.disjoint_empty _

/-- All ten bytes can be asked for. -/
theorem bestFit_iff_tenBytes : ∃ (s : CoalescingAllocator Unit) (F : Set Range), s.Layout F ∅ ∧
    freeSpace F = Set.Ico 4096 4106 ∧ BestFit s F ∅ 10 () := by
  obtain ⟨s, F, -, h, hspace⟩ := layout_tenBytes
  exact ⟨s, F, h, hspace, (bestFit_iff s F ∅ h 10 (by norm_num) (by norm_num) ()).mpr fun r _ => by omega⟩

/-- A request of `2^32 - 1` bytes is taken to be smaller than the ten bytes that are free, and fails the assert on the
    range it is given. -/
theorem not_always_bestFit :
    ¬∀ (s : CoalescingAllocator Unit) (F : Set Range) (A : Set (RangeByStartElt Unit)), s.Layout F A →
      ∀ size, 0 < size → size < 2 ^ 32 → BestFit s F A size () := by
  intro hall
  obtain ⟨s, F, hcreate, h, -⟩ := layout_tenBytes
  have hfault : ((init true : CoalescingAllocator Unit).createEmptyRange ⟨4096, 4106⟩ >>= fun s =>
      s.allocateRange (2 ^ 32 - 1) ()) = .error .liteAssert := rfl
  rw [hcreate, ok_bind] at hfault
  rcases hall s F ∅ h (2 ^ 32 - 1) (by norm_num) (by norm_num) with ⟨hok, -⟩ | ⟨r, s', -, hok, -⟩
  · cases hok.symm.trans hfault
  · cases hok.symm.trans hfault

end CoalescingAllocator

end Embassies.Utils
