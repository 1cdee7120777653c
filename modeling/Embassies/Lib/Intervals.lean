import Mathlib.Data.Set.Card
import Mathlib.Order.CompletePartialOrder

/-! Families of half-open intervals of naturals.

    A family is a set of indices, each with a lower and an upper bound. What it covers, when its members do
    not overlap or do not even touch, and how that changes when a member is added or taken out. -/

namespace Embassies

open Set

variable {ι : Type} (lo hi : ι → ℕ)

/-- The points of the members of a family. -/
def covered (M : Set ι) : Set ℕ := { x | ∃ i ∈ M, lo i ≤ x ∧ x < hi i }

/-- No member is empty, and no two overlap. -/
structure Disjointed (M : Set ι) : Prop where
  nonempty : ∀ i ∈ M, lo i < hi i
  disjoint : ∀ i ∈ M, ∀ j ∈ M, i ≠ j → hi i ≤ lo j ∨ hi j ≤ lo i

/-- No member is empty, and between any two there is a gap. -/
structure Coalesced (M : Set ι) : Prop where
  nonempty : ∀ i ∈ M, lo i < hi i
  gap : ∀ i ∈ M, ∀ j ∈ M, i ≠ j → hi i < lo j ∨ hi j < lo i

/-- The points from `a` up to `b` are in the set, and the set goes on at neither end. -/
structure MaximalRun (S : Set ℕ) (a b : ℕ) : Prop where
  nonempty : a < b
  subset : Set.Ico a b ⊆ S
  above : b ∉ S
  below : ∀ x, x + 1 = a → x ∉ S

variable {lo hi} {M N : Set ι} {i j : ι} {x : ℕ}

lemma mem_covered : x ∈ covered lo hi M ↔ ∃ i ∈ M, lo i ≤ x ∧ x < hi i := Iff.rfl

lemma covered_empty : covered lo hi ∅ = ∅ := by
  ext x
  simp [mem_covered]

lemma covered_insert : covered lo hi (insert i M) = covered lo hi M ∪ Set.Ico (lo i) (hi i) := by
  ext x
  simp [mem_covered, or_comm]

lemma Coalesced.disjointed (h : Coalesced lo hi M) : Disjointed lo hi M :=
  ⟨h.nonempty, fun i hi' j hj hne => (h.gap i hi' j hj hne).imp Nat.le_of_lt Nat.le_of_lt⟩

lemma Disjointed.eq_of_mem (h : Disjointed lo hi M) (hi' : i ∈ M) (hj : j ∈ M) (hxi : lo i ≤ x ∧ x < hi i)
    (hxj : lo j ≤ x ∧ x < hi j) : i = j := by
  by_contra hne
  have := h.disjoint i hi' j hj hne
  omega

lemma Coalesced.exists_of_Ico_subset (h : Coalesced lo hi M) {a n : ℕ} (hn : 0 < n)
    (hsub : Set.Ico a (a + n) ⊆ covered lo hi M) : ∃ i ∈ M, lo i ≤ a ∧ a + n ≤ hi i := by
  obtain ⟨i, hi', hlo, hhi⟩ := hsub ⟨le_rfl, by omega⟩
  refine ⟨i, hi', hlo, ?_⟩
  by_contra hlt
  obtain ⟨j, hj, hlo', hhi'⟩ := hsub (a := hi i) ⟨by omega, by omega⟩
  have hne : i ≠ j := by
    rintro rfl
    omega
  have := h.gap i hi' j hj hne
  omega

/-- Families that cover the same points, with a gap between any two members, have the same members. -/
lemma Coalesced.exists_of_covered_eq (h : Coalesced lo hi M) (h' : Coalesced lo hi N)
    (heq : covered lo hi M = covered lo hi N) (hi' : i ∈ M) : ∃ j ∈ N, lo j = lo i ∧ hi j = hi i := by
  have hne := h.nonempty i hi'
  have hsub : Set.Ico (lo i) (lo i + (hi i - lo i)) ⊆ covered lo hi N := fun x hx =>
    heq ▸ ⟨i, hi', hx.1, by have := hx.2; omega⟩
  obtain ⟨j, hj, hlo, hhi⟩ := h'.exists_of_Ico_subset (by omega) hsub
  have hsub' : Set.Ico (lo j) (lo j + (hi j - lo j)) ⊆ covered lo hi M := fun x hx =>
    heq ▸ ⟨j, hj, hx.1, by have := hx.2; omega⟩
  obtain ⟨k, hk, hlo', hhi'⟩ := h.exists_of_Ico_subset (by omega) hsub'
  obtain rfl := h.disjointed.eq_of_mem hi' hk (x := lo i) ⟨le_rfl, hne⟩ ⟨by omega, by omega⟩
  exact ⟨j, hj, by omega, by omega⟩

/-- The members of a family with gaps between any two are the maximal runs of what it covers. -/
lemma Coalesced.maximalRun_iff (h : Coalesced lo hi M) {a b : ℕ} :
    MaximalRun (covered lo hi M) a b ↔ ∃ i ∈ M, lo i = a ∧ hi i = b := by
  constructor
  · intro hrun
    have hne := hrun.nonempty
    obtain ⟨i, hi', hlo, hhi⟩ := h.exists_of_Ico_subset (a := a) (n := b - a) (by omega)
      (by rw [Nat.add_sub_of_le hne.le]; exact hrun.subset)
    refine ⟨i, hi', ?_, ?_⟩
    · by_contra hlt
      exact hrun.below (a - 1) (by omega) ⟨i, hi', by omega, by omega⟩
    · by_contra hlt
      exact hrun.above ⟨i, hi', by omega, by omega⟩
  · rintro ⟨i, hi', rfl, rfl⟩
    have hne := h.nonempty i hi'
    refine ⟨hne, fun x hx => ⟨i, hi', hx⟩, ?_, ?_⟩
    · rintro ⟨j, hj, hlo, hhi⟩
      have := h.gap i hi' j hj (by rintro rfl; omega)
      omega
    · rintro x hx ⟨j, hj, hlo, hhi⟩
      have := h.gap i hi' j hj (by rintro rfl; omega)
      omega

lemma Disjointed.mono (h : Disjointed lo hi N) (hsub : M ⊆ N) : Disjointed lo hi M :=
  ⟨fun i hi' => h.nonempty i (hsub hi'), fun i hi' j hj => h.disjoint i (hsub hi') j (hsub hj)⟩

lemma Coalesced.mono (h : Coalesced lo hi N) (hsub : M ⊆ N) : Coalesced lo hi M :=
  ⟨fun i hi' => h.nonempty i (hsub hi'), fun i hi' j hj => h.gap i (hsub hi') j (hsub hj)⟩

lemma Disjointed.insert (h : Disjointed lo hi M) (hne : lo i < hi i) (hdisj : ∀ j ∈ M, hi j ≤ lo i ∨ hi i ≤ lo j)
    : Disjointed lo hi (insert i M) := by
  refine ⟨?_, ?_⟩
  · rintro j (rfl | hj)
    · exact hne
    · exact h.nonempty j hj
  · rintro j (rfl | hj) k (rfl | hk) hjk
    · exact absurd rfl hjk
    · exact (hdisj k hk).symm
    · exact hdisj j hj
    · exact h.disjoint j hj k hk hjk

lemma Coalesced.insert (h : Coalesced lo hi M) (hne : lo i < hi i) (hgap : ∀ j ∈ M, hi j < lo i ∨ hi i < lo j)
    : Coalesced lo hi (insert i M) := by
  refine ⟨?_, ?_⟩
  · rintro j (rfl | hj)
    · exact hne
    · exact h.nonempty j hj
  · rintro j (rfl | hj) k (rfl | hk) hjk
    · exact absurd rfl hjk
    · exact (hgap k hk).symm
    · exact hgap j hj
    · exact h.gap j hj k hk hjk

lemma Disjointed.covered_diff (h : Disjointed lo hi M) (hi' : i ∈ M) :
    covered lo hi (M \ {i}) = covered lo hi M \ Set.Ico (lo i) (hi i) := by
  ext x
  simp only [mem_covered, mem_sdiff, mem_singleton_iff, mem_Ico]
  constructor
  · rintro ⟨j, ⟨hj, hne⟩, hx⟩
    exact ⟨⟨j, hj, hx⟩, fun hxi => hne (h.eq_of_mem hj hi' hx hxi)⟩
  · rintro ⟨⟨j, hj, hx⟩, hnot⟩
    refine ⟨j, ⟨hj, ?_⟩, hx⟩
    rintro rfl
    exact hnot hx

lemma Disjointed.apart_iff (h : Disjointed lo hi M) {a b : ℕ} (hab : a < b) :
    Disjoint (Set.Ico a b) (covered lo hi M) ↔ ∀ j ∈ M, hi j ≤ a ∨ b ≤ lo j := by
  rw [disjoint_left]
  constructor
  · intro hdisj j hj
    by_contra hcon
    have hne := h.nonempty j hj
    exact hdisj (mem_Ico.mpr ⟨le_max_left a (lo j), by omega⟩) ⟨j, hj, le_max_right a (lo j), by omega⟩
  · rintro hapart x hx ⟨j, hj, hxj⟩
    have := hapart j hj
    rw [mem_Ico] at hx
    omega

/-- Intervals below a bound are not more than the bound. -/
lemma Disjointed.ncard_le (h : Disjointed lo hi M) {B : ℕ} (hB : ∀ i ∈ M, hi i ≤ B) : M.ncard ≤ B := by
  have hinj : Set.InjOn lo M := by
    intro i hi' j hj heq
    have := h.nonempty i hi'
    have := h.nonempty j hj
    exact h.eq_of_mem hi' hj ⟨le_rfl, by omega⟩ ⟨heq.ge, by omega⟩
  have hmaps : ∀ i ∈ M, lo i ∈ (Finset.range B : Set ℕ) := fun i hi' =>
    Finset.mem_coe.mpr (Finset.mem_range.mpr ((h.nonempty i hi').trans_le (hB i hi')))
  have hle := ncard_le_ncard_of_injOn lo hmaps hinj (Finset.finite_toSet _)
  rwa [ncard_coe_finset, Finset.card_range] at hle

section Pieces

variable {S : Set ℕ} {a b c d : ℕ}

lemma diff_union_Ico_left (hab : a ≤ b) (hbc : b ≤ c) (hS : Set.Ico a b ⊆ S) :
    S \ Set.Ico a b ∪ Set.Ico a c = S ∪ Set.Ico b c := by
  rw [← Ico_union_Ico_eq_Ico hab hbc, ← union_assoc, sdiff_union_of_subset hS]

lemma diff_union_Ico_right (hab : a ≤ b) (hbc : b ≤ c) (hS : Set.Ico b c ⊆ S) :
    S \ Set.Ico b c ∪ Set.Ico a c = S ∪ Set.Ico a b := by
  rw [← Ico_union_Ico_eq_Ico hab hbc, union_comm (Set.Ico a b), ← union_assoc, sdiff_union_of_subset hS]

lemma diff_union_ends (hab : a ≤ b) (hbc : b ≤ c) (hcd : c ≤ d) (hS : Set.Ico a d ⊆ S) :
    S \ Set.Ico a d ∪ Set.Ico a b ∪ Set.Ico c d = S \ Set.Ico b c := by
  ext x
  have := @hS x
  simp only [mem_union, mem_sdiff, mem_Ico] at this ⊢
  by_cases hx : x ∈ S
  · simp only [hx, true_and]
    omega
  · simp only [hx, false_and, false_or, iff_false]
    have : ¬(a ≤ x ∧ x < d) := fun h => hx (this h)
    omega

end Pieces

end Embassies
