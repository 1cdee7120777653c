import Mathlib.Data.List.Nodup
import Mathlib.Data.List.Perm.Basic
import Mathlib.Data.List.Range
import Mathlib.Logic.Equiv.Basic

/-! Rearranging a segment of an array.

    An array is a function of the index. `Rearranged lo hi f g` says that `g` has the entries of `f`, those from `lo` to
    just before `hi` perhaps in another order. Swaps inside the segment are such rearrangements, and they compose, so an
    algorithm that only swaps permutes. -/

namespace Embassies

open List

variable {α : Type} {lo hi lo' hi' : ℕ} {f g h : ℕ → α}

/-- `g` is `f` with the entries of `[lo, hi)` in some order. -/
def Rearranged (lo hi : ℕ) (f g : ℕ → α) : Prop :=
  ∃ σ : Equiv.Perm ℕ, (∀ k, k < lo ∨ hi ≤ k → σ k = k) ∧ g = f ∘ σ

namespace Rearranged

lemma refl (lo hi : ℕ) (f : ℕ → α) : Rearranged lo hi f f := ⟨Equiv.refl ℕ, fun _ _ => rfl, rfl⟩

lemma trans (hfg : Rearranged lo hi f g) (hgh : Rearranged lo hi g h) : Rearranged lo hi f h := by
  obtain ⟨σ, hσ, rfl⟩ := hfg
  obtain ⟨τ, hτ, rfl⟩ := hgh
  refine ⟨τ.trans σ, fun k hk => ?_, rfl⟩
  rw [Equiv.trans_apply, hτ k hk, hσ k hk]

lemma mono (hfg : Rearranged lo hi f g) (hlo : lo' ≤ lo) (hhi : hi ≤ hi') : Rearranged lo' hi' f g := by
  obtain ⟨σ, hσ, rfl⟩ := hfg
  exact ⟨σ, fun k hk => hσ k (by omega), rfl⟩

lemma swap (f : ℕ → α) {i j : ℕ} (hi1 : lo ≤ i) (hi2 : i < hi) (hj1 : lo ≤ j) (hj2 : j < hi) :
    Rearranged lo hi f (f ∘ Equiv.swap i j) := by
  refine ⟨Equiv.swap i j, fun k hk => ?_, rfl⟩
  exact Equiv.swap_apply_of_ne_of_ne (by omega) (by omega)

lemma outside (hfg : Rearranged lo hi f g) {k : ℕ} (hk : k < lo ∨ hi ≤ k) : g k = f k := by
  obtain ⟨σ, hσ, rfl⟩ := hfg
  rw [Function.comp_apply, hσ k hk]

/-- An entry of the segment was an entry of the segment. -/
lemma inside (hfg : Rearranged lo hi f g) {k : ℕ} (hlo : lo ≤ k) (hhi : k < hi) :
    ∃ k', lo ≤ k' ∧ k' < hi ∧ g k = f k' := by
  obtain ⟨σ, hσ, rfl⟩ := hfg
  refine ⟨σ k, ?_, ?_, rfl⟩ <;> by_contra hout
  · have := σ.injective (hσ (σ k) (.inl (by omega)))
    omega
  · have := σ.injective (hσ (σ k) (.inr (by omega)))
    omega

/-- What holds of every entry of the segment holds of every entry afterwards. -/
lemma forall_inside (hfg : Rearranged lo hi f g) {P : α → Prop} (hP : ∀ k, lo ≤ k → k < hi → P (f k)) (k : ℕ)
    (hlo : lo ≤ k) (hhi : k < hi) : P (g k) := by
  obtain ⟨k', hlo', hhi', heq⟩ := hfg.inside hlo hhi
  rw [heq]
  exact hP k' hlo' hhi'

/-- The array as a list is permuted. -/
lemma perm {n : ℕ} (hfg : Rearranged 0 n f g) : ((range n).map g).Perm ((range n).map f) := by
  obtain ⟨σ, hσ, rfl⟩ := hfg
  have hmem : ∀ k, σ k < n ↔ k < n := by
    intro k
    constructor <;> intro hk <;> by_contra hout
    · rw [hσ k (.inr (by omega))] at hk
      omega
    · have := σ.injective (hσ (σ k) (.inr (by omega)))
      omega
  have hrange : ((range n).map σ).Perm (range n) := by
    rw [perm_ext_iff_of_nodup (List.Nodup.map σ.injective nodup_range) nodup_range]
    intro k
    simp only [mem_map, mem_range]
    constructor
    · rintro ⟨k', hk', rfl⟩
      exact (hmem k').mpr hk'
    · intro hk
      refine ⟨σ.symm k, ?_, σ.apply_symm_apply k⟩
      rw [← hmem, σ.apply_symm_apply]
      exact hk
  have := hrange.map f
  rwa [map_map] at this

end Rearranged

end Embassies
