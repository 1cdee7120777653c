import Embassies.Lib.Checked

/-! Binary search with a three-way comparison, as `bsearch` of the C library does it.

    The comparison says where the key lies with respect to an element, and may itself stop the process. On a
    list that it partitions (before, at, after) the search finds the element at the key, if there is one. -/

namespace Embassies

open List

variable {α : Type}

/-- The loop of `bsearch` over `[l, u)`. -/
def bsearchLoop (cmp : α → Checked ℤ) (xs : List α) : (fuel l u : ℕ) → Checked (Option α)
  | 0, _, _ => .error .outOfFuel
  | fuel + 1, l, u =>
    if l < u then
      match xs[(l + u) / 2]? with
      | none => .error .outOfRange
      | some x => do
        let c ← cmp x
        if c < 0 then bsearchLoop cmp xs fuel l ((l + u) / 2)
        else if 0 < c then bsearchLoop cmp xs fuel ((l + u) / 2 + 1) u
        else pure (some x)
    else pure none

/-- `bsearch(key, base, nmemb, size, compar)`, with the key in the comparison. -/
def bsearch (cmp : α → Checked ℤ) (xs : List α) : Checked (Option α) :=
  bsearchLoop cmp xs (xs.length + 1) 0 xs.length

variable {cmp : α → Checked ℤ} {c : α → ℤ} {xs : List α}

/-- A key at or before an element is before the later ones. -/
lemma neg_of_lt (hxs : xs.Pairwise fun x y => c x ≤ 0 → c y < 0) {i j : ℕ} {x y : α} (hx : xs[i]? = some x)
    (hy : xs[j]? = some y) (hij : i < j) (hc : c x ≤ 0) : c y < 0 := by
  obtain ⟨hi, rfl⟩ := List.getElem?_eq_some_iff.mp hx
  obtain ⟨hj, rfl⟩ := List.getElem?_eq_some_iff.mp hy
  exact pairwise_iff_getElem.mp hxs i j hi hj hij hc

/-- LOOP: everything before `l` is before the key and everything from `u` on is after it. -/
lemma bsearchLoop_spec (hcmp : ∀ x ∈ xs, cmp x = .ok (c x)) (hxs : xs.Pairwise fun x y => c x ≤ 0 → c y < 0) :
    ∀ (fuel l u : ℕ), l ≤ u → u ≤ xs.length → u < fuel + l →
      (∀ i x, xs[i]? = some x → i < l → 0 < c x) → (∀ i x, xs[i]? = some x → u ≤ i → c x < 0) →
      ∃ r, bsearchLoop cmp xs fuel l u = .ok r ∧ ∀ x, r = some x ↔ x ∈ xs ∧ c x = 0 := by
  intro fuel
  induction fuel with
  | zero =>
    intro l u hlu hu hfuel
    omega
  | succ fuel ih =>
    intro l u hle hu hfuel hbelow habove
    rw [bsearchLoop]
    by_cases hlu : l < u
    · rw [if_pos hlu]
      have hidx : (l + u) / 2 < xs.length := by omega
      have hget : xs[(l + u) / 2]? = some xs[(l + u) / 2] := List.getElem?_eq_getElem hidx
      rw [hget]
      simp only [hcmp _ (getElem_mem hidx), Checked.ok_bind]
      rcases lt_trichotomy (c xs[(l + u) / 2]) 0 with hneg | hzero | hpos
      · rw [if_pos hneg]
        refine ih l _ (by omega) (by omega) (by omega) hbelow fun i x hx hi => ?_
        rcases Nat.eq_or_lt_of_le hi with rfl | hlt
        · rw [hget] at hx
          exact Option.some.inj hx ▸ hneg
        · exact neg_of_lt hxs hget hx hlt hneg.le
      · rw [if_neg (by omega), if_neg (by omega)]
        refine ⟨_, rfl, fun x => ⟨fun hx => ?_, fun ⟨hx, hx0⟩ => ?_⟩⟩
        · cases hx
          exact ⟨getElem_mem hidx, hzero⟩
        · -- any other element at the key would be before or after this one
          obtain ⟨i, hi⟩ := mem_iff_getElem?.mp hx
          rcases lt_trichotomy i ((l + u) / 2) with hlt | rfl | hgt
          · have := neg_of_lt hxs hi hget hlt hx0.le
            omega
          · rw [← hi, hget]
          · have := neg_of_lt hxs hget hi hgt hzero.le
            omega
      · rw [if_neg (by omega), if_pos hpos]
        refine ih _ u (by omega) hu (by omega) (fun i x hx hi => ?_) habove
        rcases Nat.eq_or_lt_of_le (Nat.lt_succ_iff.mp hi) with rfl | hlt
        · rw [hget] at hx
          exact Option.some.inj hx ▸ hpos
        · by_contra hle
          have := neg_of_lt hxs hx hget hlt (by omega)
          omega
    · rw [if_neg hlu]
      refine ⟨none, rfl, fun x => ⟨nofun, fun ⟨hx, hx0⟩ => ?_⟩⟩
      obtain ⟨i, hi⟩ := mem_iff_getElem?.mp hx
      by_cases hil : i < l
      · have := hbelow i x hi hil
        omega
      · have := habove i x hi (by omega)
        omega

/-- SEARCH: the element at the key, if there is one. -/
lemma bsearch_spec (hcmp : ∀ x ∈ xs, cmp x = .ok (c x)) (hxs : xs.Pairwise fun x y => c x ≤ 0 → c y < 0) :
    ∃ r, bsearch cmp xs = .ok r ∧ ∀ x, r = some x ↔ x ∈ xs ∧ c x = 0 := by
  refine bsearchLoop_spec hcmp hxs _ _ _ (Nat.zero_le _) le_rfl (by omega) (fun i x _ hi => absurd hi (Nat.not_lt_zero i))
    fun i x hx hi => ?_
  rw [List.getElem?_eq_none hi] at hx
  cases hx

end Embassies
