import Embassies.Lib.Buffer
import Embassies.Lib.Rearranged
import Embassies.Lib.Word

/-! The in-place quicksort of `c_qsort.c`.

    The array is a byte string; an element is found at its size times its index, a product of 32 bits. Indices are `int`s,
    and the recursion goes down to an empty range whose right end is left of its left end, so they are integers here. The
    swap goes through a buffer of sixteen bytes. The theorem at the end is about arrays that lie in memory, so that their
    length in bytes is a 32-bit number. -/

namespace Embassies.Utils

open Checked List Function Nat

/-- `CQSort_STATICALLY_ALLOCATED_SIZE_LIMIT`. -/
def staticallyAllocatedSizeLimit : ℕ := 16

/-- `CQSort`, without the array itself and without `nmemb`, which nothing reads. -/
structure CQSort where
  size : ℕ
  compar : Bytes → Bytes → ℤ

/-- The result of an `int` operation. -/
def int (n : ℤ) : ℤ := n.bmod (2 ^ 32)

namespace CQSort

variable (q : CQSort)

/-- `size*i`, where the `int` is converted to `size_t`. -/
def offset (i : ℤ) : ℕ := u32 (q.size * (i % 2 ^ 32).toNat)

/-- `CQSort_compare`. -/
def compare (base : Bytes) (ia ib : ℤ) : Checked ℤ := do
  let a ← readAt base (q.offset ia) q.size
  let b ← readAt base (q.offset ib) q.size
  return q.compar a b

/-- `CQSort_swap`; what is in `space` before does not matter. -/
def swap (base : Bytes) (ia ib : ℤ) : Checked Bytes := do
  let space := List.replicate staticallyAllocatedSizeLimit 0
  let a ← readAt base (q.offset ia) q.size
  let space ← writeAt space 0 a
  let b ← readAt base (q.offset ib) q.size
  let base ← writeAt base (q.offset ia) b
  let saved ← readAt space 0 q.size
  writeAt base (q.offset ib) saved

/-- The loop of `CQSort_partition`, with the number of rounds that are left until `i` is `right`. -/
def partitionLoop (right : ℤ) : ℕ → Bytes → ℤ → ℤ → Checked (Bytes × ℤ)
  | 0, base, _, storeIndex => .ok (base, storeIndex)
  | rounds + 1, base, i, storeIndex => do
    let c ← q.compare base i right
    if c < 0 then
      let base ← q.swap base i storeIndex
      partitionLoop right rounds base (int (i + 1)) (int (storeIndex + 1))
    else partitionLoop right rounds base (int (i + 1)) storeIndex

/-- `CQSort_partition`. -/
def partition (base : Bytes) (left right pivotIndex : ℤ) : Checked (Bytes × ℤ) := do
  let base ← q.swap base pivotIndex right
  let (base, storeIndex) ← q.partitionLoop right (right - left).toNat base left left
  let base ← q.swap base storeIndex right
  return (base, storeIndex)

/-- `CQSort_quicksort`; the fuel bounds the depth of the recursion. -/
def quicksort : ℕ → Bytes → ℤ → ℤ → Checked Bytes
  | 0, _, _, _ => .error .outOfFuel
  | fuel + 1, base, left, right =>
    if right ≤ left then .ok base
    else do
      let pivotIndex := (int (left + right)).tdiv 2
      liteAssert (left ≤ pivotIndex ∧ pivotIndex ≤ right)
      let (base, pivotNewIndex) ← q.partition base left right pivotIndex
      let base ← quicksort fuel base left (int (pivotNewIndex - 1))
      quicksort fuel base (int (pivotNewIndex + 1)) right

end CQSort

/-- `c_qsort`. -/
def cQsort (fuel : ℕ) (base : Bytes) (nmemb size : ℕ) (compar : Bytes → Bytes → ℤ) : Checked Bytes := do
  liteAssert (size < staticallyAllocatedSizeLimit)
  CQSort.quicksort ⟨size, compar⟩ fuel base 0 (int32 (sub32 nmemb 1))

/-! ### Elements -/

def element (size : ℕ) (base : Bytes) (k : ℕ) : Bytes := field base (size * k) size

def elements (nmemb size : ℕ) (base : Bytes) : List Bytes := (List.range nmemb).map (element size base)

/-- `base` is an array of `nmemb` elements that lies in memory. -/
structure IsArray (nmemb size : ℕ) (base : Bytes) : Prop where
  length : base.length = size * nmemb
  fits : size * nmemb < 2 ^ 32

/-- The comparison of elements is a total preorder: `a` is at most `b` if it gives no positive number. -/
structure TotalPreorder (size : ℕ) (compar : Bytes → Bytes → ℤ) : Prop where
  swap : ∀ a b, a.length = size → b.length = size → (compar a b < 0 ↔ 0 < compar b a)
  trans : ∀ a b c, a.length = size → b.length = size → c.length = size → compar a b ≤ 0 → compar b c ≤ 0 →
    compar a c ≤ 0

section

variable {q : CQSort} {nmemb : ℕ} {base base' : Bytes} {i j k lo hi : ℕ}
  {f : ℕ → Bytes} {pivot : Bytes} {store right : ℕ}

section

variable (h : IsArray nmemb q.size base)
include h

lemma IsArray.end_le (hk : k < nmemb) : q.size * k + q.size ≤ base.length := by
  rw [h.length, ← mul_succ]
  exact mul_le_mul_left _ hk

lemma IsArray.length_element (hk : k < nmemb) :
    (element q.size base k).length = q.size := length_field (h.end_le hk)

lemma IsArray.of_length (hlen : base'.length = base.length) :
    IsArray nmemb q.size base' := ⟨hlen.trans h.length, h.fits⟩

lemma IsArray.offset (hn : nmemb ≤ 2 ^ 30) (hk : k < nmemb) :
    q.offset k = q.size * k := by
  have hle := h.end_le hk
  have hfits := h.fits
  have hmod : ((k : ℤ) % 2 ^ 32).toNat = k := by omega
  rw [CQSort.offset, hmod]
  rw [h.length] at hle
  rcases Nat.eq_zero_or_pos q.size with hzero | hpos
  · rw [hzero, Nat.zero_mul, u32_of_lt (by norm_num)]
  · exact u32_of_lt (by omega)

lemma IsArray.readAt (hn : nmemb ≤ 2 ^ 30) (hk : k < nmemb) :
    readAt base (q.offset k) q.size = .ok (element q.size base k) := by
  rw [h.offset hn hk]
  exact readAt_of_fits (h.end_le hk)

lemma compare_eq (hn : nmemb ≤ 2 ^ 30) (hi : i < nmemb) (hj : j < nmemb) :
    q.compare base i j = .ok (q.compar (element q.size base i) (element q.size base j)) := by
  rw [CQSort.compare, h.readAt hn hi, h.readAt hn hj]
  rfl

lemma element_splice {x : Bytes} (hi : i < nmemb) (hx : x.length = q.size) :
    element q.size (splice base (q.size * i) x) = update (element q.size base) i x := by
  have hle := h.end_le hi
  funext k
  rcases Nat.lt_trichotomy k i with hk | rfl | hk
  · have hki := Nat.mul_le_mul_left q.size hk
    rw [Nat.mul_succ] at hki
    rw [update_of_ne (Nat.ne_of_lt hk)]
    exact slice_splice_before (by omega) hki
  · rw [update_self]
    have hstart : q.size * k ≤ base.length := by omega
    have hself := slice_splice_self (x := x) hstart
    rw [hx] at hself
    exact hself
  · have hki := Nat.mul_le_mul_left q.size hk
    rw [Nat.mul_succ] at hki
    rw [update_of_ne (Nat.ne_of_gt hk), element, field, drop_splice (by omega) (by omega)]
    rfl

/-- SWAP: the two elements change places. -/
lemma swap_spec (hn : nmemb ≤ 2 ^ 30) (hsize : q.size < staticallyAllocatedSizeLimit) (hi : i < nmemb) (hj : j < nmemb)
    : ∃ base', q.swap base i j = .ok base' ∧ IsArray nmemb q.size base' ∧
      element q.size base' = element q.size base ∘ Equiv.swap j i := by
  have hai := h.length_element hi
  have haj := h.length_element hj
  -- the buffer holds the first element, and gives it back
  have hspace : writeAt (List.replicate staticallyAllocatedSizeLimit 0) 0 (element q.size base i) =
      .ok (splice (List.replicate staticallyAllocatedSizeLimit 0) 0 (element q.size base i)) := by
    rw [writeAt_eq_ok, hai, length_replicate]
    exact ⟨by omega, rfl⟩
  have hsaved : readAt (splice (List.replicate staticallyAllocatedSizeLimit 0) 0 (element q.size base i)) 0 q.size =
      .ok (element q.size base i) := by
    rw [readAt_eq_ok, length_splice (by rw [hai, length_replicate]; omega), length_replicate]
    have hself := slice_splice_self (x := element q.size base i)
      (zero_le (List.replicate staticallyAllocatedSizeLimit (0 : UInt8)).length)
    rw [hai] at hself
    exact ⟨by omega, hself.symm⟩
  have hfirst : writeAt base (q.size * i) (element q.size base j) =
      .ok (splice base (q.size * i) (element q.size base j)) := by
    rw [writeAt_eq_ok, haj]
    exact ⟨h.end_le hi, rfl⟩
  have h1 : IsArray nmemb q.size (splice base (q.size * i) (element q.size base j)) :=
    h.of_length (length_splice (by rw [haj]; exact h.end_le hi))
  have hsecond : writeAt (splice base (q.size * i) (element q.size base j)) (q.size * j) (element q.size base i) =
      .ok (splice (splice base (q.size * i) (element q.size base j)) (q.size * j) (element q.size base i)) := by
    rw [writeAt_eq_ok, hai]
    exact ⟨h1.end_le hj, rfl⟩
  refine ⟨_, ?_, h1.of_length (length_splice (by rw [hai]; exact h1.end_le hj)), ?_⟩
  · rw [CQSort.swap, h.readAt hn hi, ok_bind, hspace, ok_bind, h.readAt hn hj, ok_bind,
      h.offset hn hi, hfirst, ok_bind, hsaved, ok_bind, h.offset hn hj, hsecond]
  · rw [element_splice h1 hj hai, element_splice h hi haj, Equiv.comp_swap_eq_update]

end

/-! ### The partition -/

/-- The entries before `store` are less than the pivot; those from there to just before `i` are not. -/
structure Split (q : CQSort) (f : ℕ → Bytes) (pivot : Bytes) (lo store i : ℕ) : Prop where
  low : ∀ k, lo ≤ k → k < store → q.compar (f k) pivot < 0
  high : ∀ k, store ≤ k → k < i → 0 ≤ q.compar (f k) pivot

lemma int_of_lt {n : ℤ} (hlo : -2 ^ 31 ≤ n) (hhi : n < 2 ^ 31) : int n = n := by
  rw [int, Int.bmod_eq_of_le] <;> omega

lemma Split.low_step (h : Split q f pivot lo store i) (hstore : store ≤ i) (hless : q.compar (f i) pivot < 0)
    : Split q (f ∘ Equiv.swap store i) pivot lo (store + 1) (i + 1) := by
  constructor
  · intro k hlo hk
    rcases Nat.lt_succ_iff_lt_or_eq.mp hk with hk | rfl
    · rw [comp_apply, Equiv.swap_apply_of_ne_of_ne (by omega) (by omega)]
      exact h.low k hlo hk
    · rw [comp_apply, Equiv.swap_apply_left]
      exact hless
  · intro k hlo hk
    rcases Nat.lt_succ_iff_lt_or_eq.mp hk with hk | rfl
    · rw [comp_apply, Equiv.swap_apply_of_ne_of_ne (by omega) (by omega)]
      exact h.high k (by omega) hk
    · rw [comp_apply, Equiv.swap_apply_right]
      exact h.high store (Nat.le_refl _) (by omega)

lemma Split.high_step (h : Split q f pivot lo store i) (hless : ¬q.compar (f i) pivot < 0)
    : Split q f pivot lo store (i + 1) := by
  refine ⟨h.low, fun k hlo hk => ?_⟩
  rcases Nat.lt_succ_iff_lt_or_eq.mp hk with hk | rfl
  · exact h.high k hlo hk
  · exact Int.not_lt.mp hless

/-- THE LOOP: it goes on from a split of the entries so far to a split of all but the pivot, which stays at the right. -/
lemma partitionLoop_spec (hn : nmemb ≤ 2 ^ 30) (hsize : q.size < staticallyAllocatedSizeLimit) (hright : right < nmemb)
    : ∀ (rounds : ℕ) (base : Bytes) (i store : ℕ), i + rounds = right → lo ≤ store → store ≤ i →
    IsArray nmemb q.size base → Split q (element q.size base) (element q.size base right) lo store i →
    ∃ (base' : Bytes) (store' : ℕ), q.partitionLoop right rounds base i store = .ok (base', (store' : ℤ)) ∧ lo ≤ store' ∧
      store' ≤ right ∧ IsArray nmemb q.size base' ∧
      Rearranged lo right (element q.size base) (element q.size base') ∧
      Split q (element q.size base') (element q.size base' right) lo store' right
  | 0, base, i, store, hrounds, hlo, hstore, harray, hsplit => by
    obtain rfl : i = right := by omega
    exact ⟨base, store, rfl, hlo, hstore, harray, .refl _ _ _, hsplit⟩
  | rounds + 1, base, i, store, hrounds, hlo, hstore, harray, hsplit => by
    have hi : int ((i : ℤ) + 1) = ((i + 1 : ℕ) : ℤ) := by
      rw [int_of_lt (by omega) (by omega)]
      omega
    have hs : int ((store : ℤ) + 1) = ((store + 1 : ℕ) : ℤ) := by
      rw [int_of_lt (by omega) (by omega)]
      omega
    rw [CQSort.partitionLoop, compare_eq harray hn (by omega) hright, ok_bind]
    by_cases hless : q.compar (element q.size base i) (element q.size base right) < 0
    · obtain ⟨base1, hswap, harray1, heq⟩ := swap_spec harray hn hsize (i := i) (j := store) (by omega) (by omega)
      have hpivot : element q.size base1 right = element q.size base right := by
        rw [heq, comp_apply, Equiv.swap_apply_of_ne_of_ne (by omega) (by omega)]
      have hsplit1 := hsplit.low_step hstore hless
      rw [← heq, ← hpivot] at hsplit1
      obtain ⟨base', store', hloop, hlo', hstore', harray', hperm, hsplit'⟩ :=
        partitionLoop_spec hn hsize hright rounds base1 (i + 1) (store + 1) (by omega) (by omega) (by omega) harray1 hsplit1
      have hperm1 : Rearranged lo right (element q.size base) (element q.size base1) := by
        rw [heq]
        exact .swap _ (by omega) (by omega) (by omega) (by omega)
      rw [if_pos hless, hswap, ok_bind, hi, hs, hloop]
      exact ⟨base', store', rfl, hlo', hstore', harray', hperm1.trans hperm, hsplit'⟩
    · rw [if_neg hless, hi]
      exact partitionLoop_spec hn hsize hright rounds base (i + 1) store (by omega) hlo (by omega) harray
        (hsplit.high_step hless)

/-- PARTITION: the range is rearranged around the pivot, at the index that is returned. -/
lemma partition_spec (hn : nmemb ≤ 2 ^ 30) (hsize : q.size < staticallyAllocatedSizeLimit)
    (harray : IsArray nmemb q.size base) {pivotIndex : ℕ} (hright : right < nmemb) (hlo : lo ≤ pivotIndex)
    (hhi : pivotIndex ≤ right) : ∃ (base' : Bytes) (s : ℕ), q.partition base lo right pivotIndex = .ok (base', (s : ℤ)) ∧
      lo ≤ s ∧ s ≤ right ∧ IsArray nmemb q.size base' ∧
      Rearranged lo (right + 1) (element q.size base) (element q.size base') ∧
      (∀ k, lo ≤ k → k < s → q.compar (element q.size base' k) (element q.size base' s) < 0) ∧
      ∀ k, s < k → k ≤ right → 0 ≤ q.compar (element q.size base' k) (element q.size base' s) := by
  obtain ⟨base1, hswap1, harray1, heq1⟩ := swap_spec harray hn hsize (i := pivotIndex) (j := right) (by omega) hright
  obtain ⟨base2, s, hloop, hslo, hshi, harray2, hperm2, hsplit⟩ :=
    partitionLoop_spec (q := q) hn hsize hright (right - lo) base1 lo lo (by omega) (le_refl _) (le_refl _) harray1
      ⟨fun k hlo hk => by omega, fun k hlo hk => by omega⟩
  obtain ⟨base3, hswap3, harray3, heq3⟩ := swap_spec harray2 hn hsize (i := s) (j := right) (by omega) hright
  have hrounds : ((right : ℤ) - lo).toNat = right - lo := by omega
  have hpivot : element q.size base3 s = element q.size base2 right := by
    rw [heq3, comp_apply, Equiv.swap_apply_right]
  refine ⟨base3, s, ?_, hslo, hshi, harray3, ?_, fun k hlo hk => ?_, fun k hk hhi => ?_⟩
  · rw [CQSort.partition, hswap1, ok_bind, hrounds, hloop, ok_bind]
    simp only [hswap3, ok_bind, pure_eq_ok]
  · have hperm1 : Rearranged lo (right + 1) (element q.size base) (element q.size base1) := by
      rw [heq1]
      exact .swap _ (by omega) (by omega) (by omega) (by omega)
    have hperm3 : Rearranged lo (right + 1) (element q.size base2) (element q.size base3) := by
      rw [heq3]
      exact .swap _ (by omega) (by omega) (by omega) (by omega)
    exact (hperm1.trans (hperm2.mono (le_refl _) (le_succ _))).trans hperm3
  · rw [hpivot, heq3, comp_apply, Equiv.swap_apply_of_ne_of_ne (by omega) (by omega)]
    exact hsplit.low k hlo hk
  · rw [hpivot, heq3, comp_apply]
    rcases lt_or_eq_of_le hhi with hhi | rfl
    · rw [Equiv.swap_apply_of_ne_of_ne (by omega) (by omega)]
      exact hsplit.high k (by omega) hhi
    · rw [Equiv.swap_apply_left]
      exact hsplit.high s (le_refl _) hk

/-! ### The recursion -/

/-- The entries from `lo` to just before `hi` are in order. -/
def SortedOn (q : CQSort) (lo hi : ℕ) (f : ℕ → Bytes) : Prop :=
  ∀ i j, lo ≤ i → i < j → j < hi → q.compar (f i) (f j) ≤ 0

lemma TotalPreorder.le_of_not_lt (h : TotalPreorder q.size q.compar) {a b : Bytes} (ha : a.length = q.size)
    (hb : b.length = q.size) (hab : 0 ≤ q.compar a b) : q.compar b a ≤ 0 := by
  by_contra hba
  have := (h.swap a b ha hb).mpr (by omega)
  omega

lemma SortedOn.join (h : TotalPreorder q.size q.compar) {s : ℕ} (hlen : ∀ k, k < hi → (f k).length = q.size)
    (hs : s < hi) (hleft : SortedOn q lo s f)
    (hright : SortedOn q (s + 1) hi f) (hlow : ∀ k, lo ≤ k → k < s → q.compar (f k) (f s) ≤ 0)
    (hhigh : ∀ k, s < k → k < hi → q.compar (f s) (f k) ≤ 0) : SortedOn q lo hi f := by
  intro i j hlo hij hhi
  rcases lt_trichotomy j s with hj | rfl | hj
  · exact hleft i j hlo hij hj
  · exact hlow i hlo hij
  · rcases lt_trichotomy i s with hi' | rfl | hi'
    · exact h.trans _ _ _ (hlen i (by omega)) (hlen s hs) (hlen j hhi) (hlow i hlo hi') (hhigh j hj hhi)
    · exact hhigh j hij hhi
    · exact hright i j hi' hij hhi

/-- QUICKSORT: with as much fuel as there are elements, the range is sorted, and nothing else is touched. -/
lemma quicksort_spec (hn : nmemb ≤ 2 ^ 30) (hsize : q.size < staticallyAllocatedSizeLimit)
    (hcompar : TotalPreorder q.size q.compar) : ∀ (fuel : ℕ) (base : Bytes) (lo hi : ℕ), hi - lo < fuel → lo ≤ hi →
    hi ≤ nmemb → IsArray nmemb q.size base → ∃ base', q.quicksort fuel base lo ((hi : ℤ) - 1) = .ok base' ∧
      IsArray nmemb q.size base' ∧ Rearranged lo hi (element q.size base) (element q.size base') ∧
      SortedOn q lo hi (element q.size base')
  | 0, _, _, _, hfuel, _, _, _ => absurd hfuel (not_lt_zero _)
  | fuel + 1, base, lo, hi, hfuel, hle, hhi, harray => by
    rw [CQSort.quicksort]
    by_cases hshort : (hi : ℤ) - 1 ≤ lo
    · rw [if_pos hshort]
      exact ⟨base, rfl, harray, .refl _ _ _, fun i j hlo hij hj => by omega⟩
    obtain ⟨right, rfl⟩ : ∃ right, hi = right + 1 := ⟨hi - 1, by omega⟩
    have hmiddle : lo ≤ (lo + right) / 2 ∧ (lo + right) / 2 ≤ right := by omega
    have hright : right < nmemb := by omega
    obtain ⟨base1, s, hpart, hslo, hshi, harray1, hperm1, hlow, hhigh⟩ :=
      partition_spec hn hsize harray hright hmiddle.1 hmiddle.2
    obtain ⟨base2, hrec2, harray2, hperm2, hsorted2⟩ :=
      quicksort_spec hn hsize hcompar fuel base1 lo s (by omega) hslo (by omega) harray1
    obtain ⟨base3, hrec3, harray3, hperm3, hsorted3⟩ :=
      quicksort_spec hn hsize hcompar fuel base2 (s + 1) (right + 1) (by omega) (by omega) hhi harray2
    refine ⟨base3, ?_, harray3, ?_, ?_⟩
    · have hr : ((right + 1 : ℕ) : ℤ) - 1 = right := by omega
      have hmid : (int ((lo : ℤ) + right)).tdiv 2 = ((lo + right) / 2 : ℕ) := by
        rw [int_of_lt (by omega) (by omega), Int.tdiv_eq_ediv_of_nonneg (by omega)]
        omega
      have hassert : (lo : ℤ) ≤ ((lo + right) / 2 : ℕ) ∧ (((lo + right) / 2 : ℕ) : ℤ) ≤ right := by omega
      have hdown : int ((s : ℤ) - 1) = (s : ℤ) - 1 := int_of_lt (by omega) (by omega)
      have hup : int ((s : ℤ) + 1) = ((s + 1 : ℕ) : ℤ) := by
        rw [int_of_lt (by omega) (by omega)]
        omega
      rw [hr] at hshort hrec3 ⊢
      rw [if_neg hshort, hmid]
      simp only [liteAssert_pos hassert, hpart, hdown, hup, hrec2, hrec3, ok_bind]
    · exact (hperm1.trans (hperm2.mono (le_refl _) (by omega))).trans (hperm3.mono (by omega) (le_refl _))
    · -- the recursive calls leave the pivot, and move no entry to its other side
      have hpivot : element q.size base3 s = element q.size base1 s := by
        rw [hperm3.outside (.inl (lt_succ_self s)), hperm2.outside (.inr (le_refl s))]
      have hleft : ∀ k, k < s → element q.size base3 k = element q.size base2 k := fun k hk =>
        hperm3.outside (.inl (by omega))
      refine .join hcompar (s := s) (fun k hk => harray3.length_element (by omega)) (by omega) (fun i j hlo hij hj => ?_)
        hsorted3 (fun k hlo hk => ?_) (fun k hk hk' => ?_)
      · rw [hleft i (by omega), hleft j hj]
        exact hsorted2 i j hlo hij hj
      · rw [hpivot, hleft k hk]
        refine hperm2.forall_inside (P := fun x => q.compar x (element q.size base1 s) ≤ 0) (fun k hlo hk => ?_) k hlo hk
        exact Int.le_of_lt (hlow k hlo hk)
      · rw [hpivot]
        refine hperm3.forall_inside (P := fun x => q.compar (element q.size base1 s) x ≤ 0) (fun k hlo hk => ?_) k hk hk'
        rw [hperm2.outside (.inr (by omega))]
        exact hcompar.le_of_not_lt (harray1.length_element (by omega)) (harray1.length_element (by omega))
          (hhigh k hlo (by omega))

/-- CORRECT: the array that `c_qsort` leaves is a sorted permutation of the elements, however they compare; no access is
    outside of the array or the swap buffer, no assertion fails, and the recursion is no deeper than there are elements. -/
theorem cQsort_sorts {nmemb size : ℕ} {base : Bytes} {compar : Bytes → Bytes → ℤ} (harray : IsArray nmemb size base)
    (hn : nmemb ≤ 2 ^ 30) (hsize : size < 16) (hcompar : TotalPreorder size compar) {fuel : ℕ} (hfuel : nmemb < fuel) :
    ∃ sorted, cQsort fuel base nmemb size compar = .ok sorted ∧ IsArray nmemb size sorted ∧
      (elements nmemb size sorted).Perm (elements nmemb size base) ∧
      (elements nmemb size sorted).Pairwise fun a b => compar a b ≤ 0 := by
  obtain ⟨sorted, hok, harray', hperm, hsorted⟩ :=
    quicksort_spec (q := ⟨size, compar⟩) hn hsize hcompar fuel base 0 nmemb (by omega) (Nat.zero_le _) (Nat.le_refl _) harray
  have hright : int32 (sub32 nmemb 1) = (nmemb : ℤ) - 1 := by
    unfold int32 sub32
    split <;> omega
  refine ⟨sorted, ?_, harray', hperm.perm, ?_⟩
  · rw [cQsort, liteAssert_pos (c := size < staticallyAllocatedSizeLimit) hsize, ok_bind, hright]
    exact hok
  · rw [elements, pairwise_map]
    refine List.Pairwise.imp_of_mem (fun hi hj hij => ?_) pairwise_lt_range
    exact hsorted _ _ (Nat.zero_le _) hij (mem_range.mp hj)

theorem cQsort_sorts_three : ∃ sorted, cQsort 4 [3, 1, 3] 3 1 (fun a b => (ofBE a : ℤ) - ofBE b) = .ok sorted ∧
    IsArray 3 1 sorted ∧ (elements 3 1 sorted).Perm (elements 3 1 [3, 1, 3]) ∧
    (elements 3 1 sorted).Pairwise fun a b => (ofBE a : ℤ) - ofBE b ≤ 0 :=
  cQsort_sorts ⟨rfl, by norm_num⟩ (by norm_num) (by norm_num)
    ⟨fun _ _ _ _ => by omega, fun _ _ _ _ _ _ h₁ h₂ => by omega⟩ (by norm_num)

end

end Embassies.Utils
