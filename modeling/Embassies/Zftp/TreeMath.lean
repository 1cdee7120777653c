import Embassies.Lib.HeapTree
import Embassies.Zftp.Protocol
import Mathlib.Data.Nat.Bitwise
import Mathlib.Tactic.Ring

/-! Tree locations (`tree_math.c`, `lite_log2.c`): the shifts and masks that number the nodes of the hash tree, and what
    they come to below `2 ^ 31`, where no shift drops a bit: the numbering of a binary tree laid out in an array. -/

namespace Embassies.Zftp

open Checked HeapTree

/-- One round of the loop of `lite_log2`, at shift `scale`. -/
def liteLog2Round (s : ℕ × ℕ) (scale : ℕ) : ℕ × ℕ :=
  if 2 ^ scale ≤ s.1 then (s.1 / 2 ^ scale, s.2 + scale) else s

/-- `lite_log2(len)`. -/
def liteLog2 (len : ℕ) : ℕ := ([16, 8, 4, 2, 1].foldl liteLog2Round (len, 0)).2 + 1

/-- `_tree_index(level, col, tree_size)`. -/
def treeIndex (level col treeSize : ℕ) : Checked ℕ := do
  let index ← computeTreeLocation level col
  liteAssert (index < treeSize)
  pure index

/-- `_tree_unindex(location, &level, &col)`. -/
def treeUnindex (location : ℕ) : ℕ × ℕ :=
  let level := liteLog2 (u32 (location + 1)) - 1
  (level, u32 (location + 1) % 2 ^ level)

/-- `_left_child(location)`. -/
def leftChild (location : ℕ) : ℕ := sub32 (u32 (u32 (location + 1) * 2)) 1

/-- `_right_child(location)`. -/
def rightChild (location : ℕ) : ℕ := u32 (leftChild location + 1)

/-- `_sibling_location(location)`. -/
def siblingLocation (location : ℕ) : Checked ℕ := do
  liteAssert (location ≠ 0)
  pure (sub32 (u32 (location + 1) ^^^ 1) 1)

/-- `_parent_location(location)`. -/
def parentLocation (location : ℕ) : ℕ := sub32 (u32 (location + 1) / 2) 1

/-! ### The numbering below `2 ^ 31` -/

variable {l len : ℕ}

lemma leftChild_eq (h : l + 1 < 2 ^ 31) : leftChild l = left l := by
  rw [leftChild, u32_of_lt (by omega : l + 1 < 2 ^ 32), u32_of_lt (by omega), sub32_of_le (by omega) (by omega), left]
  omega

lemma rightChild_eq (h : l + 1 < 2 ^ 31) : rightChild l = right l := by
  rw [rightChild, leftChild_eq h, left, right, u32_of_lt (by omega)]

lemma parentLocation_eq (h0 : l ≠ 0) (h : l + 1 < 2 ^ 31) : parentLocation l = parent l := by
  rw [parentLocation, u32_of_lt (by omega), sub32_of_le (by omega) (by omega), parent]
  omega

lemma siblingLocation_eq (h0 : l ≠ 0) (h : l + 1 < 2 ^ 31) : siblingLocation l = .ok (sib l) := by
  rw [siblingLocation, liteAssert_pos h0, u32_of_lt (by omega)]
  simp only [ok_bind, pure_eq_ok, sib]
  split
  case isTrue hodd =>
    have heven : Even (l + 1) := Nat.even_iff.mpr (by omega)
    rw [Nat.xor_one_of_even heven, sub32_of_le (by omega) (by omega)]
    rfl
  case isFalse heven =>
    have hodd : Odd (l + 1) := Nat.odd_iff.mpr (by omega)
    rw [Nat.xor_one_of_odd hodd, sub32_of_le (by omega) (by omega)]
    rfl

/-! ### Levels and columns -/

lemma liteLog2Round_spec {s : ℕ × ℕ} (scale : ℕ) (h : s.1 * 2 ^ s.2 ≤ len ∧ len < (s.1 + 1) * 2 ^ s.2) (hpos : 0 < s.1)
    (hlt : s.1 < 2 ^ (2 * scale)) :
    let s' := liteLog2Round s scale
    (s'.1 * 2 ^ s'.2 ≤ len ∧ len < (s'.1 + 1) * 2 ^ s'.2) ∧ 0 < s'.1 ∧ s'.1 < 2 ^ scale := by
  obtain ⟨val, acc⟩ := s
  simp only [liteLog2Round] at *
  split
  case isTrue hge =>
    have hdiv : val / 2 ^ scale * 2 ^ scale ≤ val := Nat.div_mul_le_self _ _
    have hup : val + 1 ≤ (val / 2 ^ scale + 1) * 2 ^ scale := by
      have := Nat.lt_div_mul_add (a := val) (Nat.two_pow_pos scale)
      rw [Nat.add_mul, one_mul]
      omega
    refine ⟨⟨?_, ?_⟩, Nat.div_pos hge (Nat.two_pow_pos _), ?_⟩
    · calc val / 2 ^ scale * 2 ^ (acc + scale)
          = val / 2 ^ scale * 2 ^ scale * 2 ^ acc := by rw [pow_add]; ring
        _ ≤ val * 2 ^ acc := Nat.mul_le_mul_right _ hdiv
        _ ≤ len := h.1
    · calc len < (val + 1) * 2 ^ acc := h.2
        _ ≤ (val / 2 ^ scale + 1) * 2 ^ scale * 2 ^ acc := Nat.mul_le_mul_right _ hup
        _ = (val / 2 ^ scale + 1) * 2 ^ (acc + scale) := by rw [pow_add]; ring
    · rw [Nat.div_lt_iff_lt_mul (Nat.two_pow_pos _), ← pow_add, ← two_mul]
      exact hlt
  case isFalse hlt' => exact ⟨h, hpos, by omega⟩

lemma liteLog2_eq (h0 : 0 < len) (h : len < 2 ^ 32) : liteLog2 len = Nat.size len := by
  have h16 := liteLog2Round_spec 16 (s := (len, 0)) ⟨(mul_one len).le, by simp⟩ h0 h
  have h8 := liteLog2Round_spec 8 h16.1 h16.2.1 h16.2.2
  have h4 := liteLog2Round_spec 4 h8.1 h8.2.1 h8.2.2
  have h2 := liteLog2Round_spec 2 h4.1 h4.2.1 h4.2.2
  have h1 := liteLog2Round_spec 1 h2.1 h2.2.1 h2.2.2
  rw [liteLog2]
  simp only [List.foldl_cons, List.foldl_nil]
  generalize liteLog2Round _ 1 = s at h1 ⊢
  obtain ⟨⟨hlo, hhi⟩, hpos, hlt⟩ := h1
  obtain hs : s.1 = 1 := by omega
  rw [hs] at hlo hhi
  exact (size_eq_of_pow_le_lt (by omega) (by rw [pow_succ]; omega)).symm

lemma treeIndex_eq_ok {level col treeSize l : ℕ} :
    treeIndex level col treeSize = .ok l ↔ col < 2 ^ level ∧ l = 2 ^ level - 1 + col ∧ l < treeSize := by
  have hloc : ∀ x, computeTreeLocation level col = .ok x ↔ col < 2 ^ level ∧ x = 2 ^ level - 1 + col := by
    intro x
    rw [computeTreeLocation]
    by_cases hcol : col < 2 ^ level
    · rw [liteAssert_pos hcol, ok_bind]
      split
      case isTrue h0 =>
        subst h0
        rw [pow_zero] at hcol
        rw [pure_eq_ok, Except.ok.injEq]
        omega
      case isFalse h0 =>
        have hlev : level - 1 + 1 = level := by omega
        rw [pure_eq_ok, Except.ok.injEq, computeTreeSize, hlev]
        exact ⟨fun h => ⟨hcol, h.symm⟩, fun h => h.2.symm⟩
    · rw [liteAssert_neg hcol, error_bind]
      exact iff_of_false nofun fun h => hcol h.1
  rw [treeIndex, bind_eq_ok]
  constructor
  · rintro ⟨x, hx, h⟩
    obtain ⟨_, hlt, h⟩ := of_bind h
    rw [liteAssert_eq_ok] at hlt
    obtain rfl := Except.ok.inj h
    exact ⟨((hloc x).mp hx).1, ((hloc x).mp hx).2, hlt⟩
  · rintro ⟨hcol, hl, hlt⟩
    exact ⟨l, (hloc l).mpr ⟨hcol, hl⟩, by rw [liteAssert_pos hlt, ok_bind, pure_eq_ok]⟩

lemma treeUnindex_eq {level col : ℕ} (h : l < 2 ^ 17) :
    treeUnindex l = (level, col) ↔ col < 2 ^ level ∧ l = 2 ^ level - 1 + col := by
  have hpos := Nat.two_pow_pos level
  rw [treeUnindex, u32_of_lt (by omega), liteLog2_eq (by omega) (by omega), Prod.mk.injEq]
  constructor
  · rintro ⟨rfl, rfl⟩
    have hsize : 0 < Nat.size (l + 1) := Nat.size_pos.mpr (by omega)
    have hlo : 2 ^ (Nat.size (l + 1) - 1) ≤ l + 1 := Nat.lt_size.mp (by omega)
    have hhi : l + 1 < 2 ^ (Nat.size (l + 1) - 1 + 1) := Nat.size_le.mp (by omega)
    rw [pow_succ] at hhi
    generalize 2 ^ (Nat.size (l + 1) - 1) = p at *
    rw [Nat.mod_eq_sub_mod hlo, Nat.mod_eq_of_lt (by omega)]
    omega
  · rintro ⟨hcol, rfl⟩
    have hl : 2 ^ level - 1 + col + 1 = 2 ^ level + col := by omega
    rw [hl, size_eq_of_pow_le_lt (Nat.le_add_right _ _) (by rw [pow_succ]; omega), Nat.add_sub_cancel,
      Nat.add_mod_left, Nat.mod_eq_of_lt hcol]
    exact ⟨rfl, rfl⟩

lemma location_lt_iff {level col depth : ℕ} (hcol : col < 2 ^ level) :
    2 ^ level - 1 + col < computeTreeSize depth ↔ level ≤ depth := by
  have hpos := Nat.two_pow_pos level
  constructor
  · intro hlt
    by_contra hgt
    have hpow : 2 ^ (depth + 1) ≤ 2 ^ level := Nat.pow_le_pow_right two_pos (by omega)
    rw [computeTreeSize] at hlt
    omega
  · intro hle
    have hpow : 2 ^ (level + 1) ≤ 2 ^ (depth + 1) := Nat.pow_le_pow_right two_pos (by omega)
    rw [computeTreeSize]
    rw [pow_succ 2 level] at hpow
    omega

lemma treeUnindex_le {depth : ℕ} (h : l < 2 ^ 17) (hl : l < computeTreeSize depth) : (treeUnindex l).1 ≤ depth := by
  obtain ⟨hcol, hloc⟩ := (treeUnindex_eq h).mp (Prod.mk.eta (p := treeUnindex l)).symm
  rw [hloc] at hl
  exact (location_lt_iff hcol).mp hl

end Embassies.Zftp
