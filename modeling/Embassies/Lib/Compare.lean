import Mathlib.Data.BitVec
import Mathlib.Data.List.Lex
import Mathlib.Data.Set.Finite.Basic
import Mathlib.Order.WellFounded

/-! Three-way comparisons by subtraction.

    `wordCmp` is the difference of two words, read as a signed number. On the words of an `Arc`, half a turn of the circle
    of words, it is a strict total order, and on no larger set; `lexCmp` carries it over to lists. -/

namespace Embassies.Compare

variable {α β κ : Type*} {S : Set α} {cmp : α → α → ℤ} {w : ℕ} {base x y : BitVec w}

/-- On `S` the comparison is a strict total order. -/
structure IsOrder (S : Set α) (cmp : α → α → ℤ) : Prop where
  eq_zero : ∀ a ∈ S, ∀ b ∈ S, cmp a b = 0 ↔ a = b
  swap : ∀ a ∈ S, ∀ b ∈ S, cmp a b < 0 ↔ 0 < cmp b a
  trans : ∀ a ∈ S, ∀ b ∈ S, ∀ c ∈ S, cmp a b < 0 → cmp b c < 0 → cmp a c < 0

/-- A comparison that agrees with the order of keys is one. -/
lemma IsOrder.of_key [LinearOrder κ] (key : α → κ) (hinj : S.InjOn key)
    (h : ∀ a ∈ S, ∀ b ∈ S, (cmp a b < 0 ↔ key a < key b) ∧ (0 < cmp a b ↔ key b < key a)) : IsOrder S cmp := by
  constructor
  · intro a ha b hb
    obtain ⟨hneg, hpos⟩ := h a ha b hb
    constructor
    · intro h0
      refine hinj ha hb (le_antisymm (not_lt.mp fun hlt => ?_) (not_lt.mp fun hlt => ?_))
      · exact (hpos.mpr hlt).ne' h0
      · exact (hneg.mpr hlt).ne h0
    · rintro rfl
      exact le_antisymm (not_lt.mp fun h0 => lt_irrefl _ (hpos.mp h0)) (not_lt.mp fun h0 => lt_irrefl _ (hneg.mp h0))
  · intro a ha b hb
    rw [(h a ha b hb).1, (h b hb a ha).2]
  · intro a ha b hb c hc
    rw [(h a ha b hb).1, (h b hb c hc).1, (h a ha c hc).1]
    exact lt_trans

lemma IsOrder.comap {T : Set β} {cmp' : β → β → ℤ} (h : IsOrder S cmp) (f : β → α) (hf : f.Injective)
    (hT : ∀ b ∈ T, f b ∈ S) (hcmp : ∀ a b, cmp (f a) (f b) = cmp' a b) : IsOrder T cmp' := by
  obtain rfl : (fun a b => cmp (f a) (f b)) = cmp' := funext₂ hcmp
  constructor
  · exact fun a ha b hb => (h.eq_zero _ (hT a ha) _ (hT b hb)).trans hf.eq_iff
  · exact fun a ha b hb => h.swap _ (hT a ha) _ (hT b hb)
  · exact fun a ha b hb c hc => h.trans _ (hT a ha) _ (hT b hb) _ (hT c hc)

/-! ### Words -/

/-- The difference of two words as a signed number. -/
def wordCmp (x y : BitVec w) : ℤ := (x - y).toInt

/-- The words less than half a turn after `base`. -/
def Arc (base x : BitVec w) : Prop := (x - base).toNat < 2 ^ (w - 1)

/-- On an arc no difference overflows. -/
lemma wordCmp_eq (hx : Arc base x) (hy : Arc base y) : wordCmp x y = (x - base).toNat - (y - base).toNat := by
  rw [wordCmp, ← sub_sub_sub_cancel_right x y base]
  simp only [Arc] at hx hy
  generalize x - base = i, y - base = j at hx hy
  cases w with
  | zero => simp [BitVec.of_length_zero]
  | succ w =>
    rw [Nat.add_sub_cancel] at hx hy
    rw [BitVec.toInt_sub, BitVec.toInt_eq_toNat_of_lt (by omega), BitVec.toInt_eq_toNat_of_lt (by omega)]
    exact Int.bmod_eq_of_le (by omega) (by omega)

/-- What the comparison orders lies in an arc, which starts at the least word. -/
lemma exists_arc {X : Set (BitVec w)} (h : IsOrder X wordCmp) : ∃ base, ∀ x ∈ X, Arc base x := by
  obtain rfl | ⟨x₀, hx₀⟩ := X.eq_empty_or_nonempty
  · exact ⟨0, nofun⟩
  have : Finite (BitVec w) := .of_injective BitVec.toFin fun _ _ => BitVec.eq_of_toFin_eq
  have : IsTrans X fun a b => wordCmp a.1 b.1 < 0 := ⟨fun a b c => h.trans a a.2 b b.2 c c.2⟩
  have : Std.Irrefl fun a b : X => wordCmp a.1 b.1 < 0 := ⟨fun a => by simp [wordCmp]⟩
  obtain ⟨m, -, hm⟩ := (Finite.wellFounded_of_trans_of_irrefl fun a b : X => wordCmp a.1 b.1 < 0).has_min
    Set.univ ⟨⟨x₀, hx₀⟩, trivial⟩
  refine ⟨m, fun x hx => ?_⟩
  have hle : 0 ≤ wordCmp x m := not_lt.mp (hm ⟨x, hx⟩ trivial)
  rw [wordCmp, BitVec.toInt_eq_toNat_cond] at hle
  have hlt := (x - m).isLt
  rw [Arc]
  cases w with
  | zero => exact hlt
  | succ w =>
    rw [Nat.add_sub_cancel]
    split at hle <;> omega

/-! ### Lists -/

/-- The first difference decides, and if there is none the lengths. -/
def lexCmp (d : α → α → ℤ) : List α → List α → ℤ
  | x :: xs, y :: ys => if d x y ≠ 0 then d x y else lexCmp d xs ys
  | xs, ys => xs.length - ys.length

lemma lexCmp_sign {d : α → α → ℤ} {rank : α → ℕ} : ∀ xs ys : List α,
    (∀ x ∈ xs, ∀ y ∈ ys, d x y = rank x - rank y) →
    (lexCmp d xs ys < 0 ↔ xs.map rank < ys.map rank) ∧ (0 < lexCmp d xs ys ↔ ys.map rank < xs.map rank)
  | [], [], _ => by simp [lexCmp]
  | [], y :: ys, _ => by simp [lexCmp]; omega
  | x :: xs, [], _ => by simp [lexCmp]; omega
  | x :: xs, y :: ys, h => by
    have hd := h x List.mem_cons_self y List.mem_cons_self
    obtain ⟨hneg, hpos⟩ := lexCmp_sign xs ys fun a ha b hb =>
      h a (List.mem_cons_of_mem _ ha) b (List.mem_cons_of_mem _ hb)
    rw [lexCmp, List.map_cons, List.map_cons, List.cons_lt_cons_iff, List.cons_lt_cons_iff, ← hneg, ← hpos]
    split
    case isTrue h0 => omega
    case isFalse h0 => omega

end Embassies.Compare
