import Mathlib.Tactic.Linarith

/-! Binary trees laid out in an array, and Merkle labellings of them.

    Node `l` has children `2 l + 1` and `2 l + 2`; the root is `0`. `Known S` closes a set of nodes under "both children
    are in, so the parent is in". A `Labelling` is a tree of hashes: every inner node carries the combination of its
    children's labels and, the combination being collision free, no other pair of labels combines to it. -/

namespace Embassies.HeapTree

variable {l : ℕ}

def left (l : ℕ) : ℕ := 2 * l + 1

def right (l : ℕ) : ℕ := 2 * l + 2

/-- The parent of a node other than the root. -/
def parent (l : ℕ) : ℕ := (l - 1) / 2

/-- The other child of the parent of a node other than the root. -/
def sib (l : ℕ) : ℕ := if l % 2 = 1 then l + 1 else l - 1

@[simp] lemma parent_left (l : ℕ) : parent (left l) = l := by simp only [parent, left]; omega

@[simp] lemma parent_right (l : ℕ) : parent (right l) = l := by simp only [parent, right]; omega

@[simp] lemma sib_left (l : ℕ) : sib (left l) = right l := by
  have : left l % 2 = 1 := by simp only [left]; omega
  rw [sib, if_pos this, left, right]

@[simp] lemma sib_right (l : ℕ) : sib (right l) = left l := by
  have : ¬right l % 2 = 1 := by simp only [right]; omega
  rw [sib, if_neg this, left, right]
  omega

lemma left_ne_zero (l : ℕ) : left l ≠ 0 := by simp [left]

lemma right_ne_zero (l : ℕ) : right l ≠ 0 := by simp [right]

section

variable (h : l ≠ 0)
include h

lemma eq_left_or_right : l = left (parent l) ∨ l = right (parent l) := by
  simp only [left, right, parent]; omega

lemma sib_ne_zero : sib l ≠ 0 := by simp only [sib]; split <;> omega

lemma sib_ne : sib l ≠ l := by simp only [sib]; split <;> omega

lemma parent_sib : parent (sib l) = parent l := by
  rcases eq_left_or_right h with h | h <;> rw [h] <;> simp

lemma sib_sib : sib (sib l) = l := by
  rcases eq_left_or_right h with h | h <;> rw [h] <;> simp

lemma parent_lt : parent l < l := by simp only [parent]; omega

lemma parent_ne : parent l ≠ l := (parent_lt h).ne

end

lemma sib_lt {size : ℕ} (hodd : size % 2 = 1) (hl : l < size) : sib l < size := by
  simp only [sib]; split <;> omega

lemma sib_pair {P : ℕ → Prop} (h : l ≠ 0) : P l ∧ P (sib l) ↔ P (left (parent l)) ∧ P (right (parent l)) := by
  rcases eq_left_or_right h with h | h <;> rw [h] <;> simp [and_comm]

/-! ### What can be derived -/

/-- The nodes of `S` and every node both of whose children are already in. -/
inductive Known (S : ℕ → Prop) : ℕ → Prop
  | given {l : ℕ} : S l → Known S l
  | derived {l : ℕ} : Known S (left l) → Known S (right l) → Known S l

lemma Known.mono {S T : ℕ → Prop} (h : ∀ l, S l → T l) : ∀ {l}, Known S l → Known T l
  | _, .given hs => .given (h _ hs)
  | _, .derived hl hr => .derived (hl.mono h) (hr.mono h)

/-- MINIMALITY: a set that holds `S` and is closed under derivation holds everything derivable. -/
lemma Known.subset {S T : ℕ → Prop} (hS : ∀ l, S l → T l) (hT : ∀ l, T (left l) → T (right l) → T l)
    : ∀ {l}, Known S l → T l
  | _, .given hs => hS _ hs
  | _, .derived hl hr => hT _ (hl.subset hS hT) (hr.subset hS hT)

/-! ### Merkle labellings -/

/-- The hashes of a Merkle tree over `combine`. `present` are the nodes the tree has a hash for,
    `inner` those among them whose hash is computed from two children. -/
structure Labelling {H : Type} (combine : H → H → H) where
  label : ℕ → H
  present : ℕ → Prop
  inner : ℕ → Prop
  present_root : present 0
  inner_present : ∀ l, inner l → present l
  inner_parent : ∀ l, l ≠ 0 → present l → inner (parent l)
  inner_left : ∀ l, inner l → present (left l)
  inner_right : ∀ l, inner l → present (right l)
  label_inner : ∀ l, inner l → label l = combine (label (left l)) (label (right l))
  /-- collision freeness at the tree's own nodes -/
  binding : ∀ l a b, present l → combine a b = label l →
    inner l ∧ a = label (left l) ∧ b = label (right l)

namespace Labelling

variable {H : Type} {comb : H → H → H} (T : Labelling comb)

/-- `h` is the hash the tree has at `l`. -/
def Has (l : ℕ) (h : H) : Prop := T.present l ∧ h = T.label l

variable {T}

lemma Has.combine {l : ℕ} {a b : H} (ha : T.Has (left l) a) (hb : T.Has (right l) b) : T.Has l (comb a b) := by
  have hin : T.inner l := by simpa using T.inner_parent _ (left_ne_zero l) ha.1
  exact ⟨T.inner_present l hin, by rw [ha.2, hb.2, T.label_inner l hin]⟩

lemma Has.split {l : ℕ} {a b : H} (h : T.Has l (comb a b)) : T.Has (left l) a ∧ T.Has (right l) b := by
  obtain ⟨hin, ha, hb⟩ := T.binding l a b h.1 h.2
  exact ⟨⟨T.inner_left l hin, ha⟩, ⟨T.inner_right l hin, hb⟩⟩

end Labelling

end Embassies.HeapTree
