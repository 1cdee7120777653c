import Embassies.Utils.AVLLaws
import Mathlib.Data.Set.Card

/-! AVL trees as sets.

    `Stores` forgets the order of the elements: what an operation does to a tree is said by what it does to
    the set of its elements. Key classes come from a linear order, or from a comparison that returns the
    sign of a difference, as most of the sources write them. -/

namespace Embassies.Utils

open List

variable {E K L : Type} [LinearOrder L]

namespace AVLKeys

/-- A key class whose operators are those of a linear order. -/
def ofLinear [LinearOrder K] (getKey : E → K) : AVLKeys E K where
  getKey := getKey
  lt a b := decide (a < b)
  gt a b := decide (b < a)
  eq a b := decide (a = b)
  le a b := decide (a ≤ b)
  ge a b := decide (b ≤ a)

lemma ofLinear_ordered [LinearOrder K] (getKey : E → K) : (ofLinear getKey).OrderedOn id Set.univ where
  lt_iff _ _ _ _ := by simp [ofLinear]
  gt_iff _ _ _ _ := by simp [ofLinear]
  eq_iff _ _ _ _ := by simp [ofLinear]
  le_iff _ _ _ _ := by simp [ofLinear]
  ge_iff _ _ _ _ := by simp [ofLinear]

/-- A key class whose operators test the sign of `cmp(a, b)`. -/
def ofCmp (getKey : E → K) (cmp : K → K → ℤ) : AVLKeys E K where
  getKey := getKey
  lt a b := decide (cmp a b < 0)
  gt a b := decide (0 < cmp a b)
  eq a b := decide (cmp a b = 0)
  le a b := decide (cmp a b ≤ 0)
  ge a b := decide (0 ≤ cmp a b)

lemma ofCmp_ordered {getKey : E → K} {cmp : K → K → ℤ} {rank : K → L} {S : Set K}
    (hlt : ∀ a ∈ S, ∀ b ∈ S, cmp a b < 0 ↔ rank a < rank b)
    (hgt : ∀ a ∈ S, ∀ b ∈ S, 0 < cmp a b ↔ rank b < rank a) : (ofCmp getKey cmp).OrderedOn rank S where
  lt_iff a ha b hb := by simp [ofCmp, hlt a ha b hb]
  gt_iff a ha b hb := by simp [ofCmp, hgt a ha b hb]
  eq_iff a ha b hb := by
    have hlt := hlt a ha b hb
    have hgt := hgt a ha b hb
    simp only [ofCmp, decide_eq_true_eq]
    rcases lt_trichotomy (rank a) (rank b) with h | h | h
    · exact iff_of_false (hlt.mpr h).ne h.ne
    · have h1 : ¬cmp a b < 0 := fun h' => (hlt.mp h').ne h
      have h2 : ¬0 < cmp a b := fun h' => (hgt.mp h').ne' h
      exact iff_of_true (by omega) h
    · exact iff_of_false (hgt.mpr h).ne' h.ne'
  le_iff a ha b hb := by
    have hgt := hgt a ha b hb
    simp only [ofCmp, decide_eq_true_eq, ← not_lt, hgt]
  ge_iff a ha b hb := by
    have hlt := hlt a ha b hb
    simp only [ofCmp, decide_eq_true_eq, ← not_lt, hlt]

end AVLKeys

namespace AVLTree

variable {t : AVLTree E}

lemma Linked.unique : ∀ {s s' : BinaryTree (Label E)} {parent : Option ℕ},
    t.Linked parent s → t.Linked parent s' → rootAddr s = rootAddr s' → s = s'
  | .nil, .nil, _, _, _, _ => rfl
  | .nil, .node _ _ _, _, _, _, h => absurd h (by simp)
  | .node _ _ _, .nil, _, _, _, h => absurd h (by simp)
  | .node v l r, .node v' l' r', parent, ⟨hv, hl, hr⟩, ⟨hv', hl', hr'⟩, h => by
      simp only [rootAddr_node, Option.some.injEq] at h
      rw [← h] at hv' hl' hr'
      obtain ⟨hbalance, -, hleft, hright, helem⟩ := AVLElement.mk.inj (Except.ok.inj (hv.symm.trans hv'))
      obtain rfl := hl.unique hl' hleft
      obtain rfl := hr.unique hr' hright
      obtain ⟨a, b, e⟩ := v
      obtain ⟨a', b', e'⟩ := v'
      simp_all

lemma Contains.unique {xs ys : List E} (hx : t.Contains xs) (hy : t.Contains ys) : xs = ys := by
  obtain ⟨s, hat, -, rfl⟩ := hx
  obtain ⟨s', hat', -, rfl⟩ := hy
  rw [hat.linked.unique hat'.linked (hat.pathLinked.symm.trans hat'.pathLinked)]

/-- The elements of a tree, in whatever order. -/
def Elements (t : AVLTree E) (M : Set E) : Prop := ∃ xs, t.Contains xs ∧ xs.Nodup ∧ ∀ x, x ∈ xs ↔ x ∈ M

lemma Elements.unique {M N : Set E} (hM : t.Elements M) (hN : t.Elements N) : M = N := by
  obtain ⟨xs, hxs, -, hmem⟩ := hM
  obtain ⟨ys, hys, -, hmem'⟩ := hN
  obtain rfl := hxs.unique hys
  ext x
  rw [← hmem, hmem']

/-- THE SET a tree stores: its contents, in any order, sorted by their keys. -/
def Stores (c : AVLKeys E K) (rank : K → L) (S : Set K) (t : AVLTree E) (M : Set E) : Prop :=
  ∃ xs, t.Contains xs ∧ Sorted c rank S xs ∧ ∀ x, x ∈ xs ↔ x ∈ M

namespace Stores

variable {c : AVLKeys E K} {rank : K → L} {S : Set K} {t : AVLTree E} {M : Set E} {e x : E} {key : K}

lemma empty : Stores c rank S AVLTree.empty ∅ :=
  ⟨[], contains_empty, ⟨fun _ h => absurd h not_mem_nil, List.Pairwise.nil⟩, fun x => by simp⟩

section

variable (h : Stores c rank S t M)
include h

lemma elements : t.Elements M := by
  obtain ⟨xs, hcontains, hsorted, hmem⟩ := h
  exact ⟨xs, hcontains, hsorted.pairwise.imp fun hlt heq => hlt.ne (by rw [heq]), hmem⟩

lemma finite : M.Finite := by
  obtain ⟨xs, -, -, hmem⟩ := h
  exact (finite_toSet xs).subset fun x hx => (hmem x).mpr hx

lemma inj {y : E} (hx : x ∈ M) (hy : y ∈ M) (heq : rank (c.getKey x) = rank (c.getKey y))
    : x = y := by
  obtain ⟨xs, -, hsorted, hmem⟩ := h
  exact hsorted.inj ((hmem x).mpr hx) ((hmem y).mpr hy) heq

/-- INSERT of a key that the set does not have. -/
lemma insert (hc : c.OrderedOn rank S) (he : c.getKey e ∈ S) (hnew : ∀ x ∈ M, rank (c.getKey x) ≠ rank (c.getKey e)) :
    ∃ t', t.insert c e = .ok t' ∧ Stores c rank S t' (Insert.insert e M) := by
  obtain ⟨xs, hcontains, hsorted, hmem⟩ := h
  obtain ⟨t', l, r, hrun, rfl, hcontains', hl, hr⟩ := insert_spec hc hsorted hcontains he
    fun x hx => hnew x ((hmem x).mp hx)
  obtain ⟨hsl, hsr, hcross⟩ := pairwise_append.mp hsorted.pairwise
  refine ⟨t', hrun, _, hcontains', ⟨fun x hx => ?_, ?_⟩, fun x => ?_⟩
  · rcases mem_append.mp hx with hx | hx
    · exact hsorted.mem x (mem_append_left _ hx)
    rcases mem_cons.mp hx with rfl | hx
    · exact he
    · exact hsorted.mem x (mem_append_right _ hx)
  · refine pairwise_append.mpr ⟨hsl, pairwise_cons.mpr ⟨hr, hsr⟩, fun x hx y hy => ?_⟩
    rcases mem_cons.mp hy with rfl | hy
    · exact hl x hx
    · exact hcross x hx y hy
  · simp only [Set.mem_insert_iff, ← hmem, mem_append, mem_cons]
    tauto

end

lemma erase {l r : List E} (hsorted : Sorted c rank S (l ++ x :: r)) (hmem : ∀ y, y ∈ l ++ x :: r ↔ y ∈ M)
    (hcontains : t.Contains (l ++ r)) : Stores c rank S t (M \ {x}) := by
  have hsub : (l ++ r).Sublist (l ++ x :: r) := (sublist_cons_self x r).append_left l
  obtain ⟨-, hxr, hcross⟩ := pairwise_append.mp hsorted.pairwise
  refine ⟨_, hcontains, ⟨fun y hy => hsorted.mem y (hsub.subset hy), hsorted.pairwise.sublist hsub⟩, fun y => ?_⟩
  simp only [Set.mem_sdiff, Set.mem_singleton_iff, ← hmem, mem_append, mem_cons]
  constructor
  · rintro (hy | hy)
    · exact ⟨.inl hy, fun h => (hcross y hy x mem_cons_self).ne (by rw [h])⟩
    · exact ⟨.inr (.inr hy), fun h => ((pairwise_cons.mp hxr).1 y hy).ne (by rw [h])⟩
  · rintro ⟨hy | rfl | hy, hne⟩
    · exact .inl hy
    · exact absurd rfl hne
    · exact .inr hy

section

variable (h : Stores c rank S t M)
include h

/-- REMOVE the element with the key of the given one. -/
lemma remove (hc : c.OrderedOn rank S) (he : c.getKey e ∈ S) (hx : x ∈ M) (hkey : rank (c.getKey x) = rank (c.getKey e))
    : ∃ t', t.remove c e = .ok t' ∧ Stores c rank S t' (M \ {x}) := by
  obtain ⟨xs, hcontains, hsorted, hmem⟩ := h
  obtain ⟨t', l, r, hrun, rfl, hcontains'⟩ := remove_spec hc hsorted hcontains he ((hmem x).mpr hx) hkey
  exact ⟨t', hrun, erase hsorted hmem hcontains'⟩

/-- REMOVE a key that the set may have. -/
lemma removeKey (hc : c.OrderedOn rank S) (hkey : key ∈ S) :
    (∃ t' x, t.removeKey c key = .ok (t', some x) ∧ x ∈ M ∧ rank (c.getKey x) = rank key ∧
      Stores c rank S t' (M \ {x})) ∨ (t.removeKey c key = .ok (t, none) ∧ ∀ x ∈ M, rank (c.getKey x) ≠ rank key) := by
  obtain ⟨xs, hcontains, hsorted, hmem⟩ := h
  rcases removeKey_spec hc hsorted hcontains hkey with
    ⟨t', l, x, r, hrun, rfl, hx, hcontains'⟩ | ⟨hrun, hnone⟩
  · exact .inl ⟨t', x, hrun, (hmem x).mp (by simp), hx, erase hsorted hmem hcontains'⟩
  · exact .inr ⟨hrun, fun x hx => hnone x ((hmem x).mpr hx)⟩

lemma findFirstLessThanOrEqualTo_mem (key : K) :
    ∃ r, t.findFirstLessThanOrEqualTo c key = .ok r ∧ ∀ x, r = some x → x ∈ M := by
  obtain ⟨xs, hcontains, -, hmem⟩ := h
  simpa only [hmem] using AVLTree.findFirstLessThanOrEqualTo_mem c key hcontains

lemma findFirstGreaterThanOrEqualTo_mem (key : K) :
    ∃ r, t.findFirstGreaterThanOrEqualTo c key = .ok r ∧ ∀ x, r = some x →
      x ∈ M ∧ (c.eq (c.getKey x) key = true ∨ c.gt (c.getKey x) key = true) := by
  obtain ⟨xs, hcontains, -, hmem⟩ := h
  simpa only [hmem] using AVLTree.findFirstGreaterThanOrEqualTo_mem c key hcontains

end

section Searches

variable (h : Stores c rank S t M) (hc : c.OrderedOn rank S)
include h hc

lemma findMin : ∃ r, t.findMin c = .ok r ∧
    Nearest (fun x => OrderDual.toDual (rank (c.getKey x))) (· ∈ M) (fun _ => True) r := by
  obtain ⟨xs, hcontains, hsorted, hmem⟩ := h
  simpa only [hmem] using findMin_spec hc hsorted hcontains

lemma findMax : ∃ r, t.findMax c = .ok r ∧ Nearest (fun x => rank (c.getKey x)) (· ∈ M) (fun _ => True) r := by
  obtain ⟨xs, hcontains, hsorted, hmem⟩ := h
  simpa only [hmem] using findMax_spec hc hsorted hcontains

section

variable (hkey : key ∈ S)
include hkey

lemma findFirstLessThan : ∃ r, t.findFirstLessThan c key = .ok r ∧
    Nearest (fun x => rank (c.getKey x)) (· ∈ M) (fun x => rank (c.getKey x) < rank key) r := by
  obtain ⟨xs, hcontains, hsorted, hmem⟩ := h
  simpa only [hmem] using findFirstLessThan_spec hc hsorted hcontains hkey

lemma findFirstLessThanOrEqualTo : ∃ r, t.findFirstLessThanOrEqualTo c key = .ok r ∧
    Nearest (fun x => rank (c.getKey x)) (· ∈ M) (fun x => rank (c.getKey x) ≤ rank key) r := by
  obtain ⟨xs, hcontains, hsorted, hmem⟩ := h
  simpa only [hmem] using findFirstLessThanOrEqualTo_spec hc hsorted hcontains hkey

lemma findFirstGreaterThan : ∃ r, t.findFirstGreaterThan c key = .ok r ∧
    Nearest (fun x => OrderDual.toDual (rank (c.getKey x))) (· ∈ M) (fun x => rank key < rank (c.getKey x)) r := by
  obtain ⟨xs, hcontains, hsorted, hmem⟩ := h
  simpa only [hmem] using findFirstGreaterThan_spec hc hsorted hcontains hkey

lemma findFirstGreaterThanOrEqualTo : ∃ r, t.findFirstGreaterThanOrEqualTo c key = .ok r ∧
      Nearest (fun x => OrderDual.toDual (rank (c.getKey x))) (· ∈ M) (fun x => rank key ≤ rank (c.getKey x)) r := by
  obtain ⟨xs, hcontains, hsorted, hmem⟩ := h
  simpa only [hmem] using findFirstGreaterThanOrEqualTo_spec hc hsorted hcontains hkey

lemma lookup : ∃ r, t.lookup c key = .ok r ∧
    ∀ x, r = some x ↔ x ∈ M ∧ rank (c.getKey x) = rank key := by
  obtain ⟨xs, hcontains, hsorted, hmem⟩ := h
  simpa only [hmem] using lookup_spec hc hsorted hcontains hkey

end

end Searches

end Stores

end AVLTree

end Embassies.Utils
