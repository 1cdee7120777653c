import Embassies.Utils.AVLRotations

/-! Rebalancing: what `rightAdded`, `leftAdded` and `gotOneShorter` leave behind.

    The stored balance of a node has to be the difference of its subtrees' heights. A tree that has just
    grown or shrunk at a subtree is `Balanced` below and along the way up only for the old height of that
    subtree; each step either absorbs the difference or hands it to the next frame. -/

namespace Embassies.Utils

open Side AVLTree

variable {E : Type}
variable {side : Side} {b : AVLBalance}

/-- The balance of a node with subtrees of these heights, the first of them on that side. -/
def Agrees (b : AVLBalance) (side : Side) (near far : ℕ) : Prop :=
  (b = .balanced ∧ near = far) ∨ (b = heavy side ∧ near = far + 1) ∨
    (b = heavy side.other ∧ far = near + 1)

lemma agrees_other {near far : ℕ} : Agrees b side.other near far ↔ Agrees b side far near := by
  simp only [Agrees, other_other]
  constructor
  · rintro (⟨h, h'⟩ | ⟨h, h'⟩ | ⟨h, h'⟩)
    exacts [.inl ⟨h, h'.symm⟩, .inr (.inr ⟨h, h'⟩), .inr (.inl ⟨h, h'⟩)]
  · rintro (⟨h, h'⟩ | ⟨h, h'⟩ | ⟨h, h'⟩)
    exacts [.inl ⟨h, h'.symm⟩, .inr (.inr ⟨h, h'⟩), .inr (.inl ⟨h, h'⟩)]

/-- THE AVL PROPERTY: every stored balance is the right height minus the left height, and these differ by
    at most one. -/
def Balanced : BinaryTree (Label E) → Prop
  | .nil => True
  | .node v l r => Agrees v.balance .left l.height r.height ∧ Balanced l ∧ Balanced r

lemma balanced_join {l r : BinaryTree (Label E)} {v : Label E} : Balanced (join side l v r) ↔
      Agrees v.balance side l.height r.height ∧ Balanced l ∧ Balanced r := by
  cases side with
  | left => rfl
  | right =>
    show Agrees v.balance right.other r.height l.height ∧ Balanced r ∧ Balanced l ↔ _
    rw [agrees_other]
    exact ⟨fun ⟨hv, hr, hl⟩ => ⟨hv, hl, hr⟩, fun ⟨hv, hl, hr⟩ => ⟨hv, hr, hl⟩⟩

/-- The nodes on a way are balanced around a hole of that height. -/
def PathBalanced (h : ℕ) : List (Frame (Label E)) → Prop
  | [] => True
  | f :: up =>
    Agrees f.value.balance f.side h f.sibling.height ∧ Balanced f.sibling ∧
      PathBalanced (max h f.sibling.height + 1) up

lemma balanced_plug : ∀ {path : List (Frame (Label E))} {s : BinaryTree (Label E)},
    Balanced (plug s path) ↔ Balanced s ∧ PathBalanced s.height path
  | [], s => by simp [plug, PathBalanced]
  | f :: up, s => by
      rw [plug, balanced_plug, balanced_join, height_join, PathBalanced]
      tauto

/-- The addresses of a tree's nodes with their elements, from left to right. -/
def content (s : BinaryTree (Label E)) : List (ℕ × E) := (inorder s).map fun v => (v.addr, v.elem)

lemma content_join (side : Side) (l r : BinaryTree (Label E)) (v : Label E) :
    content (join side l v r) = joinList side (content l) (v.addr, v.elem) (content r) := by
  simp only [content, inorder_join, joinList_map]

lemma content_plug_congr {s s' : BinaryTree (Label E)} (h : content s = content s') (path : List (Frame (Label E)))
    : content (plug s path) = content (plug s' path) := by
  simp only [content, inorder_plug, List.map_append] at h ⊢
  rw [h]

lemma addrs_eq (s : BinaryTree (Label E)) : addrs s = (content s).map Prod.fst := by
  simp [addrs, content]

lemma doubleBalances_spec {near far k : ℕ} (hb : Agrees b side near far) (hk : max near far = k) :
    ∃ bv bw, doubleBalances side b = .ok (bv, bw) ∧ Agrees bw side.other near k ∧ Agrees bv side far k := by
  rcases hb with ⟨rfl, he⟩ | ⟨rfl, he⟩ | ⟨rfl, he⟩
  · refine ⟨.balanced, .balanced, ?_, .inl ⟨rfl, by omega⟩, .inl ⟨rfl, by omega⟩⟩
    simp [doubleBalances, (heavy_ne_balanced _).symm]
  · refine ⟨heavy side.other, .balanced, ?_, .inl ⟨rfl, by omega⟩, .inr (.inr ⟨rfl, by omega⟩)⟩
    simp [doubleBalances, (other_ne side).symm]
  · refine ⟨.balanced, heavy side, ?_, .inr (.inr ⟨by simp, by omega⟩), .inl ⟨rfl, by omega⟩⟩
    simp [doubleBalances]

namespace AVLTree

variable {x y z : BinaryTree (Label E)} {v w : Label E}

/-- The whole tree is in the heap and balanced, and has that content. -/
def Holds (t : AVLTree E) (xs : List (ℕ × E)) : Prop :=
  ∃ s, t.At s [] ∧ Balanced s ∧ content s = xs

/-- A subtree that has just gotten deeper: its root is not balanced, unless it is new. -/
def Grown : BinaryTree (Label E) → Prop
  | .nil => False
  | .node v l r => v.balance = .balanced → max l.height r.height = 0

lemma grown_join {side : Side} {l r : BinaryTree (Label E)} :
    Grown (join side l v r) ↔ (v.balance = .balanced → max l.height r.height = 0) := by
  cases side with
  | left => rfl
  | right => rw [max_comm]; rfl

variable {t : AVLTree E} {side : Side} {path : List (Frame (Label E))}

section

variable (hat : t.At (join side (join side x w y) v z) path)
include hat

lemma single_rebalances (hs : Balanced (join side x w y)) (hz : Balanced z) (hxy : x.height = y.height + 1)
    (hyz : y.height = z.height) :
    ∃ t' s', t.singleRotate v.addr w.addr side = .ok t' ∧ t'.allocated = t.allocated ∧ t'.At s' path ∧
      Balanced s' ∧ content s' = content (join side (join side x w y) v z) ∧ s'.height = z.height + 2 ∧
      ∃ l w' r, s' = join side l w' r ∧ w'.addr = w.addr := by
  obtain ⟨_, hx, hy⟩ := balanced_join.mp hs
  obtain ⟨t', hrun, halloc, hat'⟩ := singleRotate_spec hat
  refine ⟨t', _, hrun, halloc, hat', ?_, ?_, ?_, _, _, _, rfl, rfl⟩
  · refine balanced_join.mpr ⟨.inl ⟨rfl, ?_⟩, hx, balanced_join.mpr ⟨.inl ⟨rfl, hyz⟩, hy, hz⟩⟩
    rw [height_join]
    omega
  · simp only [content_join]
    cases side <;> simp [joinList]
  · simp only [height_join]
    omega

lemma single_restores (hs : Balanced (join side x w y)) (hz : Balanced z) (hxy : x.height = y.height)
    (hyz : y.height = z.height + 1) :
    ∃ t1 t2 t' s', t.singleRotate v.addr w.addr side = .ok t1 ∧ t1.setBalance v.addr (heavy side) = .ok t2 ∧
      t2.setBalance w.addr (heavy side.other) = .ok t' ∧ t'.allocated = t.allocated ∧ t'.At s' path ∧
      Balanced s' ∧ content s' = content (join side (join side x w y) v z) ∧ s'.height = z.height + 3 := by
  obtain ⟨_, hx, hy⟩ := balanced_join.mp hs
  obtain ⟨t1, hrun1, halloc1, hat1⟩ := singleRotate_spec hat
  -- we are below the child now
  rw [← join_other side] at hat1
  obtain ⟨t2, hrun2, halloc2, hat2⟩ := setBalance_spec
    (at_cons (f := ⟨side.other, { w with balance := .balanced }, x⟩).mpr hat1) (heavy side)
  obtain ⟨t3, hrun3, halloc3, hat3⟩ := setBalance_spec (at_cons.mp hat2) (heavy side.other)
  refine ⟨t1, t2, t3, _, hrun1, hrun2, hrun3, halloc3.trans (halloc2.trans halloc1), hat3, ?_, ?_, ?_⟩
  · refine balanced_join.mpr ⟨.inr (.inl ⟨rfl, ?_⟩), balanced_join.mpr ⟨.inr (.inl ⟨rfl, hyz⟩), hy, hz⟩, hx⟩
    simp only [height_join]
    omega
  · simp only [content_join]
    cases side <;> simp [joinList, other]
  · simp only [height_join]
    omega

lemma double_rebalances (hs : Balanced (join side x w y)) (hz : Balanced z) (hw : w.balance = heavy side.other)
    (hyx : y.height = x.height + 1) (hxz : x.height = z.height) :
    ∃ t' s' g, rootAddr y = some g ∧ t.doubleRotate v.addr w.addr (some g) side = .ok t' ∧
      t'.allocated = t.allocated ∧ t'.At s' path ∧ Balanced s' ∧
      content s' = content (join side (join side x w y) v z) ∧ s'.height = z.height + 2 ∧
      ∃ l g' r, s' = join side l g' r ∧ g'.addr = g := by
  obtain ⟨_, hx, hy⟩ := balanced_join.mp hs
  obtain rfl | ⟨γ, g, β, rfl⟩ := eq_nil_or_join side y
  · simp at hyx
  obtain ⟨hg, hγ, hβ⟩ := balanced_join.mp hy
  rw [height_join] at hyx
  obtain ⟨bv, bw, hbal, hbw, hbv⟩ := doubleBalances_spec hg (k := z.height) (by omega)
  rw [← join_other side (join side γ g β) w x] at hat ⊢
  obtain ⟨t', hrun, halloc, hat'⟩ := doubleRotate_spec hat hw hbal
  refine ⟨t', _, g.addr, rootAddr_join _ _ _ _, hrun, halloc, hat', ?_, ?_, ?_, _, _, _, rfl, rfl⟩
  · refine balanced_join.mpr ⟨.inl ⟨rfl, ?_⟩, balanced_join.mpr ⟨hxz ▸ hbw, hγ, hx⟩, balanced_join.mpr ⟨hbv, hβ, hz⟩⟩
    simp only [height_join]
    omega
  · simp only [content_join]
    cases side <;> simp [joinList, other]
  · simp only [height_join]
    omega

end

variable {f : Frame (Label E)} {up : List (Frame (Label E))} {s : BinaryTree (Label E)} {h : ℕ}

/-- STEP of `rightAdded` and `leftAdded`. -/
lemma addedStep_spec (hat : t.At s (f :: up)) (hs : Balanced s) (hheight : s.height = h + 1) (hgrown : Grown s)
    (hagrees : Agrees f.value.balance f.side h f.sibling.height) (hsib : Balanced f.sibling) :
    ∃ t' grew s', addedStep f.side t f.value.addr = .ok (t', grew) ∧ t'.allocated = t.allocated ∧
      t'.At s' up ∧ Balanced s' ∧ content s' = content (join f.side s f.value f.sibling) ∧
      (grew = false → s'.height = max h f.sibling.height + 1) ∧
      (grew = true → s'.height = max h f.sibling.height + 2 ∧ Grown s' ∧
        ∃ l v r, s' = join f.side l v r ∧ v.addr = f.value.addr) := by
  obtain ⟨side, v, sib⟩ := f
  have hat' : t.At (join side s v sib) up := at_cons.mp hat
  obtain ⟨hget, hlinked, _⟩ := linked_join.mp hat'.linked
  simp only at hagrees hsib ⊢
  rcases hagrees with ⟨hb, he⟩ | ⟨hb, he⟩ | ⟨hb, he⟩
  · -- we were balanced and are one deeper now
    obtain ⟨t', hrun, halloc, hat''⟩ := setBalance_spec hat' (heavy side)
    refine ⟨t', true, _, ?_, halloc, hat'', ?_, ?_, by rintro ⟨⟩, fun _ => ⟨?_, ?_, _, _, _, rfl, rfl⟩⟩
    · simp [addedStep, hget, hb, liteAssert, hrun, (heavy_ne_balanced _).symm]
    · exact balanced_join.mpr ⟨.inr (.inl ⟨rfl, by omega⟩), hs, hsib⟩
    · rw [content_join, content_join]
    · rw [height_join]
      omega
    · exact grown_join.mpr fun hbal => absurd hbal (heavy_ne_balanced _)
  · -- we were heavy on that side: out of balance
    obtain rfl | ⟨x, w, y, rfl⟩ := eq_nil_or_join side s
    · simp at hheight
    obtain ⟨hw, hx, hy⟩ := balanced_join.mp hs
    have hgetw := (linked_join.mp hlinked).1
    rw [height_join] at hheight
    rw [grown_join] at hgrown
    rcases hw with ⟨hw, hxy⟩ | ⟨hw, hxy⟩ | ⟨hw, hxy⟩
    · have := hgrown hw
      omega
    · obtain ⟨t', s', hrun, halloc, hat'', hs', hcontent, hh, _⟩ := single_rebalances hat' hs hsib hxy (by omega)
      refine ⟨t', false, s', ?_, halloc, hat'', hs', hcontent, fun _ => by omega, by rintro ⟨⟩⟩
      simp [addedStep, hget, hb, liteAssert, nonNull, hgetw, hw, hrun, (other_ne side).symm]
    · obtain ⟨t', s', g, hg, hrun, halloc, hat'', hs', hcontent, hh, _⟩ :=
        double_rebalances hat' hs hsib hw hxy (by omega)
      refine ⟨t', false, s', ?_, halloc, hat'', hs', hcontent, fun _ => by omega, by rintro ⟨⟩⟩
      simp [addedStep, hget, hb, liteAssert, nonNull, hgetw, hw, hg, hrun, (other_ne side).symm, other_ne side]
  · -- we were heavy on the other side
    obtain ⟨t', hrun, halloc, hat''⟩ := setBalance_spec hat' .balanced
    refine ⟨t', false, _, ?_, halloc, hat'', ?_, ?_, fun _ => ?_, by rintro ⟨⟩⟩
    · simp [addedStep, hget, hb, liteAssert, hrun]
    · exact balanced_join.mpr ⟨.inl ⟨rfl, by omega⟩, hs, hsib⟩
    · rw [content_join, content_join]
    · rw [height_join]
      omega

/-- RUN of `rightAdded` and `leftAdded`, up the tree: the whole tree is balanced again. -/
lemma added_spec (fuel : ℕ) : ∀ {t : AVLTree E} {s : BinaryTree (Label E)} {f : Frame (Label E)}
    {up : List (Frame (Label E))} {h : ℕ}, up.length < fuel → t.At s (f :: up) → Balanced s →
      s.height = h + 1 → Grown s → PathBalanced h (f :: up) →
      ∃ t', added fuel f.side t f.value.addr = .ok t' ∧ t'.allocated = t.allocated ∧
        t'.Holds (content (plug s (f :: up))) := by
  induction fuel with
  | zero =>
    intro t s f up h hfuel
    exact absurd hfuel (Nat.not_lt_zero _)
  | succ k ih =>
    intro t s f up h hfuel hat hs hheight hgrown hpath
    obtain ⟨t', grew, s', hrun, halloc, hat', hs', hcontent, hsame, htop⟩ :=
      addedStep_spec hat hs hheight hgrown hpath.1 hpath.2.1
    rw [plug, ← content_plug_congr hcontent]
    cases grew with
    | false =>
      refine ⟨t', by simp [added, hrun], halloc, plug s' up, at_whole.mp hat', balanced_plug.mpr ⟨hs', ?_⟩, rfl⟩
      rw [hsame rfl]
      exact hpath.2.2
    | true =>
      obtain ⟨hh, hgrown', l, v, r, hjoin, hv⟩ := htop rfl
      have hside := hv ▸ parentSide_spec (hjoin ▸ hat')
      cases up with
      | nil => exact ⟨t', by simp [added, hrun, hside], halloc, s', hat', hs', rfl⟩
      | cons g up =>
        obtain ⟨t'', hrun', halloc', hholds⟩ := ih (Nat.lt_of_succ_lt_succ hfuel) hat' hs' hh hgrown' hpath.2.2
        exact ⟨t'', by simp [added, hrun, hside, hrun'], halloc'.trans halloc, hholds⟩

/-- STEP of `gotOneShorter`. -/
lemma shorterStep_spec (hat : t.At s (f :: up)) (hs : Balanced s)
    (hagrees : Agrees f.value.balance f.side (s.height + 1) f.sibling.height) (hsib : Balanced f.sibling) :
    ∃ t' top s', shorterStep f.side t f.value.addr = .ok (t', top) ∧ t'.allocated = t.allocated ∧
      t'.At s' up ∧ Balanced s' ∧ content s' = content (join f.side s f.value f.sibling) ∧
      (top = none → s'.height = max (s.height + 1) f.sibling.height + 1) ∧
      (∀ a, top = some a → s'.height = max (s.height + 1) f.sibling.height ∧
        ∃ side l v r, s' = join side l v r ∧ v.addr = a) := by
  obtain ⟨side, v, sib⟩ := f
  have hat' : t.At (join side s v sib) up := at_cons.mp hat
  obtain ⟨hget, _, hlinked⟩ := linked_join.mp hat'.linked
  simp only at hagrees hsib ⊢
  rcases hagrees with ⟨hb, he⟩ | ⟨hb, he⟩ | ⟨hb, he⟩
  · -- our depth has stayed the same
    obtain ⟨t', hrun, halloc, hat''⟩ := setBalance_spec hat' (heavy side.other)
    refine ⟨t', none, _, ?_, halloc, hat'', ?_, ?_, fun _ => ?_, by rintro _ ⟨⟩⟩
    · simp [shorterStep, hget, hb, hrun]
    · exact balanced_join.mpr ⟨.inr (.inr ⟨rfl, by omega⟩), hs, hsib⟩
    · rw [content_join, content_join]
    · rw [height_join]
      omega
  · -- we just shrunk our heavy side
    obtain ⟨t', hrun, halloc, hat''⟩ := setBalance_spec hat' .balanced
    refine ⟨t', some v.addr, _, ?_, halloc, hat'', ?_, ?_, by rintro ⟨⟩, ?_⟩
    · simp [shorterStep, hget, hb, hrun]
    · exact balanced_join.mpr ⟨.inl ⟨rfl, by omega⟩, hs, hsib⟩
    · rw [content_join, content_join]
    · rintro a ⟨⟩
      refine ⟨?_, _, _, _, _, rfl, rfl⟩
      rw [height_join]
      omega
  · -- out of balance: the sibling is the heavy child
    obtain rfl | ⟨x, w, y, rfl⟩ := eq_nil_or_join side.other sib
    · simp at he
    have hflip : join side s v (join side.other x w y) = join side.other (join side.other x w y) v s := by
      rw [← join_other side]
    rw [hflip] at hat' ⊢
    obtain ⟨hw, hx, hy⟩ := balanced_join.mp hsib
    have hgetw := (linked_join.mp hlinked).1
    rw [height_join] at he ⊢
    rcases hw with ⟨hw, hxy⟩ | ⟨hw, hxy⟩ | ⟨hw, hxy⟩
    · obtain ⟨t1, t2, t', s', hrun1, hrun2, hrun3, halloc, hat'', hs', hcontent, hh⟩ :=
        single_restores hat' hsib hs hxy (by omega)
      refine ⟨t', none, s', ?_, halloc, hat'', hs', hcontent, fun _ => by omega, by rintro _ ⟨⟩⟩
      rw [other_other] at hrun3
      simp [shorterStep, hget, hb, nonNull, hgetw, hw, hrun1, hrun2, hrun3, other_ne side, liteAssert,
        (heavy_ne_balanced _).symm]
    · obtain ⟨t', s', hrun, halloc, hat'', hs', hcontent, hh, hroot⟩ := single_rebalances hat' hsib hs hxy (by omega)
      refine ⟨t', some w.addr, s', ?_, halloc, hat'', hs', hcontent, by rintro ⟨⟩, ?_⟩
      · simp [shorterStep, hget, hb, nonNull, hgetw, hw, hrun, other_ne side]
      · rintro a ⟨⟩
        exact ⟨by omega, _, hroot⟩
    · obtain ⟨t', s', g, hg, hrun, halloc, hat'', hs', hcontent, hh, hroot⟩ :=
        double_rebalances hat' hsib hs hw hxy (by omega)
      refine ⟨t', some g, s', ?_, halloc, hat'', hs', hcontent, by rintro ⟨⟩, ?_⟩
      · rw [cell_other] at hgetw
        simp [shorterStep, hget, hb, nonNull, hgetw, hw, hg, hrun, other_ne side, (other_ne side).symm]
      · rintro a ⟨⟩
        exact ⟨by omega, _, hroot⟩

/-- RUN of `gotOneShorter`, up the tree: the whole tree is balanced again. -/
lemma gotOneShorterFrom_spec (fuel : ℕ) : ∀ {t : AVLTree E} {s : BinaryTree (Label E)}
    {f : Frame (Label E)} {up : List (Frame (Label E))}, up.length < fuel → t.At s (f :: up) →
      Balanced s → PathBalanced (s.height + 1) (f :: up) →
      ∃ t', gotOneShorterFrom fuel f.side t f.value.addr = .ok t' ∧ t'.allocated = t.allocated ∧
        t'.Holds (content (plug s (f :: up))) := by
  induction fuel with
  | zero =>
    intro t s f up hfuel
    exact absurd hfuel (Nat.not_lt_zero _)
  | succ k ih =>
    intro t s f up hfuel hat hs hpath
    obtain ⟨t', top, s', hrun, halloc, hat', hs', hcontent, hsame, htop⟩ := shorterStep_spec hat hs hpath.1 hpath.2.1
    rw [plug, ← content_plug_congr hcontent]
    cases top with
    | none =>
      refine ⟨t', by simp [gotOneShorterFrom, hrun], halloc, plug s' up, at_whole.mp hat',
        balanced_plug.mpr ⟨hs', ?_⟩, rfl⟩
      rw [hsame rfl]
      exact hpath.2.2
    | some a =>
      obtain ⟨hh, side, l, v, r, hjoin, hv⟩ := htop a rfl
      have hside := hv ▸ parentSide_spec (hjoin ▸ hat')
      cases up with
      | nil => exact ⟨t', by simp [gotOneShorterFrom, hrun, hside], halloc, s', hat', hs', rfl⟩
      | cons g up =>
        have hpath' : PathBalanced (s'.height + 1) (g :: up) := by
          rw [hh]
          exact hpath.2.2
        obtain ⟨t'', hrun', halloc', hholds⟩ := ih (Nat.lt_of_succ_lt_succ hfuel) hat' hs' hpath'
        exact ⟨t'', by simp [gotOneShorterFrom, hrun, hside, hrun'], halloc'.trans halloc, hholds⟩

end AVLTree

end Embassies.Utils
