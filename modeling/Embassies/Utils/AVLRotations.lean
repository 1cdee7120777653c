import Embassies.Utils.AVLHeap

/-! The rotations of the AVL tree, in the heap. -/

namespace Embassies.Utils.AVLTree

open Checked List

variable {E : Type} {t : AVLTree E} {side : Side} {path : List (Frame (Label E))} {v w g : Label E}

lemma At.of_eq {s : BinaryTree (Label E)} (h : t.At s path) (t' : AVLTree E) (hget : ∀ a, t'.get a = t.get a)
    (htree : t'.tree = t.tree) (hallocated : t'.allocated = t.allocated) :
    t'.At s path :=
  ⟨h.linked.congr fun a _ => hget a, h.pathLinked.congr (fun a _ => hget a) htree, h.nodup,
    fun a ha => hallocated ▸ h.bound a ha⟩

lemma promote_spec {child : ℕ} (hpath : t.PathLinked (some child) path) (hchild : child ∉ pathAddrs path)
    (hnodup : (pathAddrs path).Nodup) (new : Option ℕ) :
    ∃ t1, t.promote .left child (parentAddr path) new = .ok t1 ∧ (∀ a, a ∉ pathAddrs path → t1.get a = t.get a) ∧
      t1.PathLinked new path ∧ t1.allocated = t.allocated :=
  ⟨_, promote_eq hpath hchild .left new, fun _ ha => get_promoted ha t new, hpath.promoted hnodup new,
    allocated_promoted t path new⟩

lemma liftChild_spec {x y z : BinaryTree (Label E)} (h : t.At (join side (join side x w y) v z) path) :
    ∃ t', t.liftChild v.addr w.addr (parentAddr path) side = .ok t' ∧ t'.allocated = t.allocated ∧
      t'.At (join side x { w with balance := .balanced }
        (join side y { v with balance := .balanced } z)) path := by
  obtain ⟨hlinked, hpath, hnodup, hbound⟩ := h
  obtain ⟨hv, hchild, hz⟩ := linked_join.mp hlinked
  obtain ⟨hw, hx, hy⟩ := linked_join.mp hchild
  obtain ⟨hnd, hpnd, hdisj⟩ := nodup_append.mp hnodup
  simp only [nodup_addrs_join, mem_addrs_join] at hnd hdisj
  simp only [rootAddr_join] at hv hw hpath
  obtain ⟨⟨hxnd, hynd, hwx, hwy, hxy⟩, hznd, hvxy, hvz, hxyz⟩ := hnd
  have hvp : v.addr ∉ pathAddrs path := fun hm => hdisj v.addr (by simp) _ hm rfl
  have hwp : w.addr ∉ pathAddrs path := fun hm => hdisj w.addr (by simp) _ hm rfl
  have hvw : v.addr ≠ w.addr := fun he => hvxy (by simp [he])
  have hvy : v.addr ∉ addrs y := fun hm => hvxy (.inr (.inr hm))
  -- what is elsewhere, for each part that is left alone
  have hxs : ∀ a ∈ addrs x, a ≠ v.addr ∧ a ≠ w.addr ∧ a ∉ addrs y ∧ a ∉ pathAddrs path := by grind
  have hys : ∀ a ∈ addrs y, a ≠ v.addr ∧ a ≠ w.addr ∧ a ∉ pathAddrs path := by grind
  have hzs : ∀ a ∈ addrs z, a ≠ v.addr ∧ a ≠ w.addr ∧ a ∉ addrs y ∧ a ∉ pathAddrs path := by grind
  have hps : ∀ a ∈ pathAddrs path, a ≠ v.addr ∧ a ≠ w.addr ∧ a ∉ addrs y := by grind
  -- the heap once the child has taken our place above us, and once its light subtree is ours
  obtain ⟨t1, hrun, hget1, hpath1, hall1⟩ := promote_spec hpath hvp hpnd (some w.addr)
  have hv1 := (hget1 _ hvp).trans hv
  have hw1 := (hget1 _ hwp).trans hw
  simp only [liftChild, hrun, ok_bind, setParent, setChild, setBalance, modify, hw1, hv1, cell_withParent,
    cell_withChild, pure_eq_ok, get_put_self, cell_child_other, get_put_ne _ _ hvw]
  have hy1 : ∀ a ∈ addrs y, ((t1.put w.addr (cell w (parentAddr path) side (rootAddr x) (rootAddr y))).put v.addr
      (cell v (parentAddr path) side (rootAddr y) (rootAddr z))).get a = t.get a := by
    intro a ha
    obtain ⟨hav, haw, hap⟩ := hys a ha
    rw [get_put_ne _ _ hav, get_put_ne _ _ haw, hget1 a hap]
  rw [reparent_eq hy hy1]
  simp only [ok_bind, get_reparented hvy, get_reparented hwy, get_put_self, get_put_ne _ _ hvw,
    get_put_ne _ _ hvw.symm, put_put, cell_withChild_other, cell_withParent, cell_withBalance]
  have haddrs : addrs (join side x { w with balance := .balanced }
      (join side y { v with balance := .balanced } z)) = addrs (join side (join side x w y) v z) := by
    cases side <;> simp [joinList]
  refine ⟨_, rfl, by simp [hall1], ?_, ?_, by rwa [haddrs], by simpa [haddrs, hall1] using hbound⟩
  · refine linked_join.mpr ⟨by simp, hx.congr fun a ha => ?_, linked_join.mpr ⟨by simp [get_put_ne _ _ hvw],
      (hy.reparented hynd (some v.addr)).congr fun a ha => ?_, hz.congr fun a ha => ?_⟩⟩
    · obtain ⟨hav, haw, hay, hap⟩ := hxs a ha
      simp (disch := assumption) only [get_put_ne, get_reparented, hget1]
    · obtain ⟨hav, haw, _⟩ := hys a ha
      rw [get_put_ne _ _ haw, get_put_ne _ _ hav, get_put_ne _ _ haw, get_reparented_congr (hy1 a ha)]
    · obtain ⟨hav, haw, hay, hap⟩ := hzs a ha
      simp (disch := assumption) only [get_put_ne, get_reparented, hget1]
  · rw [rootAddr_join]
    refine hpath1.congr (fun a ha => ?_) (by simp)
    obtain ⟨hav, haw, hay⟩ := hps a ha
    simp (disch := assumption) only [get_put_ne, get_reparented]

lemma singleRotate_spec {x y z : BinaryTree (Label E)} (h : t.At (join side (join side x w y) v z) path) :
    ∃ t', t.singleRotate v.addr w.addr side = .ok t' ∧ t'.allocated = t.allocated ∧
      t'.At (join side x { w with balance := .balanced }
        (join side y { v with balance := .balanced } z)) path := by
  obtain ⟨t', hrun, hat⟩ := liftChild_spec
    (h.of_eq { t with singleRotations := u32 (t.singleRotations + 1) } (fun _ => rfl) rfl rfl)
  refine ⟨t', ?_, hat⟩
  simp [singleRotate, (linked_join.mp h.linked).1, liteAssert_pos, hrun]

lemma liftGrandchild_spec {β γ δ z : BinaryTree (Label E)} {bv bw : AVLBalance}
    (h : t.At (join side (join side.other (join side γ g β) w δ) v z) path)
    (hbal : doubleBalances side g.balance = .ok (bv, bw)) :
    ∃ t', t.liftGrandchild v.addr w.addr g.addr (parentAddr path) side = .ok t' ∧
      t'.allocated = t.allocated ∧
      t'.At (join side (join side.other γ { w with balance := bw } δ) { g with balance := .balanced }
        (join side β { v with balance := bv } z)) path := by
  obtain ⟨hlinked, hpath, hnodup, hbound⟩ := h
  obtain ⟨hv, hchild, hz⟩ := linked_join.mp hlinked
  obtain ⟨hw, hgrand, hδ⟩ := linked_join.mp hchild
  obtain ⟨hg, hγ, hβ⟩ := linked_join.mp hgrand
  obtain ⟨hnd, hpnd, hdisj⟩ := nodup_append.mp hnodup
  simp only [nodup_addrs_join, mem_addrs_join] at hnd hdisj
  simp only [rootAddr_join] at hv hw hg hpath
  obtain ⟨⟨⟨hγnd, hβnd, hgγ, hgβ, hγβ⟩, hδnd, hwγ, hwδ, hγδ⟩, hznd, hvγ, hvz, hγz⟩ := hnd
  have hvp : v.addr ∉ pathAddrs path := fun hm => hdisj v.addr (by simp) _ hm rfl
  have hwp : w.addr ∉ pathAddrs path := fun hm => hdisj w.addr (by simp) _ hm rfl
  have hgp : g.addr ∉ pathAddrs path := fun hm => hdisj g.addr (by simp) _ hm rfl
  have hvw : v.addr ≠ w.addr := by grind
  have hvg : v.addr ≠ g.addr := by grind
  have hwg : w.addr ≠ g.addr := by grind
  have hwv := hvw.symm
  have hgv := hvg.symm
  have hgw := hwg.symm
  have hβs : ∀ a ∈ addrs β, a ≠ v.addr ∧ a ≠ w.addr ∧ a ≠ g.addr ∧ a ∉ addrs γ ∧ a ∉ pathAddrs path := by grind
  have hγs : ∀ a ∈ addrs γ, a ≠ v.addr ∧ a ≠ w.addr ∧ a ≠ g.addr ∧ a ∉ addrs β ∧ a ∉ pathAddrs path := by grind
  have hδs : ∀ a ∈ addrs δ, a ≠ v.addr ∧ a ≠ w.addr ∧ a ≠ g.addr ∧ a ∉ addrs β ∧ a ∉ addrs γ ∧
      a ∉ pathAddrs path := by grind
  have hzs : ∀ a ∈ addrs z, a ≠ v.addr ∧ a ≠ w.addr ∧ a ≠ g.addr ∧ a ∉ addrs β ∧ a ∉ addrs γ ∧
      a ∉ pathAddrs path := by grind
  have hps : ∀ a ∈ pathAddrs path, a ≠ v.addr ∧ a ≠ w.addr ∧ a ≠ g.addr ∧ a ∉ addrs β ∧ a ∉ addrs γ := by
    grind
  have hvs : v.addr ∉ addrs β ∧ v.addr ∉ addrs γ := by grind
  have hws : w.addr ∉ addrs β ∧ w.addr ∉ addrs γ := by grind
  obtain ⟨hvβ, hvγ⟩ := hvs
  obtain ⟨hwβ, hwγ⟩ := hws
  obtain ⟨t1, hrun, hget1, hpath1, hall1⟩ := promote_spec hpath hvp hpnd (some g.addr)
  have hv1 := (hget1 _ hvp).trans hv
  have hw1 := (hget1 _ hwp).trans hw
  have hg1 := (hget1 _ hgp).trans hg
  simp only [liftGrandchild, hg, hrun, ok_bind, setParent, setChild, setBalance, modify, hw1, hv1, hg1,
    cell_withParent, cell_withChild, cell_withChild_other, cell_child, cell_balance, pure_eq_ok,
    get_put_self, cell_child_other, get_put_ne _ _ hvw, get_put_ne _ _ hvw.symm, get_put_ne _ _ hvg,
    get_put_ne _ _ hwg, put_put, hbal]
  rw [reparent_eq hβ fun a ha => by
    obtain ⟨hav, haw, hag, _, hap⟩ := hβs a ha
    simp (disch := assumption) only [get_put_ne, hget1]]
  simp (disch := assumption) only [ok_bind, get_reparented, get_put_self, get_put_ne, cell_withChild]
  rw [reparent_eq hγ fun a ha => by
    obtain ⟨hav, haw, hag, haβ, hap⟩ := hγs a ha
    simp (disch := assumption) only [get_put_ne, get_reparented, hget1]]
  simp (disch := assumption) only [ok_bind, get_reparented, get_put_self, get_put_ne, cell_withBalance]
  have haddrs : addrs (join side (join side.other γ { w with balance := bw } δ)
      { g with balance := .balanced } (join side β { v with balance := bv } z)) =
        addrs (join side (join side.other (join side γ g β) w δ) v z) := by
    cases side <;> simp [joinList, Side.other]
  refine ⟨_, rfl, by simp [hall1], ?_, ?_, by rwa [haddrs], by simpa [haddrs, hall1] using hbound⟩
  · refine linked_join.mpr ⟨by simp, linked_join.mpr ⟨?_, (hγ.reparented hγnd (some w.addr)).congr fun a ha => ?_,
      hδ.congr fun a ha => ?_⟩, linked_join.mpr ⟨?_, (hβ.reparented hβnd (some v.addr)).congr fun a ha => ?_,
        hz.congr fun a ha => ?_⟩⟩
    · simp (disch := assumption) only [get_put_ne, get_put_self]
    · obtain ⟨hav, haw, hag, haβ, hap⟩ := hγs a ha
      simp (disch := assumption) only [get_put_ne]
      exact get_reparented_congr
        (by simp (disch := assumption) only [get_put_ne, get_reparented, hget1]) _ _
    · obtain ⟨hav, haw, hag, haβ, haγ, hap⟩ := hδs a ha
      simp (disch := assumption) only [get_put_ne, get_reparented, hget1]
    · simp (disch := assumption) only [get_put_ne, get_put_self]
    · obtain ⟨hav, haw, hag, haγ, hap⟩ := hβs a ha
      simp (disch := assumption) only [get_put_ne, get_reparented haγ]
      exact get_reparented_congr (by simp (disch := assumption) only [get_put_ne, hget1]) _ _
    · obtain ⟨hav, haw, hag, haβ, haγ, hap⟩ := hzs a ha
      simp (disch := assumption) only [get_put_ne, get_reparented, hget1]
  · rw [rootAddr_join]
    refine hpath1.congr (fun a ha => ?_) (by simp)
    obtain ⟨hav, haw, hag, haβ, haγ⟩ := hps a ha
    simp (disch := assumption) only [get_put_ne, get_reparented]

lemma doubleRotate_spec {β γ δ z : BinaryTree (Label E)} {bv bw : AVLBalance}
    (h : t.At (join side (join side.other (join side γ g β) w δ) v z) path)
    (hw : w.balance = heavy side.other) (hbal : doubleBalances side g.balance = .ok (bv, bw)) :
    ∃ t', t.doubleRotate v.addr w.addr (some g.addr) side = .ok t' ∧ t'.allocated = t.allocated ∧
      t'.At (join side (join side.other γ { w with balance := bw } δ) { g with balance := .balanced }
        (join side β { v with balance := bv } z)) path := by
  obtain ⟨t', hrun, hat⟩ := liftGrandchild_spec
    (h.of_eq { t with doubleRotations := u32 (t.doubleRotations + 1) } (fun _ => rfl) rfl rfl) hbal
  obtain ⟨hv, hchild, _⟩ := linked_join.mp h.linked
  obtain ⟨hw', hgrand, _⟩ := linked_join.mp hchild
  refine ⟨t', ?_, hat⟩
  simp [doubleRotate, nonNull, hv, hw', (linked_join.mp hgrand).1, hw, liteAssert_pos, hrun]

lemma setBalance_spec {l r : BinaryTree (Label E)} (h : t.At (join side l v r) path) (b : AVLBalance) :
    ∃ t', t.setBalance v.addr b = .ok t' ∧ t'.allocated = t.allocated ∧
      t'.At (join side l { v with balance := b } r) path := by
  obtain ⟨hlinked, hpath, hnodup, hbound⟩ := h
  obtain ⟨hv, hl, hr⟩ := linked_join.mp hlinked
  obtain ⟨hnd, _, hdisj⟩ := nodup_append.mp hnodup
  obtain ⟨_, _, hvl, hvr, _⟩ := nodup_addrs_join.mp hnd
  have haddrs : addrs (join side l { v with balance := b } r) = addrs (join side l v r) := by simp
  simp only [setBalance, modify, hv, ok_bind, cell_withBalance, pure_eq_ok]
  refine ⟨_, rfl, rfl, linked_join.mpr ⟨get_put_self _ _ _, hl.congr fun a ha => get_put_ne _ _ ?_,
    hr.congr fun a ha => get_put_ne _ _ ?_⟩, ?_, by rwa [haddrs], by rwa [haddrs]⟩
  · rintro rfl
    exact hvl ha
  · rintro rfl
    exact hvr ha
  · simp only [rootAddr_join] at hpath ⊢
    refine hpath.congr (fun a ha => get_put_ne _ _ ?_) rfl
    rintro rfl
    exact hdisj v.addr (mem_addrs_join.mpr (.inr (.inl rfl))) v.addr ha rfl

lemma parentSide_spec {l r : BinaryTree (Label E)} (h : t.At (join side l v r) path) :
    t.parentSide v.addr = .ok (path.head?.map fun f => (f.side, f.value.addr)) := by
  obtain ⟨hlinked, hpath, hnodup, _⟩ := h
  rw [rootAddr_join] at hpath
  cases path with
  | nil => simp [parentSide, (linked_join.mp hlinked).1]
  | cons f up =>
    have hsib : v.addr ∉ addrs f.sibling := fun hm =>
      (nodup_append.mp hnodup).2.2 v.addr (mem_addrs_join.mpr (.inr (.inl rfl))) v.addr
        (mem_cons_of_mem _ (mem_append_left _ hm)) rfl
    simp [parentSide, (linked_join.mp hlinked).1, sideOf_eq hpath hsib]

end Embassies.Utils.AVLTree
