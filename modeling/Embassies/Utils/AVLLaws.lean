import Embassies.Utils.AVLFind

/-! The AVL tree as a sorted collection.

    `insert` and `remove` keep the tree laid out in the heap, balanced and sorted, and change its contents
    by the one element; nothing they assert fails. -/

namespace Embassies.Utils.AVLTree

open Checked List Function BinaryTree Label

variable {E K L : Type} [LinearOrder L] {t : AVLTree E} {c : AVLKeys E K} {rank : K → L} {S : Set K}
  {xs : List E}
variable {s : BinaryTree (Label E)} {v m leaf : Label E} {f : Frame (Label E)} {ch l r mr : BinaryTree (Label E)}
  {up path : List (Frame (Label E))} {left : ℕ} {ys : List (ℕ × E)} {q : Option ℕ} {side : Side}

lemma contains_empty : (empty : AVLTree E).Contains [] :=
  ⟨.nil, ⟨trivial, rfl, nodup_nil, fun _ ha => absurd ha not_mem_nil⟩, trivial, rfl⟩

lemma Holds.contains (h : t.Holds ys) : t.Contains (ys.map Prod.snd) := by
  obtain ⟨s, hat, hs, rfl⟩ := h
  exact ⟨s, hat, hs, by simp [content]⟩

/-! ### Insertion -/

/-- The loop to the leaf position: smaller keys are before it, larger keys after it. -/
lemma leafPosition_spec (key : K) (k : L) (fuel : ℕ) : ∀ {s : BinaryTree (Label E)} {path : List (Frame (Label E))},
    s.height < fuel → t.At s path → (∀ v ∈ inorder s, (c.lt (c.getKey v.elem) key = true ↔ rank (c.getKey v.elem) < k) ∧
        (c.gt (c.getKey v.elem) key = true ↔ k < rank (c.getKey v.elem)) ∧ rank (c.getKey v.elem) ≠ k) →
      (inorder s).Pairwise (fun v w => rank (c.getKey v.elem) < rank (c.getKey w.elem)) →
      (∀ v ∈ nodesBefore path, rank (c.getKey v.elem) < k) → (∀ v ∈ nodesAfter path, k < rank (c.getKey v.elem)) →
      ∃ path', leafPosition c t key fuel (rootAddr s) (parentAddr path) = .ok (parentAddr path') ∧
        t.At .nil path' ∧ plug .nil path' = plug s path ∧ (∀ v ∈ nodesBefore path', rank (c.getKey v.elem) < k) ∧
        (∀ v ∈ nodesAfter path', k < rank (c.getKey v.elem)) := by
  induction fuel with
  | zero =>
    intro s path hfuel
    exact absurd hfuel (Nat.not_lt_zero _)
  | succ fuel ih =>
    intro s path hfuel hat hcmp hsorted hbefore hafter
    cases s with
    | nil => exact ⟨path, rfl, hat, rfl, hbefore, hafter⟩
    | node v l r =>
      have hmem : ∀ w, w ∈ inorder (.node v l r) ↔ w ∈ inorder l ∨ w = v ∨ w ∈ inorder r := fun w => by
        simp [inorder]
      obtain ⟨hlt, hgt, hne⟩ := hcmp v ((hmem v).mpr (.inr (.inl rfl)))
      obtain ⟨hsl, hsr, hcross⟩ := pairwise_append.mp hsorted
      obtain ⟨hvr, hsr⟩ := pairwise_cons.mp hsr
      simp only [height] at hfuel
      have hget := hat.linked.1
      rcases lt_or_gt_of_ne hne with hv | hv
      · obtain ⟨path', hrun, hres⟩ := @ih r (⟨.right, v, l⟩ :: path) (by omega)
          (at_cons.mpr hat) (fun w hw => hcmp w ((hmem w).mpr (.inr (.inr hw)))) hsr
          (by
            intro w hw
            simp only [nodesBefore, mem_append, mem_singleton] at hw
            rcases hw with hw | hw | rfl
            · exact hbefore w hw
            · exact (hcross w hw v mem_cons_self).trans hv
            · exact hv) hafter
        refine ⟨path', ?_, hres⟩
        simp only [parentAddr_cons] at hrun
        simp [leafPosition, hget, hlt.mpr hv, hrun]
      · obtain ⟨path', hrun, hres⟩ := @ih l (⟨.left, v, r⟩ :: path) (by omega)
          (at_cons.mpr hat) (fun w hw => hcmp w ((hmem w).mpr (.inl hw))) hsl hbefore
          (by
            intro w hw
            simp only [nodesAfter, mem_append, mem_cons] at hw
            rcases hw with rfl | hw | hw
            · exact hv
            · exact hv.trans (hvr w hw)
            · exact hafter w hw)
        refine ⟨path', ?_, hres⟩
        simp only [parentAddr_cons] at hrun
        have hnlt : ¬c.lt (c.getKey v.elem) key = true := fun h => absurd (hlt.mp h) (not_lt.mpr hv.le)
        simp [leafPosition, hget, hnlt, hgt.mpr hv, hrun, liteAssert]

lemma link_leaf (hat : t.At .nil (f :: up))
    (hleaf : t.get leaf.addr = .ok (cell leaf (some f.value.addr) .left none none))
    (hfresh : leaf.addr ∉ pathAddrs (f :: up)) (hbound : leaf.addr < t.allocated) :
    ∃ t', t.setChild f.value.addr f.side (some leaf.addr) = .ok t' ∧ t'.allocated = t.allocated ∧
      t'.At (.node leaf .nil .nil) (f :: up) := by
  refine ⟨t.promoted (f :: up) (some leaf.addr), ?_, rfl, ⟨?_, trivial, trivial⟩, ?_, ?_, ?_⟩
  · simp [setChild, modify, hat.pathLinked.1, promoted]
  · rw [get_promoted hfresh, hleaf]
    rfl
  · exact hat.pathLinked.promoted hat.nodup _
  · exact nodup_cons.mpr ⟨hfresh, hat.nodup⟩
  · rintro a (_ | ⟨_, ha⟩)
    · exact hbound
    · exact hat.bound a ha

lemma At.allocate (hat : t.At s []) (e : E) : (t.allocate e).At s [] :=
  ⟨hat.linked.congr fun a ha => get_put_ne t _ (hat.bound a (mem_append_left _ ha)).ne, hat.pathLinked,
    hat.nodup, fun a ha => (hat.bound a ha).trans (Nat.lt_succ_self _)⟩

lemma insertNode_nil (hat : t.At .nil [])
    (hget : t.get leaf.addr = .ok (cell { leaf with balance := .new } none .left none none))
    (hbound : leaf.addr < t.allocated) (hleaf : leaf.balance = .balanced) :
    ∃ t', t.insertNode c leaf.addr leaf.elem = .ok t' ∧ t'.At (.node leaf .nil .nil) [] := by
  have htree : t.tree = none := hat.pathLinked
  have hget' : ({ t with tree := some leaf.addr } : AVLTree E).get leaf.addr =
      .ok (cell { leaf with balance := .new } none .left none none) := hget
  refine ⟨put { t with tree := some leaf.addr } leaf.addr (cell leaf none .left none none), ?_,
    ⟨get_put_self _ _ _, trivial, trivial⟩, rfl, nodup_cons.mpr ⟨not_mem_nil, nodup_nil⟩, ?_⟩
  · simp [insertNode, htree, setBalance, modify, hget', ← hleaf]
  · rintro a (_ | ⟨_, ⟨⟩⟩)
    exact hbound

/-- The new node is linked below the last node of the way down, and the tree is balanced from there. -/
lemma insertNode_cons {root : ℕ} (hat : t.At .nil (f :: up)) (hbal : PathBalanced 0 (f :: up))
    (htree : t.tree = some root)
    (hget : t.get leaf.addr = .ok (cell { leaf with balance := .new } none .left none none))
    (hbound : leaf.addr < t.allocated) (hfresh : leaf.addr ∉ pathAddrs (f :: up)) (hleaf : leaf.balance = .balanced)
    (hposition : leafPosition c t (c.getKey leaf.elem) (t.allocated + 1) (some root) none =
      .ok (some f.value.addr)) (hside : c.lt (c.getKey f.value.elem) (c.getKey leaf.elem) = true ↔ f.side = .right) :
    ∃ t', t.insertNode c leaf.addr leaf.elem = .ok t' ∧
      t'.Holds (content (plug (.node leaf .nil .nil) (f :: up))) := by
  have hne : f.value.addr ≠ leaf.addr := fun h => hfresh (h ▸ mem_cons_self)
  have hat' : (t.put leaf.addr (cell leaf (some f.value.addr) .left none none)).At .nil (f :: up) :=
    ⟨trivial, hat.pathLinked.congr (fun a ha => get_put_ne _ _ fun h => hfresh (h ▸ ha)) rfl, hat.nodup,
      hat.bound⟩
  obtain ⟨t1, hrun1, halloc1, hat1⟩ := link_leaf hat' (get_put_self _ _ _) hfresh hbound
  have hlength := hat1.height_le
  simp only [length_cons, height] at hlength
  obtain ⟨t2, hrun2, -, hholds⟩ := added_spec (t1.allocated + 1) (by omega) hat1
    (show Balanced _ from ⟨.inl ⟨hleaf, rfl⟩, trivial, trivial⟩) rfl (fun _ => rfl) hbal
  refine ⟨t2, ?_, hholds⟩
  have hf := hat.pathLinked.1
  have hf' := hat'.pathLinked.1
  simp only [insertNode, htree, hposition, ok_bind, setBalance, setParent, modify, hget,
    cell_withBalance, get_put_self, cell_withParent, put_put, nonNull, pure_eq_ok, ← hleaf]
  obtain ⟨side, v, sib⟩ := f
  simp only at hf' hside hrun1 hrun2
  cases side with
  | left =>
    have hlt : ¬c.lt (c.getKey v.elem) (c.getKey leaf.elem) = true := by simp [hside]
    simp [hf', hlt, liteAssert, hrun1, leftAdded, hrun2]
  | right =>
    have hlt : c.lt (c.getKey v.elem) (c.getKey leaf.elem) = true := by simp [hside]
    simp [hf', hlt, liteAssert, hrun1, rightAdded, hrun2]

lemma content_leaf (leaf : Label E) (path : List (Frame (Label E))) :
    (content (plug (.node leaf .nil .nil) path)).map Prod.snd =
      (nodesBefore path).map elem ++ leaf.elem :: (nodesAfter path).map elem := by
  simp [content, inorder_plug, inorder, comp_def]

/-- The new element goes where the way down ends. -/
lemma insert_at (hat : t.At s []) (hs : Balanced s) {e : E}
    (hposition : leafPosition c (t.allocate e) (c.getKey e) ((t.allocate e).allocated + 1) (rootAddr s) none =
      .ok (parentAddr path)) (hleaf : (t.allocate e).At .nil path) (hplug : plug .nil path = s)
    (hside : ∀ f up, path = f :: up → (c.lt (c.getKey f.value.elem) (c.getKey e) = true ↔ f.side = .right)) :
    ∃ t', t.insert c e = .ok t' ∧ (inorder s).map elem = (nodesBefore path).map elem ++ (nodesAfter path).map elem ∧
      t'.Contains ((nodesBefore path).map elem ++ e :: (nodesAfter path).map elem) := by
  let leaf : Label E := ⟨t.allocated, .balanced, e⟩
  have hat1 := hat.allocate e
  have hget : (t.allocate e).get leaf.addr = .ok (cell { leaf with balance := .new } none .left none none) :=
    get_put_self t _ _
  have hbound : leaf.addr < (t.allocate e).allocated := Nat.lt_succ_self _
  have hxs : (inorder s).map elem = (nodesBefore path).map elem ++ (nodesAfter path).map elem := by
    rw [← hplug, inorder_plug]
    simp [inorder]
  have hresult : ∃ t', t.insert c e = .ok t' ∧ t'.Holds (content (plug (.node leaf .nil .nil) path)) := by
    cases path with
    | nil =>
      obtain rfl : BinaryTree.nil = s := hplug
      obtain ⟨t', hrun, hat'⟩ := insertNode_nil (c := c) hat1 hget hbound rfl
      exact ⟨t', hrun, _, hat', ⟨.inl ⟨rfl, rfl⟩, trivial, trivial⟩, rfl⟩
    | cons f up =>
      obtain ⟨root, hroot⟩ : ∃ root, rootAddr s = some root := by
        refine Option.ne_none_iff_exists'.mp fun hnone => ?_
        exact absurd (plug_eq_nil (hplug.trans (rootAddr_eq_none hnone))).2 (cons_ne_nil _ _)
      rw [hroot] at hposition
      have hfresh : leaf.addr ∉ pathAddrs (f :: up) := by
        intro hmem
        have hs := (addrs_plug_perm (f :: up) [] .nil).mem_iff.mp (mem_append_right _ (by simpa using hmem))
        rw [hplug] at hs
        exact absurd (hat.bound _ hs) (lt_irrefl _)
      refine insertNode_cons hleaf ?_ (hat1.pathLinked.trans hroot) hget hbound hfresh rfl hposition (hside f up rfl)
      exact (balanced_plug.mp (hplug ▸ hs)).2
  obtain ⟨t', hrun, hholds⟩ := hresult
  have hcontains := hholds.contains
  rw [content_leaf] at hcontains
  exact ⟨t', hrun, hxs, hcontains⟩

/-- INSERT: an element with a new key takes its place among the others. -/
lemma insert_spec (hc : c.OrderedOn rank S) (hxs : Sorted c rank S xs) (ht : t.Contains xs) {e : E}
    (he : c.getKey e ∈ S) (hnew : ∀ x ∈ xs, rank (c.getKey x) ≠ rank (c.getKey e)) :
    ∃ t' l r, t.insert c e = .ok t' ∧ xs = l ++ r ∧ t'.Contains (l ++ e :: r) ∧
      (∀ x ∈ l, rank (c.getKey x) < rank (c.getKey e)) ∧ (∀ x ∈ r, rank (c.getKey e) < rank (c.getKey x)) := by
  obtain ⟨s, hat, hs, rfl⟩ := ht
  have hat1 := hat.allocate e
  have hheight := hat1.height_le
  rw [length_nil] at hheight
  obtain ⟨path, hposition, hat2, hplug, hbefore, hafter⟩ := leafPosition_spec (c.getKey e)
    (rank (c.getKey e)) ((t.allocate e).allocated + 1) (by omega) hat1
    (fun v hv =>
      have hv' := mem_map_of_mem hv
      ⟨hc.lt_iff _ (hxs.mem _ hv') _ he, hc.gt_iff _ (hxs.mem _ hv') _ he, hnew _ hv'⟩)
    hxs.walk_right (fun _ hv => absurd hv not_mem_nil) (fun _ hv => absurd hv not_mem_nil)
  rw [plug] at hplug
  have hside : ∀ f up, path = f :: up → (c.lt (c.getKey f.value.elem) (c.getKey e) = true ↔ f.side = .right) := by
    rintro f up rfl
    have hf : f.value.elem ∈ (inorder s).map elem := by
      rw [← hplug, inorder_plug]
      cases hside : f.side <;> simp [nodesBefore, nodesAfter, hside]
    rw [hc.lt_iff _ (hxs.mem _ hf) _ he]
    constructor
    · intro hlt
      by_contra hside
      have hleft : f.side = .left := (Side.eq_or_eq_other f.side .right).resolve_left hside
      refine absurd (hafter f.value ?_) (not_lt.mpr hlt.le)
      simp [nodesAfter, hleft]
    · intro hside
      exact hbefore f.value (by simp [nodesBefore, hside])
  obtain ⟨t', hrun, hxs', hcontains⟩ := insert_at hat hs hposition hat2 hplug hside
  refine ⟨t', _, _, hrun, hxs', hcontains, fun x hx => ?_, fun x hx => ?_⟩
  · obtain ⟨v, hv, rfl⟩ := mem_map.mp hx
    exact hbefore v hv
  · obtain ⟨v, hv, rfl⟩ := mem_map.mp hx
    exact hafter v hv

/-! ### Removal -/

lemma At.replace {T : AVLTree E} (hat : t.At s path) (hlinked : t.Linked q ch) (hsub : (addrs ch).Sublist (addrs s))
    (hch : ∀ a ∈ addrs ch, T.get a = (t.reparented ch (parentAddr path)).get a)
    (hpath : ∀ a ∈ pathAddrs path, T.get a = (t.promoted path (rootAddr ch)).get a)
    (htree : T.tree = (t.promoted path (rootAddr ch)).tree) (halloc : T.allocated = t.allocated) : T.At ch path := by
  have hnodup : (addrs ch ++ pathAddrs path).Nodup := hat.nodup.sublist (hsub.append_right _)
  obtain ⟨hchnd, hpathnd, -⟩ := nodup_append.mp hnodup
  refine ⟨(hlinked.reparented hchnd _).congr hch, (hat.pathLinked.promoted hpathnd _).congr hpath htree,
    hnodup, fun a ha => ?_⟩
  rw [halloc]
  exact hat.bound a ((hsub.append_right _).subset ha)

/-- A node with at most one child leaves the tree. -/
lemma spliceOut_spec {v : ℕ} (hat : t.At s path) (hroot : rootAddr s = some v) (hlinked : t.Linked (some v) ch)
    (hsub : (addrs ch).Sublist (addrs s)) (hch : Balanced ch) (hbal : PathBalanced (ch.height + 1) path) :
    ∃ t', t.spliceOut v (parentAddr path) (rootAddr ch) = .ok t' ∧ t'.Holds (content (plug ch path)) := by
  have hdisj : ∀ a ∈ addrs s, a ∉ pathAddrs path := fun a ha hm =>
    (nodup_append.mp hat.nodup).2.2 a ha a hm rfl
  have hvs : v ∈ addrs s := rootAddr_mem hroot
  have hpath := hat.pathLinked
  rw [hroot] at hpath
  have hpath1 : (t.reparented ch (parentAddr path)).PathLinked (some v) path :=
    hpath.congr (fun a ha => get_reparented (fun hm => hdisj a (hsub.subset hm) ha) _ _) (by simp)
  have hat2 : ((t.reparented ch (parentAddr path)).promoted path (rootAddr ch)).At ch path := by
    refine hat.replace hlinked hsub (fun a ha => get_promoted (hdisj a (hsub.subset ha)) _ _) (fun a ha => ?_)
      ?_ (by simp)
    · exact get_promoted_congr (get_reparented (fun hm => hdisj a (hsub.subset hm) ha) _ _) _ _
    · cases path <;> simp [promoted]
  cases path with
  | nil =>
    refine ⟨_, ?_, ch, hat2, hch, rfl⟩
    have htree : t.tree = some v := hpath
    simp [spliceOut, reparent_eq hlinked fun _ _ => rfl, htree, liteAssert, promoted]
  | cons f up =>
    have hsib : v ∉ addrs f.sibling := fun hm =>
      hdisj v hvs (mem_cons_of_mem _ (mem_append_left _ hm))
    have hlength := hat2.height_le
    simp only [length_cons] at hlength
    obtain ⟨t', hrun, -, hholds⟩ := gotOneShorterFrom_spec
      (((t.reparented ch (parentAddr (f :: up))).promoted (f :: up) (rootAddr ch)).allocated + 1) (by omega)
      hat2 hch hbal
    refine ⟨t', ?_, hholds⟩
    simp only [parentAddr_cons] at *
    simp only [spliceOut, reparent_eq hlinked fun _ _ => rfl, ok_bind, sideOf_eq hpath1 hsib, setChild, modify,
      hpath1.1, cell_withChild, pure_eq_ok, gotOneShorter]
    exact hrun

lemma successorFrom_spec (fuel : ℕ) : ∀ {v : Label E} {l r : BinaryTree (Label E)} {q : Option ℕ},
    (node v l r).height ≤ fuel → t.Linked q (.node v l r) →
      ∃ m mr path, (∀ f ∈ path, f.side = .left) ∧ node v l r = plug (.node m .nil mr) path ∧
        t.successorFrom fuel v.addr = .ok m.addr := by
  induction fuel with
  | zero =>
    intro v l r q hfuel
    exact absurd hfuel (Nat.not_succ_le_zero _)
  | succ fuel ih =>
    intro v l r q hfuel hlinked
    cases l with
    | nil => exact ⟨v, r, [], fun _ hf => absurd hf not_mem_nil, rfl, by simp [successorFrom, hlinked.1]⟩
    | node w l' r' =>
      simp only [height] at hfuel
      obtain ⟨m, mr, path, hleft, heq, hrun⟩ := ih (by simp only [height]; omega) hlinked.2.1
      refine ⟨m, mr, path ++ [⟨.left, v, r⟩], fun f hf => ?_, ?_, ?_⟩
      · rcases mem_append.mp hf with hf | hf
        · exact hleft f hf
        · rw [mem_singleton.mp hf]
      · rw [plug_append, ← heq]
        rfl
      · simp [successorFrom, hlinked.1, hrun]

/-- The node that was cut out takes the place of the one with two children. -/
lemma takePlace_spec {n : AVLElement E} {right : ℕ} (hat : t.At (.node v l r) path) (hm : t.get m.addr = .ok n)
    (hn : n.element = some m.elem) (hfresh : m.addr ∉ addrs (.node v l r) ++ pathAddrs path)
    (hbound : m.addr < t.allocated) (hl : rootAddr l = some left) (hr : rootAddr r = some right) :
    ∃ t', t.takePlace v.addr m.addr left right v.balance (parentAddr path) = .ok t' ∧
      t'.allocated = t.allocated ∧ t'.At (.node { m with balance := v.balance } l r) path := by
  obtain ⟨⟨hv, hll, hrl⟩, hpath, hnodup, hbounds⟩ := hat
  obtain ⟨hnd, hpnd, hdisj⟩ := nodup_append.mp hnodup
  change (addrs (join .left l v r)).Nodup at hnd
  change m.addr ∉ addrs (join .left l v r) ++ pathAddrs path at hfresh
  change ∀ a ∈ addrs (join .left l v r), ∀ b ∈ pathAddrs path, a ≠ b at hdisj
  simp only [nodup_addrs_join, mem_addrs_join, mem_append] at hnd hdisj hfresh
  obtain ⟨hlnd, hrnd, hvl, hvr, hlr⟩ := hnd
  have hls : ∀ a ∈ addrs l, a ≠ m.addr ∧ a ∉ addrs r ∧ a ∉ pathAddrs path := by grind
  have hrs : ∀ a ∈ addrs r, a ≠ m.addr ∧ a ∉ addrs l ∧ a ∉ pathAddrs path := by grind
  have hps : ∀ a ∈ pathAddrs path, a ≠ m.addr ∧ a ∉ addrs l ∧ a ∉ addrs r := by grind
  have hms : m.addr ∉ addrs l ∧ m.addr ∉ addrs r ∧ m.addr ∉ pathAddrs path := by grind
  have hvp : v.addr ∉ pathAddrs path := by grind
  obtain ⟨hml, hmr, hmp⟩ := hms
  have hright : ∀ (T : AVLTree E) q, T.setParent right q = T.reparent (rootAddr r) q := by
    intro T q
    rw [hr]
    rfl
  have hleft : ∀ (T : AVLTree E) q, T.setParent left q = T.reparent (rootAddr l) q := by
    intro T q
    rw [hl]
    rfl
  simp only [takePlace, setChild, setBalance, modify, hm, ok_bind, pure_eq_ok, get_put_self, put_put, hright, hleft]
  rw [reparent_eq hrl fun a ha => get_put_ne _ _ (hrs a ha).1]
  simp only [ok_bind]
  rw [reparent_eq hll fun a ha => by
    obtain ⟨ham, har, -⟩ := hls a ha
    rw [get_reparented har, get_put_ne _ _ ham]]
  simp only [ok_bind]
  rw [promote_eq (hpath.congr (fun a ha => ?_) (by simp)) hvp]
  · simp (disch := assumption) only [ok_bind, setParent, modify, get_promoted, get_reparented, get_put_self, pure_eq_ok]
    have hcell : (((n.withChild .right (some right)).withChild .left (some left)).withBalance
        v.balance).withParent (parentAddr path) =
          cell { m with balance := v.balance } (parentAddr path) .left (rootAddr l) (rootAddr r) := by
      simp [AVLElement.withChild, AVLElement.withBalance, AVLElement.withParent, cell, hn, hl, hr]
    rw [hcell]
    refine ⟨_, rfl, by simp, ⟨get_put_self _ _ _, (hll.reparented hlnd _).congr fun a ha => ?_,
      (hrl.reparented hrnd _).congr fun a ha => ?_⟩, ?_, ?_, ?_⟩
    · obtain ⟨ham, har, hap⟩ := hls a ha
      simp (disch := assumption) only [get_put_ne, get_promoted]
      exact get_reparented_congr (by simp (disch := assumption) only [get_put_ne, get_reparented]) _ _
    · obtain ⟨ham, hal, hap⟩ := hrs a ha
      simp (disch := assumption) only [get_put_ne, get_promoted, get_reparented hal]
      exact get_reparented_congr (get_put_ne _ _ ham) _ _
    · refine (hpath.promoted hpnd (some m.addr)).congr (fun a ha => ?_) ?_
      · obtain ⟨ham, hal, har⟩ := hps a ha
        rw [get_put_ne _ _ ham]
        exact get_promoted_congr (by simp (disch := assumption) only [get_put_ne, get_reparented]) _ _
      · cases path <;> simp [promoted]
    · change (addrs (join .left l { m with balance := v.balance } r) ++ pathAddrs path).Nodup
      refine nodup_append.mpr ⟨nodup_addrs_join.mpr ⟨hlnd, hrnd, hml, hmr, hlr⟩, hpnd, ?_⟩
      simp only [mem_addrs_join]
      grind
    · change ∀ a ∈ addrs (join .left l { m with balance := v.balance } r) ++ pathAddrs path, _
      change ∀ a ∈ addrs (join .left l v r) ++ pathAddrs path, _ at hbounds
      simp only [mem_append, mem_addrs_join] at hbounds ⊢
      simp only [allocated_put, allocated_promoted, allocated_reparented]
      grind
  · obtain ⟨ham, hal, har⟩ := hps a ha
    simp (disch := assumption) only [get_put_ne, get_reparented]

/-- The right child takes our place, when it has no left child itself. -/
lemma promoteRightChild_spec (hat : t.At (.node v l (.node m .nil mr)) path) (hl : rootAddr l = some left) :
    ∃ t', t.promoteRightChild v.addr m.addr left v.balance (parentAddr path) = .ok t' ∧
      t'.allocated = t.allocated ∧ t'.At (.node { m with balance := v.balance } l mr) path := by
  obtain ⟨⟨hv, hll, hm, -, hmrl⟩, hpath, hnodup, hbounds⟩ := hat
  obtain ⟨hnd, hpnd, hdisj⟩ := nodup_append.mp hnodup
  change (addrs (join .left l v (join .left .nil m mr))).Nodup at hnd
  change ∀ a ∈ addrs (join .left l v (join .left .nil m mr)), ∀ b ∈ pathAddrs path, a ≠ b at hdisj
  change ∀ a ∈ addrs (join .left l v (join .left .nil m mr)) ++ pathAddrs path, _ at hbounds
  simp only [nodup_addrs_join, mem_addrs_join, mem_append, addrs_nil, not_mem_nil, false_or] at hnd hdisj hbounds
  obtain ⟨hlnd, ⟨-, hrnd, -, hmmr, -⟩, hvl, hvr, hlr⟩ := hnd
  have hls : ∀ a ∈ addrs l, a ≠ m.addr ∧ a ∉ pathAddrs path := by grind
  have hrs : ∀ a ∈ addrs mr, a ≠ m.addr ∧ a ∉ addrs l ∧ a ∉ pathAddrs path := by grind
  have hps : ∀ a ∈ pathAddrs path, a ≠ m.addr ∧ a ∉ addrs l := by grind
  have hml : m.addr ∉ addrs l := by grind
  have hmp : m.addr ∉ pathAddrs path := by grind
  have hvp : v.addr ∉ pathAddrs path := by grind
  have hleft : ∀ (T : AVLTree E) q, T.setParent left q = T.reparent (rootAddr l) q := by
    intro T q
    rw [hl]
    rfl
  simp only [promoteRightChild, promote_eq hpath hvp, ok_bind, setBalance, setChild, hleft]
  simp only [setParent, modify, get_promoted hmp, hm, ok_bind, pure_eq_ok, cell_withParent,
    get_put_self, cell_withChild, put_put]
  rw [reparent_eq hll fun a ha => by
    obtain ⟨ham, hap⟩ := hls a ha
    rw [get_put_ne _ _ ham, get_promoted hap]]
  simp only [ok_bind, get_reparented hml, get_put_self, cell_withBalance, ← hl]
  refine ⟨_, rfl, by simp, ⟨get_put_self _ _ _, (hll.reparented hlnd _).congr fun a ha => ?_,
    hmrl.congr fun a ha => ?_⟩, ?_, ?_, ?_⟩
  · obtain ⟨ham, hap⟩ := hls a ha
    rw [get_put_ne _ _ ham]
    exact get_reparented_congr (by rw [get_put_ne _ _ ham, get_promoted hap]) _ _
  · obtain ⟨ham, hal, hap⟩ := hrs a ha
    rw [get_put_ne _ _ ham, get_reparented hal, get_put_ne _ _ ham, get_promoted hap]
  · refine (hpath.promoted hpnd (some m.addr)).congr (fun a ha => ?_) (by simp)
    obtain ⟨ham, hal⟩ := hps a ha
    rw [get_put_ne _ _ ham, get_reparented hal, get_put_ne _ _ ham]
  · change (addrs (join .left l { m with balance := v.balance } mr) ++ pathAddrs path).Nodup
    refine nodup_append.mpr ⟨nodup_addrs_join.mpr ⟨hlnd, hrnd, hml, hmmr, ?_⟩, hpnd, ?_⟩
    · grind
    · simp only [mem_addrs_join]
      grind
  · change ∀ a ∈ addrs (join .left l { m with balance := v.balance } mr) ++ pathAddrs path, _
    simp only [mem_append, mem_addrs_join, allocated_put, allocated_promoted, allocated_reparented]
    grind

lemma PathBalanced.relabel {w : Label E} (hbal : v.balance = w.balance) {outer : List (Frame (Label E))} :
    ∀ {inner : List (Frame (Label E))} {h : ℕ}, PathBalanced h (inner ++ ⟨side, v, l⟩ :: outer) →
      PathBalanced h (inner ++ ⟨side, w, l⟩ :: outer) := by
  intro inner
  induction inner with
  | nil =>
    rintro h ⟨hagrees, hrest⟩
    exact ⟨hbal ▸ hagrees, hrest⟩
  | cons f up ih =>
    rintro h ⟨hagrees, hsib, hrest⟩
    exact ⟨hagrees, hsib, ih hrest⟩

/-- The content of a tree without the root of one of its subtrees. -/
def contentWithout (l r : BinaryTree (Label E)) (path : List (Frame (Label E))) : List (ℕ × E) :=
  ((nodesBefore path ++ inorder l) ++ (inorder r ++ nodesAfter path)).map fun v => (v.addr, v.elem)

lemma content_successor {v : Label E} {l : BinaryTree (Label E)} {inner path : List (Frame (Label E))}
    (hleft : ∀ f ∈ inner, f.side = .left) :
    content (plug mr (inner ++ ⟨.right, { m with balance := v.balance }, l⟩ :: path)) =
      contentWithout l (plug (.node m .nil mr) inner) path := by
  rw [plug_append, plug, content, contentWithout, inorder_plug path, inorder_join, inorder_plug inner,
    inorder_plug inner, nodesBefore_of_left hleft]
  simp [inorder, joinList]

lemma shorter_below (inner : List (Frame (Label E))) (hup : inner ++ ⟨.right, m, l⟩ :: path = f :: up)
    (hat : t.At mr (f :: up)) (hmr : Balanced mr) (hv : v.balance = m.balance)
    (hbal : PathBalanced (mr.height + 1) (inner ++ ⟨.right, v, l⟩ :: path)) :
    ∃ t', t.gotOneShorter f.value.addr f.side = .ok t' ∧ t'.Holds (content (plug mr (f :: up))) := by
  have hheight := hat.height_le
  simp only [length_cons] at hheight
  have hbal' := PathBalanced.relabel hv hbal
  rw [hup] at hbal'
  obtain ⟨t', hrun, -, hholds⟩ := gotOneShorterFrom_spec (t.allocated + 1) (by omega) hat hmr hbal'
  exact ⟨t', hrun, hholds⟩

lemma cutOut_spec (hat : t.At (.node m .nil mr) (f :: up)) (hleft : f.side = .left) :
    ∃ t1 t2, t.setChild f.value.addr .left (rootAddr mr) = .ok t1 ∧
      t1.reparent (rootAddr mr) (some f.value.addr) = .ok t2 ∧ t2.allocated = t.allocated ∧
      t2.At mr (f :: up) ∧ t2.get m.addr = t.get m.addr := by
  have hdisj := (nodup_append.mp hat.nodup).2.2
  have hsub : (addrs mr).Sublist (addrs (.node m .nil mr)) := sublist_cons_self _ _
  have hmrp : ∀ a ∈ addrs mr, a ∉ pathAddrs (f :: up) := fun a ha hm =>
    hdisj a (hsub.subset ha) a hm rfl
  have hmp : m.addr ∉ pathAddrs (f :: up) := fun hm => hdisj m.addr (rootAddr_mem rfl) _ hm rfl
  have hmmr : m.addr ∉ addrs mr := (nodup_cons.mp (nodup_append.mp hat.nodup).1).1
  have hlinked := hat.linked.2.2
  refine ⟨t.promoted (f :: up) (rootAddr mr), (t.promoted (f :: up) (rootAddr mr)).reparented mr
    (some f.value.addr), ?_, reparent_eq hlinked (fun a ha => get_promoted (hmrp a ha) _ _) _, by simp, ?_, ?_⟩
  · have hf := hat.pathLinked.1
    rw [hleft] at hf
    simp [setChild, modify, hf, promoted, hleft]
  · refine hat.replace hlinked hsub (fun a ha => ?_) (fun a ha => ?_) (by simp) (by simp)
    · exact get_reparented_congr (get_promoted (hmrp a ha) _ _) _ _
    · exact get_reparented (fun hm => hmrp a hm ha) _ _
  · rw [get_reparented hmmr, get_promoted hmp]

/-- A node with two children leaves the tree, and the smallest node after it takes its place. -/
lemma promoteSuccessor_spec {right : ℕ} (hat : t.At (.node v l r) path) (hl : rootAddr l = some left)
    (hr : rootAddr r = some right) (hs : Balanced (plug (.node v l r) path)) :
    ∃ t', t.promoteSuccessor v.addr left right v.balance (parentAddr path) = .ok t' ∧
      t'.Holds (contentWithout l r path) := by
  have hheight := hat.height_le
  cases r with
  | nil => simp at hr
  | node w rl rr =>
    obtain rfl : w.addr = right := by simpa using hr
    simp only [height] at hheight
    obtain ⟨m, mr, spath, hleft, heq, hsucc⟩ := successorFrom_spec (t.allocated + 1)
      (by simp only [height]; omega) hat.linked.2.2
    rw [heq] at hat hs ⊢
    have hat' : t.At (.node m .nil mr) (spath ++ ⟨.right, v, l⟩ :: path) := at_plug.mpr (at_cons.mpr hat)
    have hbal : Balanced (plug (.node m .nil mr) (spath ++ ⟨.right, v, l⟩ :: path)) := by
      rw [plug_append]
      exact hs
    obtain ⟨⟨hm, -, hmr⟩, hpathBal⟩ := balanced_plug.mp hbal
    simp only [height, Nat.zero_max] at hpathBal
    obtain ⟨hgetm, -, hmrl⟩ := hat'.linked
    cases spath with
    | nil =>
      -- the successor is our right child
      obtain ⟨t1, hrun1, -, hat1⟩ := promoteRightChild_spec hat hl
      obtain ⟨t2, hrun2, hholds⟩ := shorter_below [] (v := v) rfl
        (at_cons (f := ⟨.right, { m with balance := v.balance }, l⟩).mpr hat1) hmr rfl hpathBal
      have hne : left ≠ m.addr := by
        rintro rfl
        have hnd := (nodup_append.mp hat.nodup).1
        change (addrs (join .left l v (join .left .nil m mr))).Nodup at hnd
        simp only [nodup_addrs_join, mem_addrs_join] at hnd
        exact hnd.2.2.2.2 m.addr (rootAddr_mem hl) (.inr (.inl rfl))
      refine ⟨t2, ?_, ?_⟩
      · have hgetv := hat.linked.1
        simp only [nil_append, parentAddr_cons] at hgetm
        simp [promoteSuccessor, hsucc, hgetm, nonNull, hgetv, hl, hne, liteAssert, hrun1, hrun2]
      · simpa [contentWithout, content, inorder_plug, inorder, plug, joinList] using hholds
    | cons f rest =>
      -- the successor is cut out of the right subtree first
      have hf : f.side = .left := hleft f mem_cons_self
      obtain ⟨t1, t2, hrun1, hrun2, halloc2, hat2, hgetm2⟩ := cutOut_spec hat' hf
      change t2.At mr ((f :: rest) ++ ⟨.right, v, l⟩ :: path) at hat2
      have hat2' : t2.At (.node v l (plug mr (f :: rest))) path := at_cons (f := ⟨.right, v, l⟩).mp (at_plug.mp hat2)
      have hright : rootAddr (plug mr (f :: rest)) = some w.addr := by
        rw [rootAddr_plug, ← heq]
        rfl
      have hfresh : m.addr ∉ addrs (.node v l (plug mr (f :: rest))) ++ pathAddrs path := by
        have hperm := (addrs_plug_perm (f :: rest) (⟨.right, v, l⟩ :: path) mr).trans (addrs_cons_perm _ _ _)
        exact mt hperm.mem_iff.mpr (nodup_cons.mp hat'.nodup).1
      obtain ⟨t3, hrun3, halloc3, hat3⟩ := takePlace_spec hat2' (hgetm2.trans hgetm) rfl hfresh
        (halloc2 ▸ hat'.bound m.addr (mem_append_left _ (rootAddr_mem rfl))) hl hright
      obtain ⟨t4, hrun4, hholds⟩ := shorter_below (f :: rest) (v := v) (m := { m with balance := v.balance }) rfl
        (at_plug.mpr (at_cons (f := ⟨.right, { m with balance := v.balance }, l⟩).mpr hat3)) hmr rfl hpathBal
      refine ⟨t4, ?_, ?_⟩
      · have hgetf := hat'.pathLinked.1
        rw [hf] at hgetf
        rw [hf] at hrun4
        simp only [cons_append, parentAddr_cons] at hgetm
        simp [promoteSuccessor, hsucc, hgetm, nonNull, hgetf, hrun1, hrun2, hrun3, hrun4]
      · rw [← content_successor hleft]
        exact hholds

lemma eq_nil_of_height (h : s.height = 0) : s = .nil := by
  cases s with
  | nil => rfl
  | node v l r => simp at h

lemma assertLeaf_spec (hlinked : t.Linked q (join side ch v .nil)) (hs : Balanced (join side ch v .nil))
    : t.assertLeaf (cell v q side (rootAddr ch) none) side = .ok () := by
  obtain ⟨hv, hch, -⟩ := balanced_join.mp hs
  cases ch with
  | nil =>
    have hb : v.balance = .balanced := by
      rcases hv with ⟨hb, -⟩ | ⟨-, he⟩ | ⟨-, he⟩
      · exact hb
      · simp at he
      · simp at he
    simp [assertLeaf, hb]
  | node w l r =>
    obtain ⟨hw, -, -⟩ := hch
    have hget := (linked_join.mp hlinked).2.1.1
    simp only [Agrees, height] at hv hw
    have hl : l = .nil := eq_nil_of_height (by omega)
    have hr : r = .nil := eq_nil_of_height (by omega)
    subst hl hr
    have hb : v.balance = heavy side := by
      rcases hv with ⟨-, he⟩ | ⟨hb, -⟩ | ⟨-, he⟩
      · simp at he
      · exact hb
      · simp at he
    have hwb : w.balance = .balanced := by
      rcases hw with ⟨hwb, -⟩ | ⟨-, he⟩ | ⟨-, he⟩
      · exact hwb
      · simp at he
      · simp at he
    simp [assertLeaf, hget, hb, hwb, liteAssert]

lemma spliceOut_join (side : Side) (hat : t.At (join side ch v .nil) path)
    (hs : Balanced (plug (join side ch v .nil) path)) :
    t.assertLeaf (cell v (parentAddr path) side (rootAddr ch) none) side = .ok () ∧
      ∃ t', t.spliceOut v.addr (parentAddr path) (rootAddr ch) = .ok t' ∧ t'.Holds (content (plug ch path)) := by
  obtain ⟨hs, hpath⟩ := balanced_plug.mp hs
  have hsub : (addrs ch).Sublist (addrs (join side ch v .nil)) := by
    cases side <;> simp [joinList]
  simp only [height_join, height, Nat.max_zero] at hpath
  exact ⟨assertLeaf_spec hat.linked hs, spliceOut_spec hat (rootAddr_join _ _ _ _) (linked_join.mp hat.linked).2.1
    hsub (balanced_join.mp hs).2.1 hpath⟩

lemma Holds.free (h : t.Holds ys) {a : ℕ} (ha : ∀ y ∈ ys, y.1 ≠ a) :
    ({ t with nodes := update t.nodes a none } : AVLTree E).Holds ys := by
  obtain ⟨s, hat, hs, rfl⟩ := h
  have hget : ∀ b ∈ addrs s, ({ t with nodes := update t.nodes a none } : AVLTree E).get b = t.get b := by
    intro b hb
    rw [addrs_eq] at hb
    obtain ⟨y, hy, rfl⟩ := mem_map.mp hb
    simp [get, ha y hy]
  exact ⟨s, ⟨hat.linked.congr hget, hat.pathLinked, hat.nodup, hat.bound⟩, hs, rfl⟩

section

variable (hat : t.At (.node v l r) path)
include hat

lemma contentWithout_ne : ∀ y ∈ contentWithout l r path, y.1 ≠ v.addr := by
  have hnodup := (addrs_plug_perm path [] (.node v l r)).nodup_iff.mp (by simpa using hat.nodup)
  rw [pathAddrs, append_nil, addrs, inorder_plug, inorder, append_assoc, cons_append,
    ← append_assoc, map_append, map_cons] at hnodup
  have hv := (nodup_cons.mp (perm_middle.nodup_iff.mp hnodup)).1
  intro y hy heq
  obtain ⟨w, hw, rfl⟩ := mem_map.mp hy
  rw [← map_append] at hv
  exact hv (heq ▸ mem_map_of_mem hw)

lemma unlink_spec (hs : Balanced (plug (.node v l r) path)) :
    ∃ t', t.unlink v.addr (cell v (parentAddr path) .left (rootAddr l) (rootAddr r)) = .ok t' ∧
      t'.Holds (contentWithout l r path) := by
  cases l with
  | nil =>
    obtain ⟨hleaf, t', hrun, hholds⟩ := spliceOut_join .right hat hs
    refine ⟨t', bind_eq_ok.mpr ⟨_, hleaf, hrun⟩, ?_⟩
    simpa [contentWithout, content, inorder_plug, inorder] using hholds
  | node lv ll lr =>
    cases r with
    | nil =>
      obtain ⟨hleaf, t', hrun, hholds⟩ := spliceOut_join .left hat hs
      refine ⟨t', bind_eq_ok.mpr ⟨_, hleaf, hrun⟩, ?_⟩
      simpa [contentWithout, content, inorder_plug, inorder] using hholds
    | node rv rl rr => exact promoteSuccessor_spec hat rfl rfl hs

/-- REMOVE a node: exactly that node leaves the tree, and it is freed. -/
lemma removeNode_spec (hs : Balanced (plug (.node v l r) path)) :
    ∃ t', t.removeNode v.addr = .ok t' ∧ t'.Holds (contentWithout l r path) := by
  obtain ⟨t', hrun, hholds⟩ := unlink_spec
    (hat.of_eq { t with deletions := u32 (t.deletions + 1) } (fun _ => rfl) rfl rfl) hs
  have hv : v.balance = .right ∨ v.balance = .left ∨ v.balance = .balanced := by
    rcases (balanced_plug.mp hs).1.1 with ⟨h, -⟩ | ⟨h, -⟩ | ⟨h, -⟩
    · exact .inr (.inr h)
    · exact .inr (.inl h)
    · exact .inl h
  refine ⟨_, ?_, hholds.free (contentWithout_ne hat)⟩
  simp only [removeNode, hat.linked.1, ok_bind, cell_balance, liteAssert_pos hv, hrun, pure_eq_ok]

end

lemma removeNode_contains (hat : t.At s []) (hs : Balanced s) (hv : v ∈ inorder s) :
    ∃ t' l r, t.removeNode v.addr = .ok t' ∧ (inorder s).map elem = l ++ v.elem :: r ∧ t'.Contains (l ++ r) := by
  obtain ⟨vl, vr, path, rfl⟩ := exists_plug_of_mem hv
  obtain ⟨t', hrun, hholds⟩ := removeNode_spec (at_whole.mpr hat) hs
  refine ⟨t', (nodesBefore path ++ inorder vl).map elem, (inorder vr ++ nodesAfter path).map elem, hrun, ?_, ?_⟩
  · simp [inorder_plug, inorder]
  · have hcontains := hholds.contains
    simpa [contentWithout, comp_def] using hcontains

variable {e x : E}

/-- REMOVE an element: exactly the one with that key leaves the collection. -/
lemma remove_spec (hc : c.OrderedOn rank S) (hxs : Sorted c rank S xs) (ht : t.Contains xs) (he : c.getKey e ∈ S)
    (hx : x ∈ xs) (hkey : rank (c.getKey x) = rank (c.getKey e)) :
    ∃ t' l r, t.remove c e = .ok t' ∧ xs = l ++ x :: r ∧ t'.Contains (l ++ r) := by
  obtain ⟨s, hat, hs, rfl⟩ := ht
  obtain ⟨a, hrun, ha⟩ := nodeLessThanOrEqualTo_spec hc hat hxs he
  obtain ⟨w, hw, rfl⟩ := mem_map.mp hx
  cases a with
  | none => exact absurd hkey.le (ha w hw)
  | some v =>
    obtain ⟨hv, hle, hbest⟩ := ha
    have hvw : rank (c.getKey v.elem) = rank (c.getKey e) := le_antisymm hle (hkey ▸ hbest w hw hkey.le)
    have hsame : v.elem = w.elem := hxs.inj (mem_map_of_mem hv) (mem_map_of_mem hw) (hvw.trans hkey.symm)
    obtain ⟨t', l, r, hrun', hxs', hcontains⟩ := removeNode_contains hat hs hv
    obtain ⟨_, _, _, hget⟩ := hat.linked.get_of_mem v hv
    have htree : t.tree ≠ none := by
      intro hnone
      have hnil := rootAddr_eq_none (hat.pathLinked.symm.trans hnone)
      rw [hnil] at hv
      exact absurd hv not_mem_nil
    have heq := (hc.eq_iff _ (hxs.mem _ (mem_map_of_mem hv)) _ he).mpr hvw
    refine ⟨t', l, r, ?_, hsame ▸ hxs', hcontains⟩
    simp [remove, htree, liteAssert, hrun, nonNull, hget, heq, hrun']

/-- REMOVE a key: the element with that key leaves the collection, if there is one. -/
lemma removeKey_spec (hc : c.OrderedOn rank S) (hxs : Sorted c rank S xs) (ht : t.Contains xs) {key : K}
    (hkey : key ∈ S) :
    (∃ t' l x r, t.removeKey c key = .ok (t', some x) ∧ xs = l ++ x :: r ∧ rank (c.getKey x) = rank key ∧
      t'.Contains (l ++ r)) ∨ (t.removeKey c key = .ok (t, none) ∧ ∀ x ∈ xs, rank (c.getKey x) ≠ rank key) := by
  obtain ⟨s, hat, hs, rfl⟩ := ht
  obtain ⟨a, hrun, ha⟩ := nodeLessThanOrEqualTo_spec hc hat hxs hkey
  cases a with
  | none =>
    refine .inr ⟨by simp [removeKey, hrun], fun x hx heq => ?_⟩
    obtain ⟨w, hw, rfl⟩ := mem_map.mp hx
    exact ha w hw heq.le
  | some v =>
    obtain ⟨hv, hle, hbest⟩ := ha
    obtain ⟨_, _, _, hget⟩ := hat.linked.get_of_mem v hv
    have hcmp := hc.eq_iff _ (hxs.mem _ (mem_map_of_mem hv)) _ hkey
    by_cases heq : rank (c.getKey v.elem) = rank key
    · obtain ⟨t', l, r, hrun', hxs', hcontains⟩ := removeNode_contains hat hs hv
      exact .inl ⟨t', l, v.elem, r, by simp [removeKey, hrun, hget, hcmp.mpr heq, hrun'], hxs', heq, hcontains⟩
    · refine .inr ⟨by simp [removeKey, hrun, hget, mt hcmp.mp heq], fun x hx hx' => ?_⟩
      obtain ⟨w, hw, rfl⟩ := mem_map.mp hx
      exact heq (le_antisymm hle (hx' ▸ hbest w hw hx'.le))

end Embassies.Utils.AVLTree
