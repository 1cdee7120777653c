import Embassies.Utils.AVLTree

/-! The shape of an AVL tree in the heap.

    `Linked` says that a binary tree of labelled addresses is laid out in the heap, with the parent links
    as well as the links down; `PathLinked` says it of the way from a subtree to the root, and `At` of a
    whole tree seen from one of its subtrees. Each elementary update of the heap has its lemma here, so
    that the operations are verified by following the shape. -/

namespace Embassies.Utils

open List AVLTree

variable {E : Type}

/-- A node of the tree: where it is, and what it holds besides its links. -/
structure Label (E : Type) where
  addr : ℕ
  balance : AVLBalance
  elem : E

/-- The pointer to a subtree. -/
def rootAddr : BinaryTree (Label E) → Option ℕ
  | .nil => none
  | .node v _ _ => some v.addr

/-- The addresses of a subtree's nodes. -/
def addrs (s : BinaryTree (Label E)) : List ℕ := (inorder s).map Label.addr

/-- The node of a label, with the child pointer of that side given first. -/
def cell (v : Label E) (parent : Option ℕ) (side : Side) (near far : Option ℕ) : AVLElement E :=
  match side with
  | .left => ⟨v.balance, parent, near, far, some v.elem⟩
  | .right => ⟨v.balance, parent, far, near, some v.elem⟩

section Cells

variable (v : Label E) (parent q near far x : Option ℕ) (side : Side) (b : AVLBalance)
variable (l r : BinaryTree (Label E))

@[simp] lemma rootAddr_nil : rootAddr (.nil : BinaryTree (Label E)) = none := rfl

@[simp] lemma rootAddr_node : rootAddr (.node v l r) = some v.addr := rfl

@[simp] lemma rootAddr_join : rootAddr (join side l v r) = some v.addr := by cases side <;> rfl

@[simp] lemma addrs_nil : addrs (.nil : BinaryTree (Label E)) = [] := rfl

@[simp] lemma addrs_join : addrs (join side l v r) = joinList side (addrs l) v.addr (addrs r) := by
  simp only [addrs, inorder_join, joinList_map]

@[simp] lemma cell_child : (cell v parent side near far).child side = near := by cases side <;> rfl

@[simp] lemma cell_child_other : (cell v parent side near far).child side.other = far := by
  cases side <;> rfl

@[simp] lemma cell_left : (cell v parent .left near far).left = near := rfl

@[simp] lemma cell_left' : (cell v parent .left near far).right = far := rfl

@[simp] lemma cell_right : (cell v parent .right near far).right = near := rfl

@[simp] lemma cell_parent : (cell v parent side near far).parent = parent := by cases side <;> rfl

@[simp] lemma cell_balance : (cell v parent side near far).balance = v.balance := by cases side <;> rfl

@[simp] lemma cell_element : (cell v parent side near far).element = some v.elem := by
  cases side <;> rfl

@[simp] lemma cell_getElement : (cell v parent side near far).getElement = .ok v.elem := by
  cases side <;> rfl

@[simp] lemma cell_withChild :
    (cell v parent side near far).withChild side x = cell v parent side x far := by cases side <;> rfl

@[simp] lemma cell_withChild_other :
    (cell v parent side near far).withChild side.other x = cell v parent side near x := by
  cases side <;> rfl

@[simp] lemma cell_withParent :
    (cell v parent side near far).withParent q = cell v q side near far := by cases side <;> rfl

@[simp] lemma cell_withBalance :
    (cell v parent side near far).withBalance b =
      cell { v with balance := b } parent side near far := by cases side <;> rfl

lemma cell_other : cell v parent side.other near far = cell v parent side far near := by
  cases side <;> rfl

end Cells

lemma rootAddr_mem {s : BinaryTree (Label E)} {a : ℕ} (h : rootAddr s = some a) : a ∈ addrs s := by
  cases s with
  | nil => simp at h
  | node v l r =>
    simp only [rootAddr, Option.some.injEq] at h
    simp [addrs, inorder, h]

lemma mem_addrs_join {side : Side} {l r : BinaryTree (Label E)} {v : Label E} {a : ℕ} :
    a ∈ addrs (join side l v r) ↔ a ∈ addrs l ∨ a = v.addr ∨ a ∈ addrs r := by
  rw [addrs_join, mem_joinList]

lemma nodup_addrs_join {side : Side} {l r : BinaryTree (Label E)} {v : Label E} : (addrs (join side l v r)).Nodup ↔
      (addrs l).Nodup ∧ (addrs r).Nodup ∧ v.addr ∉ addrs l ∧ v.addr ∉ addrs r ∧ ∀ a ∈ addrs l, a ∉ addrs r := by
  rw [addrs_join, (joinList_perm side _ _ _).nodup_iff, nodup_cons, nodup_append, mem_append]
  constructor
  · rintro ⟨hv, hl, hr, hdisj⟩
    exact ⟨hl, hr, fun h => hv (.inl h), fun h => hv (.inr h), fun a ha ha' => hdisj a ha a ha' rfl⟩
  · rintro ⟨hl, hr, hvl, hvr, hdisj⟩
    exact ⟨fun h => h.elim hvl hvr, hl, hr, fun a ha b hb hab => hdisj a ha (hab ▸ hb)⟩

namespace AVLTree

variable {t : AVLTree E} {path : List (Frame (Label E))} {t' : AVLTree E} {f : Frame (Label E)}
  {s : BinaryTree (Label E)} {parent : Option ℕ} {a : ℕ}

section Heap

variable (t : AVLTree E) (a b : ℕ) (n m : AVLElement E)

@[simp] lemma get_put_self : (t.put a n).get a = .ok n := by simp [get, put]

lemma get_put_ne {a b : ℕ} (h : b ≠ a) : (t.put a n).get b = t.get b := by simp [get, put, h]

@[simp] lemma tree_put : (t.put a n).tree = t.tree := rfl

@[simp] lemma allocated_put : (t.put a n).allocated = t.allocated := rfl

@[simp] lemma put_put : (t.put a n).put a m = t.put a m := by simp [put]

end Heap

/-- The subtree is laid out in the heap under that parent. -/
def Linked (t : AVLTree E) (parent : Option ℕ) : BinaryTree (Label E) → Prop
  | .nil => True
  | .node v l r =>
    t.get v.addr = .ok (cell v parent .left (rootAddr l) (rootAddr r)) ∧
      Linked t (some v.addr) l ∧ Linked t (some v.addr) r

lemma linked_join {side : Side} {l r : BinaryTree (Label E)} {v : Label E} : t.Linked parent (join side l v r) ↔
      t.get v.addr = .ok (cell v parent side (rootAddr l) (rootAddr r)) ∧
        t.Linked (some v.addr) l ∧ t.Linked (some v.addr) r := by
  cases side with
  | left => rfl
  | right =>
    exact ⟨fun ⟨hv, hr, hl⟩ => ⟨hv, hl, hr⟩, fun ⟨hv, hl, hr⟩ => ⟨hv, hr, hl⟩⟩

/-- FRAME: a subtree stays laid out when its own nodes stay. -/
lemma Linked.congr : ∀ {s : BinaryTree (Label E)} {parent : Option ℕ},
    (∀ a ∈ addrs s, t'.get a = t.get a) → t.Linked parent s → t'.Linked parent s
  | .nil, _, _, _ => trivial
  | .node v l r, parent, hget, ⟨hv, hl, hr⟩ => by
      simp only [addrs, inorder, map_append, map_cons, mem_append, mem_cons] at hget
      exact ⟨by rw [hget _ (.inr (.inl rfl)), hv], hl.congr fun a ha => hget a (.inl ha),
        hr.congr fun a ha => hget a (.inr (.inr ha))⟩

/-- The heap after the root of a subtree has been given another parent. -/
def reparented (t : AVLTree E) (s : BinaryTree (Label E)) (parent : Option ℕ) : AVLTree E :=
  match s with
  | .nil => t
  | .node v l r => t.put v.addr (cell v parent .left (rootAddr l) (rootAddr r))

lemma reparent_eq {T : AVLTree E} (h : t.Linked parent s) (hframe : ∀ a ∈ addrs s, T.get a = t.get a) (q : Option ℕ) :
    T.reparent (rootAddr s) q = .ok (T.reparented s q) := by
  have hT := h.congr hframe
  cases s with
  | nil => rfl
  | node v l r =>
    simp only [rootAddr_node, reparent, setParent, modify, hT.1, Checked.ok_bind, cell_withParent,
      Checked.pure_eq_ok, reparented]

lemma get_reparented (h : a ∉ addrs s) (t : AVLTree E) (q : Option ℕ) : (t.reparented s q).get a = t.get a := by
  cases s with
  | nil => rfl
  | node v l r =>
    refine get_put_ne t _ ?_
    rintro rfl
    exact h (rootAddr_mem rfl)

lemma get_reparented_congr (h : t'.get a = t.get a) (s : BinaryTree (Label E)) (q : Option ℕ) :
    (t'.reparented s q).get a = (t.reparented s q).get a := by
  cases s with
  | nil => exact h
  | node v l r =>
    simp only [reparented]
    by_cases hv : a = v.addr
    · rw [hv, get_put_self, get_put_self]
    · rw [get_put_ne _ _ hv, get_put_ne _ _ hv, h]

@[simp] lemma tree_reparented (t : AVLTree E) (s : BinaryTree (Label E)) (q : Option ℕ) :
    (t.reparented s q).tree = t.tree := by cases s <;> rfl

@[simp] lemma allocated_reparented (t : AVLTree E) (s : BinaryTree (Label E)) (q : Option ℕ) :
    (t.reparented s q).allocated = t.allocated := by cases s <;> rfl

lemma Linked.reparented (h : t.Linked parent s) (hnodup : (addrs s).Nodup) (q : Option ℕ) :
    (t.reparented s q).Linked q s := by
  cases s with
  | nil => exact trivial
  | node v l r =>
    obtain ⟨_, _, hl, hr, _⟩ := nodup_addrs_join.mp (show (addrs (join .left l v r)).Nodup from hnodup)
    refine ⟨get_put_self _ _ _, h.2.1.congr fun a ha => get_put_ne _ _ ?_, h.2.2.congr fun a ha => get_put_ne _ _ ?_⟩
    · rintro rfl
      exact hl ha
    · rintro rfl
      exact hr ha

/-- The parent at the end of a way. -/
def parentAddr (path : List (Frame (Label E))) : Option ℕ := path.head?.map fun f => f.value.addr

@[simp] lemma parentAddr_nil : parentAddr ([] : List (Frame (Label E))) = none := rfl

@[simp] lemma parentAddr_cons (f : Frame (Label E)) (up : List (Frame (Label E))) :
    parentAddr (f :: up) = some f.value.addr := rfl

/-- The addresses of the nodes on a way and beside it. -/
def pathAddrs : List (Frame (Label E)) → List ℕ
  | [] => []
  | f :: up => f.value.addr :: (addrs f.sibling ++ pathAddrs up)

/-- The way up from a subtree is laid out in the heap, with that pointer to the subtree. -/
def PathLinked (t : AVLTree E) (child : Option ℕ) : List (Frame (Label E)) → Prop
  | [] => t.tree = child
  | f :: up =>
    t.get f.value.addr = .ok (cell f.value (parentAddr up) f.side child (rootAddr f.sibling)) ∧
      t.Linked (some f.value.addr) f.sibling ∧ PathLinked t (some f.value.addr) up

/-- FRAME: a way stays laid out when its own nodes and the root pointer stay. -/
lemma PathLinked.congr : ∀ {path : List (Frame (Label E))} {child : Option ℕ},
    (∀ a ∈ pathAddrs path, t'.get a = t.get a) → t'.tree = t.tree → t.PathLinked child path →
      t'.PathLinked child path
  | [], _, _, htree, h => htree.trans h
  | f :: up, child, hget, htree, ⟨hf, hsib, hup⟩ => by
      simp only [pathAddrs, mem_cons, mem_append] at hget
      exact ⟨by rw [hget _ (.inl rfl), hf], hsib.congr fun a ha => hget a (.inr (.inl ha)),
        hup.congr (fun a ha => hget a (.inr (.inr ha))) htree⟩

/-- The heap after the pointer to the subtree has been replaced. -/
def promoted (t : AVLTree E) (path : List (Frame (Label E))) (new : Option ℕ) : AVLTree E :=
  match path with
  | [] => { t with tree := new }
  | f :: up => t.put f.value.addr (cell f.value (parentAddr up) f.side new (rootAddr f.sibling))

lemma get_promoted (h : a ∉ pathAddrs path) (t : AVLTree E) (new : Option ℕ) :
    (t.promoted path new).get a = t.get a := by
  cases path with
  | nil => rfl
  | cons f up =>
    refine get_put_ne t _ ?_
    rintro rfl
    exact h mem_cons_self

lemma get_promoted_congr (h : t'.get a = t.get a) (path : List (Frame (Label E))) (new : Option ℕ) :
    (t'.promoted path new).get a = (t.promoted path new).get a := by
  cases path with
  | nil => exact h
  | cons f up =>
    simp only [promoted]
    by_cases hf : a = f.value.addr
    · rw [hf, get_put_self, get_put_self]
    · rw [get_put_ne _ _ hf, get_put_ne _ _ hf, h]

@[simp] lemma allocated_promoted (t : AVLTree E) (path : List (Frame (Label E))) (new : Option ℕ) :
    (t.promoted path new).allocated = t.allocated := by cases path <;> rfl

lemma PathLinked.promoted {child : Option ℕ} (h : t.PathLinked child path) (hnodup : (pathAddrs path).Nodup)
    (new : Option ℕ) : (t.promoted path new).PathLinked new path := by
  cases path with
  | nil => exact rfl
  | cons f up =>
    obtain ⟨hf, _⟩ := nodup_cons.mp hnodup
    rw [mem_append, not_or] at hf
    refine ⟨get_put_self _ _ _, h.2.1.congr fun a ha => get_put_ne _ _ ?_,
      h.2.2.congr (fun a ha => get_put_ne _ _ ?_) rfl⟩
    · rintro rfl
      exact hf.1 ha
    · rintro rfl
      exact hf.2 ha

lemma sideOf_eq {up : List (Frame (Label E))} (h : t.PathLinked (some a) (f :: up)) (ha : a ∉ addrs f.sibling)
    (first : Side) : t.sideOf first a f.value.addr = .ok f.side := by
  have hsib : rootAddr f.sibling ≠ some a := fun hroot => ha (rootAddr_mem hroot)
  simp only [sideOf, h.1, Checked.ok_bind]
  rcases Side.eq_or_eq_other first f.side with rfl | rfl
  · simp
  · simp [hsib, liteAssert]

lemma promote_eq (h : t.PathLinked (some a) path) (ha : a ∉ pathAddrs path) (first : Side) (new : Option ℕ) :
    t.promote first a (parentAddr path) new = .ok (t.promoted path new) := by
  cases path with
  | nil =>
    have htree : t.tree = some a := h
    simp [promote, htree, liteAssert, promoted]
  | cons f up =>
    have hsib : a ∉ addrs f.sibling := fun hmem =>
      ha (mem_cons_of_mem _ (mem_append_left _ hmem))
    simp [promote, sideOf_eq h hsib, setChild, modify, h.1, promoted]

/-- THE WHOLE TREE, seen from a subtree: the subtree and the way up from it are laid out in the heap, at
    distinct addresses that have been handed out. -/
structure At (t : AVLTree E) (s : BinaryTree (Label E)) (path : List (Frame (Label E))) : Prop where
  linked : t.Linked (parentAddr path) s
  pathLinked : t.PathLinked (rootAddr s) path
  nodup : (addrs s ++ pathAddrs path).Nodup
  bound : ∀ a ∈ addrs s ++ pathAddrs path, a < t.allocated

lemma addrs_cons_perm (s : BinaryTree (Label E)) (f : Frame (Label E)) (up : List (Frame (Label E))) :
    (addrs s ++ pathAddrs (f :: up)).Perm (addrs (join f.side s f.value f.sibling) ++ pathAddrs up) := by
  rw [addrs_join]
  refine List.Perm.trans ?_ ((joinList_perm f.side _ _ _).append_right _).symm
  simp only [pathAddrs, cons_append, append_assoc]
  exact perm_middle

lemma addrs_plug_perm : ∀ (path outer : List (Frame (Label E))) (s : BinaryTree (Label E)),
    (addrs s ++ pathAddrs (path ++ outer)).Perm (addrs (plug s path) ++ pathAddrs outer)
  | [], _, _ => List.Perm.refl _
  | f :: up, outer, s => (addrs_cons_perm s f (up ++ outer)).trans (addrs_plug_perm up outer _)

lemma rootAddr_plug : ∀ {up : List (Frame (Label E))} {s s' : BinaryTree (Label E)},
    rootAddr (plug s (f :: up)) = rootAddr (plug s' (f :: up)) := by
  intro up
  induction up generalizing f with
  | nil =>
    intro s s'
    simp [plug]
  | cons g up ih =>
    intro s s'
    exact ih

lemma at_cons {up : List (Frame (Label E))} : t.At s (f :: up) ↔ t.At (join f.side s f.value f.sibling) up := by
  have hperm := addrs_cons_perm s f up
  constructor
  · rintro ⟨hlinked, hpath, hnodup, hbound⟩
    exact ⟨linked_join.mpr ⟨hpath.1, hlinked, hpath.2.1⟩, by rw [rootAddr_join]; exact hpath.2.2,
      hperm.nodup_iff.mp hnodup, fun a ha => hbound a (hperm.mem_iff.mpr ha)⟩
  · rintro ⟨hlinked, hpath, hnodup, hbound⟩
    obtain ⟨hf, hs, hsib⟩ := linked_join.mp hlinked
    rw [rootAddr_join] at hpath
    exact ⟨hs, ⟨hf, hsib, hpath⟩, hperm.nodup_iff.mpr hnodup, fun a ha => hbound a (hperm.mem_iff.mp ha)⟩

lemma at_plug : ∀ {path outer : List (Frame (Label E))} {s : BinaryTree (Label E)},
    t.At s (path ++ outer) ↔ t.At (plug s path) outer
  | [], _, _ => Iff.rfl
  | f :: up, outer, s => by
      rw [cons_append, at_cons, at_plug, plug]

lemma at_whole : t.At s path ↔ t.At (plug s path) [] := by
  rw [← at_plug, append_nil]

end AVLTree

end Embassies.Utils
