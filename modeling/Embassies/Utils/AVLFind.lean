import Embassies.Utils.AVLBalance
import Mathlib.Data.List.Pairwise
import Mathlib.Data.List.Perm.Subperm

/-! Searching an AVL tree: the `findFirst` functions, `findMin`, `findMax` and `lookup`.

    The comparisons of the key class have to be those of a linear order, but only between the keys that
    occur; `OrderedOn` says so, with the keys' ranks in that order. -/

namespace Embassies.Utils

open List OrderDual Label Option

variable {E K L : Type} [LinearOrder L]

/-- The key class compares the keys of `S` as a linear order compares their ranks. -/
structure AVLKeys.OrderedOn (c : AVLKeys E K) (rank : K → L) (S : Set K) : Prop where
  lt_iff : ∀ a ∈ S, ∀ b ∈ S, c.lt a b = true ↔ rank a < rank b
  gt_iff : ∀ a ∈ S, ∀ b ∈ S, c.gt a b = true ↔ rank b < rank a
  eq_iff : ∀ a ∈ S, ∀ b ∈ S, c.eq a b = true ↔ rank a = rank b
  le_iff : ∀ a ∈ S, ∀ b ∈ S, c.le a b = true ↔ rank a ≤ rank b
  ge_iff : ∀ a ∈ S, ∀ b ∈ S, c.ge a b = true ↔ rank b ≤ rank a

/-- THE NEIGHBOUR that a search returns: the highest of those that satisfy `P`, if there are any. -/
def Nearest (rank : E → L) (In P : E → Prop) : Option E → Prop
  | none => ∀ x, In x → ¬P x
  | some x => In x ∧ P x ∧ ∀ y, In y → P y → rank y ≤ rank x

namespace Nearest

variable {rank : E → L} {xs near far : List E} {v : E} {P : E → Prop} {r : Option E}

lemma onward (hmem : ∀ w, w ∈ xs ↔ w ∈ near ∨ w = v ∨ w ∈ far) (hv : P v) (hnear : ∀ w ∈ near, rank v ≤ rank w)
    (hfar : ∀ w ∈ far, rank w ≤ rank v) (hr : Nearest rank (· ∈ near) P r) :
    Nearest rank (· ∈ xs) P (some (r.getD v)) := by
  cases r with
  | none =>
    refine ⟨(hmem v).mpr (.inr (.inl rfl)), hv, fun w hw hP => ?_⟩
    rcases (hmem w).mp hw with hw | rfl | hw
    · exact absurd hP (hr w hw)
    · exact le_rfl
    · exact hfar w hw
  | some x =>
    obtain ⟨hx, hPx, hbest⟩ := hr
    refine ⟨(hmem x).mpr (.inl hx), hPx, fun w hw hP => ?_⟩
    rcases (hmem w).mp hw with hw | rfl | hw
    · exact hbest w hw hP
    · exact hnear x hx
    · exact (hfar w hw).trans (hnear x hx)

lemma back (hmem : ∀ w, w ∈ xs ↔ w ∈ near ∨ w = v ∨ w ∈ far) (hv : ¬P v) (hnear : ∀ w ∈ near, ¬P w)
    (hr : Nearest rank (· ∈ far) P r) : Nearest rank (· ∈ xs) P r := by
  cases r with
  | none =>
    intro w hw
    rcases (hmem w).mp hw with hw | rfl | hw
    · exact hnear w hw
    · exact hv
    · exact hr w hw
  | some x =>
    obtain ⟨hx, hPx, hbest⟩ := hr
    refine ⟨(hmem x).mpr (.inr (.inr hx)), hPx, fun w hw hP => ?_⟩
    rcases (hmem w).mp hw with hw | rfl | hw
    · exact absurd hP (hnear w hw)
    · exact absurd hP hv
    · exact hbest w hw hP

lemma map {F : Type} {f : F → E} {ys : List F} {r : Option F}
    (hr : Nearest (fun y => rank (f y)) (· ∈ ys) (fun y => P (f y)) r) : Nearest rank (· ∈ ys.map f) P (r.map f) := by
  cases r with
  | none =>
    intro x hx
    obtain ⟨y, hy, rfl⟩ := mem_map.mp hx
    exact hr y hy
  | some y =>
    obtain ⟨hy, hPy, hbest⟩ := hr
    refine ⟨mem_map_of_mem hy, hPy, fun x hx hP => ?_⟩
    obtain ⟨z, hz, rfl⟩ := mem_map.mp hx
    exact hbest z hz hP

lemma mem (hr : Nearest rank (· ∈ xs) P r) : ∀ x, r = some x → x ∈ xs := by
  rintro x rfl
  exact hr.1

end Nearest

namespace AVLTree

lemma rootAddr_eq_none {s : BinaryTree (Label E)} (h : rootAddr s = none) : s = .nil := by
  cases s with
  | nil => rfl
  | node v l r => simp at h

lemma Linked.get_of_mem {t : AVLTree E} : ∀ {s : BinaryTree (Label E)} {parent : Option ℕ},
    t.Linked parent s → ∀ v ∈ inorder s, ∃ p l r, t.get v.addr = .ok (cell v p .left l r)
  | .nil, _, _, v, hv => absurd hv not_mem_nil
  | .node w l r, parent, ⟨hw, hl, hr⟩, v, hv => by
      rcases mem_append.mp hv with hv | hv
      · exact hl.get_of_mem v hv
      rcases mem_cons.mp hv with rfl | hv
      · exact ⟨_, _, _, hw⟩
      · exact hr.get_of_mem v hv

section Search

variable {t : AVLTree E} {equal candidate : E → Bool} {onward : Side} {s : BinaryTree (Label E)}

/-- What the `findFirst` functions find, on a tree. -/
def search (equal candidate : E → Bool) (onward : Side) : BinaryTree (Label E) → Option (Label E)
  | .nil => none
  | .node v l r =>
    let near := match onward with | .left => search equal candidate onward l | .right => search equal candidate onward r
    let far := match onward with | .left => search equal candidate onward r | .right => search equal candidate onward l
    if equal v.elem = true then some v else if candidate v.elem = true then some (near.getD v) else far

lemma search_join {near far : BinaryTree (Label E)} {v : Label E} :
    search equal candidate onward (join onward near v far) =
      if equal v.elem = true then some v
      else if candidate v.elem = true then some ((search equal candidate onward near).getD v)
      else search equal candidate onward far := by
  cases onward <;> rfl

/-- SEARCH: the recursion of the `findFirst` functions finds it in the heap. -/
lemma findFirstFrom_eq (equal candidate : E → Bool) (onward : Side) (fuel : ℕ) :
    ∀ {s : BinaryTree (Label E)} {parent : Option ℕ} {root : ℕ}, s.height ≤ fuel → t.Linked parent s →
      rootAddr s = some root →
      findFirstFrom equal candidate onward t fuel root = .ok ((search equal candidate onward s).map addr) := by
  induction fuel with
  | zero =>
    intro s parent root hfuel _ hroot
    cases s with
    | nil => simp at hroot
    | node v l r => simp at hfuel
  | succ fuel ih =>
    intro s parent root hfuel hlinked hroot
    obtain rfl | ⟨near, v, far, rfl⟩ := eq_nil_or_join onward s
    · simp at hroot
    obtain ⟨hget, hnear, hfar⟩ := linked_join.mp hlinked
    simp only [rootAddr_join, some.injEq] at hroot
    rw [height_join] at hfuel
    simp only [findFirstFrom, ← hroot, hget, Checked.ok_bind, cell_getElement, cell_child, cell_child_other, search_join]
    split
    · rfl
    split
    · cases hn : rootAddr near with
      | none =>
        rw [rootAddr_eq_none hn]
        rfl
      | some next =>
        simp only [ih (by omega) hnear hn, Checked.ok_bind]
        cases search equal candidate onward near <;> rfl
    · cases hn : rootAddr far with
      | none =>
        rw [rootAddr_eq_none hn]
        rfl
      | some next => exact ih (by omega) hfar hn

/-- In a tree that is sorted in the direction of the search, what is found is the nearest. -/
lemma search_nearest (equal candidate : E → Bool) (rank : E → L) (k : L) (incl : Prop) :
    (walk onward s).Pairwise (fun v w => rank v.elem < rank w.elem) →
    (∀ v ∈ inorder s, equal v.elem = true ↔ incl ∧ rank v.elem = k) →
    (∀ v ∈ inorder s, candidate v.elem = true ↔ rank v.elem < k) →
    Nearest (fun v : Label E => rank v.elem) (· ∈ inorder s)
      (fun v => rank v.elem < k ∨ incl ∧ rank v.elem = k) (search equal candidate onward s) := by
  induction s using join_induction onward with
  | nil => exact fun _ _ _ w hw => absurd hw not_mem_nil
  | join near v far ihNear ihFar =>
    intro hsorted hequal hcandidate
    rw [walk_join, pairwise_append] at hsorted
    obtain ⟨hsortedFar, hsortedNear, hcross⟩ := hsorted
    obtain ⟨hvNear, hsortedNear⟩ := pairwise_cons.mp hsortedNear
    replace hvNear : ∀ w ∈ inorder near, rank v.elem < rank w.elem := fun w hw => hvNear w (mem_walk.mpr hw)
    have hmem : ∀ w, _ ↔ _ := fun w => @mem_inorder_join _ onward near far v w
    have hself := (hmem v).mpr (.inr (.inl rfl))
    rw [search_join]
    split
    case isTrue heq =>
      obtain ⟨hincl, hk⟩ := (hequal v hself).mp heq
      refine ⟨hself, .inr ⟨hincl, hk⟩, ?_⟩
      rintro w - (hw | ⟨-, hw⟩)
      · exact (hw.trans_eq hk.symm).le
      · exact (hw.trans hk.symm).le
    split
    case isTrue hcand =>
      exact Nearest.onward hmem (.inl ((hcandidate v hself).mp hcand)) (fun w hw => (hvNear w hw).le)
        (fun w hw => (hcross w (mem_walk.mpr hw) v mem_cons_self).le) (ihNear hsortedNear
          (fun w hw => hequal w ((hmem w).mpr (.inl hw))) fun w hw => hcandidate w ((hmem w).mpr (.inl hw)))
    case isFalse heq hcand =>
      have hvk : k ≤ rank v.elem := not_lt.mp (mt (hcandidate v hself).mpr hcand)
      refine Nearest.back hmem ?_ ?_ (ihFar hsortedFar (fun w hw => hequal w ((hmem w).mpr (.inr (.inr hw))))
        fun w hw => hcandidate w ((hmem w).mpr (.inr (.inr hw))))
      · rintro (h | h)
        · exact absurd h (not_lt.mpr hvk)
        · exact heq ((hequal v hself).mpr h)
      · rintro w hw (h | ⟨-, h⟩)
        · exact absurd (h.trans_le hvk) (not_lt.mpr (hvNear w hw).le)
        · exact absurd (h ▸ hvNear w hw) (not_lt.mpr hvk)

lemma mem_of_search : ∀ v, search equal candidate onward s = some v →
    v ∈ inorder s ∧ (equal v.elem = true ∨ candidate v.elem = true) := by
  induction s using join_induction onward with
  | nil => exact nofun
  | join near v far ihNear ihFar =>
    intro w hw
    rw [search_join] at hw
    rw [mem_inorder_join]
    split at hw
    case isTrue hequal =>
      cases hw
      exact ⟨.inr (.inl rfl), .inl hequal⟩
    split at hw
    case isTrue hcand =>
      cases hw
      cases hnear : search equal candidate onward near with
      | none => exact ⟨.inr (.inl rfl), .inr hcand⟩
      | some x => exact ⟨.inl (ihNear x hnear).1, (ihNear x hnear).2⟩
    case isFalse => exact ⟨.inr (.inr (ihFar w hw).1), (ihFar w hw).2⟩

lemma At.height_le {path : List (Frame (Label E))} (h : t.At s path) : s.height + path.length ≤ t.allocated := by
  have hpath : ∀ p : List (Frame (Label E)), p.length ≤ (pathAddrs p).length := by
    intro p
    induction p with
    | nil => exact Nat.zero_le _
    | cons f up ih =>
      simp only [pathAddrs, length_cons, length_append]
      omega
  have hsub := (subperm_of_subset h.nodup fun a ha => mem_range.mpr (h.bound a ha)).length_le
  have hs : s.height ≤ (addrs s).length := (inorder_length s).trans_eq (length_map _).symm
  rw [length_append, length_range] at hsub
  exact (Nat.add_le_add hs (hpath path)).trans hsub

lemma At.findNode_eq (hat : t.At s []) (equal candidate : E → Bool) (onward : Side) :
    t.findNode equal candidate onward = .ok ((search equal candidate onward s).map addr) := by
  have htree : t.tree = rootAddr s := hat.pathLinked
  simp only [findNode, htree]
  cases hroot : rootAddr s with
  | none =>
    rw [rootAddr_eq_none hroot]
    rfl
  | some root =>
    have hheight := hat.height_le
    exact findFirstFrom_eq _ _ _ _ (by simp at hheight; omega) hat.linked hroot

lemma elementOf_spec (hat : t.At s []) {r : Option (Label E)} (hr : ∀ v, r = some v → v ∈ inorder s) :
    t.elementOf (r.map addr) = .ok (r.map elem) := by
  cases r with
  | none => rfl
  | some v =>
    obtain ⟨_, _, _, hget⟩ := hat.linked.get_of_mem v (hr v rfl)
    simp [elementOf, hget]

end Search

/-- THE CONTENTS of a tree: it is in the heap, balanced, with these elements from left to right. -/
def Contains (t : AVLTree E) (xs : List E) : Prop :=
  ∃ s, t.At s [] ∧ Balanced s ∧ (inorder s).map Label.elem = xs

section AnyOrder

variable {t : AVLTree E} {xs : List E}

lemma search_mem (equal candidate : E → Bool) (onward : Side) (ht : t.Contains xs) :
    ∃ a r, t.findNode equal candidate onward = .ok a ∧ t.elementOf a = .ok r ∧
      ∀ x, r = some x → x ∈ xs ∧ (equal x = true ∨ candidate x = true) := by
  obtain ⟨s, hat, -, rfl⟩ := ht
  refine ⟨_, _, hat.findNode_eq .., elementOf_spec hat fun v hv => (mem_of_search v hv).1, fun x hx => ?_⟩
  obtain ⟨v, hv, rfl⟩ := map_eq_some_iff.mp hx
  exact ⟨mem_map_of_mem (mem_of_search v hv).1, (mem_of_search v hv).2⟩

lemma findFirstLessThanOrEqualTo_mem (c : AVLKeys E K) (key : K) (ht : t.Contains xs) :
    ∃ r, t.findFirstLessThanOrEqualTo c key = .ok r ∧ ∀ x, r = some x → x ∈ xs := by
  obtain ⟨a, r, hrun, helem, hr⟩ := search_mem (fun e => c.eq (c.getKey e) key)
    (fun e => c.lt (c.getKey e) key) .right ht
  exact ⟨r, by simp [findFirstLessThanOrEqualTo, nodeLessThanOrEqualTo, hrun, helem], fun x hx => (hr x hx).1⟩

lemma findFirstGreaterThanOrEqualTo_mem (c : AVLKeys E K) (key : K) (ht : t.Contains xs) :
    ∃ r, t.findFirstGreaterThanOrEqualTo c key = .ok r ∧ ∀ x, r = some x →
      x ∈ xs ∧ (c.eq (c.getKey x) key = true ∨ c.gt (c.getKey x) key = true) := by
  obtain ⟨a, r, hrun, helem, hr⟩ := search_mem (fun e => c.eq (c.getKey e) key)
    (fun e => c.gt (c.getKey e) key) .left ht
  exact ⟨r, by simp [findFirstGreaterThanOrEqualTo, hrun, helem], hr⟩

end AnyOrder

section Wrappers

variable {t : AVLTree E} {c : AVLKeys E K} {rank : K → L} {S : Set K} {xs : List E} {key : K}
variable {s : BinaryTree (Label E)}

/-- The elements are sorted by the ranks of their keys, which are all comparable. -/
structure Sorted (c : AVLKeys E K) (rank : K → L) (S : Set K) (xs : List E) : Prop where
  mem : ∀ x ∈ xs, c.getKey x ∈ S
  pairwise : xs.Pairwise fun x y => rank (c.getKey x) < rank (c.getKey y)

lemma Sorted.walk_right (hxs : Sorted c rank S ((inorder s).map elem)) :
    (walk .right s).Pairwise fun v w => rank (c.getKey v.elem) < rank (c.getKey w.elem) := by
  have hpairwise := hxs.pairwise
  rwa [pairwise_map] at hpairwise

lemma Sorted.walk_left (hxs : Sorted c rank S ((inorder s).map elem)) : (walk .left s).Pairwise fun v w =>
      toDual (rank (c.getKey v.elem)) < toDual (rank (c.getKey w.elem)) := pairwise_reverse.mpr hxs.walk_right

lemma Sorted.inj (hxs : Sorted c rank S xs) {x y : E} (hx : x ∈ xs) (hy : y ∈ xs)
    (h : rank (c.getKey x) = rank (c.getKey y)) : x = y := by
  by_contra hne
  have hpairwise : xs.Pairwise fun x y => rank (c.getKey x) ≠ rank (c.getKey y) :=
    hxs.pairwise.imp fun hlt => ne_of_lt hlt
  have : Std.Symm fun x y : E => rank (c.getKey x) ≠ rank (c.getKey y) := ⟨fun _ _ h => h.symm⟩
  exact hpairwise.forall hx hy hne h

variable (hc : c.OrderedOn rank S) (hxs : Sorted c rank S xs) (ht : t.Contains xs) (hkey : key ∈ S)

lemma search_spec (incl : Prop) (rank : E → L) (k : L) {equal candidate : E → Bool} {onward : Side} (ht : t.Contains xs)
    (hsorted : ∀ s, (inorder s).map elem = xs → (walk onward s).Pairwise fun v w => rank v.elem < rank w.elem)
    (hequal : ∀ x ∈ xs, equal x = true ↔ incl ∧ rank x = k) (hcandidate : ∀ x ∈ xs, candidate x = true ↔ rank x < k) :
    ∃ a r, t.findNode equal candidate onward = .ok a ∧ t.elementOf a = .ok r ∧
      Nearest rank (· ∈ xs) (fun x => rank x < k ∨ incl ∧ rank x = k) r := by
  obtain ⟨s, hat, -, rfl⟩ := ht
  have hr := search_nearest _ _ rank k incl (hsorted s rfl) (fun v hv => hequal _ (mem_map_of_mem hv))
    fun v hv => hcandidate _ (mem_map_of_mem hv)
  exact ⟨_, _, hat.findNode_eq .., elementOf_spec hat (Nearest.mem hr), Nearest.map hr⟩

lemma nodeLessThanOrEqualTo_spec (hc : c.OrderedOn rank S) (hat : t.At s [])
    (hxs : Sorted c rank S ((inorder s).map elem)) (hkey : key ∈ S) :
    ∃ r : Option (Label E), t.nodeLessThanOrEqualTo c key = .ok (r.map addr) ∧
      Nearest (fun v : Label E => rank (c.getKey v.elem)) (· ∈ inorder s)
        (fun v => rank (c.getKey v.elem) ≤ rank key) r := by
  have hmem : ∀ v ∈ inorder s, c.getKey v.elem ∈ S := fun v hv => hxs.mem _ (mem_map_of_mem hv)
  have hr := search_nearest (fun e => c.eq (c.getKey e) key) (fun e => c.lt (c.getKey e) key) (fun x => rank (c.getKey x))
    (rank key) True hxs.walk_right (fun v hv => by simpa using hc.eq_iff _ (hmem v hv) _ hkey) fun v hv => hc.lt_iff _ (hmem v hv) _ hkey
  exact ⟨_, hat.findNode_eq .., by simpa [le_iff_lt_or_eq] using hr⟩

include hc hxs ht hkey

lemma findFirstLessThan_spec : ∃ r, t.findFirstLessThan c key = .ok r ∧
      Nearest (fun x => rank (c.getKey x)) (· ∈ xs) (fun x => rank (c.getKey x) < rank key) r := by
  obtain ⟨a, r, hrun, helem, hr⟩ := search_spec False _ (rank key) ht (fun _ hs => (hs ▸ hxs).walk_right)
    (fun _ _ => show false = true ↔ _ by simp) (fun x hx => hc.lt_iff _ (hxs.mem x hx) _ hkey)
  exact ⟨r, by simp [findFirstLessThan, hrun, helem], by simpa using hr⟩

lemma findFirstLessThanOrEqualTo_spec : ∃ r, t.findFirstLessThanOrEqualTo c key = .ok r ∧
      Nearest (fun x => rank (c.getKey x)) (· ∈ xs) (fun x => rank (c.getKey x) ≤ rank key) r := by
  obtain ⟨s, hat, -, rfl⟩ := ht
  obtain ⟨r, hrun, hr⟩ := nodeLessThanOrEqualTo_spec hc hat hxs hkey
  exact ⟨r.map elem, by simp [findFirstLessThanOrEqualTo, hrun, elementOf_spec hat (Nearest.mem hr)], Nearest.map hr⟩

lemma findFirstGreaterThan_spec : ∃ r, t.findFirstGreaterThan c key = .ok r ∧
      Nearest (fun x => toDual (rank (c.getKey x))) (· ∈ xs) (fun x => rank key < rank (c.getKey x)) r := by
  obtain ⟨a, r, hrun, helem, hr⟩ := search_spec False (fun x => toDual (rank (c.getKey x))) (toDual (rank key)) ht
    (fun _ hs => (hs ▸ hxs).walk_left) (fun _ _ => show false = true ↔ _ by simp)
    (fun x hx => hc.gt_iff _ (hxs.mem x hx) _ hkey)
  exact ⟨r, by simp [findFirstGreaterThan, hrun, helem], by simpa using hr⟩

lemma findFirstGreaterThanOrEqualTo_spec : ∃ r, t.findFirstGreaterThanOrEqualTo c key = .ok r ∧
      Nearest (fun x => toDual (rank (c.getKey x))) (· ∈ xs) (fun x => rank key ≤ rank (c.getKey x)) r := by
  obtain ⟨a, r, hrun, helem, hr⟩ := search_spec True (fun x => toDual (rank (c.getKey x))) (toDual (rank key)) ht
    (fun _ hs => (hs ▸ hxs).walk_left) (fun x hx => by simpa using hc.eq_iff _ (hxs.mem x hx) _ hkey)
    (fun x hx => hc.gt_iff _ (hxs.mem x hx) _ hkey)
  exact ⟨r, by simp [findFirstGreaterThanOrEqualTo, hrun, helem], by simpa [le_iff_lt_or_eq, eq_comm] using hr⟩

lemma lookup_spec : ∃ r, t.lookup c key = .ok r ∧ (∀ x, r = some x ↔ x ∈ xs ∧ rank (c.getKey x) = rank key) := by
  obtain ⟨r, hrun, hr⟩ := findFirstLessThanOrEqualTo_spec hc hxs ht hkey
  refine ⟨r.filter fun e => c.eq (c.getKey e) key, by simp [lookup, hrun], fun x => ?_⟩
  rw [filter_eq_some_iff]
  constructor
  · rintro ⟨rfl, heq⟩
    exact ⟨hr.1, (hc.eq_iff _ (hxs.mem x hr.1) _ hkey).mp heq⟩
  · rintro ⟨hx, heq⟩
    refine ⟨?_, (hc.eq_iff _ (hxs.mem x hx) _ hkey).mpr heq⟩
    cases r with
    | none => exact absurd heq.le (hr x hx)
    | some y => exact congrArg some (hxs.inj hr.1 hx (le_antisymm (hr.2.1.trans_eq heq.symm) (hr.2.2 x hx heq.le)))

end Wrappers

section Ends

variable {t : AVLTree E}

/-- The loop of `findMin` and `findMax`, on a subtree sorted in the direction it goes. -/
lemma outermost_spec (c : AVLKeys E K) (rank : E → L) (inOrder : K → K → Bool) (side : Side) (fuel : ℕ) : ∀ {s : BinaryTree (Label E)} {parent : Option ℕ} {root : ℕ},
    s.height ≤ fuel → t.Linked parent s → rootAddr s = some root →
      (walk side s).Pairwise (fun v w => rank v.elem < rank w.elem) →
      (∀ v ∈ inorder s, ∀ w ∈ inorder s, rank w.elem ≤ rank v.elem →
        inOrder (c.getKey v.elem) (c.getKey w.elem) = true) →
      ∃ v ∈ inorder s, outermost c inOrder side t fuel root = .ok (some v.elem) ∧
        ∀ w ∈ inorder s, rank w.elem ≤ rank v.elem := by
  induction fuel with
  | zero =>
    intro s parent root hfuel _ hroot
    cases s with
    | nil => simp at hroot
    | node v l r => simp at hfuel
  | succ fuel ih =>
    intro s parent root hfuel hlinked hroot hsorted hinOrder
    obtain rfl | ⟨near, v, far, rfl⟩ := eq_nil_or_join side s
    · simp at hroot
    obtain ⟨hget, hnear, -⟩ := linked_join.mp hlinked
    simp only [rootAddr_join, some.injEq] at hroot
    rw [height_join] at hfuel
    rw [walk_join, pairwise_append] at hsorted
    obtain ⟨-, hsorted, hcross⟩ := hsorted
    obtain ⟨hvNear, hsortedNear⟩ := pairwise_cons.mp hsorted
    have hmem : ∀ w, w ∈ inorder (join side near v far) ↔ w ∈ inorder near ∨ w = v ∨ w ∈ inorder far := fun w =>
      mem_inorder_join
    have hself : v ∈ inorder (join side near v far) := (hmem v).mpr (.inr (.inl rfl))
    have hfarV : ∀ w ∈ inorder far, rank w.elem ≤ rank v.elem := fun w hw =>
      (hcross w (mem_walk.mpr hw) v mem_cons_self).le
    cases near with
    | nil =>
      refine ⟨v, hself, by simp [outermost, ← hroot, hget], fun w hw => ?_⟩
      rcases (hmem w).mp hw with hw | rfl | hw
      · exact absurd hw not_mem_nil
      · exact le_rfl
      · exact hfarV w hw
    | node n l r =>
      have hn : n ∈ inorder (.node n l r) := mem_append_right _ mem_cons_self
      obtain ⟨x, hx, hrun, hbest⟩ := ih (by omega) hnear rfl hsortedNear
        (fun w hw w' hw' => hinOrder w ((hmem w).mpr (.inl hw)) w' ((hmem w').mpr (.inl hw')))
      have hnv := hinOrder n ((hmem n).mpr (.inl hn)) v hself (hvNear n (mem_walk.mpr hn)).le
      refine ⟨x, (hmem x).mpr (.inl hx), ?_, fun w hw => ?_⟩
      · simp [outermost, ← hroot, hget, hnear.1, hnv, liteAssert, hrun]
      · have hvx : rank v.elem ≤ rank x.elem := (hvNear x (mem_walk.mpr hx)).le
        rcases (hmem w).mp hw with hw | rfl | hw
        · exact hbest w hw
        · exact hvx
        · exact (hfarV w hw).trans hvx

end Ends

section Extremes

variable {t : AVLTree E} {c : AVLKeys E K} {rank : K → L} {S : Set K} {xs : List E}

lemma outermost_nearest (rank : E → L) (inOrder : K → K → Bool) (side : Side) {s : BinaryTree (Label E)} (hat : t.At s [])
    (hsorted : (walk side s).Pairwise fun v w => rank v.elem < rank w.elem)
    (hinOrder : ∀ v ∈ inorder s, ∀ w ∈ inorder s, rank w.elem ≤ rank v.elem →
      inOrder (c.getKey v.elem) (c.getKey w.elem) = true) :
    ∃ r, (match t.tree with
      | none => Except.ok none
      | some root => outermost c inOrder side t (t.allocated + 1) root) = .ok r ∧
        Nearest rank (· ∈ (inorder s).map Label.elem) (fun _ => True) r := by
  have htree : t.tree = rootAddr s := hat.pathLinked
  rw [htree]
  cases s with
  | nil => exact ⟨none, rfl, fun x hx => absurd hx not_mem_nil⟩
  | node v l r =>
    have hheight := hat.height_le
    rw [length_nil] at hheight
    obtain ⟨w, hw, hrun, hbest⟩ := outermost_spec c rank inOrder side (t.allocated + 1) (by omega) hat.linked rfl hsorted
      hinOrder
    refine ⟨some w.elem, hrun, mem_map_of_mem hw, trivial, fun y hy _ => ?_⟩
    obtain ⟨v', hv', rfl⟩ := mem_map.mp hy
    exact hbest v' hv'

lemma findMin_spec (hc : c.OrderedOn rank S) (hxs : Sorted c rank S xs) (ht : t.Contains xs) :
    ∃ r, t.findMin c = .ok r ∧ Nearest (fun x => toDual (rank (c.getKey x))) (· ∈ xs) (fun _ => True) r := by
  obtain ⟨s, hat, -, rfl⟩ := ht
  exact outermost_nearest (fun x => toDual (rank (c.getKey x))) c.le .left hat hxs.walk_left fun v hv w hw =>
    (hc.le_iff _ (hxs.mem _ (mem_map_of_mem hv)) _ (hxs.mem _ (mem_map_of_mem hw))).mpr

lemma findMax_spec (hc : c.OrderedOn rank S) (hxs : Sorted c rank S xs) (ht : t.Contains xs) :
    ∃ r, t.findMax c = .ok r ∧ Nearest (fun x => rank (c.getKey x)) (· ∈ xs) (fun _ => True) r := by
  obtain ⟨s, hat, -, rfl⟩ := ht
  exact outermost_nearest (fun x => rank (c.getKey x)) c.ge .right hat hxs.walk_right fun v hv w hw =>
    (hc.ge_iff _ (hxs.mem _ (mem_map_of_mem hv)) _ (hxs.mem _ (mem_map_of_mem hw))).mpr

end Extremes

end AVLTree

end Embassies.Utils
