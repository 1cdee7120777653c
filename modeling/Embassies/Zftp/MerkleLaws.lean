import Embassies.Zftp.MerkleTree

/-! What the hash-tree functions of `ZCachedFile` do, said once for every later proof.

    `_mark_node_tentative` marks a node (`touch`) and climbs while the parent is unknown and can be
    hashed (`derive`); installing records only lets the tree grow; draining the table of parents
    validates, whatever the order, exactly the children whose pair hashes to their parent's hash. -/

namespace Embassies.Zftp

open Checked HeapTree List Function

namespace MerkleTree

variable (zhash : Bytes → Hash)
variable {t u t' : MerkleTree} {l p : ℕ} {r : ZFTPMerkleRecord} {new : Bool}

/-! ### The array -/

section Array

variable (t : MerkleTree) (l k : ℕ) (s : ValidityState) (h : Hash)

@[simp] lemma metadata_setState : (t.setState l s).metadata = t.metadata := rfl

@[simp] lemma metadata_setHash : (t.setHash l h).metadata = t.metadata := rfl

@[simp] lemma parents_setState : (t.setState l s).parents = t.parents := rfl

@[simp] lemma parents_setHash : (t.setHash l h).parents = t.parents := rfl

@[simp] lemma hash_setState : ((t.setState l s).node k).hash = (t.node k).hash := by
  simp only [setState, update_apply]; split <;> simp_all

@[simp] lemma state_setHash : ((t.setHash l h).node k).state = (t.node k).state := by
  simp only [setHash, update_apply]; split <;> simp_all

lemma state_setState : ((t.setState l s).node k).state = if k = l then s else (t.node k).state := by
  simp only [setState, update_apply]; split <;> simp_all

lemma hash_setHash : ((t.setHash l h).node k).hash = if k = l then h else (t.node k).hash := by
  simp only [setHash, update_apply]; split <;> simp_all

lemma node_setState_of_ne {k : ℕ} (hk : k ≠ l) : (t.setState l s).node k = t.node k := update_of_ne hk _ _

lemma node_setHash_of_ne {k : ℕ} (hk : k ≠ l) : (t.setHash l h).node k = t.node k := update_of_ne hk _ _

lemma treeSize_odd : t.treeSize % 2 = 1 := computeTreeSize_odd _

lemma treeSize_lt : t.treeSize < 2 ^ 17 := computeTreeSize_le (computeTreeDepth_le _)

lemma treeSize_congr {t t' : MerkleTree} (h : t'.metadata = t.metadata) : t'.treeSize = t.treeSize := by
  simp only [treeSize, treeDepth, numBlocks, h]

end Array

lemma get_of_lt (h : l < t.treeSize) : t.get l = .ok (t.node l) := if_pos h

lemma get_eq_ok {v : ValidatedMerkleRecord} : t.get l = .ok v ↔ l < t.treeSize ∧ t.node l = v := by
  unfold get; split <;> simp_all

/-- A node of the array other than the root: its family is in the array too, and the location
    arithmetic on it does not wrap. -/
structure NonRoot (t : MerkleTree) (l : ℕ) : Prop where
  ne_zero : l ≠ 0
  lt : l < t.treeSize

namespace NonRoot

variable {t : MerkleTree} {l : ℕ}

section

variable (h : t.NonRoot l)
include h

lemma congr {t' : MerkleTree} (hm : t'.metadata = t.metadata) : t'.NonRoot l :=
  ⟨h.ne_zero, (treeSize_congr hm).symm ▸ h.lt⟩

lemma small : l + 1 < 2 ^ 31 := by
  have := t.treeSize_lt; have := h.lt; omega

lemma parent_lt : parent l < t.treeSize := (HeapTree.parent_lt h.ne_zero).trans h.lt

lemma parent_small : parent l + 1 < 2 ^ 31 := by
  have := HeapTree.parent_lt h.ne_zero; have := h.small; omega

lemma sib : t.NonRoot (sib l) := ⟨sib_ne_zero h.ne_zero, sib_lt t.treeSize_odd h.lt⟩

lemma left_lt : left (parent l) < t.treeSize :=
  ((sib_pair (P := (· < t.treeSize)) h.ne_zero).mp ⟨h.lt, h.sib.lt⟩).1

lemma right_lt : right (parent l) < t.treeSize :=
  ((sib_pair (P := (· < t.treeSize)) h.ne_zero).mp ⟨h.lt, h.sib.lt⟩).2

end

end NonRoot

/-! ### Marking a node tentative -/

/-- The hash the two children of `p` give it. -/
def pairHash (t : MerkleTree) (p : ℕ) : Hash :=
  zhash ((t.node (left p)).hash.bytes ++ (t.node (right p)).hash.bytes)

/-- The tree after the part of `_mark_node_tentative` that concerns the node itself. -/
def touch (t : MerkleTree) (l : ℕ) : MerkleTree :=
  { t.setState l .tentative with
    parents := if (t.node (HeapTree.sib l)).state = .unknown then t.parents
      else t.parents.insert (parent l) }

/-- The tree after the parent's hash has been computed from the children. -/
def derive (t : MerkleTree) (p : ℕ) : MerkleTree := t.setHash p (t.pairHash zhash p)

@[simp] lemma metadata_touch (t : MerkleTree) (l : ℕ) : (t.touch l).metadata = t.metadata := rfl

@[simp] lemma hash_touch (t : MerkleTree) (l k : ℕ) :
    ((t.touch l).node k).hash = (t.node k).hash := hash_setState t l k .tentative

lemma state_touch (t : MerkleTree) (l k : ℕ) :
    ((t.touch l).node k).state = if k = l then .tentative else (t.node k).state := state_setState t l k .tentative

lemma mem_parents_touch (t : MerkleTree) (l p : ℕ) : p ∈ (t.touch l).parents ↔
    p ∈ t.parents ∨ p = parent l ∧ (t.node (HeapTree.sib l)).state ≠ .unknown := by
  simp only [touch]; split <;> simp_all [or_comm]

@[simp] lemma metadata_derive (t : MerkleTree) (p : ℕ) :
    (t.derive zhash p).metadata = t.metadata := rfl

@[simp] lemma parents_derive (t : MerkleTree) (p : ℕ) :
    (t.derive zhash p).parents = t.parents := rfl

@[simp] lemma state_derive (t : MerkleTree) (p k : ℕ) :
    ((t.derive zhash p).node k).state = (t.node k).state := state_setHash t p k _

lemma hash_derive (t : MerkleTree) (p k : ℕ) : ((t.derive zhash p).node k).hash =
    if k = p then t.pairHash zhash p else (t.node k).hash := hash_setHash t p k _

variable {zhash} {rs : List ZFTPMerkleRecord}

lemma hashChildren_left_right (h : right p < t.treeSize) :
    t.hashChildren zhash (left p) (right p) = .ok (t.pairHash zhash p) := by
  have hlt : left p < right p := by simp [left, right]
  simp only [hashChildren, if_pos hlt]
  rw [liteAssert_pos (by simp only [left]; omega), liteAssert_pos (by simp [left, right]),
    get_of_lt (hlt.trans h), get_of_lt h]
  rfl

lemma hashChildren_right_left (h : right p < t.treeSize) :
    t.hashChildren zhash (right p) (left p) = .ok (t.pairHash zhash p) := by
  rw [← hashChildren_left_right h]
  have hlt : left p < right p := by simp [left, right]
  simp only [hashChildren, if_pos hlt, if_neg hlt.not_gt]

lemma hashChildren_sib (h : t.NonRoot l) :
    t.hashChildren zhash l (HeapTree.sib l) = .ok (t.pairHash zhash (parent l)) := by
  have hr := h.right_lt
  rcases eq_left_or_right h.ne_zero with hl | hl
  · rw [hl, sib_left, parent_left]; exact hashChildren_left_right hr
  · rw [hl, sib_right, parent_right]; exact hashChildren_right_left hr

lemma trackParent_setState (h : t.NonRoot l) :
    (t.setState l .tentative).trackParentOfTentativeNodes .cached (parent l) = .ok (t.touch l) := by
  have hset : (t.setState l .tentative).NonRoot l := h.congr rfl
  simp only [trackParentOfTentativeNodes, leftChild_eq h.parent_small, rightChild_eq h.parent_small,
    get_of_lt hset.left_lt, get_of_lt hset.right_lt, ok_bind, pure_eq_ok, state_setState]
  have hne : left (parent l) ≠ right (parent l) := by simp [left, right]
  rcases eq_left_or_right h.ne_zero with hl | hl
  · rw [touch, hl, sib_left, parent_left]
    simp only [if_pos, if_neg hne.symm, reduceCtorEq, if_false]
    split <;> rfl
  · rw [touch, hl, sib_right, parent_right]
    simp only [if_pos, if_neg hne, reduceCtorEq, if_false]
    split <;> rfl

lemma markNodeTentativeFuel_succ {fuel : ℕ} (h : t.NonRoot l) (hv : (t.node l).state ≠ .validated) :
    t.markNodeTentativeFuel zhash .cached (fuel + 1) l =
      if (t.node (parent l)).state = .unknown ∧ (t.node (HeapTree.sib l)).state ≠ .unknown then
        ((t.touch l).derive zhash (parent l)).markNodeTentativeFuel zhash .cached fuel (parent l)
      else .ok (t.touch l) := by
  have hset : (t.setState l .tentative).NonRoot l := h.congr rfl
  have htouch : (t.touch l).NonRoot l := h.congr rfl
  simp only [markNodeTentativeFuel, get_of_lt h.lt, liteAssert_pos hv, ok_bind,
    if_pos (Nat.pos_of_ne_zero h.ne_zero), parentLocation_eq h.ne_zero h.small, get_of_lt hset.parent_lt,
    trackParent_setState h, siblingLocation_eq h.ne_zero h.small, get_of_lt htouch.sib.lt,
    hashChildren_sib htouch, state_setState, state_touch, if_neg (parent_ne h.ne_zero),
    if_neg (sib_ne h.ne_zero), pure_eq_ok, derive]

lemma markNodeTentativeFuel_ok {fuel : ℕ} (h : t.markNodeTentativeFuel zhash .cached fuel l = .ok t') :
    t.NonRoot l ∧ (t.node l).state ≠ .validated := by
  obtain _ | fuel := fuel
  · cases h
  rw [markNodeTentativeFuel] at h
  obtain ⟨v, hget, _, hv, h2⟩ := of_bind2 h
  obtain ⟨hlt, rfl⟩ := get_eq_ok.mp hget
  rw [liteAssert_eq_ok] at hv
  refine ⟨⟨?_, hlt⟩, hv⟩
  rintro rfl
  simp [assertRootValidated, state_setState, liteAssert] at h2

/-- INDUCTION RULE for `_mark_node_tentative`. `P t l` holds of a tree about to mark `l`, `Q` of the
    tree when the climb stops. -/
lemma markNodeTentativeFuel_rule {P : MerkleTree → ℕ → Prop} {Q : MerkleTree → Prop}
    (hstop : ∀ t l, P t l → t.NonRoot l → (t.node l).state ≠ .validated →
      ¬((t.node (parent l)).state = .unknown ∧ (t.node (HeapTree.sib l)).state ≠ .unknown) →
      Q (t.touch l))
    (hclimb : ∀ t l, P t l → t.NonRoot l → (t.node l).state ≠ .validated →
      (t.node (parent l)).state = .unknown → (t.node (HeapTree.sib l)).state ≠ .unknown →
      P ((t.touch l).derive zhash (parent l)) (parent l)) :
    ∀ (fuel : ℕ) (t t' : MerkleTree) (l : ℕ), P t l →
      t.markNodeTentativeFuel zhash .cached fuel l = .ok t' → Q t'
  | 0, _, _, _, _, h => nomatch h
  | fuel + 1, t, t', l, hP, h => by
      obtain ⟨hnr, hv⟩ := markNodeTentativeFuel_ok h
      rw [markNodeTentativeFuel_succ hnr hv] at h
      split at h
      case isTrue hc =>
        exact markNodeTentativeFuel_rule hstop hclimb fuel _ t' _ (hclimb t l hP hnr hv hc.1 hc.2) h
      case isFalse hc =>
        cases h
        exact hstop t l hP hnr hv hc

/-- PROGRESS for `_mark_node_tentative`: with the root validated the climb ends below it. -/
lemma markNodeTentativeFuel_total : ∀ (fuel : ℕ) (t : MerkleTree) (l : ℕ), t.NonRoot l →
    (t.node l).state ≠ .validated → (t.node 0).state = .validated → l + 1 < 2 ^ fuel →
    ∃ t', t.markNodeTentativeFuel zhash .cached fuel l = .ok t'
  | 0, _, l, hnr, _, _, hf => by have := hnr.ne_zero; omega
  | fuel + 1, t, l, hnr, hv, hroot, hf => by
      rw [markNodeTentativeFuel_succ hnr hv]
      split
      case isFalse => exact ⟨_, rfl⟩
      case isTrue hc =>
        have hpar0 : parent l ≠ 0 := fun h0 => by rw [h0, hroot] at hc; exact nomatch hc.1
        refine markNodeTentativeFuel_total fuel _ (parent l)
          ((⟨hpar0, hnr.parent_lt⟩ : t.NonRoot (parent l)).congr rfl) ?_ ?_ ?_
        · rw [state_derive, state_touch, if_neg (parent_ne hnr.ne_zero), hc.1]
          exact nofun
        · rw [state_derive, state_touch, if_neg hnr.ne_zero.symm, hroot]
        · have := hnr.ne_zero
          rw [pow_succ] at hf
          simp only [parent]
          omega

/-! ### Installing records -/

/-- What installing Merkle records does to a tree: nodes that were known stay as they are, and the
    others at most become tentative. -/
structure Grows (t t' : MerkleTree) : Prop where
  metadata : t'.metadata = t.metadata
  keeps : ∀ k, (t.node k).state ≠ .unknown → t'.node k = t.node k
  grows : ∀ k, (t.node k).state = .unknown →
    (t'.node k).state = .unknown ∨ (t'.node k).state = .tentative

namespace Grows

variable {t u v : MerkleTree} {k : ℕ}

lemma refl (t : MerkleTree) : t.Grows t := ⟨rfl, fun _ _ => rfl, fun _ h => .inl h⟩

section

variable (h : t.Grows u)
include h

lemma trans (h' : u.Grows v) : t.Grows v where
  metadata := h'.metadata.trans h.metadata
  keeps k hk := by
    have hu := h.keeps k hk
    rw [h'.keeps k (by rwa [hu]), hu]
  grows k hk := by
    rcases h.grows k hk with hu | hu
    · exact h'.grows k hu
    · refine .inr ?_
      rw [h'.keeps k (by rw [hu]; exact nofun), hu]

lemma state_iff (k : ℕ) {s : ValidityState} (hs : s ≠ .unknown) (hs' : s ≠ .tentative)
    : (u.node k).state = s ↔ (t.node k).state = s := by
  by_cases hk : (t.node k).state = .unknown
  · rcases h.grows k hk with hu | hu <;> simp [hk, hu, hs.symm, hs'.symm]
  · rw [h.keeps k hk]

lemma validated (k : ℕ) : (u.node k).state = .validated ↔ (t.node k).state = .validated :=
  h.state_iff k nofun nofun

lemma setHash (hk : (u.node k).state = .unknown) (x : Hash) :
    t.Grows (u.setHash k x) where
  metadata := h.metadata
  keeps j hj := by
    have hu := h.keeps j hj
    rw [node_setHash_of_ne, hu]
    rintro rfl
    exact hj (by rw [← hu, hk])
  grows j hj := by rw [state_setHash]; exact h.grows j hj

lemma touch (hk : (u.node k).state = .unknown) : t.Grows (u.touch k) where
  metadata := h.metadata
  keeps j hj := by
    have hu := h.keeps j hj
    rw [MerkleTree.touch, node_setState_of_ne, hu]
    rintro rfl
    exact hj (by rw [← hu, hk])
  grows j hj := by
    rw [state_touch]; split
    · exact .inr rfl
    · exact h.grows j hj

end

end Grows

lemma state_touch_parent (hnr : NonRoot t k) (h : (u.node (parent k)).state = .unknown) :
    ((u.touch k).node (parent k)).state = .unknown := by
  rwa [state_touch, if_neg (parent_ne hnr.ne_zero)]

lemma markNodeTentative_grows (h : t.Grows u) (hl : (u.node l).state = .unknown)
    (hm : u.markNodeTentative zhash .cached l = .ok t') : t.Grows t' := by
  refine markNodeTentativeFuel_rule (P := fun u k => t.Grows u ∧ (u.node k).state = .unknown) ?_ ?_ 33 u t' l ⟨h, hl⟩ hm
  · rintro u k ⟨hg, hk⟩ - - -
    exact hg.touch hk
  · rintro u k ⟨hg, hk⟩ hnr - hpar -
    have hpar' := state_touch_parent hnr hpar
    exact ⟨(hg.touch hk).setHash hpar' _, by rwa [state_derive]⟩

lemma installMerkleRecord_cases (h : t.installMerkleRecord zhash r = .ok (t', new)) : r.treeLocation < t.treeSize ∧
    (((t.node r.treeLocation).state = .validated ∧ (t.node r.treeLocation).hash = r.hash ∧ t' = t ∧ new = false) ∨
      ((t.node r.treeLocation).state = .tentative ∧ t' = t ∧ new = false) ∨
      ((t.node r.treeLocation).state = .unknown ∧ new = true ∧
        (t.setHash r.treeLocation r.hash).markNodeTentative zhash .cached r.treeLocation = .ok t')) := by
  obtain ⟨v, hget, h⟩ := of_bind h
  obtain ⟨hlt, rfl⟩ := get_eq_ok.mp hget
  refine ⟨hlt, ?_⟩
  cases hs : (t.node r.treeLocation).state <;> simp only [hs] at h
  case validated =>
    obtain ⟨_, heq, h⟩ := of_bind h
    rw [liteAssert_eq_ok] at heq
    cases h
    exact .inl ⟨rfl, heq, rfl, rfl⟩
  case tentative =>
    cases h
    exact .inr (.inl ⟨rfl, rfl, rfl⟩)
  case unknown =>
    obtain ⟨u, hu, h⟩ := of_bind h
    cases h
    exact .inr (.inr ⟨rfl, rfl, hu⟩)
  case margin => cases h

lemma installMerkleRecord_grows (h : t.installMerkleRecord zhash r = .ok (t', new)) : t.Grows t' := by
  obtain ⟨-, ⟨-, -, rfl, -⟩ | ⟨-, rfl, -⟩ | ⟨hs, -, hm⟩⟩ := installMerkleRecord_cases h
  · exact .refl _
  · exact .refl _
  · exact markNodeTentative_grows ((Grows.refl t).setHash hs _) (by rwa [state_setHash]) hm

/-- RULE for `install_merkle_records`: what every record of the list preserves, the list does. -/
lemma installMerkleRecords_rule {I : MerkleTree → Prop} {C : ZFTPMerkleRecord → Prop}
    (hstep : ∀ t r t' new, I t → C r → t.installMerkleRecord zhash r = .ok (t', new) → I t') :
    ∀ (rs : List ZFTPMerkleRecord) (t t' : MerkleTree) (new : Bool), I t → (∀ r ∈ rs, C r) →
      t.installMerkleRecords zhash rs = .ok (t', new) → I t'
  | [], t, t', new, hI, _, h => by
      cases h
      exact hI
  | r :: rs, t, t', new, hI, hC, h => by
      obtain ⟨⟨u, n1⟩, hu, ⟨v, n2⟩, hv, h⟩ := of_bind2 h
      cases h
      exact installMerkleRecords_rule hstep rs u _ n2
        (hstep t r u n1 hI (hC r mem_cons_self) hu)
        (fun r' hr' => hC r' (mem_cons_of_mem _ hr')) hv

lemma installMerkleRecords_grows (h : t.installMerkleRecords zhash rs = .ok (t', new)) :
    t.Grows t' :=
  installMerkleRecords_rule (I := t.Grows) (C := fun _ => True)
    (fun _ _ _ _ hI _ hu => hI.trans (installMerkleRecord_grows hu)) rs t t' new (.refl t)
    (fun _ _ => trivial) h

/-! ### Draining the table -/

/-- Both children of `p` are in the array and known. -/
structure Tracked (t : MerkleTree) (p : ℕ) : Prop where
  lt : right p < t.treeSize
  left : (t.node (left p)).state ≠ .unknown
  right : (t.node (right p)).state ≠ .unknown

/-- `u` is `t` with those pairs of children under `ps` validated that hash to their parent's hash. -/
structure Drained (zhash : Bytes → Hash) (t : MerkleTree) (ps : List ℕ) (u : MerkleTree) : Prop where
  metadata : u.metadata = t.metadata
  parents : u.parents = t.parents
  hash : ∀ k, (u.node k).hash = (t.node k).hash
  state : ∀ k, (u.node k).state =
    if k ≠ 0 ∧ parent k ∈ ps ∧ (t.node (parent k)).hash = t.pairHash zhash (parent k) then .validated
    else (t.node k).state

lemma markHashValidated_eq (h : l < t.treeSize) : t.markHashValidated l = .ok (t.setState l .validated) := by
  have hlevel : (treeUnindex l).1 ≤ (t.setState l .validated).treeDepth := treeUnindex_le (h.trans t.treeSize_lt) h
  rw [markHashValidated, liteAssert_pos hlevel, ok_bind, pure_eq_ok]

lemma validateChildren_eq (h : t.Tracked p) : t.validateChildren zhash p = if (t.node p).hash = t.pairHash zhash p then
        .ok ((t.setState (left p) .validated).setState (right p) .validated, .newData) else .ok (t, .fail) := by
  have hlt : left p < right p := by simp [left, right]
  have hr := h.lt
  have hsmall : right p < 2 ^ 17 := hr.trans t.treeSize_lt
  have hp : p + 1 < 2 ^ 31 := by simp only [right] at hsmall; omega
  have hright : u32 (left p + 1) = right p := u32_of_lt (by simp only [left, right] at *; omega)
  have hr' : right p < (t.setState (left p) .validated).treeSize := by
    rwa [treeSize_congr (metadata_setState t _ _)]
  simp only [validateChildren, leftChild_eq hp, hright, liteAssert_pos hr, liteAssert_pos h.left,
    liteAssert_pos h.right, hashChildren_left_right hr, markHashValidated_eq (hlt.trans hr),
    markHashValidated_eq hr', ok_bind, pure_eq_ok]

lemma validateChildren_drained (zhash : Bytes → Hash) (h : t.Tracked p) :
    ∃ u ir, t.validateChildren zhash p = .ok (u, ir) ∧ Drained zhash t [p] u := by
  have hmem : ∀ k, (k ≠ 0 ∧ parent k ∈ [p]) ↔ (k = left p ∨ k = right p) := fun k => by
    constructor
    · rintro ⟨h0, hk⟩
      obtain rfl := mem_singleton.mp hk
      exact eq_left_or_right h0
    · rintro (rfl | rfl) <;> simp [left_ne_zero, right_ne_zero]
  rw [validateChildren_eq h]
  split
  case isTrue heq =>
    refine ⟨_, _, rfl, rfl, rfl, fun k => by simp, fun k => ?_⟩
    simp only [state_setState, ← and_assoc, hmem]
    by_cases hr : k = right p
    · simp [hr, heq]
    · by_cases hl : k = left p <;> simp [hr, hl, heq]
  case isFalse hne =>
    refine ⟨_, _, rfl, rfl, rfl, fun _ => rfl, fun k => (if_neg ?_).symm⟩
    rintro ⟨-, hk, heq⟩
    obtain rfl := mem_singleton.mp hk
    exact hne heq

namespace Drained

variable {t u v : MerkleTree} {ps qs : List ℕ}

section

variable (h : Drained zhash t ps u)
include h

lemma known {k : ℕ} (hk : (t.node k).state ≠ .unknown) : (u.node k).state ≠ .unknown := by
  rw [h.state]; split
  · exact nofun
  · exact hk

lemma tracked {p : ℕ} (hp : t.Tracked p) : u.Tracked p :=
  ⟨(treeSize_congr h.metadata).symm ▸ hp.lt, h.known hp.left, h.known hp.right⟩

lemma pairHash (p : ℕ) : u.pairHash zhash p = t.pairHash zhash p := by
  simp only [MerkleTree.pairHash, h.hash]

lemma append (h' : Drained zhash u qs v) :
    Drained zhash t (ps ++ qs) v where
  metadata := h'.metadata.trans h.metadata
  parents := h'.parents.trans h.parents
  hash k := (h'.hash k).trans (h.hash k)
  state k := by
    rw [h'.state, h.state, h.hash, h.pairHash]
    simp only [mem_append]
    by_cases h1 : k ≠ 0 ∧ parent k ∈ qs ∧ (t.node (parent k)).hash = t.pairHash zhash (parent k)
    · rw [if_pos h1, if_pos ⟨h1.1, .inr h1.2.1, h1.2.2⟩]
    · rw [if_neg h1]
      refine if_congr ?_ rfl rfl
      constructor
      · rintro ⟨h0, hm, heq⟩; exact ⟨h0, .inl hm, heq⟩
      · rintro ⟨h0, hm | hm, heq⟩
        · exact ⟨h0, hm, heq⟩
        · exact absurd ⟨h0, hm, heq⟩ h1

end

end Drained

lemma validateEach_spec : ∀ (ps : List ℕ) (t : MerkleTree) (r : InstallResult),
    (∀ p ∈ ps, t.Tracked p) →
    ∃ u r', t.validateEach zhash r ps = .ok (u, r') ∧ Drained zhash t ps u ∧ (ps = [] → r' = r)
  | [], t, r, _ => ⟨t, r, rfl, ⟨rfl, rfl, fun _ => rfl, fun k => by simp⟩, fun _ => rfl⟩
  | p :: ps, t, r, h => by
      obtain ⟨u, ir, hu, hd⟩ := validateChildren_drained zhash (h p mem_cons_self)
      obtain ⟨v, r', hv, hd', -⟩ := validateEach_spec ps u (if ir = .fail then .fail else .newData)
        (fun q hq => hd.tracked (h q (mem_cons_of_mem _ hq)))
      exact ⟨v, r', by simp only [validateEach, hu, ok_bind, hv], hd.append hd', nofun⟩

/-! ### Well-formed trees -/

/-- What holds of every client tree: its root is validated, and the table holds only parents whose
    two children are known. -/
structure WellFormed (t : MerkleTree) : Prop where
  root : (t.node 0).state = .validated
  tracked : ∀ p ∈ t.parents, t.Tracked p

lemma Tracked.of_known (h : t.Tracked p) (hm : u.metadata = t.metadata)
    (hk : ∀ k, (t.node k).state ≠ .unknown → (u.node k).state ≠ .unknown) : u.Tracked p :=
  ⟨(treeSize_congr hm).symm ▸ h.lt, hk _ h.left, hk _ h.right⟩

section

variable (h : t.WellFormed)
include h

lemma WellFormed.touch (hl : t.NonRoot l) : (t.touch l).WellFormed where
  root := by rw [state_touch, if_neg hl.ne_zero.symm, h.root]
  tracked p hp := by
    have hknown : ∀ k, (t.node k).state ≠ .unknown → ((t.touch l).node k).state ≠ .unknown := by
      intro k hk
      rw [state_touch]; split
      · exact nofun
      · exact hk
    rcases (mem_parents_touch t l p).mp hp with hp | ⟨rfl, hsib⟩
    · exact (h.tracked p hp).of_known rfl hknown
    · have hpair := (sib_pair (P := fun k => ((t.touch l).node k).state ≠ .unknown) hl.ne_zero).mp
        ⟨by rw [state_touch, if_pos rfl]; exact nofun, hknown _ hsib⟩
      exact ⟨(hl.congr (metadata_touch t l)).right_lt, hpair.1, hpair.2⟩

lemma WellFormed.setHash (l : ℕ) (x : Hash) : (t.setHash l x).WellFormed where
  root := by rw [state_setHash, h.root]
  tracked p hp := (h.tracked p hp).of_known rfl (fun k hk => by rwa [state_setHash])

lemma markNodeTentative_wellFormed (hm : t.markNodeTentative zhash .cached l = .ok t') :
    t'.WellFormed :=
  markNodeTentativeFuel_rule (P := fun u _ => u.WellFormed) (fun _ _ hu hnr _ _ => hu.touch hnr)
    (fun _ _ hu hnr _ _ _ => (hu.touch hnr).setHash _ _) 33 t t' l h hm

lemma installMerkleRecord_wellFormed (hr : t.installMerkleRecord zhash r = .ok (t', new)) :
    t'.WellFormed := by
  obtain ⟨-, ⟨-, -, rfl, -⟩ | ⟨-, rfl, -⟩ | ⟨-, -, hm⟩⟩ := installMerkleRecord_cases hr
  · exact h
  · exact h
  · exact markNodeTentative_wellFormed (h.setHash _ _) hm

lemma installMerkleRecords_wellFormed (hr : t.installMerkleRecords zhash rs = .ok (t', new))
    : t'.WellFormed :=
  installMerkleRecords_rule (I := WellFormed) (C := fun _ => True)
    (fun _ _ _ _ hI _ hu => installMerkleRecord_wellFormed hI hu) rs t t' new h
    (fun _ _ => trivial) hr

end

lemma installMerkleRecords_not_new : ∀ {rs : List ZFTPMerkleRecord} {t t' : MerkleTree},
    t.installMerkleRecords zhash rs = .ok (t', false) → t' = t
  | [], t, t', h => by cases h; rfl
  | r :: rs, t, t', h => by
      obtain ⟨⟨u, n1⟩, hu, ⟨v, n2⟩, hv, h⟩ := of_bind2 h
      obtain ⟨rfl, hnew⟩ := Prod.mk.inj (Except.ok.inj h)
      obtain ⟨rfl, rfl⟩ := Bool.or_eq_false_iff.mp hnew
      obtain ⟨-, ⟨-, -, rfl, -⟩ | ⟨-, rfl, -⟩ | ⟨-, hnew, -⟩⟩ := installMerkleRecord_cases hu
      · exact installMerkleRecords_not_new hv
      · exact installMerkleRecords_not_new hv
      · cases hnew

lemma WellFormed.drained {ps : List ℕ} (h : t.WellFormed) (hd : Drained zhash t ps u) : u.WellFormed where
  root := by rw [hd.state, if_neg (by simp), h.root]
  tracked p hp := hd.tracked (h.tracked p (hd.parents ▸ hp))

lemma validateTentativeHashes_spec (zhash : Bytes → Hash) (h : t.WellFormed) :
    ∃ u r, t.validateTentativeHashes zhash = .ok (u, r) ∧
      Drained zhash { t with parents := [] } t.parents u ∧ (t.parents = [] → r = .noEffect) :=
  validateEach_spec t.parents { t with parents := [] } .noEffect
    (fun p hp => (h.tracked p hp).of_known rfl (fun _ hk => hk))

lemma WellFormed.validated {v : InstallResult} (h : t.WellFormed)
    (hrec : t.installMerkleRecords zhash rs = .ok (t', new))
    (hval : t'.validateTentativeHashes zhash = .ok (u, v)) : t'.WellFormed ∧ u.metadata = t.metadata ∧
      u.WellFormed ∧ u.parents = [] ∧ Drained zhash { t' with parents := [] } t'.parents u := by
  have hwf := installMerkleRecords_wellFormed h hrec
  obtain ⟨u', r', hval', hd, -⟩ := validateTentativeHashes_spec zhash hwf
  cases hval.symm.trans hval'
  have hwf0 : ({ t' with parents := [] } : MerkleTree).WellFormed := ⟨hwf.root, nofun⟩
  exact ⟨hwf, hd.metadata.trans (installMerkleRecords_grows hrec).metadata, hwf0.drained hd, hd.parents, hd⟩

end MerkleTree

end Embassies.Zftp
