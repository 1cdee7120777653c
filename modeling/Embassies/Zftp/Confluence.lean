import Embassies.Zftp.Authenticity

/-! Confluence of reply installation for an honest origin.

    Whatever the order, the repetition and the batching of an honest origin's records, a node is known
    exactly when it can be derived from the records delivered (`HeapTree.Known`), and a node other than
    the root is validated exactly when it and its sibling are known. That closure does not ask for a
    validated parent: a pair whose parent was derived from it is validated while the parent is not. -/

namespace Embassies.Zftp

open Checked HeapTree List MerkleTree

variable {zhash : Bytes → Hash} {f : RefFile} {records : List ZFTPMerkleRecord}

/-! ### The closure, step by step -/

namespace MerkleTree

variable {D : ℕ → Prop} {t : MerkleTree} {l : ℕ} {hole : ℕ → Prop} {t' u : MerkleTree}

/-- A client tree that agrees with the file `f`. The nodes in `hole` are about to be marked: nothing is
    asked of their hashes, nor that they are known when their children are. -/
structure Agrees (zhash : Bytes → Hash) (f : RefFile) (hole : ℕ → Prop) (t : MerkleTree) : Prop where
  margin : ∀ l, (t.node l).state ≠ .margin
  known : ∀ l, (t.node l).state ≠ .unknown → f.Present l ∧ (t.node l).hash = f.hashAt zhash l
  unknown : ∀ l, ¬hole l → (t.node l).state = .unknown → (t.node l).hash = Hash.zero
  closed : ∀ p, ¬hole p → (t.node (left p)).state ≠ .unknown → (t.node (right p)).state ≠ .unknown →
    (t.node p).state ≠ .unknown
  pair : ∀ l, l ≠ 0 → (t.node l).state ≠ .unknown → (t.node (sib l)).state ≠ .unknown →
    (t.node l).state = .validated ∨ parent l ∈ t.parents
  validated : ∀ l, (t.node l).state = .validated → l = 0 ∨ (t.node (sib l)).state ≠ .unknown

lemma Agrees.mono {hole' : ℕ → Prop} (h : t.Agrees zhash f hole) (hsub : ∀ l, hole l → hole' l) :
    t.Agrees zhash f hole' where
  margin := h.margin
  known := h.known
  unknown l hl := h.unknown l (fun hh => hl (hsub l hh))
  closed p hp := h.closed p (fun hh => hp (hsub p hh))
  pair := h.pair
  validated := h.validated

lemma Agrees.pairHash (h : t.Agrees zhash f hole) {p : ℕ} (hl : (t.node (left p)).state ≠ .unknown)
    (hr : (t.node (right p)).state ≠ .unknown) : f.Present p ∧ t.pairHash zhash p = f.hashAt zhash p := by
  obtain ⟨hpres, hleft⟩ := h.known _ hl
  obtain ⟨-, hright⟩ := h.known _ hr
  have hin : f.Inner p := by simpa using hpres.resolve_left (left_ne_zero p)
  exact ⟨hin.present, by rw [MerkleTree.pairHash, hleft, hright, RefFile.hashAt_inner hin]⟩

lemma Agrees.setHash (h : t.Agrees zhash f (· = l)) (hl : (t.node l).state = .unknown) (x : Hash) :
    (t.setHash l x).Agrees zhash f (· = l) where
  margin k := by rw [state_setHash]; exact h.margin k
  known k hk := by
    rw [state_setHash] at hk
    rw [node_setHash_of_ne t l x (by rintro rfl; exact hk hl)]
    exact h.known k hk
  unknown k hk hs := by
    rw [state_setHash] at hs
    rw [node_setHash_of_ne t l x hk]
    exact h.unknown k hk hs
  closed p hp := by simp only [state_setHash]; exact h.closed p hp
  pair k := by simp only [state_setHash]; exact h.pair k
  validated k := by simp only [state_setHash]; exact h.validated k

/-- TOUCH: the node marked becomes known. The hole moves to its parent, if that has to be derived. -/
lemma Agrees.touch (h : t.Agrees zhash f (· = l)) (hnr : t.NonRoot l) (hl : (t.node l).state = .unknown)
    (hhash : f.Present l ∧ (t.node l).hash = f.hashAt zhash l)
    (hhole : ¬hole (parent l) → (t.node (sib l)).state ≠ .unknown →
      (t.node (parent l)).state ≠ .unknown) : (t.touch l).Agrees zhash f hole := by
  have hstate : ∀ k, ((t.touch l).node k).state ≠ .unknown ↔ k = l ∨ (t.node k).state ≠ .unknown := by
    intro k
    rw [state_touch]
    by_cases hk : k = l <;> simp [hk]
  have hval : ∀ k, ((t.touch l).node k).state = .validated ↔ (t.node k).state = .validated := by
    intro k
    rw [state_touch]
    by_cases hk : k = l <;> simp [hk, hl]
  refine ⟨fun k => ?_, fun k hk => ?_, fun k _ hs => ?_, fun p hp hpl hpr => ?_, fun k h0 hk hsib => ?_, fun k hk => ?_⟩
  · rw [state_touch]; split
    · exact nofun
    · exact h.margin k
  · rw [hash_touch]
    rcases (hstate k).mp hk with rfl | hk
    · exact hhash
    · exact h.known k hk
  · have hk : ¬(k = l ∨ (t.node k).state ≠ .unknown) := fun hk => (hstate k).mpr hk hs
    obtain ⟨hne, hunk⟩ := not_or.mp hk
    rw [hash_touch]
    exact h.unknown k hne (not_not.mp hunk)
  · -- closure can only break at the parent of the node marked
    rw [hstate] at hpl hpr ⊢
    by_cases hpk : p = l
    · exact .inl hpk
    by_cases hpar : p = parent l
    · subst hpar
      rcases eq_left_or_right hnr.ne_zero with hll | hlr
      · have hsib : sib l = right (parent l) := by rw [hll, sib_left, parent_left]
        refine .inr (hhole hp ?_)
        rw [hsib]
        exact hpr.resolve_left (by rw [← hsib]; exact sib_ne hnr.ne_zero)
      · have hsib : sib l = left (parent l) := by rw [hlr, sib_right, parent_right]
        refine .inr (hhole hp ?_)
        rw [hsib]
        exact hpl.resolve_left (by rw [← hsib]; exact sib_ne hnr.ne_zero)
    · refine .inr (h.closed p hpk (hpl.resolve_left ?_) (hpr.resolve_left ?_))
      · rintro rfl; exact hpar (parent_left p).symm
      · rintro rfl; exact hpar (parent_right p).symm
  · rw [hstate] at hk hsib
    rw [hval, mem_parents_touch]
    by_cases hkl : k = l
    · subst hkl
      exact .inr (.inr ⟨rfl, hsib.resolve_left (sib_ne h0)⟩)
    by_cases hsl : sib k = l
    · have hks : sib l = k := by rw [← hsl, sib_sib h0]
      refine .inr (.inr ⟨by rw [← hsl, parent_sib h0], ?_⟩)
      rw [hks]
      exact hk.resolve_left hkl
    · exact (h.pair k h0 (hk.resolve_left hkl) (hsib.resolve_left hsl)).imp_right .inl
  · rw [hval] at hk
    exact (h.validated k hk).imp_right (fun hs => (hstate _).mpr (.inr hs))

/-- Between two records: the tree agrees with the file and its known nodes are those derivable from `D`. -/
structure Closure (zhash : Bytes → Hash) (f : RefFile) (D : ℕ → Prop) (t : MerkleTree) : Prop where
  agrees : t.Agrees zhash f (fun _ => False)
  known : ∀ l, (t.node l).state ≠ .unknown ↔ Known D l

lemma Closure.congr {E : ℕ → Prop} (h : t.Closure zhash f D) (hDE : ∀ l, D l ↔ E l) : t.Closure zhash f E where
  agrees := h.agrees
  known l := (h.known l).trans
    ⟨Known.mono (fun k => (hDE k).mp), Known.mono (fun k => (hDE k).mpr)⟩

lemma Agrees.closure (h : t.Agrees zhash f (fun _ => False)) (hD : ∀ l, D l → (t.node l).state ≠ .unknown)
    (hsub : ∀ l, (t.node l).state ≠ .unknown → Known D l) : t.Closure zhash f D where
  agrees := h
  known l := ⟨hsub l, Known.subset hD (fun p => h.closed p id)⟩

/-- MARK: marking an unknown node that has the file's hash adds it to the delivered set; the climb
    derives exactly what can now be derived. -/
lemma Closure.mark {x : Hash} (h : t.Closure zhash f D) (hl : (t.node l).state = .unknown)
    (hx : f.Present l ∧ x = f.hashAt zhash l) (hm : (t.setHash l x).markNodeTentative zhash .cached l = .ok t') :
    t'.Closure zhash f (fun k => D k ∨ k = l) := by
  -- the node about to be marked is the only hole, and everything delivered is known but for it
  refine markNodeTentativeFuel_rule (P := fun u k => u.Agrees zhash f (· = k) ∧ (u.node k).state = .unknown ∧
      (f.Present k ∧ (u.node k).hash = f.hashAt zhash k) ∧ Known (fun j => D j ∨ j = l) k ∧
      (∀ j, (u.node j).state ≠ .unknown → Known (fun j => D j ∨ j = l) j) ∧
      ∀ j, D j ∨ j = l → (u.node j).state ≠ .unknown ∨ j = k)
    ?_ ?_ 33 (t.setHash l x) t' l ⟨?_, ?_, ?_, .given (.inr rfl), ?_, ?_⟩ hm
  · rintro u k ⟨hu, hk, hhash, hknown, hsub, hD⟩ hnr - hstop
    refine (hu.touch hnr hk hhash ?_).closure ?_ ?_
    · exact fun _ hsib hpar => hstop ⟨hpar, hsib⟩
    · intro j hj
      rw [state_touch]; split
      · exact nofun
      · exact (hD j hj).resolve_right ‹_›
    · intro j hj
      rw [state_touch] at hj
      split at hj
      case isTrue hjk => exact hjk ▸ hknown
      case isFalse => exact hsub j hj
  · rintro u k ⟨hu, hk, hhash, hknown, hsub, hD⟩ hnr - hpar hsib
    have htouch : (u.touch k).Agrees zhash f (· = parent k) := hu.touch hnr hk hhash (fun hne => absurd rfl hne)
    have hparu := state_touch_parent hnr hpar
    have hchildren : ((u.touch k).node (left (parent k))).state ≠ .unknown ∧
        ((u.touch k).node (right (parent k))).state ≠ .unknown := by
      refine (sib_pair (P := fun j => ((u.touch k).node j).state ≠ .unknown) hnr.ne_zero).mp ⟨?_, ?_⟩
      · rw [state_touch, if_pos rfl]; exact nofun
      · rwa [state_touch, if_neg (sib_ne hnr.ne_zero)]
    obtain ⟨hkl, hkr⟩ := (sib_pair (P := Known (fun j => D j ∨ j = l)) hnr.ne_zero).mp ⟨hknown, hsub _ hsib⟩
    refine ⟨htouch.setHash hparu _, by rwa [state_derive], ?_, .derived hkl hkr, ?_, ?_⟩
    · rw [hash_derive, if_pos rfl]
      exact htouch.pairHash hchildren.1 hchildren.2
    · intro j hj
      rw [state_derive, state_touch] at hj
      split at hj
      case isTrue hjk => exact hjk ▸ hknown
      case isFalse => exact hsub j hj
    · intro j hj
      rw [state_derive, state_touch]
      split
      · exact .inl nofun
      · exact .inl ((hD j hj).resolve_right ‹_›)
  · exact (h.agrees.mono (fun _ => False.elim)).setHash hl x
  · rwa [state_setHash]
  · rwa [hash_setHash, if_pos rfl]
  · intro j hj
    rw [state_setHash] at hj
    exact Known.mono (fun _ => .inl) ((h.known j).mp hj)
  · rintro j (hj | hj)
    · rw [state_setHash]
      exact .inl ((h.known j).mpr (.given hj))
    · exact .inr hj

lemma Closure.installMerkleRecord {r : ZFTPMerkleRecord} {new : Bool} (h : t.Closure zhash f D)
    (hr : f.Present r.treeLocation ∧ r.hash = f.hashAt zhash r.treeLocation)
    (hi : t.installMerkleRecord zhash r = .ok (t', new)) : t'.Closure zhash f (fun k => D k ∨ k = r.treeLocation) := by
  have hsame : (t.node r.treeLocation).state ≠ .unknown →
      t.Closure zhash f (fun k => D k ∨ k = r.treeLocation) := fun hk => by
    have hloc := (h.known _).mp hk
    refine h.agrees.closure ?_ (fun l hl => Known.mono (fun _ => .inl) ((h.known l).mp hl))
    rintro l (hl | rfl)
    · exact (h.known l).mpr (.given hl)
    · exact hk
  obtain ⟨-, ⟨hs, -, rfl, -⟩ | ⟨hs, rfl, -⟩ | ⟨hs, -, hm⟩⟩ := installMerkleRecord_cases hi
  · exact hsame (by rw [hs]; exact nofun)
  · exact hsame (by rw [hs]; exact nofun)
  · exact h.mark hs hr hm

lemma Closure.installMerkleRecords :
    ∀ {rs : List ZFTPMerkleRecord} {D : ℕ → Prop} {t t' : MerkleTree} {new : Bool},
      t.Closure zhash f D →
      (∀ r ∈ rs, f.Present r.treeLocation ∧ r.hash = f.hashAt zhash r.treeLocation) →
      t.installMerkleRecords zhash rs = .ok (t', new) →
      t'.Closure zhash f (fun k => D k ∨ k ∈ rs.map (·.treeLocation))
  | [], D, t, t', new, h, _, hi => by
      cases hi
      exact h.congr (fun l => by simp)
  | r :: rs, D, t, t', new, h, hrs, hi => by
      obtain ⟨⟨u, n1⟩, hu, ⟨v, n2⟩, hv, hi⟩ := of_bind2 hi
      cases hi
      have hrest := (h.installMerkleRecord (hrs r mem_cons_self) hu).installMerkleRecords
        (fun r' hr' => hrs r' (mem_cons_of_mem _ hr')) hv
      exact hrest.congr (fun l => by simp [or_assoc])

/-- DRAIN: validating the tracked parents validates every known pair and changes nothing else. -/
lemma Closure.drained (h : t.Closure zhash f D) (hwf : t.WellFormed)
    (hd : Drained zhash { t with parents := [] } t.parents u) : u.Closure zhash f D := by
  -- a tracked pair is known, so its parent is, with the hash the pair gives
  have hmatch : ∀ l, l ≠ 0 → parent l ∈ t.parents →
      (t.node (parent l)).hash = t.pairHash zhash (parent l) := fun l h0 hmem => by
    have htr := hwf.tracked _ hmem
    have hpar := h.agrees.closed _ id htr.left htr.right
    rw [(h.agrees.known _ hpar).2, (h.agrees.pairHash htr.left htr.right).2]
  have hpair : ∀ l, l ≠ 0 → parent l ∈ t.parents →
      (t.node l).state ≠ .unknown ∧ (t.node (sib l)).state ≠ .unknown := fun l h0 hmem =>
    (sib_pair (P := fun j => (t.node j).state ≠ .unknown) h0).mpr
      ⟨(hwf.tracked _ hmem).left, (hwf.tracked _ hmem).right⟩
  have hknown : ∀ l, (u.node l).state ≠ .unknown ↔ (t.node l).state ≠ .unknown := fun l => by
    rw [hd.state]; split
    case isTrue hc => exact iff_of_true nofun (hpair l hc.1 hc.2.1).1
    case isFalse => exact Iff.rfl
  have hagrees : u.Agrees zhash f (fun _ => False) := by
    refine ⟨fun l => ?_, fun l hl => ?_, fun l hh hl => ?_, fun p hp => ?_, fun l h0 hl hs => ?_, fun l hl => ?_⟩
    · rw [hd.state]; split
      · exact nofun
      · exact h.agrees.margin l
    · rw [hd.hash]
      exact h.agrees.known l ((hknown l).mp hl)
    · rw [hd.hash]
      exact h.agrees.unknown l hh (not_not.mp fun hne => (hknown l).mpr hne hl)
    · simp only [hknown]
      exact h.agrees.closed p hp
    · rw [hknown] at hl hs
      rw [hd.state]
      rcases h.agrees.pair l h0 hl hs with hv | hmem
      · exact .inl (by split <;> [rfl; exact hv])
      · exact .inl (if_pos ⟨h0, hmem, hmatch l h0 hmem⟩)
    · rw [hknown]
      rw [hd.state] at hl
      split at hl
      case isTrue hc => exact .inr (hpair l hc.1 hc.2.1).2
      case isFalse => exact h.agrees.validated l hl
  exact ⟨hagrees, fun l => (hknown l).trans (h.known l)⟩

lemma Closure.validated_iff (h : t.Closure zhash f D) (hp : t.parents = []) (h0 : l ≠ 0) :
    (t.node l).state = .validated ↔ Known D l ∧ Known D (sib l) := by
  constructor
  · intro hv
    have hs := (h.agrees.validated l hv).resolve_left h0
    exact ⟨(h.known l).mp (by rw [hv]; exact nofun), (h.known _).mp hs⟩
  · rintro ⟨hl, hs⟩
    refine (h.agrees.pair l h0 ((h.known l).mpr hl) ((h.known _).mpr hs)).resolve_right ?_
    rw [hp]
    exact not_mem_nil

lemma Closure.unique (ht : t.Closure zhash f D) (hu : u.Closure zhash f D) (htw : t.WellFormed) (huw : u.WellFormed)
    (htp : t.parents = []) (hup : u.parents = []) (hm : t.metadata = u.metadata) : t = u := by
  have hstate : ∀ l, (t.node l).state = (u.node l).state := fun l => by
    by_cases h0 : l = 0
    · rw [h0, htw.root, huw.root]
    have hk := (ht.known l).trans (hu.known l).symm
    have hv := (ht.validated_iff htp h0).trans (hu.validated_iff hup h0).symm
    have hmt := ht.agrees.margin l
    have hmu := hu.agrees.margin l
    cases hst : (t.node l).state <;> cases hsu : (u.node l).state <;> simp_all
  have hnode : t.node = u.node := funext fun l => by
    refine ValidatedMerkleRecord.ext ?_ (hstate l)
    by_cases hs : (t.node l).state = .unknown
    · rw [ht.agrees.unknown l id hs, hu.agrees.unknown l id (hstate l ▸ hs)]
    · rw [(ht.agrees.known l hs).2, (hu.agrees.known l (hstate l ▸ hs)).2]
  cases t
  cases u
  simp_all

lemma closure_root {m : ZFTPFileMetadata} {root : Hash} (h : root = f.hashAt zhash 0) :
    (((configureFromMetadata m).setHash 0 root).setState 0 .validated).Closure zhash f (· = 0) := by
  have hknown : ∀ l, ((((configureFromMetadata m).setHash 0 root).setState 0 .validated).node l).state
      ≠ .unknown ↔ l = 0 := fun l => by rw [state_root]; split <;> simp_all
  refine Agrees.closure ⟨fun l => ?_, fun l hl => ?_, fun l _ hl => ?_, fun p _ hl _ => ?_,
    fun l h0 hl _ => ?_, fun l hl => ?_⟩ (fun l hl => (hknown l).mpr hl)
    (fun l hl => .given ((hknown l).mp hl))
  · rw [state_root]; split <;> exact nofun
  · obtain rfl := (hknown l).mp hl
    rw [hash_setState, hash_setHash, if_pos rfl]
    exact ⟨.inl rfl, h⟩
  · have hne : l ≠ 0 := fun h0 => (hknown l).mpr h0 hl
    rw [hash_setState, hash_setHash, if_neg hne]
    rfl
  · exact absurd ((hknown _).mp hl) (left_ne_zero p)
  · exact absurd ((hknown l).mp hl) h0
  · exact .inl ((hknown l).mp (by rw [hl]; exact nofun))

end MerkleTree

/-! ### Honest runs -/

section Runs

variable {D : Option (List ℕ)} {s : Client} {reply : ZFileReplyFromServer} {s' : Client}

/-- A reply of an honest origin: its metadata and records are the file's. -/
structure HonestReply (zhash : Bytes → Hash) (f : RefFile) (reply : ZFileReplyFromServer) : Prop where
  metadata : reply.metadata = f.metadata
  records : ∀ r ∈ reply.merkleRecords,
    f.Present r.treeLocation ∧ r.hash = f.hashAt zhash r.treeLocation

/-- Replies are honest, and no image of the file is found on disk or at an origin. -/
def HonestEvent (zhash : Bytes → Hash) (f : RefFile) (cfg : ZCacheConfig) : FileEvent → Prop
  | .receive zcb => ∀ reply, ZFileReplyFromServer.parse zcb = .ok (some reply) →
      HonestReply zhash f reply
  | .consider _ => ∀ image, ¬cfg.HasImage image
  | .withdraw _ => True

def ZFileReplyFromServer.locations (reply : ZFileReplyFromServer) : List ℕ :=
  reply.merkleRecords.map (·.treeLocation)

/-- The locations delivered once the reply is installed. Until a reply brings the root, replies are
    refused and their records lost. -/
def deliverReply (D : Option (List ℕ)) (reply : ZFileReplyFromServer) : Option (List ℕ) :=
  match D with
  | some D => some (D ++ reply.locations)
  | none => if 0 ∈ reply.locations then some reply.locations else none

def deliver (D : Option (List ℕ)) : FileEvent → Option (List ℕ)
  | .receive zcb =>
    match ZFileReplyFromServer.parse zcb with
    | .ok (some reply) => deliverReply D reply
    | _ => D
  | _ => D

/-- `l` is the location of a record delivered by the events. -/
def Delivered (events : List FileEvent) (l : ℕ) : Prop :=
  ∃ D, events.foldl deliver none = some D ∧ l ∈ D

/-- A tree of the file between two replies, after records at `D` were delivered. -/
structure ConfluentTree (zhash : Bytes → Hash) (f : RefFile) (D : List ℕ) (t : MerkleTree) :
    Prop where
  metadata : t.metadata = f.metadata
  wellFormed : t.WellFormed
  drained : t.parents = []
  closure : t.Closure zhash f (· ∈ D)
  root : 0 ∈ D

def ConfluentFile (zhash : Bytes → Hash) (f : RefFile) (D : Option (List ℕ)) (fileHash : Hash)
    (tree : Option MerkleTree) : Prop :=
  fileHash = f.fileHash zhash ∧ Option.Rel (ConfluentTree zhash f) D tree

lemma findRootMerkleRecord_isSome : (findRootMerkleRecord reply).isSome ↔ 0 ∈ reply.locations := by
  simp [findRootMerkleRecord, ZFileReplyFromServer.locations]

lemma installMetadata_confluent {t : MerkleTree} {ir : InstallResult}
    (hs : ConfluentFile zhash f D s.file.fileHash s.file.tree) (hreply : HonestReply zhash f reply)
    (h : installMetadata zhash s.file reply = some (t, ir)) :
    ∃ D0 D', ConfluentTree zhash f D0 t ∧ deliverReply D reply = some D' ∧
      ∀ l, l ∈ D0 ∨ l ∈ reply.locations ↔ l ∈ D' := by
  obtain ⟨ht, -⟩ | ⟨hnone, -, root, hroot, heq, rfl⟩ := installMetadata_cases h
  · have hrel := hs.2
    rw [ht] at hrel
    cases hrel with
    | some htree => exact ⟨_, _, htree, rfl, fun l => mem_append.symm⟩
  · have hrel := hs.2
    rw [hnone] at hrel
    cases hrel
    have h0 : 0 ∈ reply.locations := findRootMerkleRecord_isSome.mp (by rw [hroot]; rfl)
    have hrec := hreply.records root (mem_of_find?_eq_some hroot)
    rw [findRootMerkleRecord_loc hroot] at hrec
    refine ⟨[0], _, ⟨hreply.metadata, ⟨?_, nofun⟩, rfl, ?_, mem_singleton_self 0⟩, if_pos h0, fun l => ?_⟩
    · rw [state_setState, if_pos rfl]
    · exact (closure_root hrec.2).congr (fun l => mem_singleton.symm)
    · constructor
      · rintro (hl | hl)
        · obtain rfl := mem_singleton.mp hl
          exact h0
        · exact hl
      · exact .inr

lemma deliverReply_refused (hs : ConfluentFile zhash f D s.file.fileHash s.file.tree)
    (hreply : HonestReply zhash f reply) (h : installMetadata zhash s.file reply = none) :
    deliverReply D reply = D := by
  have hno := installMetadata_eq_none.mp h
  obtain ⟨hname, hrel⟩ := hs
  cases htree : s.file.tree with
  | some t => exact absurd (.inl (by rw [htree]; rfl)) hno
  | none =>
    rw [htree] at hrel
    cases hrel
    refine if_neg fun h0 => hno (.inr ?_)
    obtain ⟨root, hroot⟩ := Option.isSome_iff_exists.mp (findRootMerkleRecord_isSome.mpr h0)
    have hrec := hreply.records root (mem_of_find?_eq_some hroot)
    rw [findRootMerkleRecord_loc hroot] at hrec
    exact ⟨root, hroot, by rw [hname, computeFileHash, hreply.metadata, hrec.2]; rfl⟩

lemma installReplyCore_confluent {changed : Bool} (hs : s.Holds zhash (ConfluentFile zhash f D))
    (hreply : HonestReply zhash f reply) (h : installReplyCore zhash s reply = .ok (s', changed)) :
    s'.Holds zhash (ConfluentFile zhash f (deliverReply D reply)) := by
  obtain ⟨hm, rfl, -⟩ | ⟨t, ir, t1, n1, c, n2, u, r, hm, hrec, hdata, hval, -, rfl⟩ := installReplyCore_cases h
  · rw [deliverReply_refused hs.file hreply hm]
    exact hs
  obtain ⟨D0, D', ht, hD', hmem⟩ := installMetadata_confluent hs.file hreply hm
  have hclosure := (ht.closure.installMerkleRecords hreply.records hrec).congr hmem
  obtain ⟨hwf, hmeta, hu, hparents, hd⟩ := ht.wellFormed.validated hrec hval
  refine ⟨⟨hs.file.1, ?_⟩, (installDataLoop_sound _ _ _ _ _ hs.blocks hdata).1⟩
  rw [hD']
  exact .some ⟨hmeta.trans ht.metadata, hu, hparents, hclosure.drained hwf hd, (hmem 0).mp (.inl ht.root)⟩

variable {cfg : ZCacheConfig}

lemma fileStep_confluent {e : FileEvent} (hs : s.Guarded zhash (ConfluentFile zhash f D) (∀ image, ¬cfg.HasImage image))
    (he : HonestEvent zhash f cfg e)
    (h : fileStep zhash cfg s e = .ok s') :
    s'.Guarded zhash (ConfluentFile zhash f (deliver D e)) (∀ image, ¬cfg.HasImage image) := by
  cases e with
  | receive zcb =>
    obtain ⟨o, hparse, h⟩ := of_bind h
    cases o with
    | none => cases h; simpa only [deliver, hparse] using hs
    | some reply =>
      simp only [deliver, hparse]
      exact installReply_guarded (fun hno image himg => absurd himg (hno image)) hs.guard
        (fun _ _ h1 => installReplyCore_confluent hs.holds (he reply hparse) h1) h
  | consider req => exact hs.considerRequest (fun hno image himg => absurd himg (hno image)) he h
  | withdraw req => cases h; exact hs.withdrawRequest req

/-- RUN: after honest events the tree is the closure of what they delivered. -/
lemma run_confluent : ∀ (events : List FileEvent) (D : Option (List ℕ)) (s s' : Client),
    s.Guarded zhash (ConfluentFile zhash f D) (∀ image, ¬cfg.HasImage image) →
    (∀ e ∈ events, HonestEvent zhash f cfg e) → run (fileStep zhash cfg) s events = .ok s' →
    ConfluentFile zhash f (events.foldl deliver D) s'.file.fileHash s'.file.tree
  | [], _, s, s', hs, _, h => by
      cases h
      exact hs.holds.file
  | e :: events, D, s, s', hs, he, h => by
      obtain ⟨s1, h1, h⟩ := of_bind h
      exact run_confluent events (deliver D e) s1 s'
        (fileStep_confluent hs (he e mem_cons_self) h1)
        (fun e' he' => he e' (mem_cons_of_mem _ he')) h

lemma honestRun_spec {blocks : ZBlockCache} (hblocks : blocks.Sound zhash) {events : List FileEvent}
    (he : ∀ e ∈ events, HonestEvent zhash f cfg e)
    (h : run (fileStep zhash cfg) (Client.fresh (f.fileHash zhash) blocks) events = .ok s) :
    (s.file.tree = none ∧ ∀ l, ¬Delivered events l) ∨
    ∃ t, s.file.tree = some t ∧ Delivered events 0 ∧ t.metadata = f.metadata ∧ t.WellFormed ∧
      t.parents = [] ∧ t.Closure zhash f (Delivered events) := by
  obtain ⟨-, hrel⟩ := run_confluent events none _ s (Client.guarded_fresh ⟨rfl, .none⟩ hblocks) he h
  cases hD : events.foldl deliver none with
  | none =>
    rw [hD] at hrel
    cases htree : s.file.tree with
    | none => exact .inl ⟨rfl, fun l ⟨D, hD', _⟩ => nomatch hD.symm.trans hD'⟩
    | some t => rw [htree] at hrel; cases hrel
  | some D =>
    rw [hD] at hrel
    have hiff : ∀ l, l ∈ D ↔ Delivered events l := fun l =>
      ⟨fun hl => ⟨D, hD, hl⟩, fun ⟨D', hD', hl⟩ => Option.some.inj (hD.symm.trans hD') ▸ hl⟩
    cases htree : s.file.tree with
    | none => rw [htree] at hrel; cases hrel
    | some t =>
      rw [htree] at hrel
      cases hrel with
      | some ht =>
        exact .inr ⟨t, rfl, (hiff 0).mp ht.root, ht.metadata, ht.wellFormed, ht.drained, ht.closure.congr hiff⟩

/-- Every node that can be derived from its children can be checked against its parent, with its sibling. -/
def SiblingsKnown (D : ℕ → Prop) : Prop :=
  ∀ p, p ≠ 0 → Known D (left p) → Known D (right p) → Known D (sib p)

/-- CONFLUENCE: the tree depends only on what was delivered, its known nodes are those derivable from
    that and carry the file's hashes, and a node is validated exactly when it and its sibling are known.
    That this includes a validated parent holds exactly when every derivable node has a known sibling. -/
theorem installation_confluent {blocks : ZBlockCache} (hblocks : blocks.Sound zhash) {events : List FileEvent}
    (he : ∀ e ∈ events, HonestEvent zhash f cfg e) {s : Client}
    (h : run (fileStep zhash cfg) (Client.fresh (f.fileHash zhash) blocks) events = .ok s) :
    (∀ cfg' blocks' events' s', blocks'.Sound zhash → (∀ e ∈ events', HonestEvent zhash f cfg' e) →
      run (fileStep zhash cfg') (Client.fresh (f.fileHash zhash) blocks') events' = .ok s' →
      (∀ l, Delivered events' l ↔ Delivered events l) → s'.file.tree = s.file.tree) ∧ ∀ t, s.file.tree = some t →
      (∀ l, (t.node l).state ≠ .unknown ↔ Known (Delivered events) l) ∧
      (∀ l, (t.node l).state ≠ .unknown → (t.node l).hash = f.hashAt zhash l) ∧
      (∀ l, l ≠ 0 → ((t.node l).state = .validated ↔ Known (Delivered events) l ∧ Known (Delivered events) (sib l))) ∧
      ((∀ l, l ≠ 0 → ((t.node l).state = .validated ↔ Known (Delivered events) l ∧ Known (Delivered events) (sib l) ∧
            (t.node (parent l)).state = .validated)) ↔ SiblingsKnown (Delivered events)) := by
  have hspec := honestRun_spec hblocks he h
  constructor
  · intro cfg' blocks' events' s' hblocks' he' h' hsame
    obtain ⟨hnone, hnot⟩ | ⟨t, ht, hroot, hm, hwf, hp, hcl⟩ := hspec <;>
      obtain ⟨hnone', hnot'⟩ | ⟨t', ht', hroot', hm', hwf', hp', hcl'⟩ := honestRun_spec hblocks' he' h'
    · rw [hnone, hnone']
    · exact absurd ((hsame 0).mp hroot') (hnot 0)
    · exact absurd ((hsame 0).mpr hroot) (hnot' 0)
    · rw [ht, ht', (hcl'.congr hsame).unique hcl hwf' hwf hp' hp (hm'.trans hm.symm)]
  · intro t ht
    obtain ⟨hnone, -⟩ | ⟨t', ht', hroot, hm, hwf, hp, hcl⟩ := hspec
    · rw [hnone] at ht; cases ht
    obtain rfl := Option.some.inj (ht'.symm.trans ht)
    have hval : ∀ l, l ≠ 0 → ((t'.node l).state = .validated ↔
        Known (Delivered events) l ∧ Known (Delivered events) (sib l)) :=
      fun l h0 => hcl.validated_iff hp h0
    refine ⟨hcl.known, fun l hl => (hcl.agrees.known l hl).2, hval, fun hpar p hp0 hl hr => ?_, fun hsib l h0 => ?_⟩
    · -- the children of `p` are validated, so `p` is, so its sibling is known
      have hpv := ((hpar (left p) (left_ne_zero p)).mp ((hval _ (left_ne_zero p)).mpr ⟨hl, by rwa [sib_left]⟩)).2.2
      rw [parent_left] at hpv
      exact ((hval p hp0).mp hpv).2
    · rw [hval l h0]
      refine ⟨fun ⟨hl, hs⟩ => ⟨hl, hs, ?_⟩, fun ⟨hl, hs, _⟩ => ⟨hl, hs⟩⟩
      by_cases hp0 : parent l = 0
      · rw [hp0]; exact hwf.root
      obtain ⟨hkl, hkr⟩ := (sib_pair (P := Known (Delivered events)) h0).mp ⟨hl, hs⟩
      exact (hval _ hp0).mpr ⟨.derived hkl hkr, hsib _ hp0 hkl hkr⟩

end Runs

/-! ### The order of two records -/

lemma zeroFile_inner {l : ℕ} (h : l < 2) : zeroFile.Inner l := by
  rw [RefFile.Inner, zeroFile_treeDepth, zeroFile_numBlocks]
  interval_cases l <;> exact ⟨by decide, by decide⟩

lemma zeroFile_records : ∀ r ∈ [(⟨1, Hash.fill 3⟩ : ZFTPMerkleRecord), ⟨2, Hash.fill 4⟩,
    ⟨3, Hash.fill 1⟩, ⟨4, Hash.fill 1⟩],
    zeroFile.Present r.treeLocation ∧ r.hash = zeroFile.hashAt zeroHash r.treeLocation := by
  have hat : ∀ l, zeroFile.hashAt zeroHash l = zeroFile.nodeHash zeroHash (2 - levelOf l) (colOf l) := fun l => by
    rw [RefFile.hashAt, zeroFile_treeDepth]
  simp only [forall_mem_cons, not_mem_nil, false_imp_iff, implies_true, and_true, hat]
  exact ⟨⟨.inr (zeroFile_inner (by decide)), zeroFile_left.symm⟩,
    ⟨.inr (zeroFile_inner (by decide)), zeroFile_right.symm⟩,
    ⟨.inr (zeroFile_inner (by decide)), (zeroFile_leaf (by norm_num : 0 < 3)).symm⟩,
    ⟨.inr (zeroFile_inner (by decide)), (zeroFile_leaf (by norm_num : 1 < 3)).symm⟩⟩

lemma honestEvent_zeroDatagram (h : records.length < 65535) (hloc : ∀ r ∈ records, r.treeLocation < 2 ^ 32)
    (hrec : ∀ r ∈ records, zeroFile.Present r.treeLocation ∧
      r.hash = zeroFile.hashAt zeroHash r.treeLocation) (cfg : ZCacheConfig) :
    HonestEvent zeroHash zeroFile cfg (.receive (zeroDatagram records h)) := by
  intro reply hreply
  obtain rfl := Option.some.inj (Except.ok.inj ((parse_zeroDatagram records h hloc).symm.trans hreply))
  refine ⟨zeroFile_metadata.symm, fun r hr => ?_⟩
  rcases mem_cons.mp hr with rfl | hr
  · exact ⟨.inl rfl, zeroFile_root.symm⟩
  · exact hrec r hr

lemma delivered_zeroDatagram (h : records.length < 65535) (hloc : ∀ r ∈ records, r.treeLocation < 2 ^ 32) (l : ℕ) :
    Delivered [.receive (zeroDatagram records h)] l ↔ l = 0 ∨ l ∈ records.map (·.treeLocation) := by
  simp [Delivered, deliver, parse_zeroDatagram records h hloc, deliverReply, ZFileReplyFromServer.locations, zeroReply]

/-- The two children of the root: every derivable node has a known sibling, and both are validated
    below a validated parent. -/
theorem installation_confluent_zeroFile : ∃ s t, run (fileStep zeroHash clientConfig)
      (Client.fresh (zeroFile.fileHash zeroHash) (ZBlockCache.fresh none))
      [.receive (zeroDatagram [⟨1, Hash.fill 3⟩, ⟨2, Hash.fill 4⟩] (by decide))] = .ok s ∧
    s.file.tree = some t ∧ ∀ l, l ≠ 0 → (t.node l).state = .validated → (t.node (parent l)).state = .validated := by
  have hloc : ∀ r ∈ [(⟨1, Hash.fill 3⟩ : ZFTPMerkleRecord), ⟨2, Hash.fill 4⟩], r.treeLocation < 2 ^ 32 := by simp
  obtain ⟨s, t, hrun, ht, -⟩ := run_zeroDatagram (l := 1) (v := ⟨Hash.fill 3, .validated⟩) (by decide) hloc
    (by decide +kernel)
  have hhonest : ∀ e ∈ [FileEvent.receive (zeroDatagram [⟨1, Hash.fill 3⟩, ⟨2, Hash.fill 4⟩] (by decide))],
      HonestEvent zeroHash zeroFile clientConfig e := fun e he => by
    obtain rfl := mem_singleton.mp he
    exact honestEvent_zeroDatagram _ hloc (fun r hr => zeroFile_records r (mem_append_left [_, _] hr)) _
  have hblocks : (ZBlockCache.fresh none).Sound zeroHash := .fresh_none
  -- nothing below the two children can be derived
  have hsmall : ∀ l, Known (Delivered [.receive
      (zeroDatagram [⟨1, Hash.fill 3⟩, ⟨2, Hash.fill 4⟩] (by decide))]) l → l ≤ 2 := fun l => by
    refine Known.subset (T := (· ≤ 2)) (fun k hk => ?_) (fun k hl _ => ?_)
    · rw [delivered_zeroDatagram _ hloc] at hk
      simp only [map_cons, map_nil, mem_cons, not_mem_nil, or_false] at hk
      omega
    · simp only [left] at hl
      omega
  have hconf := (installation_confluent hblocks hhonest hrun).2 t ht
  refine ⟨s, t, hrun, ht, fun l h0 hl => ((hconf.2.2.2.mpr fun p hp hl _ => ?_) l h0).mp hl |>.2.2⟩
  have := hsmall _ hl
  simp only [left] at this
  omega

/-- UNCHECKED PARENT: two honest leaves are validated although their parent, derived from them, is not. -/
theorem not_validated_below_validated :
    ¬∀ (zhash : Bytes → Hash) (f : RefFile) (cfg : ZCacheConfig) (events : List FileEvent)
      (s : Client) (t : MerkleTree), f.CollisionFree zhash → (∀ e ∈ events, HonestEvent zhash f cfg e) →
      run (fileStep zhash cfg) (Client.fresh (f.fileHash zhash) (ZBlockCache.fresh none)) events = .ok s →
      s.file.tree = some t → ∀ l, l ≠ 0 → ((t.node l).state = .validated ↔
        Known (Delivered events) l ∧ Known (Delivered events) (sib l) ∧ (t.node (parent l)).state = .validated) := by
  intro hclaim
  have hloc : ∀ r ∈ [(⟨3, Hash.fill 1⟩ : ZFTPMerkleRecord), ⟨4, Hash.fill 1⟩], r.treeLocation < 2 ^ 32 := by simp
  obtain ⟨s, t, hrun, ht, h3⟩ := run_zeroDatagram (l := 3) (v := ⟨Hash.fill 1, .validated⟩) (by decide) hloc
    (by decide +kernel)
  obtain ⟨s', t', hrun', ht', h1⟩ := run_zeroDatagram (l := 1) (v := ⟨Hash.fill 3, .tentative⟩) (by decide) hloc
    (by decide +kernel)
  cases hrun.symm.trans hrun'
  cases ht.symm.trans ht'
  have hvalid := hclaim zeroHash zeroFile clientConfig
    [.receive (zeroDatagram [⟨3, Hash.fill 1⟩, ⟨4, Hash.fill 1⟩] (by decide))] s t
    zeroFile_collisionFree (fun e he => by
      obtain rfl := mem_singleton.mp he
      exact honestEvent_zeroDatagram _ hloc (fun r hr => zeroFile_records r (mem_append_right [_, _] hr)) _)
    hrun ht 3 (by norm_num)
  have hpar := (hvalid.mp (by rw [h3])).2.2
  rw [show parent 3 = 1 from rfl, h1] at hpar
  cases hpar

end Embassies.Zftp
