import Embassies.Utils.CoalescingWords

/-! Reference counts in `CoalescingAllocator`.

    The count of an object is the number of its fragments, whatever ranges are freed, so an object is
    destroyed when its last fragment goes, and only once. -/

namespace Embassies.Utils.CoalescingAllocator

open Checked AVLTree Range List Function Set Except

variable {U : Type} {s s' : CoalescingAllocator U} {F : Set Range} {A A' : Set (RangeByStartElt U)} {r : Range}
  {e : RangeByStartElt U} {o : Option (RefcountedUserObj U)} {u : U} {rest : Option Range}

/-- The fragments that share an object, by its number. -/
def fragmentsOf (A : Set (RangeByStartElt U)) (id : ℕ) : Set (RangeByStartElt U) :=
  { e ∈ A | e.refcountedUserObj.map RefcountedUserObj.id = some id }

/-- One reference, to the object of that number. -/
def reference (o : Option (RefcountedUserObj U)) (id : ℕ) : ℤ :=
  if o.map RefcountedUserObj.id = some id then 1 else 0

/-- COUNTS: the fragments of an object and one pending reference. -/
def Counted (s : CoalescingAllocator U) (A : Set (RangeByStartElt U)) (pending : Option (RefcountedUserObj U)) :
    Prop :=
  ∀ id, s.refcount id = (fragmentsOf A id).ncard + reference pending id

@[simp] lemma refcount_addRef (o : Option (RefcountedUserObj U)) (id : ℕ) :
    (s.addRef o).refcount id = s.refcount id + reference o id := by
  cases o with
  | none => simp [addRef, reference]
  | some o =>
    by_cases hid : o.id = id
    · simp [addRef, reference, hid]
    · simp [addRef, reference, hid, update_of_ne (Ne.symm hid)]

@[simp] lemma refcount_dropRef (o : Option (RefcountedUserObj U)) (id : ℕ) :
    (s.dropRef o).refcount id = s.refcount id - reference o id := by
  cases o with
  | none => simp [dropRef, reference]
  | some o =>
    by_cases hid : o.id = id
    · simp [dropRef, reference, hid]
    · simp [dropRef, reference, hid, update_of_ne (Ne.symm hid)]

lemma ncard_fragmentsOf_insert (hfin : A.Finite) (hnot : e ∉ A) (id : ℕ) :
    ((fragmentsOf (insert e A) id).ncard : ℤ) = (fragmentsOf A id).ncard + reference e.refcountedUserObj id := by
  by_cases hid : e.refcountedUserObj.map RefcountedUserObj.id = some id
  · have heq : fragmentsOf (insert e A) id = insert e (fragmentsOf A id) := by
      ext x
      constructor
      · rintro ⟨rfl | hx, hx'⟩
        · exact .inl rfl
        · exact .inr ⟨hx, hx'⟩
      · rintro (rfl | ⟨hx, hx'⟩)
        · exact ⟨.inl rfl, hid⟩
        · exact ⟨.inr hx, hx'⟩
    have hcard := ncard_insert_of_notMem (s := fragmentsOf A id) (fun he => hnot he.1) (hfin.subset (sep_subset _ _))
    rw [heq, hcard, reference, if_pos hid]
    rfl
  · have heq : fragmentsOf (insert e A) id = fragmentsOf A id := by
      ext x
      constructor
      · rintro ⟨rfl | hx, hx'⟩
        · exact absurd hx' hid
        · exact ⟨hx, hx'⟩
      · rintro ⟨hx, hx'⟩
        exact ⟨.inr hx, hx'⟩
    rw [heq, reference, if_neg hid, add_zero]

lemma Counted.insert {pending : Option (RefcountedUserObj U)} (h : s.Counted A pending) (hfin : A.Finite) (hnot : e ∉ A)
    (hcount : s'.refcount = (s.addRef e.refcountedUserObj).refcount) :
    s'.Counted (insert e A) pending := by
  intro id
  rw [hcount, refcount_addRef, h id, ncard_fragmentsOf_insert hfin hnot]
  omega

lemma Counted.remove (h : s.Counted A none) (hfin : A.Finite) (he : e ∈ A) (hcount : s'.refcount = s.refcount) :
    s'.Counted (A \ {e}) e.refcountedUserObj := by
  intro id
  have hcard := ncard_fragmentsOf_insert (A := A \ {e}) (e := e) (hfin.subset sdiff_subset) (by simp) id
  rw [insert_sdiff_singleton, insert_eq_of_mem he] at hcard
  have hid := h id
  rw [hcount, hid, hcard]
  simp [reference]

lemma Counted.dropRef (h : s.Counted A o) : (s.dropRef o).Counted A none := by
  intro id
  rw [refcount_dropRef, h id]
  simp [reference]

/-- The object has a fragment. -/
def Has (A : Set (RangeByStartElt U)) (u : U) : Prop := ∃ e ∈ A, userObjOf e = some u

/-- THE REFERENCES of the allocated fragments: they are counted, every fragment has an object, those of
    different allocations differ, and none is destroyed. -/
structure Refs (s : CoalescingAllocator U) (A : Set (RangeByStartElt U)) : Prop where
  counted : s.Counted A none
  objects : ∀ e ∈ A, ∃ o, e.refcountedUserObj = some o ∧ o.id < s.nextObj ∧ o.obj ∉ s.destroyed
  distinct : ∀ e ∈ A, ∀ e' ∈ A, ∀ o o', e.refcountedUserObj = some o → e'.refcountedUserObj = some o' →
    (o.id = o'.id ↔ o.obj = o'.obj)
  nodup : s.destroyed.Nodup

/-- What dropping fragments does to the objects: those without a fragment left are destroyed. -/
structure Dropped (s : CoalescingAllocator U) (A : Set (RangeByStartElt U)) (s' : CoalescingAllocator U)
    (A' : Set (RangeByStartElt U)) : Prop where
  refs : s'.Refs A'
  destroyed : ∀ u, u ∈ s'.destroyed ↔ u ∈ s.destroyed ∨ (Has A u ∧ ¬Has A' u)
  sub : ∀ u, Has A' u → Has A u

lemma Dropped.refl (h : s.Refs A) : Dropped s A s A :=
  ⟨h, fun _ => ⟨.inl, fun hu => hu.elim id fun hu => absurd hu.1 hu.2⟩, fun _ => id⟩

lemma Dropped.trans {s'' : CoalescingAllocator U} {A'' : Set (RangeByStartElt U)} (h : Dropped s A s' A')
    (h' : Dropped s' A' s'' A'') : Dropped s A s'' A'' where
  refs := h'.refs
  destroyed u := by
    have hsub := h.sub u
    have hsub' := h'.sub u
    rw [h'.destroyed, h.destroyed]
    tauto
  sub u hu := h.sub u (h'.sub u hu)

/-! ### Calls that leave the references alone -/

lemma insertCoalescedFreeRange_frame (hrun : s.insertCoalescedFreeRange r = .ok s') : ∃ a b, s' = s.withFree a b := by
  obtain ⟨-, -, a, -, b, -, hrun⟩ := of_bind3 hrun
  exact ⟨a, b, (ok.inj hrun).symm⟩

lemma removeFreeRangeByStartElt_frame (hrun : s.removeFreeRangeByStartElt e = .ok s') : ∃ a b, s' = s.withFree a b := by
  obtain ⟨x, -, hrun⟩ := of_bind hrun
  cases x with
  | none => cases hrun
  | some elt =>
    obtain ⟨a, -, b, -, hrun⟩ := of_bind2 hrun
    exact ⟨a, b, (ok.inj hrun).symm⟩

lemma coalesceLeft_frame (hrun : s.coalesceLeft r = .ok s') : ∃ a b, s' = s.withFree a b := by
  obtain ⟨x, -, hrun⟩ := of_bind hrun
  cases x with
  | none => exact insertCoalescedFreeRange_frame hrun
  | some precedingElt =>
    obtain ⟨-, -, hrun⟩ := of_bind hrun
    split at hrun
    · obtain ⟨s1, hremove, hinsert⟩ := of_bind hrun
      obtain ⟨a, b, rfl⟩ := removeFreeRangeByStartElt_frame hremove
      obtain ⟨a', b', rfl⟩ := insertCoalescedFreeRange_frame hinsert
      exact ⟨a', b', rfl⟩
    · exact insertCoalescedFreeRange_frame hrun

lemma createEmptyRangeFrom_frame : ∀ (fuel : ℕ) {s : CoalescingAllocator U} {r : Range},
    s.createEmptyRangeFrom fuel r = .ok s' → ∃ a b, s' = s.withFree a b := by
  intro fuel
  induction fuel with
  | zero =>
    intro s r hrun
    cases hrun
  | succ fuel ih =>
    intro s r hrun
    obtain ⟨x, -, hrun⟩ := of_bind hrun
    cases x with
    | none => exact coalesceLeft_frame hrun
    | some followingElt =>
      obtain ⟨-, -, hrun⟩ := of_bind hrun
      split at hrun
      · obtain ⟨s1, hremove, hrest⟩ := of_bind hrun
        obtain ⟨a, b, rfl⟩ := removeFreeRangeByStartElt_frame hremove
        obtain ⟨a', b', rfl⟩ := ih hrest
        exact ⟨a', b', rfl⟩
      · exact coalesceLeft_frame hrun

lemma createEmptyRange_frame (hrun : s.createEmptyRange r = .ok s') : ∃ a b, s' = s.withFree a b :=
  createEmptyRangeFrom_frame _ hrun

lemma returnLeftover_frame (hrun : s.returnLeftover r = .ok s') : ∃ a b, s' = s.withFree a b := by
  rw [returnLeftover] at hrun
  split at hrun
  · exact createEmptyRange_frame hrun
  · exact ⟨s.freeBySizeTree, s.freeByStartTree, (ok.inj hrun).symm⟩

/-! ### Allocating -/

lemma allocateElt_frame (hrun : s.allocateElt r u = .ok s') :
    (∀ id, s'.refcount id = s.refcount id + reference (some ⟨s.nextObj, u⟩) id) ∧ s'.nextObj = s.nextObj + 1 ∧
      s'.destroyed = s.destroyed := by
  obtain ⟨t, -, hrun⟩ := of_bind hrun
  cases hrun
  exact ⟨fun id => refcount_addRef (s := { s with nextObj := s.nextObj + 1 }) (some ⟨s.nextObj, u⟩) id, rfl, rfl⟩

lemma allocateRange_frame {size : ℕ} {range : Range} (hrun : s.allocateRange size u = .ok (s', some range)) :
    (∀ id, s'.refcount id = s.refcount id + reference (some ⟨s.nextObj, u⟩) id) ∧ s'.nextObj = s.nextObj + 1 ∧
      s'.destroyed = s.destroyed := by
  rw [allocateRange] at hrun
  split at hrun
  · cases ok.inj hrun
  obtain ⟨x, -, hrun⟩ := of_bind hrun
  cases x with
  | none => cases ok.inj hrun
  | some q =>
    obtain ⟨a, -, -, -, y, -, hrun⟩ := of_bind3 hrun
    cases y with
    | none => cases hrun
    | some p =>
      obtain ⟨b, -, s1, hallocate, s2, hleft, hrun⟩ := of_bind3 hrun
      obtain ⟨a', b', rfl⟩ := returnLeftover_frame hleft
      cases hrun
      have hframe := allocateElt_frame hallocate
      exact ⟨hframe.1, hframe.2.1, hframe.2.2⟩

/-- ALLOCATE: an object that was not given before keeps the references. -/
lemma Refs.allocate (h : s.Refs A) (hfin : A.Finite) {size : ℕ} {range range' : Range}
    (hrun : s.allocateRange size u = .ok (s', some range)) (hnew : ¬Has A u) (hlive : u ∉ s.destroyed) :
    s'.Refs (insert ⟨range', some ⟨s.nextObj, u⟩⟩ A) := by
  obtain ⟨hcount, hnext, hdestroyed⟩ := allocateRange_frame hrun
  have hnot : (⟨range', some ⟨s.nextObj, u⟩⟩ : RangeByStartElt U) ∉ A := fun he => hnew ⟨_, he, rfl⟩
  have hother : ∀ e ∈ A, ∀ o, e.refcountedUserObj = some o → o.id ≠ s.nextObj ∧ o.obj ≠ u := by
    intro e he o ho
    obtain ⟨o', ho', hlt, -⟩ := h.objects e he
    cases ho.symm.trans ho'
    refine ⟨hlt.ne, ?_⟩
    rintro rfl
    exact hnew ⟨e, he, by rw [userObjOf, ho]; rfl⟩
  refine ⟨h.counted.insert hfin hnot (funext fun id => ?_), ?_, ?_, hdestroyed ▸ h.nodup⟩
  · rw [hcount id, refcount_addRef]
  · rintro e (rfl | he)
    · exact ⟨_, rfl, hnext ▸ Nat.lt_succ_self _, hdestroyed ▸ hlive⟩
    · obtain ⟨o, ho, hlt, hnot⟩ := h.objects e he
      exact ⟨o, ho, by omega, hdestroyed ▸ hnot⟩
  · rintro e (rfl | he) e' (rfl | he') o o' ho ho'
    · cases ho.symm.trans ho'
      exact iff_of_true rfl rfl
    · cases ho
      exact iff_of_false (hother e' he' o' ho').1.symm (hother e' he' o' ho').2.symm
    · cases ho'
      exact iff_of_false (hother e he o ho).1 (hother e he o ho).2
    · exact h.distinct e he e' he' o o' ho ho'

/-! ### Freeing -/

lemma Fragment.counted (h : Fragment s A r o s') (hfin : A.Finite) (hcounted : s.Counted A o) :
    s'.Counted (withFragment A r o) o ∧ s'.destroyed = s.destroyed ∧ s'.nextObj = s.nextObj := by
  rcases h.either with ⟨rfl, hA⟩ | ⟨hnot, hA, t, n, rfl⟩
  · exact ⟨hA.symm ▸ hcounted, rfl, rfl⟩
  · refine ⟨hA ▸ hcounted.insert hfin hnot rfl, ?_⟩
    cases o <;> exact ⟨rfl, rfl⟩

lemma AllocatedTree.unique (h : s.AllocatedTree A) (h' : s.AllocatedTree A') : A = A' :=
  h.stores.elements.unique h'.stores.elements

/-- A split keeps the references of everything but the object that is split. -/
lemma Refs.split (h : s.Refs A) (he : e ∈ A) {o : RefcountedUserObj U} (ho : e.refcountedUserObj = some o)
    (hkept : ∀ x ∈ A, x ≠ e → x ∈ A') (hmem : ∀ x ∈ A', x ∈ A ∧ x ≠ e ∨ x.refcountedUserObj = some o) (hfin : A'.Finite)
    (hcounted : s'.Counted A' (some o)) (hdestroyed : s'.destroyed = s.destroyed) (hnext : s'.nextObj = s.nextObj) :
    Dropped s A (s'.dropRef (some o)) A' := by
  obtain ⟨o1, ho1, hlt, halive⟩ := h.objects e he
  cases ho.symm.trans ho1
  -- a fragment in the new set comes from one in the old set with the same object
  have hfrom : ∀ x ∈ A', ∃ y ∈ A, x.refcountedUserObj = y.refcountedUserObj := by
    intro x hx
    rcases hmem x hx with ⟨hx, -⟩ | hx
    · exact ⟨x, hx, rfl⟩
    · exact ⟨e, he, hx.trans ho.symm⟩
  have hsub : ∀ u, Has A' u → Has A u := by
    rintro u ⟨x, hx, hu⟩
    obtain ⟨y, hy, hxy⟩ := hfrom x hx
    exact ⟨y, hy, by rw [userObjOf, ← hxy]; exact hu⟩
  -- the last reference has gone exactly if the object has no fragment
  have hlast : s'.refcount o.id - 1 = 0 ↔ ¬Has A' o.obj := by
    have hid := hcounted o.id
    have hpend : reference (some o) o.id = 1 := if_pos rfl
    have hnone : s'.refcount o.id - 1 = 0 ↔ fragmentsOf A' o.id = ∅ := by
      have hzero := ncard_eq_zero (s := fragmentsOf A' o.id) (hfin.subset (sep_subset _ _))
      rw [← hzero]
      omega
    rw [hnone, eq_empty_iff_forall_notMem]
    constructor
    · rintro hempty ⟨x, hx, hu⟩
      obtain ⟨y, hy, hxy⟩ := hfrom x hx
      obtain ⟨o', ho', -, -⟩ := h.objects y hy
      rw [userObjOf, hxy, ho'] at hu
      have hsame := (h.distinct e he y hy o o' ho ho').mpr (Option.some.inj hu).symm
      exact hempty x ⟨hx, by rw [hxy, ho', hsame]; rfl⟩
    · rintro hnot x ⟨hx, hid'⟩
      obtain ⟨y, hy, hxy⟩ := hfrom x hx
      obtain ⟨o', ho', -, -⟩ := h.objects y hy
      rw [hxy, ho'] at hid'
      have hsame := (h.distinct e he y hy o o' ho ho').mp (Option.some.inj hid').symm
      exact hnot ⟨x, hx, by rw [userObjOf, hxy, ho', hsame]; rfl⟩
  have hmemDestroyed : ∀ u, u ∈ (s'.dropRef (some o)).destroyed ↔ u ∈ s.destroyed ∨ (u = o.obj ∧ ¬Has A' o.obj) := by
    intro u
    show u ∈ (if s'.refcount o.id - 1 = 0 then s'.destroyed ++ [o.obj] else s'.destroyed) ↔ _
    rw [hdestroyed]
    by_cases hzero : s'.refcount o.id - 1 = 0
    · simp [hzero, hlast.mp hzero]
    · simp [hzero, mt hlast.mpr hzero]
  refine ⟨⟨hcounted.dropRef, fun x hx => ?_, fun x hx x' hx' p p' hp hp' => ?_, ?_⟩, fun u => ?_, hsub⟩
  · obtain ⟨y, hy, hxy⟩ := hfrom x hx
    obtain ⟨p, hp, hplt, hpalive⟩ := h.objects y hy
    refine ⟨p, hxy.trans hp, hnext ▸ hplt, fun hdead => ?_⟩
    rcases (hmemDestroyed p.obj).mp hdead with hdead | ⟨heq, hnot⟩
    · exact hpalive hdead
    · exact hnot ⟨x, hx, by rw [userObjOf, hxy, hp, ← heq]; rfl⟩
  · obtain ⟨y, hy, hxy⟩ := hfrom x hx
    obtain ⟨y', hy', hxy'⟩ := hfrom x' hx'
    exact h.distinct y hy y' hy' p p' (hxy.symm.trans hp) (hxy'.symm.trans hp')
  · show (if s'.refcount o.id - 1 = 0 then s'.destroyed ++ [o.obj] else s'.destroyed).Nodup
    rw [hdestroyed]
    split
    · refine nodup_append.mpr ⟨h.nodup, nodup_singleton _, fun a ha b hb => ?_⟩
      rw [mem_singleton.mp hb]
      rintro rfl
      exact halive ha
    · exact h.nodup
  · rw [hmemDestroyed]
    refine or_congr Iff.rfl ⟨?_, ?_⟩
    · rintro ⟨rfl, hnot⟩
      exact ⟨⟨e, he, by rw [userObjOf, ho]; rfl⟩, hnot⟩
    · rintro ⟨⟨x, hx, hu⟩, hnot⟩
      have hxe : x = e := by
        by_contra hne
        exact hnot ⟨x, hkept x hx hne, hu⟩
      rw [userObjOf, hxe, ho] at hu
      cases hu
      exact ⟨rfl, hnot⟩

def Ends (P : ℕ → Prop) (A : Set (RangeByStartElt U)) : Prop := ∀ e ∈ A, P e.range.start ∧ P e.range.stop

/-- Freeing a part of an allocation leaves no ends but those there were and those of the part. -/
lemma freeSubrange_dropped (h : s.Layout F A) (hrefs : s.Refs A) (he : e ∈ A) (hstart : e.range.start ≤ r.start)
    (hr : r.start < r.stop) (hstop : r.stop ≤ e.range.stop) (hrun : s.freeSubrange e r = .ok s') :
    ∃ F' A', s'.Layout F' A' ∧ Dropped s A s' A' ∧ ∀ P, Ends P A → P r.start → P r.stop → Ends P A' := by
  obtain ⟨s0, F', A', hrun0, hfreed⟩ := freeSubrange_spec h he hstart hr hstop
  cases hrun.symm.trans hrun0
  obtain ⟨o, ho, -, -⟩ := hrefs.objects e he
  obtain ⟨t, s2, s3, hremove, h2, h3⟩ := exists_fragments h.allocated he hstart hr hstop
  have hfin := h.allocated.stores.finite
  obtain ⟨hcounted2, hdestroyed2, hnext2⟩ := h2.counted (hfin.subset sdiff_subset)
    (hrefs.counted.remove hfin he rfl)
  obtain ⟨hcounted3, hdestroyed3, hnext3⟩ := h3.counted h2.tree.stores.finite hcounted2
  simp only [freeSubrange, hremove, ok_bind, h2.run, h3.run] at hrun
  obtain ⟨a, b, rfl⟩ := createEmptyRange_frame hrun
  obtain ⟨htree4, hcount4, -, -, -⟩ := dropRef_same (s := s3) e.refcountedUserObj
  have hA' : A' = _ := hfreed.layout.allocated.unique ((h3.tree.congr htree4 hcount4).congr rfl rfl)
  rw [← hA', ho] at hcounted3
  have hdropped := hrefs.split he ho (fun x hx hne => by
      rw [hA']
      exact .inl (.inl ⟨hx, hne⟩))
    (fun x hx => by
      rw [hA'] at hx
      rcases hx with (hx | ⟨-, rfl⟩) | ⟨-, rfl⟩
      · exact .inl hx
      · exact .inr ho
      · exact .inr ho)
    hfreed.layout.allocated.stores.finite hcounted3 (hdestroyed3.trans hdestroyed2) (hnext3.trans hnext2)
  rw [← ho] at hdropped
  refine ⟨F', A', hfreed.layout, ⟨⟨hdropped.refs.counted, hdropped.refs.objects, hdropped.refs.distinct,
    hdropped.refs.nodup⟩, hdropped.destroyed, hdropped.sub⟩, fun P hA hPstart hPstop x hx => ?_⟩
  rw [hA'] at hx
  rcases hx with (hx | ⟨-, rfl⟩) | ⟨-, rfl⟩
  · exact hA x hx.1
  · exact ⟨(hA e he).1, hPstart⟩
  · exact ⟨hPstop, (hA e he).2⟩

lemma skipGap_frame (h : s.Layout F A) (hrun : s.skipGap r = .ok (s', rest)) :
    s' = s ∧ ∀ q, rest = some q → ∃ e ∈ A, q = ⟨e.range.start, r.stop⟩ := by
  obtain ⟨-, -, hrun⟩ := of_bind hrun
  obtain ⟨x, hfind, hx⟩ := h.allocated.stores.findFirstGreaterThanOrEqualTo_mem r
  rw [hfind, ok_bind] at hrun
  cases x with
  | none =>
    cases hrun
    exact ⟨rfl, nofun⟩
  | some nextElt =>
    obtain ⟨-, -, hrun⟩ := of_bind hrun
    cases hrun
    exact ⟨rfl, fun q hq => ⟨nextElt, (hx nextElt rfl).1, (Option.some.inj hq).symm⟩⟩

/-- STEP of the free loop, for any words. -/
lemma freeStep_dropped (h : s.Layout F A) (hrefs : s.Refs A) (hrun : s.freeStep r = .ok (s', rest)) :
    ∃ F' A', s'.Layout F' A' ∧ Dropped s A s' A' ∧ ∀ P, Ends P A → P r.start → P r.stop →
      Ends P A' ∧ ∀ q, rest = some q → P q.start ∧ P q.stop := by
  have hskip : s.skipGap r = .ok (s', rest) → ∃ F' A', s'.Layout F' A' ∧ Dropped s A s' A' ∧
      ∀ P, Ends P A → P r.start → P r.stop → Ends P A' ∧ ∀ q, rest = some q → P q.start ∧ P q.stop := by
    intro hgap
    obtain ⟨rfl, hrest⟩ := skipGap_frame h hgap
    refine ⟨F, A, h, .refl hrefs, fun P hA hstart hstop => ⟨hA, fun q hq => ?_⟩⟩
    obtain ⟨e, he, rfl⟩ := hrest q hq
    exact ⟨(hA e he).1, hstop⟩
  obtain ⟨x, hfind, hx⟩ := h.allocated.stores.findFirstLessThanOrEqualTo_mem r
  rw [freeStep, hfind, ok_bind] at hrun
  cases x with
  | none => exact hskip hrun
  | some e =>
    dsimp only at hrun
    split at hrun
    · exact hskip hrun
    · next hsize =>
      obtain ⟨s1, hfree, hrun⟩ := of_bind hrun
      cases hrun
      have hne : (r.intersect e.range).start < (r.intersect e.range).stop := by
        rw [size_eq] at hsize
        omega
      obtain ⟨F', A', hlayout, hdropped, hends⟩ :=
        freeSubrange_dropped h hrefs (hx e rfl) (le_max_right _ _) hne (min_le_right _ _) hfree
      refine ⟨F', A', hlayout, hdropped, fun P hA hstart hstop => ?_⟩
      have hmax : P (r.intersect e.range).start := by
        show P (max r.start e.range.start)
        rcases max_choice r.start e.range.start with heq | heq
        · rwa [heq]
        · rw [heq]
          exact (hA e (hx e rfl)).1
      have hmin : P (r.intersect e.range).stop := by
        show P (min r.stop e.range.stop)
        rcases min_choice r.stop e.range.stop with heq | heq
        · rwa [heq]
        · rw [heq]
          exact (hA e (hx e rfl)).2
      refine ⟨hends P hA hmax hmin, fun q hq => ?_⟩
      cases hq
      exact ⟨hmin, hstop⟩

/-- LOOP: freeing any words destroys the objects whose last fragment goes, once. -/
lemma freeLoop_dropped (fuel : ℕ) : ∀ {s : CoalescingAllocator U} {F : Set Range} {A : Set (RangeByStartElt U)}
    {r : Range}, s.Layout F A → s.Refs A → s.freeLoop fuel r = .ok s' →
      ∃ F' A', s'.Layout F' A' ∧ Dropped s A s' A' ∧ ∀ P, Ends P A → P r.start → P r.stop → Ends P A' := by
  induction fuel with
  | zero =>
    intro s F A r _ _ hrun
    cases hrun
  | succ fuel ih =>
    intro s F A r h hrefs hrun
    rw [freeLoop] at hrun
    split at hrun
    · obtain ⟨⟨s1, rest⟩, hstep, hrun⟩ := of_bind hrun
      obtain ⟨F1, A1, h1, hdropped, hends⟩ := freeStep_dropped h hrefs hstep
      cases rest with
      | none =>
        cases hrun
        exact ⟨F1, A1, h1, hdropped, fun P hA hstart hstop => (hends P hA hstart hstop).1⟩
      | some rest =>
        obtain ⟨F', A', h', hdropped', hends'⟩ := ih h1 hdropped.refs hrun
        refine ⟨F', A', h', hdropped.trans hdropped', fun P hA hstart hstop => ?_⟩
        obtain ⟨hA1, hrest⟩ := hends P hA hstart hstop
        exact hends' P hA1 (hrest rest rfl).1 (hrest rest rfl).2
    · cases hrun
      exact ⟨F, A, h, .refl hrefs, fun P hA _ _ => hA⟩

/-- FREE: in terms of the elements that are left. -/
lemma freeRange_dropped (h : s.Layout F A) (hrefs : s.Refs A) (hrun : s.freeRange r = .ok s') {F' : Set Range}
    (h' : s'.Layout F' A') : Dropped s A s' A' ∧ ∀ P, Ends P A → P r.start → P r.stop → Ends P A' := by
  obtain ⟨F1, A1, h1, hdropped⟩ := freeLoop_dropped _ h hrefs hrun
  rwa [h'.allocated.unique h1.allocated]

end Embassies.Utils.CoalescingAllocator
