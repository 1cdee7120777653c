import Embassies.Monitor.Viewports
import Embassies.Utils.HashTableLaws

/-! Who is the tenant of a viewport.

    Deeds and handles of a viewport are conserved: a deed that is accepted becomes a handle, a handle
    that is transferred becomes a deed. A viewport that was sublet has one of them; a toplevel viewport,
    which is accepted without its deed, keeps the deed and has two. -/

namespace Embassies.Monitor.BlitterManager

open Checked Utils HashTable List Function BlitterManager ViewportHandle

variable {m m' : BlitterManager} {v : ℕ} {processId : UInt32} {draw : Draw}

def deedsOf (m : BlitterManager) (v : ℕ) : List DeedEntry := m.deeds.elements.filter fun e => e.viewport = v

/-- The handles of a viewport, apart from its landlord's. -/
def tenantHandles (m : BlitterManager) (v : ℕ) : List ViewportHandle :=
  m.viewportHandles.elements.filter fun h => h.viewport = v ∧ h ≠ (m.viewports v).landlordHandle

/-- EXCLUSIVE: one deed and no tenant, or one tenant and no deed. -/
def Exclusive (m : BlitterManager) (v : ℕ) : Prop :=
  ((m.deedsOf v).length = 1 ∧ m.tenantHandles v = [] ∧ (m.viewports v).tenantHandle = none) ∨
    m.deedsOf v = [] ∧ ∃ h, m.tenantHandles v = [h] ∧ (m.viewports v).tenantHandle = some h

def weight (m : BlitterManager) (v : ℕ) : ℕ :=
  m.deeds.elements.countP (fun e => e.viewport = v) + m.viewportHandles.elements.countP fun h => h.viewport = v

/-- The invariant of the tables. -/
structure Tables (m : BlitterManager) : Prop where
  handles : Stored ViewportHandle.keyFuncs m.viewportHandles
  deeds : Stored DeedEntry.keyFuncs m.deeds
  nodup : (m.viewportHandles.elements.map ViewportHandle.handle).Nodup
  below : ∀ h ∈ m.viewportHandles.elements, h.handle.toNat < m.nextViewportId.toNat
  handleViewport : ∀ h ∈ m.viewportHandles.elements, h.viewport < m.nextViewport
  deedViewport : ∀ e ∈ m.deeds.elements, e.viewport < m.nextViewport
  landlord : ∀ v < m.nextViewport, (m.viewports v).landlordHandle ∈ m.viewportHandles.elements ∧
    (m.viewports v).landlordHandle.viewport = v
  tenant : ∀ v < m.nextViewport, ∀ h, (m.viewports v).tenantHandle = some h →
    h ∈ m.viewportHandles.elements ∧ h.viewport = v ∧ h ≠ (m.viewports v).landlordHandle

lemma tables_init : init.Tables where
  handles := stored_init
  deeds := stored_init
  nodup := nodup_nil
  below _ h := absurd h not_mem_nil
  handleViewport _ h := absurd h not_mem_nil
  deedViewport _ h := absurd h not_mem_nil
  landlord _ h := absurd h (Nat.not_lt_zero _)
  tenant _ h := absurd h (Nat.not_lt_zero _)

lemma Tables.eq_of_handle (h : m.Tables) {a b : ViewportHandle} (ha : a ∈ m.viewportHandles.elements)
    (hb : b ∈ m.viewportHandles.elements) (hsame : a.handle = b.handle) : a = b :=
  inj_on_of_nodup_map h.nodup ha hb hsame

lemma Tables.weight_eq_zero (h : m.Tables) (hv : m.nextViewport ≤ v) : m.weight v = 0 := by
  rw [weight, Nat.add_eq_zero_iff, countP_eq_zero, countP_eq_zero]
  constructor
  · intro e he
    have := h.deedViewport e he
    simp only [decide_eq_true_eq]
    omega
  · intro x hx
    have := h.handleViewport x hx
    simp only [decide_eq_true_eq]
    omega

lemma Tables.countP_handles (h : m.Tables) (hv : v < m.nextViewport) :
    m.viewportHandles.elements.countP (fun x => x.viewport = v) = (m.tenantHandles v).length + 1 := by
  obtain ⟨hin, hviewport⟩ := h.landlord v hv
  have hperm := perm_cons_erase hin
  have hnodup := List.Nodup.of_map _ h.nodup
  have hrest : m.tenantHandles v = (m.viewportHandles.elements.erase (m.viewports v).landlordHandle).filter
      fun x => x.viewport = v := by
    rw [hnodup.erase_eq_filter, filter_filter, tenantHandles]
    congr 1
    funext x
    by_cases hx : x = (m.viewports v).landlordHandle <;> simp [hx]
  rw [hperm.countP_eq, countP_cons_of_pos (by simpa using hviewport), hrest, countP_eq_length_filter]

lemma Tables.congr (h : m.Tables) {t : HashTable ViewportHandle} (hst : Stored keyFuncs t)
    (hperm : t.elements.Perm m.viewportHandles.elements) : Tables { m with viewportHandles := t } where
  handles := hst
  deeds := h.deeds
  nodup := (hperm.map _).nodup_iff.mpr h.nodup
  below x hx := h.below x (hperm.mem_iff.mp hx)
  handleViewport x hx := h.handleViewport x (hperm.mem_iff.mp hx)
  deedViewport := h.deedViewport
  landlord v hv := ⟨hperm.mem_iff.mpr (h.landlord v hv).1, (h.landlord v hv).2⟩
  tenant v hv x hx := ⟨hperm.mem_iff.mpr (h.tenant v hv x hx).1, (h.tenant v hv x hx).2⟩

/-- What two states have in common that hold the same handles and deeds. -/
structure Same (m m' : BlitterManager) : Prop where
  viewportHandles : m'.viewportHandles.elements.Perm m.viewportHandles.elements
  deeds : m'.deeds.elements.Perm m.deeds.elements
  viewports : m'.viewports = m.viewports
  nextViewport : m'.nextViewport = m.nextViewport
  nextViewportId : m'.nextViewportId = m.nextViewportId

lemma Same.weight (h : Same m m') (v : ℕ) : m'.weight v = m.weight v := by
  rw [BlitterManager.weight, BlitterManager.weight, h.viewportHandles.countP_eq, h.deeds.countP_eq]

/-! ### Lookups -/

def Known (m : BlitterManager) (viewportId processId : UInt32) : Prop :=
  ∃ h ∈ m.viewportHandles.elements, h.handle = viewportId ∧ h.processId = processId

/-- A handle is in the table, and its viewport has a tenant. -/
def KnownTenant (m : BlitterManager) (viewportId processId : UInt32) : Prop :=
  ∃ h ∈ m.viewportHandles.elements, h.handle = viewportId ∧ h.processId = processId ∧
    (m.viewports h.viewport).tenantHandle ≠ none

/-- SPEC of `get_viewport`: it finds the handle, or faults. -/
lemma Tables.getViewport_cases (h : m.Tables) (viewportId processId : UInt32) :
    (m.getViewport viewportId processId = .error .nullDeref ∧ ¬m.Known viewportId processId) ∨
    ∃ m' x, m.getViewport viewportId processId = .ok (m', x.viewport) ∧ x ∈ m.viewportHandles.elements ∧
      x.handle = viewportId ∧ x.processId = processId ∧ m'.Tables ∧ Same m m' := by
  obtain ⟨t, r, hlookup, hst, hperm, hnone, hsome⟩ := h.handles.lookup_spec ⟨viewportId, processId, 0⟩
  cases r with
  | none =>
    refine .inl ⟨by rw [getViewport, hlookup], ?_⟩
    rintro ⟨x, hx, rfl, rfl⟩
    exact hnone rfl x hx (cmp_eq_zero.mpr ⟨rfl, rfl⟩)
  | some x =>
    obtain ⟨hx, hsame⟩ := hsome x rfl
    obtain ⟨hprocess, hhandle⟩ := cmp_eq_zero.mp hsame
    exact .inr ⟨{ m with viewportHandles := t }, x, by rw [getViewport, hlookup]; rfl, hx, hhandle.symm, hprocess.symm,
      h.congr hst hperm, hperm, .refl _, rfl, rfl, rfl⟩

/-- SPEC of a lookup: it faults for a handle that is not known, and returns a viewport that meets `P` or none. -/
def LooksUp (m : BlitterManager) (lookup : Checked (BlitterManager × Option ℕ)) (known : Prop) (P : ℕ → Prop) : Prop :=
  ((∃ fault, lookup = .error fault) ∧ ¬known) ∨
    ∃ m' r, lookup = .ok (m', r) ∧ known ∧ m'.Tables ∧ Same m m' ∧ ∀ v, r = some v → v < m.nextViewport ∧ P v

section
variable {lookup : Checked (BlitterManager × Option ℕ)} {known : Prop} {P : ℕ → Prop}

lemma LooksUp.inv (h : LooksUp m lookup known P) {r : Option ℕ} (hlookup : lookup = .ok (m', r)) :
    m'.Tables ∧ Same m m' ∧ ∀ v, r = some v → v < m.nextViewport ∧ P v := by
  rcases h with ⟨⟨fault, herr⟩, -⟩ | ⟨m1, r1, hok, -, hfound⟩
  · cases herr.symm.trans hlookup
  · cases hok.symm.trans hlookup
    exact hfound

lemma LooksUp.returns_iff (h : LooksUp m lookup known P) : (∃ r, lookup = .ok r) ↔ known := by
  rcases h with ⟨⟨fault, herr⟩, hunknown⟩ | ⟨m1, r1, hok, hknown, -⟩
  · exact iff_of_false (fun ⟨r, hr⟩ => absurd (herr.symm.trans hr) nofun) hunknown
  · exact iff_of_true ⟨_, hok⟩ hknown

end

/-- SPEC of `get_tenant_viewport`. -/
lemma Tables.getTenantViewport_spec (h : m.Tables) (viewportId processId : UInt32) :
    LooksUp m (m.getTenantViewport viewportId processId) (m.KnownTenant viewportId processId)
      fun v => (m.viewports v).tenantHandle = some ⟨viewportId, processId, v⟩ := by
  rcases h.getViewport_cases viewportId processId with ⟨herr, hunknown⟩ | ⟨m', x, hok, hx, rfl, rfl, htables, hsame⟩
  · refine .inl ⟨⟨_, by rw [getTenantViewport, herr, error_bind]⟩, ?_⟩
    rintro ⟨x, hx, hhandle, hprocess, -⟩
    exact hunknown ⟨x, hx, hhandle, hprocess⟩
  · cases htenant : (m.viewports x.viewport).tenantHandle with
    | none =>
      refine .inl ⟨⟨.liteAssert, ?_⟩, ?_⟩
      · simp only [getTenantViewport, hok, ok_bind, getTenantId, hsame.viewports, htenant, error_bind]
      · rintro ⟨y, hy, hhandle, -, hsome⟩
        rw [h.eq_of_handle hy hx hhandle] at hsome
        exact hsome htenant
    | some t =>
      refine .inr ⟨m', if t.handle ≠ x.handle then none else some x.viewport, ?_,
        ⟨x, hx, rfl, rfl, by rw [htenant]; exact nofun⟩, htables, hsame, ?_⟩
      · simp only [getTenantViewport, hok, ok_bind, getTenantId, hsame.viewports, htenant, pure_eq_ok]
      · intro v hv
        split at hv
        · cases hv
        case isFalse heq =>
          cases hv
          have hlt := h.handleViewport x hx
          obtain ⟨ht, -, -⟩ := h.tenant _ hlt t htenant
          obtain rfl := h.eq_of_handle ht hx (not_not.mp heq)
          exact ⟨hlt, htenant⟩

/-- SPEC of `get_landlord_viewport`. -/
lemma Tables.getLandlordViewport_spec (h : m.Tables) (viewportId processId : UInt32) :
    LooksUp m (m.getLandlordViewport viewportId processId) (m.Known viewportId processId)
      fun v => (m.viewports v).landlordHandle = ⟨viewportId, processId, v⟩ := by
  rcases h.getViewport_cases viewportId processId with ⟨herr, hunknown⟩ | ⟨m', x, hok, hx, rfl, rfl, htables, hsame⟩
  · exact .inl ⟨⟨_, by rw [getLandlordViewport, herr, error_bind]⟩, hunknown⟩
  · refine .inr ⟨m', if m'.getLandlordId x.viewport ≠ x.handle then none else some x.viewport, ?_, ⟨x, hx, rfl, rfl⟩,
      htables, hsame, ?_⟩
    · simp only [getLandlordViewport, hok, ok_bind, pure_eq_ok]
    · intro v hv
      split at hv
      · cases hv
      case isFalse heq =>
        cases hv
        have hlt := h.handleViewport x hx
        rw [getLandlordId, hsame.viewports] at heq
        exact ⟨hlt, h.eq_of_handle (h.landlord _ hlt).1 hx (not_not.mp heq)⟩

/-! ### Changes of tenancy -/

@[simp] lemma withViewport_viewports (w : BlitterViewport) :
    (m.withViewport v w).viewports = update m.viewports v w := rfl

lemma addViewportHandle_inv {x : ViewportHandle} (h : Stored keyFuncs m.viewportHandles)
    (hrun : m.addViewportHandle x = .ok m') : ∃ t, m' = { m with viewportHandles := t } ∧
      Stored keyFuncs t ∧ t.elements.Perm (x :: m.viewportHandles.elements) := by
  obtain ⟨t, hinsert, hpure⟩ := of_bind hrun
  obtain ⟨-, hst, hperm⟩ := h.insert_inv hinsert
  exact ⟨t, (Except.ok.inj hpure).symm, hst, hperm⟩

lemma manufactureDeed_inv (h : Stored DeedEntry.keyFuncs m.deeds) (hrun : m.manufactureDeed v draw = .ok m') :
    ∃ d, m' = withViewport { m with deeds := d } v
        { m.viewports v with deed := draw.deed, deedKey := draw.deedKey } ∧
      Stored DeedEntry.keyFuncs d ∧ d.elements.Perm (⟨draw.deed, v⟩ :: m.deeds.elements) := by
  obtain ⟨d, hinsert, hpure⟩ := of_bind hrun
  obtain ⟨-, hst, hperm⟩ := h.insert_inv hinsert
  exact ⟨d, (Except.ok.inj hpure).symm, hst, hperm⟩

lemma toNat_nextViewportId (hroom : m.nextViewportId.toNat + 1 < 2 ^ 32) :
    (m.nextViewportId + 1).toNat = m.nextViewportId.toNat + 1 := by
  rw [UInt32.toNat_add, UInt32.toNat_one]
  exact Nat.mod_eq_of_lt hroom

lemma Tables.add_handle (h : m.Tables) (hroom : m.nextViewportId.toNat + 1 < 2 ^ 32) {t : HashTable ViewportHandle}
    (hperm : t.elements.Perm (⟨m.nextViewportId, processId, v⟩ :: m.viewportHandles.elements))
    {n : ℕ} (hn : m.nextViewport ≤ n) (hv : v < n) :
    (t.elements.map handle).Nodup ∧
      ∀ x ∈ t.elements, x.handle.toNat < (m.nextViewportId + 1).toNat ∧ x.viewport < n := by
  rw [toNat_nextViewportId hroom]
  constructor
  · refine (hperm.map _).nodup_iff.mpr (nodup_cons.mpr ⟨fun hin => ?_, h.nodup⟩)
    obtain ⟨x, hx, heq⟩ := mem_map.mp hin
    exact (h.below x hx).ne (congrArg UInt32.toNat heq)
  · intro x hx
    rcases mem_cons.mp (hperm.mem_iff.mp hx) with rfl | hx
    · exact ⟨Nat.lt_succ_self _, hv⟩
    · exact ⟨(h.below x hx).trans (Nat.lt_succ_self _), (h.handleViewport x hx).trans_le hn⟩

/-- A viewport has been made, and a deed for it. -/
structure Created (m m' : BlitterManager) (parentViewport : Option ℕ) (draw : Draw) : Prop where
  tables : m'.Tables
  nextViewport : m'.nextViewport = m.nextViewport + 1
  nextViewportId : m'.nextViewportId.toNat = m.nextViewportId.toNat + 1
  others : ∀ w, w ≠ m.nextViewport → m'.viewports w = m.viewports w
  parentViewport : (m'.viewports m.nextViewport).parentViewport = parentViewport
  tenantHandle : (m'.viewports m.nextViewport).tenantHandle = none
  weight : ∀ w, m'.weight w = m.weight w + if w = m.nextViewport then 2 else 0
  deeds : m'.deeds.elements.Perm (⟨draw.deed, m.nextViewport⟩ :: m.deeds.elements)

lemma Tables.newViewport (h : m.Tables) (hroom : m.nextViewportId.toNat + 1 < 2 ^ 32) {parentViewport : Option ℕ}
    (hrun : m.newViewport processId parentViewport draw = .ok (m', v)) :
    v = m.nextViewport ∧ Created m m' parentViewport draw := by
  obtain ⟨m1, hadd, hrun⟩ := of_bind hrun
  obtain ⟨t, rfl, hst, hperm⟩ := addViewportHandle_inv (by exact h.handles) hadd
  obtain ⟨m2, hdeed, hrun⟩ := of_bind hrun
  obtain ⟨d, rfl, hst', hperm'⟩ := manufactureDeed_inv (by exact h.deeds) hdeed
  cases hrun
  replace hperm : t.elements.Perm (⟨m.nextViewportId, processId, m.nextViewport⟩ :: m.viewportHandles.elements) := hperm
  replace hperm' : d.elements.Perm (⟨draw.deed, m.nextViewport⟩ :: m.deeds.elements) := hperm'
  obtain ⟨hnodup, hall⟩ := h.add_handle hroom hperm (Nat.le_succ _) (Nat.lt_succ_self _)
  refine ⟨rfl, ⟨?_, rfl, toNat_nextViewportId hroom, fun w hw => by simp [hw], by simp, by simp, ?_, hperm'⟩⟩
  · refine ⟨hst, hst', hnodup, fun x hx => (hall x hx).1, fun x hx => (hall x hx).2, ?_, ?_, ?_⟩
    · intro e he
      rcases mem_cons.mp (hperm'.mem_iff.mp he) with rfl | he
      · exact Nat.lt_succ_self _
      · exact (h.deedViewport e he).trans (Nat.lt_succ_self _)
    · intro w hw
      rcases Nat.lt_succ_iff_lt_or_eq.mp hw with hw | rfl
      · obtain ⟨hin, hviewport⟩ := h.landlord w hw
        simp only [withViewport_viewports, update_of_ne hw.ne]
        exact ⟨hperm.mem_iff.mpr (mem_cons_of_mem _ hin), hviewport⟩
      · simp only [withViewport_viewports, update_self]
        exact ⟨hperm.mem_iff.mpr (mem_cons_self ..), trivial⟩
    · intro w hw x hx
      rcases Nat.lt_succ_iff_lt_or_eq.mp hw with hw | rfl
      · simp only [withViewport_viewports, update_of_ne hw.ne] at hx ⊢
        obtain ⟨hin, hrest⟩ := h.tenant w hw x hx
        exact ⟨hperm.mem_iff.mpr (mem_cons_of_mem _ hin), hrest⟩
      · simp only [withViewport_viewports, update_self] at hx
        cases hx
  · intro w
    change d.elements.countP _ + t.elements.countP _ = _
    rw [hperm.countP_eq, hperm'.countP_eq, countP_cons, countP_cons, weight]
    simp only [decide_eq_true_eq]
    split_ifs <;> omega

/-- A viewport has got a tenant. -/
structure Accepted (m m' : BlitterManager) (v : ℕ) (processId : UInt32) : Prop where
  tables : m'.Tables
  nextViewport : m'.nextViewport = m.nextViewport
  others : ∀ w, w ≠ v → m'.viewports w = m.viewports w
  parentViewport : (m'.viewports v).parentViewport = (m.viewports v).parentViewport
  tenantHandle : (m'.viewports v).tenantHandle = some ⟨m.nextViewportId, processId, v⟩
  weight : ∀ w, m'.weight w = m.weight w + if w = v then 1 else 0
  deeds : m'.deeds = m.deeds

lemma Tables.viewportAccept (h : m.Tables) (hroom : m.nextViewportId.toNat + 1 < 2 ^ 32) (hv : v < m.nextViewport)
    (hrun : m.viewportAccept v processId = .ok m') : Accepted m m' v processId := by
  obtain ⟨t, rfl, hst, hperm⟩ := addViewportHandle_inv (by exact h.handles) hrun
  replace hperm : t.elements.Perm (⟨m.nextViewportId, processId, v⟩ :: m.viewportHandles.elements) := hperm
  obtain ⟨hnodup, hall⟩ := h.add_handle hroom hperm le_rfl hv
  have hnew := h.below _ (h.landlord v hv).1
  refine ⟨⟨hst, h.deeds, hnodup, fun x hx => (hall x hx).1, fun x hx => (hall x hx).2, h.deedViewport, ?_, ?_⟩, rfl,
    fun w hw => update_of_ne hw _ _, by simp, by simp, ?_, rfl⟩
  · intro w hw
    obtain ⟨hin, hviewport⟩ := h.landlord w hw
    by_cases hwv : w = v
    · simp only [withViewport_viewports, hwv, update_self]
      exact ⟨hperm.mem_iff.mpr (mem_cons_of_mem _ (hwv ▸ hin)), hwv ▸ hviewport⟩
    · simp only [withViewport_viewports, update_of_ne hwv]
      exact ⟨hperm.mem_iff.mpr (mem_cons_of_mem _ hin), hviewport⟩
  · intro w hw x hx
    by_cases hwv : w = v
    · simp only [withViewport_viewports, hwv, update_self] at hx ⊢
      cases hx
      refine ⟨hperm.mem_iff.mpr (mem_cons_self ..), rfl, fun heq => ?_⟩
      rw [← heq] at hnew
      exact hnew.false
    · simp only [withViewport_viewports, update_of_ne hwv] at hx ⊢
      obtain ⟨hin, hrest⟩ := h.tenant w hw x hx
      exact ⟨hperm.mem_iff.mpr (mem_cons_of_mem _ hin), hrest⟩
  · intro w
    change m.deeds.elements.countP _ + t.elements.countP _ = _
    rw [hperm.countP_eq, countP_cons, weight]
    simp only [decide_eq_true_eq]
    split_ifs <;> omega

/-- A tenant has passed on a viewport. -/
structure Transferred (m m' : BlitterManager) (v : ℕ) (draw : Draw) : Prop where
  tables : m'.Tables
  nextViewport : m'.nextViewport = m.nextViewport
  others : ∀ w, w ≠ v → m'.viewports w = m.viewports w
  parentViewport : (m'.viewports v).parentViewport = (m.viewports v).parentViewport
  tenantHandle : (m'.viewports v).tenantHandle = none
  weight : ∀ w, m'.weight w = m.weight w
  deeds : m'.deeds.elements.Perm (⟨draw.deed, v⟩ :: m.deeds.elements)

lemma Tables.viewportTransfer (h : m.Tables) (hv : v < m.nextViewport) (hrun : m.viewportTransfer v draw = .ok m') :
    Transferred m m' v draw := by
  unfold BlitterManager.viewportTransfer at hrun
  split at hrun
  · cases hrun
  case _ x htenant =>
    obtain ⟨m1, hremoved, hrun⟩ := of_bind hrun
    obtain ⟨t, hremove, hpure⟩ := of_bind hremoved
    cases hpure
    obtain ⟨y, hsame, hst, hperm⟩ := h.handles.remove_inv hremove
    obtain ⟨d, rfl, hst', hperm'⟩ := manufactureDeed_inv (by exact h.deeds) hrun
    replace hperm' : d.elements.Perm (⟨draw.deed, v⟩ :: m.deeds.elements) := hperm'
    obtain ⟨hin, hviewport, hne⟩ := h.tenant v hv x htenant
    -- the handle that is removed is the tenant's
    obtain rfl : x = y := h.eq_of_handle hin (hperm.mem_iff.mpr (mem_cons_self ..))
      (cmp_eq_zero.mp hsame).2
    have hmem : ∀ z ∈ t.elements, z ∈ m.viewportHandles.elements := fun z hz =>
      hperm.mem_iff.mpr (mem_cons_of_mem _ hz)
    have hstays : ∀ z ∈ m.viewportHandles.elements, z ≠ x → z ∈ t.elements := fun z hz hne =>
      (mem_cons.mp (hperm.mem_iff.mp hz)).resolve_left hne
    refine ⟨⟨hst, hst', ?_, fun z hz => h.below z (hmem z hz), fun z hz => h.handleViewport z (hmem z hz), ?_, ?_, ?_⟩,
      rfl, fun w hw => by simp [hw], by simp, by simp, ?_, hperm'⟩
    · exact (nodup_cons.mp ((hperm.map _).nodup_iff.mp h.nodup)).2
    · intro e he
      rcases mem_cons.mp (hperm'.mem_iff.mp he) with rfl | he
      · exact hv
      · exact h.deedViewport e he
    · intro w hw
      obtain ⟨hin', hviewport'⟩ := h.landlord w hw
      by_cases hwv : w = v
      · subst hwv
        simp only [withViewport_viewports, update_self]
        exact ⟨hstays _ hin' hne.symm, hviewport'⟩
      · simp only [withViewport_viewports, update_of_ne hwv]
        refine ⟨hstays _ hin' fun heq => hwv ?_, hviewport'⟩
        rw [← hviewport', heq, hviewport]
    · intro w hw z hz
      by_cases hwv : w = v
      · simp only [withViewport_viewports, hwv, update_self] at hz
        cases hz
      · simp only [withViewport_viewports, update_of_ne hwv] at hz ⊢
        obtain ⟨hin', hviewport', hne'⟩ := h.tenant w hw z hz
        refine ⟨hstays _ hin' fun heq => hwv ?_, hviewport', hne'⟩
        rw [← hviewport', heq, hviewport]
    · intro w
      change d.elements.countP _ + t.elements.countP _ = _
      rw [BlitterManager.weight, hperm.countP_eq, hperm'.countP_eq, countP_cons, countP_cons, hviewport]
      dsimp only
      omega

/-- A deed has been shown that is in the table, as far as the table can tell. -/
structure Redeemed (m m' : BlitterManager) (deed : UInt64) (v : ℕ) (processId : UInt32) : Prop where
  tables : m'.Tables
  nextViewport : m'.nextViewport = m.nextViewport
  others : ∀ w, w ≠ v → m'.viewports w = m.viewports w
  parentViewport : (m'.viewports v).parentViewport = (m.viewports v).parentViewport
  tenantHandle : (m'.viewports v).tenantHandle = some ⟨m.nextViewportId, processId, v⟩
  weight : ∀ w, m'.weight w = m.weight w
  deeds : ∃ e, e.deed.toUInt32 = deed.toUInt32 ∧ e.viewport = v ∧ m.deeds.elements.Perm (e :: m'.deeds.elements)

lemma Tables.acceptViewport_cases (h : m.Tables) (hroom : m.nextViewportId.toNat + 1 < 2 ^ 32) {deed : UInt64}
    {r : Option ℕ} (hrun : m.acceptViewport deed processId = .ok (m', r)) :
    (r = none ∧ m'.Tables ∧ Same m m') ∨
      ∃ v, r = some v ∧ v < m.nextViewport ∧ Redeemed m m' deed v processId := by
  obtain ⟨d, found, hlookup, hst, hperm, -, hsome⟩ := h.deeds.lookup_spec ⟨deed, 0⟩
  rw [acceptViewport, hlookup] at hrun
  cases found with
  | none =>
    cases hrun
    exact .inl ⟨rfl, ⟨h.handles, hst, h.nodup, h.below, h.handleViewport,
      fun e he => h.deedViewport e (hperm.mem_iff.mp he), h.landlord, h.tenant⟩, .refl _, hperm, rfl, rfl, rfl⟩
  | some e =>
    obtain ⟨he, hsame⟩ := hsome e rfl
    obtain ⟨d', hremove, m1, haccept, hpure⟩ := of_bind2 hrun
    cases hpure
    obtain ⟨e', hsame', hst', hperm'⟩ := hst.remove_inv hremove
    have hv := h.deedViewport e he
    -- the table holds one deed with these bits
    obtain rfl : e = e' :=
      hst.eq_of_same (hperm.mem_iff.mpr he) (hperm'.mem_iff.mpr (mem_cons_self ..)) hsame'
    have hout := hperm.symm.trans hperm'
    have htables : Tables { m with deeds := d' } := ⟨h.handles, hst', h.nodup, h.below, h.handleViewport,
      fun x hx => h.deedViewport x (hout.mem_iff.mpr (mem_cons_of_mem _ hx)), h.landlord, h.tenant⟩
    obtain ⟨htables', hnext, hothers, hparent, htenant, hweight, hdeeds⟩ := htables.viewportAccept hroom hv haccept
    refine .inr ⟨_, rfl, hv, htables', hnext, hothers, hparent, htenant, fun w => ?_,
      e, (DeedEntry.cmp_eq_zero.mp hsame).symm, rfl, by rw [hdeeds]; exact hout⟩
    rw [hweight, weight, weight, hout.countP_eq, countP_cons]
    simp only [decide_eq_true_eq]
    split_ifs <;> omega

end Embassies.Monitor.BlitterManager

namespace Embassies.Monitor.ViewportSession

open Checked Utils BlitterManager List Function

variable {s s' : ViewportSession}
variable {m : BlitterManager} {v : ℕ} {processId : UInt32}

/-- The last change of a viewport's tenancy was that a process accepted it. -/
def Holder (s : ViewportSession) (v : ℕ) (processId : UInt32) : Prop :=
  ∃ deed, s.events.find? (fun event => event.viewport = v) = some (.accepted deed v processId)

def accepted (s : ViewportSession) : List UInt64 := s.events.filterMap ViewportEvent.deed?

/-- A deed differs from those drawn before in the bits that the table compares. -/
def Fresh (s : ViewportSession) (draw : Draw) : Prop := ∀ deed ∈ s.drawn, deed.toUInt32 ≠ draw.deed.toUInt32

/-- The step condition: deeds differ in their low words, and viewport ids do not wrap. -/
def Regular (s : ViewportSession) : ViewportCall → Prop
  | .newToplevel _ draw => s.Fresh draw ∧ s.manager.nextViewportId.toNat + 2 < 2 ^ 32
  | .sublet _ _ draw => s.Fresh draw ∧ s.manager.nextViewportId.toNat + 1 < 2 ^ 32
  | .accept _ _ => s.manager.nextViewportId.toNat + 1 < 2 ^ 32
  | .transfer _ _ draw => s.Fresh draw
  | .getTenant _ _ => True
  | .getLandlord _ _ => True

/-- The invariant of a session. -/
structure Inv (s : ViewportSession) : Prop where
  tables : s.manager.Tables
  conserved : ∀ v < s.manager.nextViewport,
    s.manager.weight v = if (s.manager.viewports v).parentViewport = none then 3 else 2
  outstanding : ∀ v < s.manager.nextViewport, (s.manager.viewports v).tenantHandle = none →
    ∃ e ∈ s.manager.deeds.elements, e.viewport = v
  holder : ∀ v < s.manager.nextViewport, ∀ h, (s.manager.viewports v).tenantHandle = some h → s.Holder v h.processId
  drawn : ∀ e ∈ s.manager.deeds.elements, e.deed ∈ s.drawn
  accepted : ∀ deed ∈ s.accepted, ∃ d ∈ s.drawn, d.toUInt32 = deed.toUInt32 ∧
    ∀ e ∈ s.manager.deeds.elements, e.deed.toUInt32 ≠ d.toUInt32
  once : (s.accepted.map UInt64.toUInt32).Nodup

lemma inv_init : init.Inv where
  tables := tables_init
  conserved _ h := absurd h (Nat.not_lt_zero _)
  outstanding _ h := absurd h (Nat.not_lt_zero _)
  holder _ h := absurd h (Nat.not_lt_zero _)
  drawn _ h := absurd h not_mem_nil
  accepted _ h := absurd h not_mem_nil
  once := nodup_nil

lemma Inv.same (h : s.Inv) (htables : m.Tables) (hsame : Same s.manager m) : Inv { s with manager := m } where
  tables := htables
  conserved v hv := by
    dsimp only at hv ⊢
    rw [hsame.weight, hsame.viewports]
    exact h.conserved v (hsame.nextViewport ▸ hv)
  outstanding v hv hnone := by
    dsimp only at hv hnone ⊢
    rw [hsame.viewports] at hnone
    obtain ⟨e, he, hviewport⟩ := h.outstanding v (hsame.nextViewport ▸ hv) hnone
    exact ⟨e, hsame.deeds.mem_iff.mpr he, hviewport⟩
  holder v hv x hx := by
    dsimp only at hv hx
    rw [hsame.viewports] at hx
    exact h.holder v (hsame.nextViewport ▸ hv) x hx
  drawn e he := h.drawn e (hsame.deeds.mem_iff.mp he)
  accepted deed hdeed := by
    obtain ⟨d, hd, heq, hne⟩ := h.accepted deed hdeed
    exact ⟨d, hd, heq, fun e he => hne e (hsame.deeds.mem_iff.mp he)⟩
  once := h.once

lemma holder_cons_ne {drawn : List UInt64} {event : ViewportEvent} (h : s.Holder v processId) (hne : event.viewport ≠ v)
    : Holder ⟨m, drawn, event :: s.events⟩ v processId := by
  obtain ⟨deed, hdeed⟩ := h
  exact ⟨deed, by rw [List.find?_cons_of_neg (by simpa using hne), hdeed]⟩

lemma Inv.draw (h : s.Inv) {draw : Draw} (hfresh : s.Fresh draw)
    (hperm : m.deeds.elements.Perm (⟨draw.deed, v⟩ :: s.manager.deeds.elements)) :
    (∀ e ∈ m.deeds.elements, e.deed ∈ draw.deed :: s.drawn) ∧
      ∀ deed ∈ s.accepted, ∃ d ∈ draw.deed :: s.drawn, d.toUInt32 = deed.toUInt32 ∧
        ∀ e ∈ m.deeds.elements, e.deed.toUInt32 ≠ d.toUInt32 := by
  constructor
  · intro e he
    rcases mem_cons.mp (hperm.mem_iff.mp he) with rfl | he
    · exact mem_cons_self ..
    · exact mem_cons_of_mem _ (h.drawn e he)
  · intro deed hdeed
    obtain ⟨d, hd, heq, hne⟩ := h.accepted deed hdeed
    refine ⟨d, mem_cons_of_mem _ hd, heq, fun e he => ?_⟩
    rcases mem_cons.mp (hperm.mem_iff.mp he) with rfl | he
    · exact (hfresh d hd).symm
    · exact hne e he

lemma Inv.created (h : s.Inv) {parent : ℕ} {draw : Draw} (hfresh : s.Fresh draw)
    (hcreated : Created s.manager m (some parent) draw) : Inv ⟨m, draw.deed :: s.drawn, s.events⟩ := by
  obtain ⟨hdrawn, haccepted⟩ := h.draw hfresh hcreated.deeds
  refine ⟨hcreated.tables, fun v hv => ?_, fun v hv hnone => ?_, fun v hv x hx => ?_, hdrawn, haccepted, h.once⟩
  all_goals
    dsimp only at hv ⊢
    rw [hcreated.nextViewport] at hv
    rcases Nat.lt_succ_iff_lt_or_eq.mp hv with hv | rfl
  · rw [hcreated.weight, if_neg hv.ne, hcreated.others v hv.ne]
    exact h.conserved v hv
  · rw [hcreated.weight, if_pos rfl, h.tables.weight_eq_zero le_rfl, hcreated.parentViewport, if_neg nofun]
  · dsimp only at hnone
    rw [hcreated.others v hv.ne] at hnone
    obtain ⟨e, he, hviewport⟩ := h.outstanding v hv hnone
    exact ⟨e, hcreated.deeds.mem_iff.mpr (mem_cons_of_mem _ he), hviewport⟩
  · exact ⟨_, hcreated.deeds.mem_iff.mpr (mem_cons_self ..), rfl⟩
  · dsimp only at hx
    rw [hcreated.others v hv.ne] at hx
    exact h.holder v hv x hx
  · dsimp only at hx
    rw [hcreated.tenantHandle] at hx
    cases hx

/-- A toplevel viewport is created and accepted. -/
lemma Inv.toplevel (h : s.Inv) {m' : BlitterManager} {draw : Draw} (hfresh : s.Fresh draw)
    (hcreated : Created s.manager m none draw) (haccept : Accepted m m' s.manager.nextViewport processId) :
    Inv ⟨m', draw.deed :: s.drawn, .accepted none s.manager.nextViewport processId :: s.events⟩ := by
  have hperm : m'.deeds.elements.Perm (⟨draw.deed, s.manager.nextViewport⟩ :: s.manager.deeds.elements) :=
    haccept.deeds ▸ hcreated.deeds
  obtain ⟨hdrawn, haccepted⟩ := h.draw hfresh hperm
  refine ⟨haccept.tables, fun v hv => ?_, fun v hv hnone => ?_, fun v hv x hx => ?_, hdrawn, haccepted, h.once⟩
  all_goals
    dsimp only at hv ⊢
    rw [haccept.nextViewport, hcreated.nextViewport] at hv
    rcases Nat.lt_succ_iff_lt_or_eq.mp hv with hv | rfl
  · rw [haccept.weight, hcreated.weight, if_neg hv.ne, if_neg hv.ne, haccept.others v hv.ne, hcreated.others v hv.ne]
    exact h.conserved v hv
  · rw [haccept.weight, hcreated.weight, if_pos rfl, if_pos rfl, h.tables.weight_eq_zero le_rfl,
      haccept.parentViewport, hcreated.parentViewport, if_pos rfl]
  · dsimp only at hnone
    rw [haccept.others v hv.ne, hcreated.others v hv.ne] at hnone
    obtain ⟨e, he, hviewport⟩ := h.outstanding v hv hnone
    exact ⟨e, hperm.mem_iff.mpr (mem_cons_of_mem _ he), hviewport⟩
  · exact ⟨_, hperm.mem_iff.mpr (mem_cons_self ..), rfl⟩
  · dsimp only at hx
    rw [haccept.others v hv.ne, hcreated.others v hv.ne] at hx
    exact holder_cons_ne (h.holder v hv x hx) hv.ne'
  · dsimp only at hx
    rw [haccept.tenantHandle] at hx
    cases hx
    exact ⟨none, List.find?_cons_of_pos (by simp [ViewportEvent.viewport])⟩

lemma Inv.transferred (h : s.Inv) {draw : Draw} (hfresh : s.Fresh draw) (htransfer : Transferred s.manager m v draw) :
    Inv ⟨m, draw.deed :: s.drawn, .transferred v :: s.events⟩ := by
  obtain ⟨hdrawn, haccepted⟩ := h.draw hfresh htransfer.deeds
  refine ⟨htransfer.tables, fun w hw => ?_, fun w hw hnone => ?_, fun w hw x hx => ?_, hdrawn, haccepted, h.once⟩
  all_goals
    dsimp only at hw ⊢
    rw [htransfer.nextViewport] at hw
    by_cases hwv : w = v
  · rw [hwv, htransfer.weight, htransfer.parentViewport]
    exact h.conserved v (hwv ▸ hw)
  · rw [htransfer.weight, htransfer.others w hwv]
    exact h.conserved w hw
  · exact ⟨_, htransfer.deeds.mem_iff.mpr (mem_cons_self ..), hwv.symm⟩
  · dsimp only at hnone
    rw [htransfer.others w hwv] at hnone
    obtain ⟨e, he, hviewport⟩ := h.outstanding w hw hnone
    exact ⟨e, htransfer.deeds.mem_iff.mpr (mem_cons_of_mem _ he), hviewport⟩
  · dsimp only at hx
    rw [hwv, htransfer.tenantHandle] at hx
    cases hx
  · dsimp only at hx
    rw [htransfer.others w hwv] at hx
    exact holder_cons_ne (h.holder w hw x hx) (Ne.symm hwv)

lemma Inv.redeemed (h : s.Inv) {deed : UInt64} (hredeem : Redeemed s.manager m deed v processId) :
    Inv ⟨m, s.drawn, .accepted (some deed) v processId :: s.events⟩ := by
  obtain ⟨e, hbits, rfl, hperm⟩ := hredeem.deeds
  have hin : ∀ x ∈ m.deeds.elements, x ∈ s.manager.deeds.elements := fun x hx =>
    hperm.mem_iff.mpr (mem_cons_of_mem _ hx)
  have he := hperm.mem_iff.mpr (mem_cons_self ..)
  refine ⟨hredeem.tables, fun w hw => ?_, fun w hw hnone => ?_, fun w hw x hx => ?_, fun x hx => h.drawn x (hin x hx),
    fun d hd => ?_, ?_⟩
  · dsimp only at hw ⊢
    rw [hredeem.nextViewport] at hw
    rw [hredeem.weight, h.conserved w hw]
    by_cases hwv : w = e.viewport
    · rw [hwv, hredeem.parentViewport]
    · rw [hredeem.others w hwv]
  · dsimp only at hw hnone ⊢
    rw [hredeem.nextViewport] at hw
    by_cases hwv : w = e.viewport
    · rw [hwv, hredeem.tenantHandle] at hnone
      cases hnone
    · rw [hredeem.others w hwv] at hnone
      obtain ⟨x, hx, hviewport⟩ := h.outstanding w hw hnone
      refine ⟨x, (mem_cons.mp (hperm.mem_iff.mp hx)).resolve_left ?_, hviewport⟩
      rintro rfl
      exact hwv hviewport.symm
  · dsimp only at hw hx
    rw [hredeem.nextViewport] at hw
    by_cases hwv : w = e.viewport
    · rw [hwv, hredeem.tenantHandle] at hx
      cases hx
      exact ⟨some deed, List.find?_cons_of_pos (by simp [ViewportEvent.viewport, hwv]) |>.trans (by rw [hwv])⟩
    · rw [hredeem.others w hwv] at hx
      exact holder_cons_ne (h.holder w hw x hx) (Ne.symm hwv)
  · -- the table has no two deeds with the same bits
    rcases mem_cons.mp hd with rfl | hd
    · refine ⟨e.deed, h.drawn e he, hbits, fun x hx heq => ?_⟩
      have hdistinct := pairwise_cons.mp (HashTable.distinct_perm hperm h.tables.deeds.distinct)
      exact hdistinct.1 x hx (DeedEntry.cmp_eq_zero.mpr heq.symm)
    · obtain ⟨d', hd', heq, hne⟩ := h.accepted d hd
      exact ⟨d', hd', heq, fun x hx => hne x (hin x hx)⟩
  · refine nodup_cons.mpr ⟨fun hin => ?_, h.once⟩
    obtain ⟨d, hd, heq⟩ := mem_map.mp hin
    obtain ⟨d', -, heq', hne⟩ := h.accepted d hd
    exact hne e he (hbits.trans (heq.symm.trans heq'.symm))

/-- STEP: a regular call keeps the invariant. -/
lemma call_inv (s : ViewportSession) (c : ViewportCall) (s' : ViewportSession) (h : s.Inv) (hregular : s.Regular c)
    (hrun : s.call c = .ok s') : s'.Inv := by
  cases c with
  | newToplevel processId draw =>
    obtain ⟨hfresh, hroom⟩ := hregular
    obtain ⟨⟨m', v⟩, hnew, hpure⟩ := of_bind hrun
    obtain rfl := Except.ok.inj hpure
    obtain ⟨⟨m, v'⟩, hcreate, hnew⟩ := of_bind hnew
    obtain ⟨m1, haccept, hpure⟩ := of_bind hnew
    obtain ⟨rfl, rfl⟩ := Prod.mk.inj (Except.ok.inj hpure)
    obtain ⟨rfl, hcreated⟩ := h.tables.newViewport (by omega) hcreate
    have hid := hcreated.nextViewportId
    have hnext := hcreated.nextViewport
    exact h.toplevel hfresh hcreated (hcreated.tables.viewportAccept (by omega) (by omega) haccept)
  | sublet viewportId processId draw =>
    obtain ⟨hfresh, hroom⟩ := hregular
    obtain ⟨⟨m', v⟩, hsublet, hpure⟩ := of_bind hrun
    obtain rfl := Except.ok.inj hpure
    obtain ⟨⟨m, r⟩, hlookup, hsublet⟩ := of_bind hsublet
    obtain ⟨htables, hsame, -⟩ := (h.tables.getTenantViewport_spec viewportId processId).inv hlookup
    cases r with
    | none => cases hsublet
    | some parent =>
      obtain ⟨-, hcreated⟩ := htables.newViewport (hsame.nextViewportId ▸ hroom) hsublet
      exact (h.same htables hsame).created hfresh hcreated
  | accept deed processId =>
    obtain ⟨⟨m, r⟩, haccept, hrun⟩ := of_bind hrun
    rcases h.tables.acceptViewport_cases hregular haccept with ⟨rfl, htables, hsame⟩ | ⟨v, rfl, -, hredeem⟩
    · obtain rfl := Except.ok.inj hrun
      exact h.same htables hsame
    · obtain rfl := Except.ok.inj hrun
      exact h.redeemed hredeem
  | transfer viewportId processId draw =>
    obtain ⟨⟨m', v⟩, htransfer, hpure⟩ := of_bind hrun
    obtain rfl := Except.ok.inj hpure
    obtain ⟨⟨m, r⟩, hlookup, htransfer⟩ := of_bind htransfer
    obtain ⟨htables, hsame, hsome⟩ := (h.tables.getTenantViewport_spec viewportId processId).inv hlookup
    cases r with
    | none => cases htransfer
    | some w =>
      obtain ⟨hw, -⟩ := hsome w rfl
      obtain ⟨tenantId, -, -, -, m2, htransferred, hpure⟩ := of_bind3 htransfer
      cases hpure
      exact (h.same htables hsame).transferred hregular
        (htables.viewportTransfer (hsame.nextViewport ▸ hw) htransferred)
  | getTenant viewportId processId =>
    obtain ⟨⟨m, r⟩, hlookup, hpure⟩ := of_bind hrun
    obtain rfl := Except.ok.inj hpure
    obtain ⟨htables, hsame, -⟩ := (h.tables.getTenantViewport_spec viewportId processId).inv hlookup
    exact h.same htables hsame
  | getLandlord viewportId processId =>
    obtain ⟨⟨m, r⟩, hlookup, hpure⟩ := of_bind hrun
    obtain rfl := Except.ok.inj hpure
    obtain ⟨htables, hsame, -⟩ := (h.tables.getLandlordViewport_spec viewportId processId).inv hlookup
    exact h.same htables hsame

/-! ### Tenancy -/

/-- EXCLUSIVE: viewports are, unless they are toplevel. -/
lemma Inv.exclusive_iff (h : s.Inv) (hv : v < s.manager.nextViewport) :
    s.manager.Exclusive v ↔ (s.manager.viewports v).parentViewport ≠ none := by
  have hweight := h.conserved v hv
  rw [weight, h.tables.countP_handles hv, countP_eq_length_filter] at hweight
  change (s.manager.deedsOf v).length + _ = _ at hweight
  constructor
  · intro hexcl hnone
    rw [if_pos hnone] at hweight
    rcases hexcl with ⟨hdeeds, htenants, -⟩ | ⟨hdeeds, x, htenants, -⟩
    · rw [hdeeds, htenants, length_nil] at hweight
      omega
    · rw [hdeeds, htenants, length_nil, length_singleton] at hweight
      omega
  · intro hsome
    rw [if_neg hsome] at hweight
    cases htenant : (s.manager.viewports v).tenantHandle with
    | none =>
      obtain ⟨e, he, hviewport⟩ := h.outstanding v hv htenant
      have hmem : e ∈ s.manager.deedsOf v := mem_filter.mpr ⟨he, by simpa using hviewport⟩
      have hpos := length_pos_of_mem hmem
      exact .inl ⟨by omega, length_eq_zero_iff.mp (by omega), htenant⟩
    | some x =>
      obtain ⟨hin, hviewport, hne⟩ := h.tables.tenant v hv x htenant
      have hmem : x ∈ s.manager.tenantHandles v := mem_filter.mpr ⟨hin, by simp [hviewport, hne]⟩
      have hpos := length_pos_of_mem hmem
      obtain ⟨y, hy⟩ := length_eq_one_iff.mp (by omega : (s.manager.tenantHandles v).length = 1)
      rw [hy] at hmem
      obtain rfl := mem_singleton.mp hmem
      exact .inr ⟨length_eq_zero_iff.mp (by omega), x, hy, htenant⟩

def FindsTenant (s : ViewportSession) (viewportId processId : UInt32) : Prop :=
  ∀ m v, s.manager.getTenantViewport viewportId processId = .ok (m, some v) →
    (s.manager.viewports v).tenantHandle = some ⟨viewportId, processId, v⟩ ∧ s.Holder v processId

def FindsLandlord (s : ViewportSession) (viewportId processId : UInt32) : Prop :=
  ∀ m v, s.manager.getLandlordViewport viewportId processId = .ok (m, some v) →
    (s.manager.viewports v).landlordHandle = ⟨viewportId, processId, v⟩

/-- TENANCY: in every state that regular calls reach, the viewports that are not toplevel are exclusive and the
    others are not; each deed is accepted once; lookups find viewports of the process that asks; and they return
    for the handles in the table, a tenant's if the viewport has a tenant, and fault for all others. -/
theorem tenancy (calls : List ViewportCall) (hregular : Along call Regular init calls)
    (hrun : run call init calls = .ok s) :
    (∀ v < s.manager.nextViewport, s.manager.Exclusive v ↔ (s.manager.viewports v).parentViewport ≠ none) ∧
      s.accepted.Nodup ∧
      ∀ viewportId processId, s.FindsTenant viewportId processId ∧ s.FindsLandlord viewportId processId ∧
        ((∃ r, s.manager.getTenantViewport viewportId processId = .ok r) ↔ s.manager.KnownTenant viewportId processId) ∧
        ((∃ r, s.manager.getLandlordViewport viewportId processId = .ok r) ↔ s.manager.Known viewportId processId) := by
  have h : s.Inv := run_invariant call_inv calls init s inv_init hregular hrun
  refine ⟨fun v hv => h.exclusive_iff hv, h.once.of_map, fun viewportId processId => ?_⟩
  have htenant := h.tables.getTenantViewport_spec viewportId processId
  have hlandlord := h.tables.getLandlordViewport_spec viewportId processId
  refine ⟨fun m v hlookup => ?_, fun m v hlookup => ?_, htenant.returns_iff, hlandlord.returns_iff⟩
  · obtain ⟨hv, hhandle⟩ := (htenant.inv hlookup).2.2 v rfl
    exact ⟨hhandle, h.holder v hv _ hhandle⟩
  · exact ((hlandlord.inv hlookup).2.2 v rfl).2

def subletCalls : List ViewportCall := [.newToplevel 7 ⟨1, 0⟩, .sublet 2 7 ⟨2, 0⟩]

lemma newToplevel_first : (call init (.newToplevel 7 ⟨1, 0⟩) >>= fun s =>
    pure (s.drawn, s.manager.nextViewportId)) = .ok ([1], 3) := rfl

lemma subletCalls_end : (run call init subletCalls >>= fun s => pure (s.manager.nextViewport,
    (s.manager.viewports 0).parentViewport, (s.manager.viewports 1).parentViewport)) = .ok (2, none, some 0) := rfl

lemma subletCalls_regular : Along call Regular init subletCalls := by
  refine ⟨⟨nofun, by decide⟩, fun s hs => ⟨?_, fun _ _ => trivial⟩⟩
  have hfirst := newToplevel_first
  rw [hs, ok_bind] at hfirst
  obtain ⟨hdrawn, hid⟩ := Prod.mk.inj (Except.ok.inj hfirst)
  refine ⟨fun deed hdeed => ?_, by rw [hid]; decide⟩
  rw [hdrawn, mem_singleton] at hdeed
  rw [hdeed]
  decide

/-- The viewport that is sublet is exclusive, the toplevel one is not. -/
theorem tenancy_sublet : ∃ s, run call init subletCalls = .ok s ∧ s.manager.Exclusive 1 ∧ ¬s.manager.Exclusive 0 := by
  obtain ⟨s, hrun, hend⟩ := of_bind subletCalls_end
  obtain ⟨hnext, hends⟩ := Prod.mk.inj (Except.ok.inj hend)
  obtain ⟨htop, hsublet⟩ := Prod.mk.inj hends
  have hexcl := (tenancy subletCalls subletCalls_regular hrun).1
  refine ⟨s, hrun, (hexcl 1 (by omega)).mpr ?_, fun hzero => (hexcl 0 (by omega)).mp hzero htop⟩
  rw [hsublet]
  exact nofun

def Distinct (s : ViewportSession) : ViewportCall → Prop
  | .newToplevel _ draw => draw.deed ∉ s.drawn
  | .sublet _ _ draw => draw.deed ∉ s.drawn
  | .transfer _ _ draw => draw.deed ∉ s.drawn
  | _ => True

/-- What the manager promises in a state. -/
structure Tenancy (s : ViewportSession) : Prop where
  exclusive : ∀ v < s.manager.nextViewport, s.manager.Exclusive v
  once : s.accepted.Nodup
  findsTenant : ∀ viewportId processId, s.FindsTenant viewportId processId
  findsLandlord : ∀ viewportId processId, s.FindsLandlord viewportId processId
  getTenant : ∀ viewportId processId, ∃ r, s.manager.getTenantViewport viewportId processId = .ok r
  getLandlord : ∀ viewportId processId, ∃ r, s.manager.getLandlordViewport viewportId processId = .ok r

/-- The promise is not kept: a toplevel viewport has a tenant and an outstanding deed. -/
theorem not_tenancy : ¬∀ (calls : List ViewportCall) (s : ViewportSession), Along call Distinct init calls →
    run call init calls = .ok s → s.Tenancy := by
  intro hall
  obtain ⟨s, hrun, hend⟩ := of_bind subletCalls_end
  obtain ⟨hnext, hends⟩ := Prod.mk.inj (Except.ok.inj hend)
  have hinv : s.Inv := run_invariant call_inv subletCalls init s inv_init subletCalls_regular hrun
  have hdistinct : Along call Distinct init subletCalls := by
    refine subletCalls_regular.mono fun s c hc => ?_
    cases c with
    | newToplevel processId draw => exact fun hin => hc.1 _ hin rfl
    | sublet viewportId processId draw => exact fun hin => hc.1 _ hin rfl
    | transfer viewportId processId draw => exact fun hin => hc _ hin rfl
    | accept deed processId => trivial
    | getTenant viewportId processId => trivial
    | getLandlord viewportId processId => trivial
  exact (hinv.exclusive_iff (by omega)).mp ((hall _ s hdistinct hrun).exclusive 0 (by omega)) (Prod.mk.inj hends).1

end Embassies.Monitor.ViewportSession
