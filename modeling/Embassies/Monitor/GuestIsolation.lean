import Embassies.Monitor.GuestMemoryLaws

/-! What a guest can free.

    The pages that the monitor keeps using are in the same allocator as those of the guest. A free is
    isolated if it takes from their owners only the bytes that were named, and none of the monitor's. The
    monitor checks this for the page of host alarms, but not for the IDT page; a range that does not consist
    of pages is widened to pages, and a start far above guest memory is compared as if it lay below. -/

namespace Embassies.Monitor.GuestMemory

open Checked Utils CoalescingAllocator Set MemSlot

/-- The slot that an address belongs to, as `lookup_value` says. -/
def Owner (m : GuestMemory) (x slot : ℕ) : Prop := ∃ range, m.allocator.lookupValue x = .ok (some (some slot, range))

def slotSpace (m : GuestMemory) (slot : ℕ) : Set ℕ :=
  Set.Ico (m.slots slot).guestRange.start (m.slots slot).guestRange.stop

/-- The monitor still has its pages. -/
structure Keeps (m : GuestMemory) : Prop where
  hostAlarmsPage : ∀ x ∈ m.slotSpace m.hostAlarmsPage, m.Owner x m.hostAlarmsPage
  idtPage : ∀ x ∈ m.slotSpace m.idtPage, m.Owner x m.idtPage

/-- The bytes that a free names, without wrap. -/
def Requested (guestStart size : ℕ) : Set ℕ := Set.Ico guestStart (guestStart + size)

/-- ISOLATED: only named bytes that are not the monitor's lose their owner, and none gets another one. -/
structure Isolated (m : GuestMemory) (guestStart size : ℕ) (m' : GuestMemory) : Prop where
  kept : ∀ x slot, m.Owner x slot → m'.Owner x slot ∨
    (x ∈ Requested guestStart size ∧ x ∉ m.slotSpace m.hostAlarmsPage ∧ x ∉ m.slotSpace m.idtPage)
  same : ∀ x slot, m'.Owner x slot → m.Owner x slot

def Words : Call → Prop
  | .allocate reqSize => reqSize < 2 ^ 32
  | .free guestStart size => guestStart < 2 ^ 32 ∧ size < 2 ^ 32

/-- Frees of an empty range of pages, or from a start below `2^31` and not of the IDT page. -/
def Spares (m : GuestMemory) : Call → Prop
  | .allocate reqSize => reqSize < 2 ^ 32
  | .free guestStart size => guestStart < 2 ^ 32 ∧ size < 2 ^ 32 ∧
    ((freedRange guestStart size).size = 0 ∨
      guestStart < 2 ^ 31 ∧ ((freedRange guestStart size).intersect (m.slots m.idtPage).guestRange).size = 0)

/-- Frees that rounding does not widen: of an empty range of pages, or of a range that consists of pages. -/
def OfPages (guestStart size : ℕ) : Prop :=
  (freedRange guestStart size).size = 0 ∨ pageSize ∣ guestStart ∧ pageSize ∣ guestStart + size

def NamesAlarms (m : GuestMemory) (guestStart size : ℕ) : Prop :=
  ((freedRange guestStart size).intersect (m.slots m.hostAlarmsPage).guestRange).size ≠ 0

/-- The invariant: the monitor's pages are allocated. -/
structure Monitored (m : GuestMemory) (A : Set (RangeByStartElt ℕ)) : Prop where
  hostAlarmsPage : ∀ x ∈ m.slotSpace m.hostAlarmsPage, Owned A x m.hostAlarmsPage
  idtPage : ∀ x ∈ m.slotSpace m.idtPage, Owned A x m.idtPage
  hostAlarmsSlot : m.hostAlarmsPage < m.nextSlot
  idtSlot : m.idtPage < m.nextSlot

variable {m m' : GuestMemory} {F : Set Range} {A A' : Set (RangeByStartElt ℕ)} {slot guestStart size : ℕ}

lemma Sound.owner_iff (h : m.Sound F A) (x slot : ℕ) : m.Owner x slot ↔ Owned A x slot :=
  lookupValue_owned h.layout.allocated x slot

lemma Monitored.keeps (h : m.Sound F A) (hmon : m.Monitored A) : m.Keeps where
  hostAlarmsPage x hx := (h.owner_iff x _).mpr (hmon.hostAlarmsPage x hx)
  idtPage x hx := (h.owner_iff x _).mpr (hmon.idtPage x hx)

lemma owned_mono {x : ℕ} (h : Owned A x slot) (hsub : A ⊆ A') : Owned A' x slot := by
  obtain ⟨e, he, hx⟩ := h
  exact ⟨e, hsub he, hx⟩

lemma Extends.slotSpace (hext : m.Extends m') (hslot : slot < m.nextSlot) :
    m'.slotSpace slot = m.slotSpace slot := by
  rw [GuestMemory.slotSpace, hext.slots slot hslot, GuestMemory.slotSpace]

lemma Monitored.mono (hmon : m.Monitored A) (hext : m.Extends m') (hsub : A ⊆ A') : m'.Monitored A' where
  hostAlarmsPage x hx := by
    rw [hext.hostAlarmsPage] at hx ⊢
    rw [hext.slotSpace hmon.hostAlarmsSlot] at hx
    exact owned_mono (hmon.hostAlarmsPage x hx) hsub
  idtPage x hx := by
    rw [hext.idtPage] at hx ⊢
    rw [hext.slotSpace hmon.idtSlot] at hx
    exact owned_mono (hmon.idtPage x hx) hsub
  hostAlarmsSlot := hext.hostAlarmsPage ▸ hmon.hostAlarmsSlot.trans_le hext.nextSlot
  idtSlot := hext.idtPage ▸ hmon.idtSlot.trans_le hext.nextSlot

lemma Monitored.freed {R : Set ℕ} {a : CoalescingAllocator ℕ} {F' : Set Range} (h : m.Sound F A) (hmon : m.Monitored A)
    (hfreed : Freed m.allocator F A R a F' A')
    (halarms : Disjoint R (m.slotSpace m.hostAlarmsPage)) (hidt : Disjoint R (m.slotSpace m.idtPage)) :
    { m with allocator := a }.Monitored A' where
  hostAlarmsPage x hx := (hfreed.owned_iff h.layout.allocated x _).mpr
    ⟨hmon.hostAlarmsPage x hx, fun hR => disjoint_left.mp halarms hR hx⟩
  idtPage x hx := (hfreed.owned_iff h.layout.allocated x _).mpr
    ⟨hmon.idtPage x hx, fun hR => disjoint_left.mp hidt hR hx⟩
  hostAlarmsSlot := hmon.hostAlarmsSlot
  idtSlot := hmon.idtSlot

lemma disjoint_of_size_zero {r q : Range} (h : (r.intersect q).size = 0) :
    Disjoint (Set.Ico r.start r.stop) (Set.Ico q.start q.stop) := by
  rw [Range.size_intersect] at h
  refine disjoint_left.mpr fun x hx hx' => ?_
  rw [mem_Ico] at hx hx'
  omega

lemma disjoint_of_size {r : Range} {S : Set ℕ} (h : r.size = 0 ∨ Disjoint (Set.Ico r.start r.stop) S) :
    Disjoint (Set.Ico r.start r.stop) S := by
  rcases h with hzero | h
  · rw [Range.size_eq] at hzero
    rw [Set.Ico_eq_empty (by omega)]
    exact empty_disjoint _
  · exact h

lemma Sound.freedRange_below (h : m.Sound F A) (hstart : guestStart < 2 ^ 32)
    (hrange : (freedRange guestStart size).size = 0 ∨ guestStart < 2 ^ 31)
    (hlt : (freedRange guestStart size).start < (freedRange guestStart size).stop) :
    Below (freedRange guestStart size) A := by
  refine ⟨?_, .inr fun e he => (h.stop_le he).trans_lt hostPhysMemorySize_lt⟩
  rcases hrange with hzero | hlow
  · rw [Range.size_eq] at hzero
    omega
  · rw [freedRange, roundDownToPage_eq hstart]
    dsimp only
    omega

lemma freedRange_subset (hstart : guestStart < 2 ^ 32) (hpages : OfPages guestStart size) :
    Set.Ico (freedRange guestStart size).start (freedRange guestStart size).stop ⊆ Requested guestStart size := by
  have hdown := roundDownToPage_eq hstart
  have hup := roundUpToPage_eq (u32_lt (guestStart + size))
  rcases hpages with hzero | ⟨hfirst, hlast⟩
  · rw [Range.size_eq] at hzero
    rw [Set.Ico_eq_empty (by omega)]
    exact Set.empty_subset _
  · refine Set.Ico_subset_Ico ?_ ?_
    · rw [freedRange, hdown]
      exact (Nat.div_mul_cancel hfirst).ge
    · rw [freedRange, hup]
      simp only [pageSize] at hlast
      unfold u32
      dsimp only
      omega

/-- STEP for a free that spares the monitor's pages. -/
lemma freeGuestMemory_spares (h : m.Sound F A) (hmon : m.Monitored A) (hspares : m.Spares (.free guestStart size)) :
    (m.NamesAlarms guestStart size ∧ m.freeGuestMemory guestStart size = .error .liteAssert) ∨
    ∃ a F' A', m.freeGuestMemory guestStart size = .ok { m with allocator := a } ∧
      { m with allocator := a }.Sound F' A' ∧ { m with allocator := a }.Monitored A' ∧
      (OfPages guestStart size → Isolated m guestStart size { m with allocator := a }) := by
  obtain ⟨hstart, -, hrange⟩ := hspares
  by_cases hnames : m.NamesAlarms guestStart size
  · exact .inl ⟨hnames, if_pos hnames⟩
  have halarms := disjoint_of_size_zero (not_not.mp hnames)
  have hidt : Disjoint (Set.Ico (freedRange guestStart size).start (freedRange guestStart size).stop)
      (m.slotSpace m.idtPage) := disjoint_of_size (hrange.imp_right fun hzero => disjoint_of_size_zero hzero.2)
  obtain ⟨a, F', A', hrun, hfreed⟩ := freeRange_spec h.layout (freedRange_stop_lt guestStart size)
    (h.freedRange_below hstart (hrange.imp_right And.left)) (.inl h.redundant)
  have hsound := h.freed hfreed
  refine .inr ⟨a, F', A', ?_, hsound, hmon.freed h hfreed halarms hidt,
    fun hpages => ⟨fun x slot hx => ?_, fun x slot hx => ?_⟩⟩
  · exact (if_neg hnames).trans (bind_eq_ok.mpr ⟨a, hrun, rfl⟩)
  · rw [h.owner_iff] at hx
    rw [hsound.owner_iff, hfreed.owned_iff h.layout.allocated]
    by_cases hR : x ∈ Set.Ico (freedRange guestStart size).start (freedRange guestStart size).stop
    · exact .inr ⟨freedRange_subset hstart hpages hR, disjoint_left.mp halarms hR, disjoint_left.mp hidt hR⟩
    · exact .inl ⟨hx, hR⟩
  · rw [hsound.owner_iff, hfreed.owned_iff h.layout.allocated] at hx
    exact (h.owner_iff x slot).mpr hx.1

/-- STEP: a call that spares the monitor's pages keeps them. -/
lemma call_monitored (c : Call) (hinv : ∃ F A, m.Sound F A ∧ m.Monitored A) (hspares : m.Spares c)
    (hrun : m.call c = .ok m') : ∃ F A, m'.Sound F A ∧ m'.Monitored A := by
  obtain ⟨F, A, h, hmon⟩ := hinv
  cases c with
  | allocate reqSize =>
    obtain ⟨⟨m1, out⟩, hok, hrun⟩ := of_bind hrun
    cases hrun
    obtain ⟨F', A', hsound, hsub, hext⟩ := allocateGuestMemory_extends h hok
    exact ⟨F', A', hsound, hmon.mono hext hsub⟩
  | free guestStart size =>
    rcases freeGuestMemory_spares h hmon hspares with ⟨-, herr⟩ | ⟨a, F', A', hok, hsound, hmon', -⟩
    · rw [call, herr] at hrun
      cases hrun
    · rw [call, hok] at hrun
      cases hrun
      exact ⟨F', A', hsound, hmon'⟩

lemma needSlot_spec (h : m.Tidy F A) {result : GuestMemory × Option ℕ}
    (hrun : m.allocateGuestMemory pageSize = .ok result) (hneed : needSlot result = .ok (m', slot)) :
    ∃ F' A', m'.Tidy F' A' ∧ A ⊆ A' ∧ m.Extends m' ∧ slot < m'.nextSlot ∧ ∀ x ∈ m'.slotSpace slot, Owned A' x slot := by
  have hround : pageSize = roundUpToPage pageSize := by decide
  rcases allocateGuestMemory_fits h.sound hround (by decide) with
    ⟨hok, -⟩ | ⟨a, F', r, hr, -, -, hallocate, hok, hsound, -⟩
  · rw [hok] at hrun
    cases hrun
    cases hneed
  · rw [hok] at hrun
    cases hrun
    cases hneed
    refine ⟨F', _, h.allocated hr (by decide) hallocate hsound, subset_insert _ _, extends_withSlot _ _,
      Nat.lt_succ_self _, fun x hx => ?_⟩
    have hslot : (m.withSlot a ⟨true, ⟨r.start, r.start + pageSize⟩, hostPhysMemory + r.start⟩).slots m.nextSlot =
      ⟨true, ⟨r.start, r.start + pageSize⟩, hostPhysMemory + r.start⟩ := Function.update_self _ _ _
    rw [slotSpace, hslot, mem_Ico] at hx
    exact ⟨_, mem_insert _ _, hx.1, hx.2, rfl⟩

/-- The constructor leaves the monitor its two pages. -/
lemma setup_monitored (hsetup : setup = .ok m) : ∃ F A, m.Tidy F A ∧ m.Monitored A := by
  have hnone : freeSpace ∅ = ∅ := covered_empty
  have hnone' : allocatedSpace (∅ : Set (RangeByStartElt ℕ)) = ∅ := covered_empty
  obtain ⟨a, b, F0, hcreate, hfree, hspace⟩ := createEmptyRange_spec (r := ⟨guestAddrStart, hostPhysMemorySize⟩)
    (init_layout (U := ℕ) true).free (by decide) (by decide) (by simp [hnone])
  rw [hnone, empty_union] at hspace
  rw [setup, hcreate, ok_bind] at hsetup
  obtain ⟨result, hrun, ⟨m1, alarms⟩, hneed, result', hrun', hsetup⟩ := of_bind3 hsetup
  obtain ⟨⟨m2, idt⟩, hneed', hsetup⟩ := of_bind hsetup
  cases hsetup
  have h0 : Tidy ⟨(CoalescingAllocator.init true).withFree a b, fun _ => .unconfigured, 0, 0, 0⟩ F0 ∅ := by
    refine ⟨⟨⟨hfree, (init_layout true).allocated.congr rfl rfl, by simp [hnone']⟩, rfl, ?_, nofun⟩,
      ⟨fun id => ?_, nofun, nofun, List.nodup_nil⟩, nofun, nofun⟩
    · rw [hspace, hnone', union_empty]
      rfl
    · simp [fragmentsOf, reference, init, withFree]
  obtain ⟨F1, A1, h1, -, -, hlt1, howned1⟩ := needSlot_spec h0 hrun hneed
  have h1' : { m1 with hostAlarmsPage := alarms }.Tidy F1 A1 :=
    ⟨⟨h1.sound.layout, h1.sound.redundant, h1.sound.space, h1.sound.backed⟩, h1.refs, h1.ends, h1.destroyed⟩
  obtain ⟨F2, A2, h2, hsub, hext, hlt2, howned2⟩ := needSlot_spec h1' hrun' hneed'
  have halarms : m2.hostAlarmsPage = alarms := hext.hostAlarmsPage
  refine ⟨F2, A2, ⟨⟨h2.sound.layout, h2.sound.redundant, h2.sound.space, h2.sound.backed⟩, h2.refs, h2.ends,
    h2.destroyed⟩, fun x hx => ?_, howned2, ?_, hlt2⟩
  · change x ∈ m2.slotSpace m2.hostAlarmsPage at hx
    change Owned A2 x m2.hostAlarmsPage
    rw [halarms] at hx ⊢
    rw [hext.slotSpace hlt1] at hx
    exact owned_mono (howned1 x hx) hsub
  · change m2.hostAlarmsPage < m2.nextSlot
    rw [halarms]
    exact hlt1.trans_le hext.nextSlot

/-- ISOLATION: in a run whose calls spare the IDT page and name no start above guest memory, the monitor has
    its pages in every state reached, and a further such free stops the guest for naming the page of host
    alarms, or keeps the monitor's pages and, if rounding does not widen it, is isolated. -/
theorem guestMemory_isolated {m₀ : GuestMemory} (hsetup : setup = .ok m₀) (calls : List Call)
    (hspares : Along call Spares m₀ calls) (hrun : run call m₀ calls = .ok m) :
    m.Keeps ∧ ∀ guestStart size, m.Spares (.free guestStart size) →
      (m.NamesAlarms guestStart size ∧ m.freeGuestMemory guestStart size = .error .liteAssert) ∨
      ∃ m', m.freeGuestMemory guestStart size = .ok m' ∧ m'.Keeps ∧
        (OfPages guestStart size → Isolated m guestStart size m') := by
  obtain ⟨F₀, A₀, h₀, hmon₀⟩ := setup_monitored hsetup
  have hinv := run_invariant (I := fun m => ∃ F A, m.Sound F A ∧ m.Monitored A)
    (fun m c m' hinv hspares hrun => call_monitored c hinv hspares hrun) calls m₀ m
    ⟨F₀, A₀, h₀.sound, hmon₀⟩ hspares hrun
  obtain ⟨F, A, h, hmon⟩ := hinv
  refine ⟨hmon.keeps h, fun guestStart size hfree => ?_⟩
  rcases freeGuestMemory_spares h hmon hfree with hnames | ⟨a, F', A', hok, hsound, hmon', hisolated⟩
  · exact .inl hnames
  · exact .inr ⟨_, hok, hmon'.keeps hsound, hisolated⟩

lemma setup_ok : ∃ m, setup = .ok m := ⟨_, rfl⟩

/-- A free of two pages after one allocation. -/
theorem guestMemory_isolated_two_pages : ∃ m₀ m m', setup = .ok m₀ ∧ run call m₀ [.allocate 0x2000] = .ok m ∧
    m.freeGuestMemory 0x10003000 0x2000 = .ok m' ∧ m'.Keeps ∧ Isolated m 0x10003000 0x2000 m' := by
  obtain ⟨m₀, hsetup⟩ := setup_ok
  have hrun : (setup >>= fun m => run call m [.allocate 0x2000]).isOk = true := rfl
  have hidt : (setup >>= fun m => run call m [.allocate 0x2000] >>= fun m =>
    pure ((m.slots m.hostAlarmsPage).guestRange, (m.slots m.idtPage).guestRange)) =
      .ok (⟨0x10001000, 0x10002000⟩, ⟨0x10002000, 0x10003000⟩) := rfl
  rw [hsetup] at hrun hidt
  rw [ok_bind] at hrun hidt
  cases hm : run call m₀ [.allocate 0x2000] with
  | error e =>
    rw [hm] at hrun
    cases hrun
  | ok m =>
    rw [hm] at hidt
    obtain ⟨halarms, hidt⟩ := Prod.mk.inj (Except.ok.inj hidt)
    have hspares : m.Spares (.free 0x10003000 0x2000) := by
      refine ⟨by norm_num, by norm_num, .inr ⟨by norm_num, ?_⟩⟩
      rw [hidt]
      rfl
    rcases (guestMemory_isolated hsetup [.allocate 0x2000] ⟨by norm_num [Spares], fun _ _ => trivial⟩ hm).2 _ _
      hspares with ⟨hnames, -⟩ | ⟨m', hfree, hkeeps, hisolated⟩
    · rw [NamesAlarms, halarms] at hnames
      exact absurd rfl hnames
    · exact ⟨m₀, m, m', hsetup, hm, hfree, hkeeps, hisolated (.inr (by decide))⟩

lemma free_idtPage : (setup >>= fun m => m.freeGuestMemory 0x10002000 0x1000 >>= fun m =>
    m.allocator.lookupValue 0x10002000 >>= fun found => pure ((m.slots m.idtPage).guestRange, found)) =
      .ok (⟨0x10002000, 0x10003000⟩, none) := rfl

/-- Frees are not isolated: the guest can free the IDT page. -/
theorem not_guestMemory_isolated : ¬∀ (m₀ m m' : GuestMemory) (calls : List Call) (guestStart size : ℕ),
    setup = .ok m₀ → Along call (fun _ => Words) m₀ calls → run call m₀ calls = .ok m →
    Words (.free guestStart size) → m.freeGuestMemory guestStart size = .ok m' →
    m'.Keeps ∧ Isolated m guestStart size m' := by
  intro hall
  obtain ⟨m₀, hsetup⟩ := setup_ok
  have hfree := free_idtPage
  rw [hsetup, ok_bind] at hfree
  obtain ⟨m', hm', found, hfound, hpure⟩ := of_bind2 hfree
  obtain ⟨hrange, rfl⟩ := Prod.mk.inj (Except.ok.inj hpure)
  have hkeeps := (hall m₀ m₀ m' [] _ _ hsetup trivial rfl ⟨by norm_num, by norm_num⟩ hm').1
  have hmem : 0x10002000 ∈ m'.slotSpace m'.idtPage := by
    rw [slotSpace, hrange, Set.mem_Ico]
    norm_num
  obtain ⟨r, hr⟩ := hkeeps.idtPage _ hmem
  rw [hfound] at hr
  cases Except.ok.inj hr

end Embassies.Monitor.GuestMemory
