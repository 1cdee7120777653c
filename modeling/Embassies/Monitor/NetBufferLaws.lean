import Embassies.Monitor.GuestIsolation
import Embassies.Monitor.NetBuffers

/-! Net buffers stay backed as long as the guest does not free their pages behind the monitor's back, and the
    monitor stops only for want of memory or for a buffer or packet that it does not accept. -/

namespace Embassies.Monitor

open Checked Utils CoalescingAllocator List Function MemSlot Set Range Option

lemma le_roundUpToPage {x : ℕ} (hx : x < 2 ^ 32) (hround : roundUpToPage x ≠ 0) : x ≤ roundUpToPage x := by
  rw [roundUpToPage_eq hx, u32] at hround ⊢
  omega

lemma freedRange_aligned {a b : ℕ} (ha : 4096 ∣ a) (hb : 4096 ∣ b) (hab : a ≤ b) (hlt : b < 2 ^ 31) :
    GuestMemory.freedRange a (b - a) = ⟨a, b⟩ := by
  have hsum : u32 (a + (b - a)) = b := by
    rw [u32]
    omega
  obtain ⟨k, rfl⟩ := ha
  obtain ⟨l, rfl⟩ := hb
  rw [GuestMemory.freedRange, hsum, roundDownToPage_eq (by omega), roundUpToPage_eq (by omega), u32]
  congr 1 <;> omega

namespace GuestMemory

variable {m : GuestMemory} {F : Set Range} {A : Set (RangeByStartElt ℕ)}

/-- So many guest addresses in a row that nothing owns. -/
def Available (m : GuestMemory) (size : ℕ) : Prop :=
  0 < size ∧ ∃ start, ∀ x ∈ Set.Ico start (start + size), x ∈ guestSpace ∧ ∀ slot, ¬m.Owner x slot

lemma Sound.available (h : m.Sound F A) {size : ℕ} (havail : m.Available size) : ∃ r ∈ F, size ≤ r.size := by
  obtain ⟨hpos, start, hfree⟩ := havail
  have hsub : Set.Ico start (start + size) ⊆ freeSpace F := by
    intro x hx
    obtain ⟨hguest, hnone⟩ := hfree x hx
    rw [← h.space] at hguest
    refine hguest.resolve_right fun halloc => ?_
    obtain ⟨e, he, hle, hlt⟩ := mem_allocatedSpace.mp halloc
    obtain ⟨o, ho, -, -⟩ := h.backed e he
    exact hnone o.obj ((h.owner_iff x _).mpr ⟨e, he, hle, hlt, by rw [userObjOf, ho]; rfl⟩)
  obtain ⟨r, hr, hlo, hhi⟩ := h.layout.free.coalesced.exists_of_Ico_subset hpos hsub
  exact ⟨r, hr, by rw [size_eq]; omega⟩

lemma Sound.owned_unique (h : m.Sound F A) {x u v : ℕ} (hu : Owned A x u) (hv : Owned A x v) : u = v := by
  obtain ⟨e, he, hle, hlt, hobj⟩ := hu
  obtain ⟨e', he', hle', hlt', hobj'⟩ := hv
  obtain rfl := h.layout.allocated.disjointed.eq_of_mem he he' ⟨hle, hlt⟩ ⟨hle', hlt'⟩
  exact some.inj (hobj.symm.trans hobj')

/-- Tidy memory, with the page of host alarms allocated. -/
structure Kept (m : GuestMemory) (F : Set Range) (A : Set (RangeByStartElt ℕ)) : Prop extends Tidy m F A where
  hostAlarmsPage : ∀ x ∈ m.slotSpace m.hostAlarmsPage, Owned A x m.hostAlarmsPage
  hostAlarmsSlot : m.hostAlarmsPage < m.nextSlot

lemma Kept.extend {F' : Set Range} {A' : Set (RangeByStartElt ℕ)} {m' : GuestMemory} (h : m.Kept F A)
    (htidy : m'.Tidy F' A') (hext : m.Extends m') (hsub : A ⊆ A') : m'.Kept F' A' where
  toTidy := htidy
  hostAlarmsPage x hx := by
    rw [hext.hostAlarmsPage] at hx ⊢
    rw [hext.slotSpace h.hostAlarmsSlot] at hx
    exact owned_mono (h.hostAlarmsPage x hx) hsub
  hostAlarmsSlot := hext.hostAlarmsPage ▸ h.hostAlarmsSlot.trans_le hext.nextSlot

/-- FREE of whole pages that are not those of the host alarms. -/
lemma Kept.free (h : m.Kept F A) (guestStart size : ℕ) (hstart : guestStart < 2 ^ 32)
    (hrange : (freedRange guestStart size).size = 0 ∨
      guestStart < 2 ^ 31 ∧ Disjoint (Set.Ico (freedRange guestStart size).start (freedRange guestStart size).stop)
        (m.slotSpace m.hostAlarmsPage)) :
    ∃ a F' A', m.freeGuestMemory guestStart size = .ok { m with allocator := a } ∧
      { m with allocator := a }.Kept F' A' ∧
      ∀ x u, Owned A' x u ↔ Owned A x u ∧
        x ∉ Set.Ico (freedRange guestStart size).start (freedRange guestStart size).stop := by
  have hdisj : Disjoint (Set.Ico (freedRange guestStart size).start (freedRange guestStart size).stop)
      (m.slotSpace m.hostAlarmsPage) := disjoint_of_size (hrange.imp_right And.right)
  have hnames : ¬((freedRange guestStart size).intersect (m.slots m.hostAlarmsPage).guestRange).size ≠ 0 := by
    rw [not_not, size_intersect]
    by_contra hne
    obtain ⟨x, hx, hx'⟩ : ∃ x, x ∈ Set.Ico (freedRange guestStart size).start (freedRange guestStart size).stop ∧
        x ∈ m.slotSpace m.hostAlarmsPage := by
      refine ⟨max (freedRange guestStart size).start (m.slots m.hostAlarmsPage).guestRange.start, ?_, ?_⟩
      · rw [mem_Ico]
        omega
      · rw [slotSpace, mem_Ico]
        omega
    exact disjoint_left.mp hdisj hx hx'
  obtain ⟨a, F', A', hrun, hfreed⟩ := freeRange_spec h.sound.layout (freedRange_stop_lt guestStart size)
    (h.sound.freedRange_below hstart (hrange.imp_right And.left)) (.inl h.sound.redundant)
  have howned := hfreed.owned_iff h.sound.layout.allocated
  exact ⟨a, F', A', (if_neg hnames).trans (bind_eq_ok.mpr ⟨a, hrun, rfl⟩),
    ⟨h.toTidy.freed hstart hrun (h.sound.freed hfreed), fun x hx =>
      (howned x _).mpr ⟨h.hostAlarmsPage x hx, fun hx' => disjoint_left.mp hdisj hx' hx⟩, h.hostAlarmsSlot⟩, howned⟩

end GuestMemory

namespace NetBufferTable

open GuestMemory

variable {s s' : NetBufferTable} {F : Set Range} {A : Set (RangeByStartElt ℕ)}
variable {A' : Set (RangeByStartElt ℕ)} {znb memSlot znb' : ℕ} {nb : NetBuffer}
  {nb' : NetBuffer} {vm : GuestMemory} {start size payloadSize : ℕ} {lma : Bool} {host : Host} {fuel : ℕ}

def range (s : NetBufferTable) (nb : NetBuffer) : Set ℕ := s.vm.slotSpace nb.memSlot

/-- NET BUFFERS STAY BACKED: each refers to a live slot whose whole range is allocated, no two overlap, and
    nothing is released twice. -/
structure Backed (s : NetBufferTable) : Prop where
  live : ∀ znb nb, s.table znb = some nb → nb.memSlot ∉ s.vm.allocator.destroyed ∧
    (s.vm.slots nb.memSlot).configured = true ∧ ∀ x ∈ s.range nb, s.vm.Owner x nb.memSlot
  disjoint : ∀ znb nb znb' nb', s.table znb = some nb → s.table znb' = some nb' → znb ≠ znb' →
    Disjoint (s.range nb) (s.range nb')
  slots : s.vm.allocator.destroyed.Nodup
  buffers : s.deleted.Nodup

def Words : Call → Prop
  | .allocateMemory length => length < 2 ^ 32
  | .freeMemory pointer length => pointer < 2 ^ 32 ∧ length < 2 ^ 32
  | .allocNetBuffer payloadSize => payloadSize < 2 ^ 32
  | .receiveNetBuffer (.short size) => size < 2 ^ 32
  | .receiveNetBuffer (.long mappedSize padding) => mappedSize < 2 ^ 32 ∧ padding < 2 ^ 32
  | .sendNetBuffer znb _ _ _ => znb < 2 ^ 32
  | .freeNetBuffer znb => znb < 2 ^ 32

def Room (s : NetBufferTable) (payloadSize : ℕ) : Prop :=
  payloadSize + sizeofZoogNetBuffer + netBufferPadding < 2 ^ 32 ∧
    s.vm.Available (MemSlot.roundUpToPage (payloadSize + sizeofZoogNetBuffer + netBufferPadding))

/-- A packet that can be sent from a slot: the slot is mapped and the guest has let its padding stand, the packet
    can be decoded, and if it is no longer than the capacity it ends in the slot and the socket takes it. Of a
    long message the socket takes the identifier. -/
structure Sendable (host : Host) (fuel : ℕ) (slot : MemSlot) (lma : Bool) : Prop where
  mapped : ∀ x, slot.hostAddr ≤ x → x < slot.hostAddr + slot.guestRange.size → host.mapped x = true
  padding : ofLE (host.bytes slot.hostAddr 4) = netBufferPadding
  decoded : ∃ info, Net.decodeIpPacket fuel (host.bytes (slot.hostAddr + netBufferPadding + sizeofZoogNetBuffer)
      (slot.guestRange.size - netBufferPadding)) = .ok info ∧
    (info.packetValid = true → lma = false → info.packetLength ≤ slot.guestRange.size - netBufferPadding →
      sizeofZoogNetBuffer + info.packetLength ≤ slot.guestRange.size - netBufferPadding ∧
        sizeofCMDeliverPacket + info.packetLength ≤ host.sendLimit)
  identifier : lma = true → host.idLen + sizeofCMDeliverPacketLong ≤ host.sendLimit

/-- Calls that the monitor can serve: allocations are not larger than `2^31`, a long buffer and one for a packet
    find memory, a packet that is sent is in a net buffer and can be sent from it, and memory that is freed is
    below `2^31` and neither the page of host alarms nor of a net buffer. -/
def Served (s : NetBufferTable) : Call → Prop
  | .allocateMemory length => length < 2 ^ 32 ∧ MemSlot.roundUpToPage length ≤ 2 ^ 31
  | .freeMemory pointer length => pointer < 2 ^ 32 ∧ ((freedRange pointer length).size = 0 ∨ pointer < 2 ^ 31 ∧
    Disjoint (Set.Ico (freedRange pointer length).start (freedRange pointer length).stop)
      (s.vm.slotSpace s.vm.hostAlarmsPage) ∧
    ∀ znb nb, s.table znb = some nb →
      Disjoint (Set.Ico (freedRange pointer length).start (freedRange pointer length).stop) (s.range nb))
  | .allocNetBuffer payloadSize => payloadSize ≤ zkSmallMessageLimit ∨ s.Room payloadSize
  | .receiveNetBuffer (.short size) => s.Room size
  | .receiveNetBuffer (.long mappedSize padding) => mappedSize < 2 ^ 32 ∧ padding = netBufferPadding ∧
    s.vm.Available (MemSlot.roundUpToPage mappedSize)
  | .sendNetBuffer znb _ fuel host => ∃ nb, s.table znb = some nb ∧
    Sendable host fuel (s.vm.slots nb.memSlot) nb.lma
  | .freeNetBuffer _ => True

/-- A net buffer in the table. -/
structure Holds (s : NetBufferTable) (A : Set (RangeByStartElt ℕ)) (znb : ℕ) (nb : NetBuffer) : Prop where
  guestAddr : nb.guestAddr = znb
  start : znb = (s.vm.slots nb.memSlot).guestRange.start + netBufferPadding
  slot : nb.memSlot < s.vm.nextSlot
  reserved : nb.memSlot ≠ s.vm.hostAlarmsPage
  configured : (s.vm.slots nb.memSlot).configured = true
  nonempty : (s.vm.slots nb.memSlot).guestRange.start < (s.vm.slots nb.memSlot).guestRange.stop
  bound : (s.vm.slots nb.memSlot).guestRange.stop ≤ hostPhysMemorySize
  dvd_start : 4096 ∣ (s.vm.slots nb.memSlot).guestRange.start
  dvd_stop : 4096 ∣ (s.vm.slots nb.memSlot).guestRange.stop
  hostAddr : (s.vm.slots nb.memSlot).hostAddr = hostPhysMemory + (s.vm.slots nb.memSlot).guestRange.start
  owned : ∀ x ∈ s.range nb, Owned A x nb.memSlot

/-- THE INVARIANT of the table. -/
structure Inv (s : NetBufferTable) (F : Set Range) (A : Set (RangeByStartElt ℕ)) : Prop where
  kept : s.vm.Kept F A
  holds : ∀ znb nb, s.table znb = some nb → s.Holds A znb nb
  nodup : s.deleted.Nodup
  deleted : ∀ u ∈ s.deleted, u < s.vm.nextSlot ∧ ∀ znb nb, s.table znb = some nb → nb.memSlot ≠ u

lemma Inv.eq_of_memSlot (h : s.Inv F A) (hnb : s.table znb = some nb) (hnb' : s.table znb' = some nb')
    (hslot : nb.memSlot = nb'.memSlot) : znb = znb' := by
  rw [(h.holds znb nb hnb).start, (h.holds znb' nb' hnb').start, hslot]

lemma Inv.disjoint (h : s.Inv F A) (hnb : s.table znb = some nb) (hnb' : s.table znb' = some nb') (hne : znb ≠ znb')
    : Disjoint (s.range nb) (s.range nb') :=
  disjoint_left.mpr fun _ hx hx' => hne (h.eq_of_memSlot hnb hnb' (h.kept.sound.owned_unique
    ((h.holds znb nb hnb).owned _ hx) ((h.holds znb' nb' hnb').owned _ hx')))

lemma Inv.live (h : s.Inv F A) (hnb : s.table znb = some nb) : nb.memSlot ∉ s.vm.allocator.destroyed := by
  have hholds := h.holds znb nb hnb
  obtain ⟨e, he, -, -, hobj⟩ := hholds.owned _ (left_mem_Ico.mpr hholds.nonempty)
  obtain ⟨o, ho, -, halive⟩ := h.kept.refs.objects e he
  rw [userObjOf, ho] at hobj
  exact some.inj hobj ▸ halive

lemma Inv.backed (h : s.Inv F A) : s.Backed where
  live znb nb hnb := ⟨h.live hnb, (h.holds znb nb hnb).configured, fun x hx =>
    (h.kept.sound.owner_iff x _).mpr ((h.holds znb nb hnb).owned x hx)⟩
  disjoint _ _ _ _ hnb hnb' hne := h.disjoint hnb hnb' hne
  slots := h.kept.refs.nodup
  buffers := h.nodup

lemma Holds.mono (h : s.Holds A znb nb) (hext : s.vm.Extends vm) (hsub : A ⊆ A') :
    { s with vm }.Holds A' znb nb := by
  have hsame : vm.slots nb.memSlot = s.vm.slots nb.memSlot := hext.slots _ h.slot
  refine ⟨h.guestAddr, hsame ▸ h.start, h.slot.trans_le hext.nextSlot, hext.hostAlarmsPage ▸ h.reserved,
    hsame ▸ h.configured, hsame ▸ h.nonempty, hsame ▸ h.bound, hsame ▸ h.dvd_start, hsame ▸ h.dvd_stop,
    hsame ▸ h.hostAddr, fun x hx => ?_⟩
  change x ∈ vm.slotSpace nb.memSlot at hx
  rw [hext.slotSpace h.slot] at hx
  exact owned_mono (h.owned x hx) hsub

lemma Holds.freed (h : s.Holds A znb nb) {R : Set ℕ} {a : CoalescingAllocator ℕ}
    (howned : ∀ x u, Owned A' x u ↔ Owned A x u ∧ x ∉ R) (hdisj : Disjoint R (s.range nb)) :
    { s with vm := { s.vm with allocator := a } }.Holds A' znb nb :=
  ⟨h.guestAddr, h.start, h.slot, h.reserved, h.configured, h.nonempty, h.bound, h.dvd_start, h.dvd_stop, h.hostAddr,
    fun x hx => (howned x _).mpr ⟨h.owned x hx, fun hR => disjoint_left.mp hdisj hR hx⟩⟩

lemma Inv.extend {F' : Set Range} (h : s.Inv F A) (htidy : vm.Tidy F' A') (hext : s.vm.Extends vm) (hsub : A ⊆ A')
    : { s with vm }.Inv F' A' :=
  ⟨h.kept.extend htidy hext hsub, fun znb nb hnb => (h.holds znb nb hnb).mono hext hsub, h.nodup, fun u hu =>
    ⟨(h.deleted u hu).1.trans_le hext.nextSlot, (h.deleted u hu).2⟩⟩

def withBuffer (s : NetBufferTable) (znb memSlot : ℕ) (lma : Bool) : NetBufferTable :=
  { s with table := update s.table znb (some ⟨znb, memSlot, lma⟩) }

lemma withBuffer_cases (hnb : (s.withBuffer znb memSlot lma).table znb' = some nb) :
    (znb' = znb ∧ nb = ⟨znb, memSlot, lma⟩) ∨ s.table znb' = some nb := by
  change update s.table znb (some ⟨znb, memSlot, lma⟩) znb' = some nb at hnb
  by_cases hznb : znb' = znb
  · rw [hznb, update_self] at hnb
    exact .inl ⟨hznb, (some.inj hnb).symm⟩
  · rw [update_of_ne hznb] at hnb
    exact .inr hnb

lemma Inv.withBuffer (h : s.Inv F A) (hholds : s.Holds A znb ⟨znb, memSlot, lma⟩) (hnew : memSlot ∉ s.deleted) :
    (s.withBuffer znb memSlot lma).Inv F A := by
  refine ⟨h.kept, fun znb' nb hnb => ?_, h.nodup, fun u hu => ⟨(h.deleted u hu).1, fun znb' nb hnb => ?_⟩⟩
  · have hold : s.Holds A znb' nb := by
      rcases withBuffer_cases hnb with ⟨rfl, rfl⟩ | hnb
      · exact hholds
      · exact h.holds znb' nb hnb
    exact ⟨hold.guestAddr, hold.start, hold.slot, hold.reserved, hold.configured, hold.nonempty, hold.bound,
      hold.dvd_start, hold.dvd_stop, hold.hostAddr, hold.owned⟩
  · rcases withBuffer_cases hnb with ⟨-, rfl⟩ | hnb
    · rintro rfl
      exact hnew hu
    · exact (h.deleted u hu).2 znb' nb hnb

lemma register_eq (lma : Bool) {hostAddr : ℕ} (hlive : memSlot ∉ s.vm.allocator.destroyed)
    (hslot : s.vm.slots memSlot = ⟨true, ⟨start, start + size⟩, hostAddr⟩) (hword : start + netBufferPadding < 2 ^ 32)
    (habsent : s.table (start + netBufferPadding) = none) : s.register memSlot netBufferPadding lma =
      .ok (s.withBuffer (start + netBufferPadding) memSlot lma, sub32 size netBufferPadding) := by
  have hsize : (⟨start, start + size⟩ : Range).size = size := by
    rw [size_eq]
    exact Nat.add_sub_cancel_left _ _
  simp only [register, memSlotAt_live hlive, hslot, ok_bind, getSize, getGuestAddr,
    liteAssert_pos, pure_eq_ok, u32, Nat.mod_eq_of_lt hword, habsent, isNone_none, hsize, withBuffer]

lemma Inv.absent (h : s.Inv F A) (hfree : start ∈ freeSpace F) :
    s.table (start + netBufferPadding) = none := by
  by_contra hsome
  obtain ⟨nb, hnb⟩ := ne_none_iff_exists'.mp hsome
  have hholds := h.holds _ nb hnb
  have hsame : (s.vm.slots nb.memSlot).guestRange.start = start := by
    have := hholds.start
    omega
  obtain ⟨e, he, hle, hlt, -⟩ := hholds.owned _ (left_mem_Ico.mpr hholds.nonempty)
  rw [hsame] at hle hlt
  exact disjoint_left.mp h.kept.sound.layout.disjoint hfree (mem_allocatedSpace.mpr ⟨e, he, hle, hlt⟩)

/-- Allocating guest memory for a net buffer: there is none, or a fresh slot can be registered. -/
lemma register_spec (h : s.Inv F A) (lma : Bool) {reqSize : ℕ} (hreq : reqSize < 2 ^ 32)
    (hsize : roundUpToPage reqSize ≤ 2 ^ 31) :
    (∃ vm F' A', s.vm.allocateGuestMemory reqSize = .ok (vm, none) ∧ { s with vm }.Inv F' A' ∧
      ¬s.vm.Available (roundUpToPage reqSize)) ∨
    ∃ vm memSlot s' F' A', s.vm.allocateGuestMemory reqSize = .ok (vm, some memSlot) ∧ { s with vm }.Inv F' A' ∧
      register { s with vm } memSlot netBufferPadding lma =
        .ok (s', sub32 (roundUpToPage reqSize) netBufferPadding) ∧ s'.Inv F' A' ∧ reqSize ≤ roundUpToPage reqSize := by
  obtain ⟨size, hround⟩ : ∃ size, size = roundUpToPage reqSize := ⟨_, rfl⟩
  have hdvd : 4096 ∣ size := hround ▸ dvd_roundUpToPage hreq
  rw [← hround] at hsize ⊢
  rcases allocateGuestMemory_fits h.kept.sound hround hsize with
    ⟨hrun, -, hnone⟩ | ⟨a, F', r, hr, hpos, hfront, hallocate, hrun, hsound, -⟩
  · refine .inl ⟨_, F, A, hrun, h.extend h.kept.toTidy.unconfigured (extends_withSlot _ _) subset_rfl, fun havail => ?_⟩
    obtain ⟨r, hr, hle⟩ := h.kept.sound.available havail
    rcases hnone with hzero | hnone
    · exact absurd hzero havail.1.ne'
    · have := hnone r hr
      omega
  · have hinv := h.extend (h.kept.toTidy.allocated hr hdvd hallocate hsound) (extends_withSlot _ _) (subset_insert _ _)
    have hslot : (s.vm.withSlot a ⟨true, ⟨r.start, r.start + size⟩, hostPhysMemory + r.start⟩).slots s.vm.nextSlot =
      ⟨true, ⟨r.start, r.start + size⟩, hostPhysMemory + r.start⟩ := update_self _ _ _
    have hstart := h.kept.toTidy.dvd_start hr
    have hstop := hfront.trans (h.kept.sound.free_le hr)
    have hlow := hostPhysMemorySize_lt
    have hlive : s.vm.nextSlot ∉ a.destroyed := fun hdead => by
      rw [(allocateRange_frame hallocate).2.2] at hdead
      exact absurd (h.kept.destroyed _ hdead) (lt_irrefl _)
    have hword : r.start + netBufferPadding < 2 ^ 32 := by
      rw [netBufferPadding]
      omega
    have hregister := register_eq lma
      (s := { s with vm := s.vm.withSlot a ⟨true, ⟨r.start, r.start + size⟩, hostPhysMemory + r.start⟩ })
      hlive hslot hword (h.absent ⟨r, hr, le_rfl, h.kept.sound.layout.free.coalesced.nonempty r hr⟩)
    refine .inr ⟨_, _, _, F', _, hrun, hinv, hregister, hinv.withBuffer ?_ ?_,
      hround ▸ le_roundUpToPage hreq (hround ▸ hpos.ne')⟩
    · refine ⟨rfl, by rw [hslot], Nat.lt_succ_self _, h.kept.hostAlarmsSlot.ne', by rw [hslot],
        by rw [hslot]; exact Nat.lt_add_of_pos_right hpos, by rw [hslot]; exact hstop, by rw [hslot]; exact hstart,
        by rw [hslot]; exact (Nat.dvd_add_right hstart).mpr hdvd, by rw [hslot], fun x hx => ?_⟩
      rw [range, slotSpace, hslot, mem_Ico] at hx
      exact ⟨_, mem_insert _ _, hx.1, hx.2, rfl⟩
    · exact fun hu => absurd (h.deleted _ hu).1 (lt_irrefl _)

lemma le_capacity (hle : payloadSize + sizeofZoogNetBuffer + netBufferPadding ≤ size) (hsize : size ≤ 2 ^ 31)
    : payloadSize ≤ sub32 size netBufferPadding := by
  rw [sizeofZoogNetBuffer, netBufferPadding] at hle
  rw [sub32, netBufferPadding]
  omega

lemma allocNetBuffer_spec (h : s.Inv F A) (hword : payloadSize + sizeofZoogNetBuffer + netBufferPadding < 2 ^ 32)
    (hsize : roundUpToPage (payloadSize + sizeofZoogNetBuffer + netBufferPadding) ≤ 2 ^ 31) :
    (∃ s' F' A', s.allocNetBuffer payloadSize = .ok (s', none) ∧ s'.Inv F' A' ∧ ¬s.Room payloadSize) ∨
    ∃ s' F' A' capacity, s.allocNetBuffer payloadSize = .ok (s', some capacity) ∧ s'.Inv F' A' ∧
      payloadSize ≤ capacity := by
  have hreq : u32 (payloadSize + sizeofZoogNetBuffer + netBufferPadding) =
    payloadSize + sizeofZoogNetBuffer + netBufferPadding := Nat.mod_eq_of_lt hword
  rcases register_spec h false hword hsize with
    ⟨vm, F', A', hrun, hinv, hnone⟩ | ⟨vm, memSlot, s', F', A', hrun, -, hregister, hinv, hle⟩
  · exact .inl ⟨_, F', A', by simp only [allocNetBuffer, hreq, hrun, ok_bind, pure_eq_ok], hinv,
      fun hroom => hnone hroom.2⟩
  · refine .inr ⟨s', F', A', _, ?_, hinv, le_capacity hle hsize⟩
    simp only [allocNetBuffer, hreq, hrun, ok_bind, hregister, pure_eq_ok]

lemma installNetBuffer_spec (h : s.Inv F A) {mappedSize : ℕ} (hword : mappedSize < 2 ^ 32)
    (havail : s.vm.Available (roundUpToPage mappedSize)) : ∃ s' F' A', s.installNetBuffer mappedSize netBufferPadding =
        .ok (s', sub32 (roundUpToPage mappedSize) netBufferPadding) ∧ s'.Inv F' A' ∧
      mappedSize ≤ roundUpToPage mappedSize ∧ roundUpToPage mappedSize ≤ 2 ^ 31 := by
  obtain ⟨r, hr, hle⟩ := h.kept.sound.available havail
  have hsize : roundUpToPage mappedSize ≤ 2 ^ 31 := by
    have := h.kept.sound.layout.free.bound r hr
    rw [size_eq] at hle
    omega
  rcases register_spec h true hword hsize with
    ⟨vm, F', A', -, -, hnone⟩ | ⟨vm, memSlot, s', F', A', hrun, -, hregister, hinv, hle⟩
  · exact absurd havail hnone
  · exact ⟨s', F', A', by simp only [installNetBuffer, hrun, ok_bind, liteAssert_pos, hregister], hinv, hle, hsize⟩

/-- A net buffer is freed with the whole of its slot, once. -/
lemma freeNetBuffer_spec (h : s.Inv F A) (hnb : s.table znb = some nb) :
    ∃ s' F' A', s.freeNetBuffer nb = .ok s' ∧ s'.Inv F' A' := by
  have hholds := h.holds znb nb hnb
  have hlow := hostPhysMemorySize_lt
  have hbound := hholds.bound
  have hsize : (s.vm.slots nb.memSlot).guestRange.size =
      (s.vm.slots nb.memSlot).guestRange.stop - (s.vm.slots nb.memSlot).guestRange.start := size_eq _
  have hfreed := freedRange_aligned hholds.dvd_start hholds.dvd_stop hholds.nonempty.le (by omega)
  have halarms : Disjoint (s.range nb) (s.vm.slotSpace s.vm.hostAlarmsPage) :=
    disjoint_left.mpr fun x hx hx' => hholds.reserved
      (h.kept.sound.owned_unique (hholds.owned x hx) (h.kept.hostAlarmsPage x hx'))
  obtain ⟨a, F', A', hrun, hkept, howned⟩ := h.kept.free
    (s.vm.slots nb.memSlot).guestRange.start (s.vm.slots nb.memSlot).guestRange.size (by have := hholds.nonempty; omega)
    (.inr ⟨by have := hholds.nonempty; omega, by rw [hsize, hfreed]; exact halarms⟩)
  rw [hsize, hfreed] at howned
  have hfree : s.freeNetBuffer nb = .ok
      { vm := { s.vm with allocator := a }, table := update s.table nb.guestAddr none,
        deleted := s.deleted ++ [nb.memSlot] } := by
    simp only [freeNetBuffer, hholds.guestAddr, hnb, isSome_some, liteAssert_pos, ok_bind,
      memSlotAt_live (h.live hnb), getGuestAddr, getSize, hholds.configured, hrun, pure_eq_ok]
  have hother : ∀ znb' nb', update s.table nb.guestAddr none znb' = some nb' →
      s.table znb' = some nb' ∧ znb ≠ znb' := by
    intro znb' nb' hnb'
    rw [hholds.guestAddr] at hnb'
    by_cases heq : znb' = znb
    · rw [heq, update_self] at hnb'
      cases hnb'
    · rw [update_of_ne heq] at hnb'
      exact ⟨hnb', Ne.symm heq⟩
  refine ⟨_, F', A', hfree, hkept, fun znb' nb' hnb' => ?_, ?_, fun u hu => ?_⟩
  · obtain ⟨hnb', hne⟩ := hother znb' nb' hnb'
    have hold := (h.holds znb' nb' hnb').freed (a := a) howned (h.disjoint hnb hnb' hne)
    exact ⟨hold.guestAddr, hold.start, hold.slot, hold.reserved, hold.configured, hold.nonempty, hold.bound,
      hold.dvd_start, hold.dvd_stop, hold.hostAddr, hold.owned⟩
  · refine nodup_append.mpr ⟨h.nodup, nodup_singleton _, fun u hu v hv => ?_⟩
    rw [mem_singleton.mp hv]
    rintro rfl
    exact (h.deleted _ hu).2 znb nb hnb rfl
  · rcases mem_append.mp hu with hu | hu
    · exact ⟨(h.deleted u hu).1, fun znb' nb' hnb' => (h.deleted u hu).2 znb' nb' (hother znb' nb' hnb').1⟩
    · obtain rfl := mem_singleton.mp hu
      refine ⟨hholds.slot, fun znb' nb' hnb' heq => ?_⟩
      obtain ⟨hnb', hne⟩ := hother znb' nb' hnb'
      exact hne (h.eq_of_memSlot hnb hnb' heq.symm)

lemma covers_of_mapped {addr len : ℕ} (h : ∀ x, addr ≤ x → x < addr + len → host.mapped x = true) :
    host.covers addr len = true := by
  refine all_eq_true.mpr fun i hi => h _ (Nat.le_add_right _ _) ?_
  exact Nat.add_lt_add_left (mem_range.mp hi) addr

/-- SEND: the message goes out whole, or a `SAFETY_CHECK` drops it. -/
lemma sendPacket_spec (h : s.Inv F A) (hnb : s.table znb = some nb)
    (hsend : Sendable host fuel (s.vm.slots nb.memSlot) nb.lma) : s.sendPacket nb fuel host = .ok () := by
  have hholds := h.holds znb nb hnb
  obtain ⟨hmapped, hpadding, ⟨info, hdecode, hends⟩, hid⟩ := hsend
  have hne := hholds.nonempty
  have hbound := hholds.bound
  have hlow := hostPhysMemorySize_lt
  have hpage := Nat.le_of_dvd (Nat.sub_pos_of_lt hne) (Nat.dvd_sub hholds.dvd_stop hholds.dvd_start)
  rw [← size_eq] at hpage
  have hsize : (s.vm.slots nb.memSlot).guestRange.size ≤ (s.vm.slots nb.memSlot).guestRange.stop := by
    rw [size_eq]
    exact Nat.sub_le _ _
  have haddr := hholds.hostAddr
  have hword : host.word (s.vm.slots nb.memSlot).hostAddr = .ok netBufferPadding := by
    rw [Host.word, if_pos (covers_of_mapped fun x hle hlt => hmapped x hle (by omega)), hpadding]
  have hznb : u32 ((s.vm.slots nb.memSlot).hostAddr + netBufferPadding) =
      (s.vm.slots nb.memSlot).hostAddr + netBufferPadding := by
    rw [haddr, u32_of_lt (by simp only [hostPhysMemory, netBufferPadding]; omega)]
  have hdata : u32 ((s.vm.slots nb.memSlot).hostAddr + netBufferPadding + sizeofZoogNetBuffer) =
      (s.vm.slots nb.memSlot).hostAddr + netBufferPadding + sizeofZoogNetBuffer := by
    rw [haddr, u32_of_lt (by simp only [hostPhysMemory, netBufferPadding, sizeofZoogNetBuffer]; omega)]
  have htrusted : sub32 (s.vm.slots nb.memSlot).guestRange.size netBufferPadding =
      (s.vm.slots nb.memSlot).guestRange.size - netBufferPadding := by
    rw [sub32, netBufferPadding]
    omega
  have hcapacity : host.word ((s.vm.slots nb.memSlot).hostAddr + netBufferPadding) =
      .ok (ofLE (host.bytes ((s.vm.slots nb.memSlot).hostAddr + netBufferPadding) 4)) := by
    refine if_pos (covers_of_mapped fun x hle hlt => hmapped x ((Nat.le_add_right _ _).trans hle) ?_)
    rw [netBufferPadding] at hlt
    omega
  simp only [sendPacket, memSlotAt_live (h.live hnb), ok_bind, getHostAddr, getSize, hholds.configured, liteAssert_pos,
    pure_eq_ok, hword, hznb, hdata, htrusted, hdecode, hcapacity]
  split_ifs with hvalid hstomped hbig hlma
  · rfl
  · rfl
  · rfl
  · -- the identifier of a long message
    refine liteAssert_pos ?_
    rw [Host.writev, if_pos ⟨rfl, hid hlma⟩, Nat.cast_zero, add_zero]
  · obtain ⟨hfits, hlimit⟩ := hends (Bool.eq_true_of_not_eq_false hvalid) (Bool.eq_false_of_not_eq_true hlma)
      (Nat.le_of_not_lt hbig)
    have hsmall : sizeofCMDeliverPacket + info.packetLength < 2 ^ 31 := by
      rw [sizeofZoogNetBuffer, netBufferPadding] at hfits
      rw [sizeofCMDeliverPacket]
      omega
    refine liteAssert_pos ?_
    rw [Host.writev, if_pos ⟨covers_of_mapped fun x hle hlt => hmapped x (by omega) (by omega), hlimit⟩,
      u32_of_lt (by omega), int32, if_pos hsmall, Nat.cast_add]

/-- STEP: a call that can be served returns and keeps the invariant. -/
lemma call_inv (c : Call) (h : s.Inv F A) (hserved : s.Served c) : ∃ s' F' A', s.call c = .ok s' ∧ s'.Inv F' A' := by
  cases c with
  | allocateMemory length =>
    rcases register_spec h false hserved.1 hserved.2 with
      ⟨vm, F', A', hrun, hinv, -⟩ | ⟨vm, memSlot, -, F', A', hrun, hinv, -⟩
    · exact ⟨_, F', A', by simp only [call, hrun, ok_bind, pure_eq_ok], hinv⟩
    · exact ⟨_, F', A', by simp only [call, hrun, ok_bind, pure_eq_ok], hinv⟩
  | freeMemory pointer length =>
    obtain ⟨hpointer, hrange⟩ := hserved
    obtain ⟨a, F', A', hrun, hkept, howned⟩ := h.kept.free _ _ hpointer (hrange.imp_right fun hr => ⟨hr.1, hr.2.1⟩)
    refine ⟨{ s with vm := { s.vm with allocator := a } }, F', A',
      by simp only [call, hrun, ok_bind, pure_eq_ok], hkept, fun znb nb hnb => ?_, h.nodup, h.deleted⟩
    refine (h.holds znb nb hnb).freed howned ?_
    rcases hrange with hzero | ⟨-, -, hbuffers⟩
    · rw [size_eq] at hzero
      rw [Set.Ico_eq_empty (by omega)]
      exact empty_disjoint _
    · exact hbuffers znb nb hnb
  | allocNetBuffer requestSize =>
    by_cases hsmall : requestSize ≤ zkSmallMessageLimit
    · have hword : requestSize + sizeofZoogNetBuffer + netBufferPadding < 2 ^ 31 := by
        rw [zkSmallMessageLimit] at hsmall
        rw [sizeofZoogNetBuffer, netBufferPadding]
        omega
      have hsize : roundUpToPage (requestSize + sizeofZoogNetBuffer + netBufferPadding) ≤ 2 ^ 31 := by
        rw [roundUpToPage_eq (by omega), u32]
        omega
      rcases allocNetBuffer_spec h (by omega) hsize with
        ⟨s', F', A', hrun, hinv, -⟩ | ⟨s', F', A', capacity, hrun, hinv, hle⟩
      · exact ⟨s', F', A', by simp only [call, if_pos hsmall, hrun, ok_bind, pure_eq_ok], hinv⟩
      · exact ⟨s', F', A', by simp only [call, if_pos hsmall, hrun, ok_bind, liteAssert_pos hle, pure_eq_ok], hinv⟩
    · obtain ⟨hword, havail⟩ := hserved.resolve_left hsmall
      have hreq : u32 (u32 (requestSize + sizeofZoogNetBuffer) + netBufferPadding) =
          requestSize + sizeofZoogNetBuffer + netBufferPadding := by
        rw [u32, u32]
        omega
      obtain ⟨s', F', A', hrun, hinv, hle, hsize⟩ := installNetBuffer_spec h hword havail
      exact ⟨s', F', A', by simp only [call, if_neg hsmall, hreq, hrun, ok_bind,
        liteAssert_pos (le_capacity hle hsize), pure_eq_ok], hinv⟩
  | receiveNetBuffer packet =>
    cases packet with
    | short size =>
      obtain ⟨hword, havail⟩ := hserved
      obtain ⟨-, -, -, -, -, -, hsize⟩ := installNetBuffer_spec h hword havail
      rcases allocNetBuffer_spec h hword hsize with
        ⟨-, -, -, -, -, hnone⟩ | ⟨s', F', A', capacity, hrun, hinv, hle⟩
      · exact absurd ⟨hword, havail⟩ hnone
      · exact ⟨s', F', A', by simp only [call, receiveNetBuffer, hrun, ok_bind, liteAssert_pos hle, pure_eq_ok], hinv⟩
    | long mappedSize padding =>
      obtain ⟨hword, rfl, havail⟩ := hserved
      obtain ⟨s', F', A', hrun, hinv, -⟩ := installNetBuffer_spec h hword havail
      exact ⟨s', F', A', by simp only [call, receiveNetBuffer, hrun, ok_bind, pure_eq_ok], hinv⟩
  | sendNetBuffer znb release fuel host =>
    obtain ⟨nb, hnb, hsendable⟩ := hserved
    have hsend := sendPacket_spec h hnb hsendable
    cases release with
    | false => exact ⟨s, F, A, by simp [call, hnb, hsend], h⟩
    | true =>
      obtain ⟨s', F', A', hrun, hinv⟩ := freeNetBuffer_spec h hnb
      exact ⟨s', F', A', by simp [call, hnb, hsend, hrun], hinv⟩
  | freeNetBuffer znb =>
    cases hnb : s.table znb with
    | none => exact ⟨s, F, A, by simp [call, hnb], h⟩
    | some nb =>
      obtain ⟨s', F', A', hrun, hinv⟩ := freeNetBuffer_spec h hnb
      exact ⟨s', F', A', by simp [call, hnb, hrun], hinv⟩

end NetBufferTable

end Embassies.Monitor
