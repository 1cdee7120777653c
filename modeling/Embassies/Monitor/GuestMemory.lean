import Embassies.Lib.Bytes
import Embassies.Utils.CoalescingAllocator

/-! The guest memory of `ZoogVM`.

    Guest addresses are handed out by a `CoalescingAllocator` whose user objects are `MemSlot`s; the pages of the
    monitor itself, for host alarms and for the IDT, come from the same allocator. A slot is named by its number; its
    debug label is left out, as are the mutexes and the calls of `mmap`, which is taken to succeed. -/

namespace Embassies.Monitor

open Utils Function

/-- `PAGE_SIZE`. -/
def pageSize : ℕ := 0x1000

/-- `GUEST_ADDR_START`. -/
def guestAddrStart : ℕ := 0x10001000

/-- `host_phys_memory`, which is mapped at `HOST_ADDR_START`. -/
def hostPhysMemory : ℕ := 0x18000000

/-- `host_phys_memory_size`. -/
def hostPhysMemorySize : ℕ := 3 <<< 29

def bytesAt (memory : ℕ → UInt8) (addr size : ℕ) : Bytes := (List.range size).map fun k => memory (addr + k)

/-- `MemSlot`. -/
structure MemSlot where
  configured : Bool
  guestRange : Range
  hostAddr : ℕ
  deriving DecidableEq, Repr

namespace MemSlot

/-- `round_up_to_page(req_size)`. -/
def roundUpToPage (reqSize : ℕ) : ℕ := u32 ((sub32 reqSize 1 ||| (pageSize - 1)) + 1)

/-- `round_down_to_page(req_size)`. -/
def roundDownToPage (reqSize : ℕ) : ℕ := reqSize &&& 0xfffff000

/-- `get_guest_addr()`. -/
def getGuestAddr (slot : MemSlot) : Checked ℕ := do
  liteAssert (slot.configured = true)
  pure slot.guestRange.start

/-- `get_size()`. -/
def getSize (slot : MemSlot) : Checked ℕ := do
  liteAssert (slot.configured = true)
  pure slot.guestRange.size

/-- `get_host_addr()`. -/
def getHostAddr (slot : MemSlot) : Checked ℕ := do
  liteAssert (slot.configured = true)
  pure slot.hostAddr

def unconfigured : MemSlot := ⟨false, ⟨0, 0⟩, 0⟩

/-- `configure(guest_range, host_addr)`. -/
def configure (slot : MemSlot) (guestRange : Range) (hostAddr : ℕ) : Checked MemSlot := do
  liteAssert (slot.configured = false)
  pure ⟨true, guestRange, hostAddr⟩

end MemSlot

/-- The memory of a `ZoogVM`: its allocator, the slots with the number of the next one, and the slots that
    the monitor keeps using. -/
structure GuestMemory where
  allocator : CoalescingAllocator ℕ
  slots : ℕ → MemSlot
  nextSlot : ℕ
  hostAlarmsPage : ℕ
  idtPage : ℕ

namespace GuestMemory

/-- The part of `allocate_guest_memory` that sets up the slot of a range. -/
def configureSlot (m : GuestMemory) (slot roundSize : ℕ) (guestRange : Range) : Checked GuestMemory := do
  liteAssert (guestRange.stop ≤ hostPhysMemorySize)
  liteAssert (guestRange.size = roundSize)
  let configured ← (m.slots slot).configure guestRange (hostPhysMemory + guestRange.start)
  pure { m with slots := update m.slots slot configured }

/-- `allocate_guest_memory(req_size)`: the number of the slot, or nothing when there is no memory. -/
def allocateGuestMemory (m : GuestMemory) (reqSize : ℕ) : Checked (GuestMemory × Option ℕ) := do
  let roundSize := MemSlot.roundUpToPage reqSize
  let memSlot := m.nextSlot
  let (allocator, guestRange) ← m.allocator.allocateRange roundSize memSlot
  let m := { m with
    allocator, nextSlot := m.nextSlot + 1, slots := update m.slots memSlot .unconfigured }
  match guestRange with
  | none => pure (m, none)
  | some guestRange => do
    let m ← m.configureSlot memSlot roundSize guestRange
    pure (m, some memSlot)

def freedRange (guestStart size : ℕ) : Range :=
  ⟨MemSlot.roundDownToPage guestStart, MemSlot.roundUpToPage (u32 (guestStart + size))⟩

/-- `free_guest_memory(guest_start, size)`. -/
def freeGuestMemory (m : GuestMemory) (guestStart size : ℕ) : Checked GuestMemory :=
  if ((freedRange guestStart size).intersect (m.slots m.hostAlarmsPage).guestRange).size ≠ 0 then
    .error .liteAssert -- Guest freed a reserved page
  else do
    let allocator ← m.allocator.freeRange (freedRange guestStart size)
    pure { m with allocator }

/-- A slot that the monitor dereferences at once. -/
def needSlot : GuestMemory × Option ℕ → Checked (GuestMemory × ℕ)
  | (_, none) => .error .nullDeref
  | (m, some slot) => pure (m, slot)

/-- The constructor of `ZoogVM`, as far as guest memory goes. -/
def setup : Checked GuestMemory := do
  let allocator ← (CoalescingAllocator.init true).createEmptyRange ⟨guestAddrStart, hostPhysMemorySize⟩
  let result ← allocateGuestMemory ⟨allocator, fun _ => .unconfigured, 0, 0, 0⟩ pageSize
  let (m, hostAlarmsPage) ← needSlot result
  let result ← allocateGuestMemory { m with hostAlarmsPage } pageSize
  let (m, idtPage) ← needSlot result
  pure { m with idtPage }

/-- `map_region_to_host(guest_start, size)`: the host address, or nothing for `NULL`. -/
def mapRegionToHost (m : GuestMemory) (guestStart size : ℕ) : Checked (Option ℕ) := do
  match ← m.allocator.lookupValue guestStart with
  | some (some memSlot, _) => do
    let guestAddr ← (m.slots memSlot).getGuestAddr
    liteAssert (guestAddr ≤ guestStart)
    let slotSize ← (m.slots memSlot).getSize
    if u32 (guestStart + size) < u32 (guestAddr + slotSize) then do
      let hostAddr ← (m.slots memSlot).getHostAddr
      pure (some (hostAddr + (guestStart - guestAddr)))
    else pure none
  | _ => pure none

/-- A call of the guest that changes its memory. -/
inductive Call where
  | allocate (reqSize : ℕ)
  | free (guestStart size : ℕ)
  deriving DecidableEq, Repr

/-- Following a pointer to a memory slot, which the allocator may have deleted. -/
def memSlotAt (m : GuestMemory) (memSlot : ℕ) : Checked MemSlot :=
  if memSlot ∈ m.allocator.destroyed then .error .nullDeref else pure (m.slots memSlot)

def call (m : GuestMemory) : Call → Checked GuestMemory
  | .allocate reqSize => do
    let (m, _) ← m.allocateGuestMemory reqSize
    pure m
  | .free guestStart size => m.freeGuestMemory guestStart size

end GuestMemory

end Embassies.Monitor
