import Embassies.Lib.BinarySearch
import Embassies.Monitor.GuestMemory

/-! Checkpoint and resume of guest memory: `_emit_swapfile`, `_load_swap` and the page-in lookup.

    The save side walks the allocated ranges but writes the memory slot of each. The load side reads the
    segments in order and rebuilds the allocator, with what lies between them free, and a table of the
    mappings that page-in searches. Threads and the rest of `swap_vm` are left out. -/

namespace Embassies.Monitor

open Utils

/-- `swap_segment`. -/
structure SwapSegment where
  vaddr : ℕ
  size : ℕ
  offset : ℕ
  deriving DecidableEq, Repr

/-- The swap file, as far as memory goes, and the page file. -/
structure Swapfile where
  hostAlarmsPageGuestAddr : ℕ
  idtPageGuestAddr : ℕ
  segments : List SwapSegment
  pages : Bytes

/-- `Mmapper`. -/
structure Mmapper where
  hostAddr : ℕ
  size : ℕ
  fpOffset : ℕ
  deriving DecidableEq, Repr

namespace GuestMemory

/-- The loop of `_emit_swapfile` over the allocated ranges, from the given one on. -/
def emitSegments (m : GuestMemory) (memory : ℕ → UInt8) :
    (fuel : ℕ) → Option (Option ℕ × Range) → (offset : ℕ) → Checked (List SwapSegment × Bytes)
  | 0, _, _ => .error .outOfFuel
  | fuel + 1, some (some memSlot, thisRange), offset => do
    let slot ← m.memSlotAt memSlot
    let vaddr ← slot.getGuestAddr
    let size ← slot.getSize
    let hostAddr ← slot.getHostAddr
    let next ← m.allocator.nextRange thisRange
    let (segments, pages) ← emitSegments m memory fuel next (u32 (offset + size))
    pure (⟨vaddr, size, offset⟩ :: segments, bytesAt memory hostAddr size ++ pages)
  | _ + 1, _, _ => pure ([], [])

/-- `_emit_swapfile()`. -/
def emitSwapfile (m : GuestMemory) (memory : ℕ → UInt8) : Checked Swapfile := do
  let hostAlarmsPage ← m.memSlotAt m.hostAlarmsPage
  let hostAlarmsPageGuestAddr ← hostAlarmsPage.getGuestAddr
  let idtPage ← m.memSlotAt m.idtPage
  let idtPageGuestAddr ← idtPage.getGuestAddr
  let segmentCount := m.allocator.rangeCount
  let first ← m.allocator.firstRange
  let (segments, pages) ← m.emitSegments memory (segmentCount + 1) first 0
  liteAssert (segments.length = segmentCount)
  pure ⟨hostAlarmsPageGuestAddr, idtPageGuestAddr, segments, pages⟩

/-- What `_load_swap` has rebuilt so far. -/
structure Loading where
  allocator : CoalescingAllocator ℕ
  slots : ℕ → MemSlot
  nextSlot : ℕ
  mmapperList : List Mmapper
  hostAlarmsPage : Option ℕ
  idtPage : Option ℕ
  lastGuestRangeEnd : ℕ

/-- Before the first segment. -/
def Loading.start : Loading := ⟨.init true, fun _ => .unconfigured, 0, [], none, none, guestAddrStart⟩

/-- The gap before a segment, or after the last one, is free. -/
def fillGap (allocator : CoalescingAllocator ℕ) (gap : Range) : Checked (CoalescingAllocator ℕ) :=
  if gap.start < gap.stop then allocator.forceInsertCoalescedFreeRange gap else pure allocator

/-- The monitor's own pages are recognised by their address. -/
def Loading.recognize (l : Loading) (file : Swapfile) (start memSlot : ℕ) : Loading :=
  if start = file.hostAlarmsPageGuestAddr then { l with hostAlarmsPage := some memSlot }
  else if start = file.idtPageGuestAddr then { l with idtPage := some memSlot }
  else l

/-- One iteration of the loop of `_load_swap`. -/
def loadSegment (file : Swapfile) (l : Loading) (seg : SwapSegment) : Checked Loading := do
  let memSlot := l.nextSlot
  match ← l.allocator.allocateRangeAt seg.vaddr seg.size memSlot with
  | (_, none) => .error .outOfRange   -- guest_range is not set
  | (allocator, some guestRange) => do
    let hostAddr := hostPhysMemory + guestRange.start
    let slot ← MemSlot.unconfigured.configure guestRange hostAddr
    liteAssert (l.lastGuestRangeEnd ≤ guestRange.start)
    let allocator ← fillGap allocator ⟨l.lastGuestRangeEnd, guestRange.start⟩
    pure (Loading.recognize
      { l with
        allocator
        slots := Function.update l.slots memSlot slot
        nextSlot := memSlot + 1
        mmapperList := l.mmapperList ++ [⟨hostAddr, seg.size, seg.offset⟩]
        lastGuestRangeEnd := guestRange.stop } file guestRange.start memSlot)

/-- The loop of `_load_swap`. -/
def loadSegments (file : Swapfile) : List SwapSegment → Loading → Checked Loading
  | [], l => pure l
  | seg :: segs, l => do
    let l ← loadSegment file l seg
    loadSegments file segs l

/-- `_load_swap(core_file)`: guest memory and the table for page-in. -/
def loadSwap (file : Swapfile) : Checked (GuestMemory × List Mmapper) := do
  let l ← loadSegments file file.segments .start
  let allocator ← fillGap l.allocator ⟨l.lastGuestRangeEnd, hostPhysMemorySize⟩
  match l.hostAlarmsPage, l.idtPage with
  | some hostAlarmsPage, some idtPage =>
    pure (⟨allocator, l.slots, l.nextSlot, hostAlarmsPage, idtPage⟩, l.mmapperList)
  | _, _ => .error .liteAssert

/-- `mmapper_page_comp(m1, m2)`, for the address of the first. -/
def mmapperPageComp (hostAddr : ℕ) (mp : Mmapper) : Checked ℤ :=
  if hostAddr < mp.hostAddr then pure (int32 (sub32 hostAddr mp.hostAddr))
  else if sub32 (u32 (mp.hostAddr + mp.size)) 1 < hostAddr then
    pure (int32 (sub32 hostAddr (sub32 (u32 (mp.hostAddr + mp.size)) 1)))
  else if mp.hostAddr ≤ hostAddr ∧ hostAddr < u32 (mp.hostAddr + mp.size) then pure 0
  else .error .liteAssert   -- Break page assumption.

/-- `find_page_file_offset(vaddr)`: nothing for -1. -/
def findPageFileOffset (mmapperList : List Mmapper) (vaddr : ℕ) : Checked (Option ℕ) := do
  let segvAddr := u32 (vaddr + hostPhysMemory)
  match ← bsearch (mmapperPageComp segvAddr) mmapperList with
  | none => pure none
  | some mp => pure (some (mp.fpOffset + (segvAddr - mp.hostAddr)))

end GuestMemory

end Embassies.Monitor
