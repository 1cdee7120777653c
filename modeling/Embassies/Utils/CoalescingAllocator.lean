import Embassies.Utils.AVLSet

/-! `CoalescingAllocator`: free ranges in one tree by size and in another by start, and allocated ranges
    in a third one by start. Both orders compare by the sign of a 32-bit difference.

    Each allocation carries a user object, which its fragments share by reference count and which is
    destroyed when the last one goes. The mutex is left out: each call is one step. -/

namespace Embassies.Utils

open Function

/-- `Range`: `[start, stop)`. -/
structure Range where
  start : ℕ
  stop : ℕ
  deriving DecidableEq, Repr

namespace Range

/-- `size()`. -/
def size (r : Range) : ℕ := if r.stop < r.start then 0 else r.stop - r.start

/-- `intersect(other)`. -/
def intersect (r other : Range) : Range := ⟨max r.start other.start, min r.stop other.stop⟩

/-- `RangeBySizeKey::cmp(a, b)`; ties are resolved by start. -/
def cmpSize (a b : Range) : ℤ :=
  if int32 (sub32 a.size b.size) ≠ 0 then int32 (sub32 a.size b.size) else int32 (sub32 a.start b.start)

/-- `RangeByStartKey::cmp(a, b)`. -/
def cmpStart (a b : Range) : ℤ := int32 (sub32 a.start b.start)

end Range

variable {U : Type}

/-- `RefcountedUserObj`; its count is kept by the allocator, under its number. -/
structure RefcountedUserObj (U : Type) where
  id : ℕ
  obj : U
  deriving DecidableEq, Repr

/-- `RangeByStartElt`. -/
structure RangeByStartElt (U : Type) where
  range : Range
  refcountedUserObj : Option (RefcountedUserObj U)
  deriving DecidableEq, Repr

/-- `RangeBySizeElt` is its range. -/
def bySize : AVLKeys Range Range := .ofCmp id Range.cmpSize

def byStart : AVLKeys (RangeByStartElt U) Range := .ofCmp RangeByStartElt.range Range.cmpStart

/-- `CoalescingAllocator`, with the reference counts of the user objects it was given, the number of the
    next one, and the objects it has destroyed. -/
structure CoalescingAllocator (U : Type) where
  rangeCount : ℕ
  allowRedundantFrees : Bool
  freeBySizeTree : AVLTree Range
  freeByStartTree : AVLTree (RangeByStartElt U)
  allocatedTree : AVLTree (RangeByStartElt U)
  refcount : ℕ → ℤ
  nextObj : ℕ
  destroyed : List U

namespace CoalescingAllocator

/-- `CoalescingAllocator(sf, allow_redundant_frees)`. -/
def init (allowRedundantFrees : Bool) : CoalescingAllocator U :=
  { rangeCount := 0, allowRedundantFrees, freeBySizeTree := .empty, freeByStartTree := .empty,
    allocatedTree := .empty, refcount := fun _ => 0, nextObj := 0, destroyed := [] }

/-- `add_ref()`, in the constructor of a `RangeByStartElt`. -/
def addRef (s : CoalescingAllocator U) : Option (RefcountedUserObj U) → CoalescingAllocator U
  | none => s
  | some o => { s with refcount := update s.refcount o.id (s.refcount o.id + 1) }

/-- `drop_ref()`, in its destructor: the last reference destroys the object. -/
def dropRef (s : CoalescingAllocator U) : Option (RefcountedUserObj U) → CoalescingAllocator U
  | none => s
  | some o =>
    { s with
      refcount := update s.refcount o.id (s.refcount o.id - 1)
      destroyed := if s.refcount o.id - 1 = 0 then s.destroyed ++ [o.obj] else s.destroyed }

/-- `_remove_free_range_by_start_elt(start_elt)`. -/
def removeFreeRangeByStartElt (s : CoalescingAllocator U) (startElt : RangeByStartElt U) :
    Checked (CoalescingAllocator U) := do
  let correspondingEltBySize ← s.freeBySizeTree.lookup bySize startElt.range
  match correspondingEltBySize with
  | none => .error .liteAssert -- each free range appears in both trees
  | some elt => do
    let freeBySizeTree ← s.freeBySizeTree.remove bySize elt
    let freeByStartTree ← s.freeByStartTree.remove byStart startElt
    pure { s with freeBySizeTree, freeByStartTree }

/-- `_insert_coalesced_free_range(range)`. -/
def insertCoalescedFreeRange (s : CoalescingAllocator U) (range : Range) :
    Checked (CoalescingAllocator U) := do
  liteAssert (0 < range.size)
  let freeBySizeTree ← s.freeBySizeTree.insert bySize range
  let freeByStartTree ← s.freeByStartTree.insert byStart ⟨range, none⟩
  pure { s with freeBySizeTree, freeByStartTree }

/-- `force_insert_coalesced_free_range(range)`. -/
def forceInsertCoalescedFreeRange (s : CoalescingAllocator U) (range : Range) :
    Checked (CoalescingAllocator U) :=
  s.insertCoalescedFreeRange range

/-- The end of `_create_empty_range_nolock`: coalesce to the left. -/
def coalesceLeft (s : CoalescingAllocator U) (newRange : Range) : Checked (CoalescingAllocator U) := do
  match ← s.freeByStartTree.findFirstLessThanOrEqualTo byStart newRange with
  | none => s.insertCoalescedFreeRange newRange
  | some precedingElt => do
    liteAssert (precedingElt.range.stop ≤ newRange.start)
    if precedingElt.range.stop = newRange.start then do
      let s ← s.removeFreeRangeByStartElt precedingElt
      s.insertCoalescedFreeRange ⟨precedingElt.range.start, newRange.stop⟩
    else s.insertCoalescedFreeRange newRange

/-- `_create_empty_range_nolock(new_range)`, with fuel for the recursion after coalescing to the right. -/
def createEmptyRangeFrom (s : CoalescingAllocator U) : ℕ → Range → Checked (CoalescingAllocator U)
  | 0, _ => .error .outOfFuel
  | f + 1, newRange => do
    match ← s.freeByStartTree.findFirstGreaterThanOrEqualTo byStart newRange with
    | none => s.coalesceLeft newRange
    | some followingElt => do
      liteAssert (newRange.stop ≤ followingElt.range.start)
      if followingElt.range.start = newRange.stop then do
        let s ← s.removeFreeRangeByStartElt followingElt
        createEmptyRangeFrom s f ⟨newRange.start, followingElt.range.stop⟩
      else s.coalesceLeft newRange

/-- `create_empty_range(range)`. Each round of the recursion takes a range out of the free trees. -/
def createEmptyRange (s : CoalescingAllocator U) (range : Range) : Checked (CoalescingAllocator U) :=
  s.createEmptyRangeFrom (s.freeByStartTree.allocated + 2) range

/-- A fresh element for an allocation: `new RangeByStartElt(range, new RefcountedUserObj(user_obj))`, in
    the allocated tree. -/
def allocateElt (s : CoalescingAllocator U) (range : Range) (userObj : U) :
    Checked (CoalescingAllocator U) := do
  let refcountedUserObj : RefcountedUserObj U := ⟨s.nextObj, userObj⟩
  let s := addRef { s with nextObj := s.nextObj + 1 } (some refcountedUserObj)
  let allocatedTree ← s.allocatedTree.insert byStart ⟨range, some refcountedUserObj⟩
  pure { s with allocatedTree, rangeCount := u32 (s.rangeCount + 1) }

/-- The part of a free range that an allocation leaves over goes back to the free trees. -/
def returnLeftover (s : CoalescingAllocator U) (leftoverRange : Range) : Checked (CoalescingAllocator U) :=
  if 0 < leftoverRange.size then s.createEmptyRange leftoverRange else pure s

/-- `allocate_range(size, user_obj, out_range)` from the smallest suitable range. -/
def allocateFrom (s : CoalescingAllocator U) (assignedRange : Range) (size : ℕ) (userObj : U) :
    Checked (CoalescingAllocator U × Option Range) := do
  let freeBySizeTree ← s.freeBySizeTree.remove bySize assignedRange
  let consumedRange : Range := ⟨assignedRange.start, u32 (assignedRange.start + size)⟩
  liteAssert ((consumedRange.intersect assignedRange).size = size)
  let leftoverRange : Range := ⟨consumedRange.stop, assignedRange.stop⟩
  match ← s.freeByStartTree.lookup byStart consumedRange with
  | none => .error .liteAssert -- each free range appears in both free trees
  | some correspondingRangeByStart => do
    let freeByStartTree ← s.freeByStartTree.remove byStart correspondingRangeByStart
    let s ← allocateElt { s with freeBySizeTree, freeByStartTree } consumedRange userObj
    let s ← s.returnLeftover leftoverRange
    pure (s, some consumedRange)

/-- `allocate_range(size, user_obj, out_range)`: the range, or nothing when it returns false. -/
def allocateRange (s : CoalescingAllocator U) (size : ℕ) (userObj : U) :
    Checked (CoalescingAllocator U × Option Range) :=
  if size = 0 then pure (s, none) else do
    match ← s.freeBySizeTree.findFirstGreaterThanOrEqualTo bySize ⟨0, size⟩ with
    | none => pure (s, none)
    | some smallestSuitableRange => s.allocateFrom smallestSuitableRange size userObj

/-- `allocate_range_at(guest_addr, size, user_obj, out_range)`. The leftover range, which only tests its
    size, is left out. -/
def allocateRangeAt (s : CoalescingAllocator U) (guestAddr size : ℕ) (userObj : U) :
    Checked (CoalescingAllocator U × Option Range) :=
  if size = 0 then pure (s, none) else do
    let assignedRange : Range := ⟨guestAddr, u32 (guestAddr + size)⟩
    let consumedRange : Range := ⟨assignedRange.start, u32 (assignedRange.start + size)⟩
    liteAssert ((consumedRange.intersect assignedRange).size = size)
    let s ← s.allocateElt consumedRange userObj
    pure (s, some consumedRange)

/-- `get_user_obj()` of an element, which every allocated one has. -/
def userObjOf (elt : RangeByStartElt U) : Option U := elt.refcountedUserObj.map RefcountedUserObj.obj

/-- `lookup_value(value, out_range)`: the range that contains the value and its object. -/
def lookupValue (s : CoalescingAllocator U) (value : ℕ) : Checked (Option (Option U × Range)) := do
  match ← s.allocatedTree.findFirstLessThanOrEqualTo byStart ⟨value, u32 (value + 1)⟩ with
  | none => pure none
  | some elt =>
    if elt.range.start ≤ value ∧ value < elt.range.stop then pure (some (userObjOf elt, elt.range))
    else pure none

/-- One side of a split allocation goes back to the allocated tree, unless it is empty. -/
def insertFragment (s : CoalescingAllocator U) (range : Range) (o : Option (RefcountedUserObj U)) :
    Checked (CoalescingAllocator U) :=
  if 0 < range.size then do
    let s := s.addRef o
    let allocatedTree ← s.allocatedTree.insert byStart ⟨range, o⟩
    pure { s with allocatedTree, rangeCount := u32 (s.rangeCount + 1) }
  else pure s

/-- `_free_subrange(allocated, overlap)`. -/
def freeSubrange (s : CoalescingAllocator U) (allocated : RangeByStartElt U) (overlap : Range) :
    Checked (CoalescingAllocator U) := do
  let allocatedTree ← s.allocatedTree.remove byStart allocated
  let s := { s with allocatedTree, rangeCount := sub32 s.rangeCount 1 }
  let s ← s.insertFragment ⟨allocated.range.start, overlap.start⟩ allocated.refcountedUserObj
  let s ← s.insertFragment ⟨overlap.stop, allocated.range.stop⟩ allocated.refcountedUserObj
  let s := s.dropRef allocated.refcountedUserObj
  s.createEmptyRange overlap

/-- The branch of `free_range`'s loop for a gap: advance to the next allocated range, or `break`. -/
def skipGap (s : CoalescingAllocator U) (range : Range) : Checked (CoalescingAllocator U × Option Range) := do
  liteAssert (s.allowRedundantFrees = true)
  match ← s.allocatedTree.findFirstGreaterThanOrEqualTo byStart range with
  | none => pure (s, none)
  | some nextElt => do
    liteAssert (0 < Range.cmpStart nextElt.range range)
    pure (s, some ⟨nextElt.range.start, range.stop⟩)

/-- One iteration of `free_range`'s loop: the rest of the range, or nothing after the `break`. -/
def freeStep (s : CoalescingAllocator U) (range : Range) :
    Checked (CoalescingAllocator U × Option Range) := do
  match ← s.allocatedTree.findFirstLessThanOrEqualTo byStart range with
  | none => s.skipGap range
  | some firstElt =>
    let overlap := range.intersect firstElt.range
    if overlap.size = 0 then s.skipGap range
    else do
      let s ← s.freeSubrange firstElt overlap
      pure (s, some ⟨overlap.stop, range.stop⟩)

/-- The loop of `free_range`. -/
def freeLoop (s : CoalescingAllocator U) : ℕ → Range → Checked (CoalescingAllocator U)
  | 0, _ => .error .outOfFuel
  | f + 1, range =>
    if 0 < range.size then do
      match ← s.freeStep range with
      | (s, none) => pure s
      | (s, some rest) => freeLoop s f rest
    else pure s

/-- `free_range(in_range)`. Every iteration shortens the range, but for a step back when the start is so far
    above an allocation that it compares as smaller. -/
def freeRange (s : CoalescingAllocator U) (inRange : Range) : Checked (CoalescingAllocator U) :=
  s.freeLoop (2 ^ 33) inRange

/-- `first_range(out_range)`. -/
def firstRange (s : CoalescingAllocator U) : Checked (Option (Option U × Range)) := do
  let elt ← s.allocatedTree.findMin byStart
  pure (elt.map fun e => (userObjOf e, e.range))

/-- `next_range(prev_range, out_range)`. -/
def nextRange (s : CoalescingAllocator U) (prevRange : Range) : Checked (Option (Option U × Range)) := do
  let elt ← s.allocatedTree.findFirstGreaterThan byStart prevRange
  pure (elt.map fun e => (userObjOf e, e.range))

end CoalescingAllocator

end Embassies.Utils
