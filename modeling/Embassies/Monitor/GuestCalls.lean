import Embassies.Monitor.GuestIsolation
import Embassies.Monitor.ZutexTable

/-! Guest calls whose arguments point to memory: `zutex_wait` and `launch_application`.

    The monitor reads the call structure, and through `map_region_to_host` whatever a guest pointer names. The model of
    a call records its reads and the memory-map lock. Three checks fall short: the end of a region is a 32-bit sum and
    is compared with the end of the slot, whatever has been freed of it since; the size of the wait specs is a 32-bit
    product; and one failed check of `launch_application` jumps past the unlock. -/

namespace Embassies.Monitor

open Checked Utils List CoalescingAllocator

/-- A read of the call structure, at an offset, or of host memory. -/
inductive Read where
  | callPage (offset size : ℕ)
  | host (addr size : ℕ)
  deriving DecidableEq, Repr

/-- What a call does: whether it holds the memory-map lock, and its reads. -/
structure Trace where
  locked : Bool
  reads : List Read

namespace Trace

def lockMemoryMap (t : Trace) : Trace := { t with locked := true }

def unlockMemoryMap (t : Trace) : Trace := { t with locked := false }

def read (t : Trace) (r : Read) : Trace := { t with reads := t.reads ++ [r] }

@[simp] lemma locked_read {t : Trace} {r : Read} : (t.read r).locked = t.locked := rfl

end Trace

/-- A word of host memory, in the order of the machine. -/
def wordAt (memory : ℕ → UInt8) (addr : ℕ) : ℕ := ofBE (bytesAt memory addr 4).reverse

/-- Where `in_specs[i]` stands in `xa_zutex_wait`. -/
def specOffset (i : ℕ) : ℕ := 8 + 8 * i

namespace GuestMemory

section Calls

variable (m : GuestMemory) (memory : ℕ → UInt8) (specs : ℕ → ZutexWaitSpec)

/-- The loop of `ZutexTable::wait` over the match values, from the `i`-th spec on: whether all match, or
    nothing if some zutex is not mapped. -/
def checkMatch : (remaining i : ℕ) → Trace → Checked (Trace × Option Bool)
  | 0, _, t => pure (t, some true)
  | remaining + 1, i, t => do
    match ← m.mapRegionToHost (specs i).zutex 4 with
    | none => pure (t.read (.callPage (specOffset i) 4), none)   -- guest zutex not actually mapped!
    | some hostZutex =>
      let t := ((t.read (.callPage (specOffset i) 4)).read (.host hostZutex 4)).read
        (.callPage (specOffset i + 4) 4)
      if wordAt memory hostZutex ≠ (specs i).matchVal then pure (t, some false)
      else checkMatch remaining (i + 1) t

/-- The loop of `ZutexTable::wait` that enters the queues reads the specs once more. -/
def enqueueReads : (count : ℕ) → Trace → Trace
  | 0, t => t
  | count + 1, t => (enqueueReads count t).read (.callPage (specOffset count) 4)

/-- `ZutexTable::wait(specs, count)`, as far as its reads go. -/
def wait (count : ℕ) (t : Trace) : Checked Trace := do
  match ← checkMatch m memory specs count 0 t.lockMemoryMap with
  | (t, none) => pure t.unlockMemoryMap
  | (t, some false) => pure t.unlockMemoryMap
  | (t, some true) => pure (enqueueReads count t.unlockMemoryMap)

end Calls

/-- The check of `map_region_to_host` in terms of the state: the sum wraps, and is compared with the end of the slot. -/
def Accepted (m : GuestMemory) (start size : ℕ) : Prop :=
  ∃ slot, m.Owner start slot ∧ u32 (start + size) < (m.slots slot).guestRange.stop

variable {m m' : GuestMemory} {F : Set Range} {A : Set (RangeByStartElt ℕ)} {x slot start size : ℕ}

lemma Owner.unique {slot' : ℕ} (h : m.Owner x slot) (h' : m.Owner x slot') : slot = slot' := by
  obtain ⟨range, hrun⟩ := h
  obtain ⟨range', hrun'⟩ := h'
  rw [hrun] at hrun'
  exact Option.some.inj (Prod.mk.inj (Option.some.inj (Except.ok.inj hrun'))).1

variable {memory : ℕ → UInt8} {specs : ℕ → ZutexWaitSpec}

end GuestMemory

end Embassies.Monitor
