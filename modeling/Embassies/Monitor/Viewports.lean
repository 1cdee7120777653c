import Embassies.Utils.HashTable
import Mathlib.Data.UInt

/-! Viewports of the window manager: `BlitterManager` and `BlitterViewport`.

    A viewport has a landlord, who made it, and later a tenant, who draws in it. Whoever shows its deed becomes the
    tenant; a tenant that transfers it gets a new deed to pass on. Deeds and the handles of both parties are kept in
    hash tables. Canvases, rectangles and the logs are left out, so no viewport has a canvas mapped. -/

namespace Embassies.Monitor

open Utils

/-- `ViewportHandle`, with the viewport it points to. -/
structure ViewportHandle where
  handle : UInt32
  processId : UInt32
  viewport : ℕ
  deriving DecidableEq, Repr

/-- `DeedEntry`. -/
structure DeedEntry where
  deed : UInt64
  viewport : ℕ
  deriving DecidableEq, Repr

lemma toInt_sub_eq_zero (x y : UInt32) : (x - y).toInt32.toInt = 0 ↔ x = y := by
  rw [← Int32.toInt_zero, Int32.toInt_inj, ← sub_eq_zero (a := x)]
  exact ⟨fun h => congrArg Int32.toUInt32 h, fun h => congrArg UInt32.toInt32 h⟩

namespace ViewportHandle

/-- `ViewportHandle::hash(a)`. -/
def hash (a : ViewportHandle) : UInt32 := a.handle ^^^ (a.processId <<< 16 ||| a.processId >>> 16)

/-- `ViewportHandle::cmp(a, b)`. -/
def cmp (a b : ViewportHandle) : ℤ :=
  let c1 := (a.processId - b.processId).toInt32.toInt
  if c1 ≠ 0 then c1 else (a.handle - b.handle).toInt32.toInt

lemma cmp_eq_zero {a b : ViewportHandle} : cmp a b = 0 ↔ a.processId = b.processId ∧ a.handle = b.handle := by
  unfold cmp
  dsimp only
  split
  case isTrue h => exact iff_of_false h fun hsame => h ((toInt_sub_eq_zero _ _).mpr hsame.1)
  case isFalse h => rw [toInt_sub_eq_zero, and_iff_right ((toInt_sub_eq_zero _ _).mp (not_not.mp h))]

/-- How the table of handles compares them. -/
def keyFuncs : KeyFuncs ViewportHandle where
  hashFunc := hash
  cmpFunc := cmp
  refl _ := cmp_eq_zero.mpr ⟨rfl, rfl⟩
  symm h := by
    rw [cmp_eq_zero] at h ⊢
    exact ⟨h.1.symm, h.2.symm⟩
  trans h h' := by
    rw [cmp_eq_zero] at h h' ⊢
    exact ⟨h.1.trans h'.1, h.2.trans h'.2⟩
  hash_eq h := by
    rw [cmp_eq_zero] at h
    rw [hash, hash, h.1, h.2]

end ViewportHandle

namespace DeedEntry

/-- `DeedEntry::hash(a)`. -/
def hash (a : DeedEntry) : UInt32 := a.deed.toUInt32

/-- `DeedEntry::cmp(a, b)`: the difference is cut to an `int`. -/
def cmp (a b : DeedEntry) : ℤ := (a.deed - b.deed).toUInt32.toInt32.toInt

lemma cmp_eq_zero {a b : DeedEntry} : cmp a b = 0 ↔ a.deed.toUInt32 = b.deed.toUInt32 := by
  rw [cmp, UInt64.toUInt32_sub, toInt_sub_eq_zero]

/-- How the table of deeds compares them. -/
def keyFuncs : KeyFuncs DeedEntry where
  hashFunc := hash
  cmpFunc := cmp
  refl _ := cmp_eq_zero.mpr rfl
  symm h := cmp_eq_zero.mpr (cmp_eq_zero.mp h).symm
  trans h h' := cmp_eq_zero.mpr ((cmp_eq_zero.mp h).trans (cmp_eq_zero.mp h'))
  hash_eq h := cmp_eq_zero.mp h

end DeedEntry

/-- `BlitterViewport`. -/
structure BlitterViewport where
  landlordHandle : ViewportHandle
  tenantHandle : Option ViewportHandle
  deed : UInt64
  deedKey : UInt64
  parentViewport : Option ℕ
  deriving Repr

/-- `BlitterManager`, with the viewports there are and the counter for their ids. -/
structure BlitterManager where
  viewportHandles : HashTable ViewportHandle
  deeds : HashTable DeedEntry
  viewports : ℕ → BlitterViewport
  nextViewport : ℕ
  nextViewportId : UInt32

/-- What the random supply gives for a deed. -/
structure Draw where
  deed : UInt64
  deedKey : UInt64
  deriving DecidableEq, Repr

namespace BlitterManager

/-- The constructor. -/
def init : BlitterManager := ⟨.init, .init, fun _ => ⟨⟨0, 0, 0⟩, none, 0, 0, none⟩, 0, 1⟩

/-- A viewport with new contents. -/
def withViewport (m : BlitterManager) (v : ℕ) (viewport : BlitterViewport) : BlitterManager :=
  { m with viewports := Function.update m.viewports v viewport }

/-- `add_viewport_handle(viewport_handle)`. -/
def addViewportHandle (m : BlitterManager) (viewportHandle : ViewportHandle) : Checked BlitterManager := do
  let viewportHandles ← m.viewportHandles.insert ViewportHandle.keyFuncs viewportHandle
  pure { m with viewportHandles }

/-- `remove_viewport_handle(viewport_handle)`. -/
def removeViewportHandle (m : BlitterManager) (viewportHandle : ViewportHandle) : Checked BlitterManager := do
  let viewportHandles ← m.viewportHandles.remove ViewportHandle.keyFuncs viewportHandle
  pure { m with viewportHandles }

/-- `manufacture_deed(viewport, &deed, &deed_key)`. -/
def manufactureDeed (m : BlitterManager) (v : ℕ) (draw : Draw) : Checked BlitterManager := do
  let deeds ← m.deeds.insert DeedEntry.keyFuncs ⟨draw.deed, v⟩
  pure (withViewport { m with deeds } v { m.viewports v with deed := draw.deed, deedKey := draw.deedKey })

def newViewport (m : BlitterManager) (processId : UInt32) (parentViewport : Option ℕ) (draw : Draw) :
    Checked (BlitterManager × ℕ) := do
  let v := m.nextViewport
  let landlordHandle : ViewportHandle := ⟨m.nextViewportId, processId, v⟩
  let m := withViewport { m with nextViewport := v + 1, nextViewportId := m.nextViewportId + 1 } v
    ⟨landlordHandle, none, 0, 0, parentViewport⟩
  let m ← m.addViewportHandle landlordHandle
  let m ← m.manufactureDeed v draw
  pure (m, v)

/-- `accept_viewport(process_id)` of a viewport. -/
def viewportAccept (m : BlitterManager) (v : ℕ) (processId : UInt32) : Checked BlitterManager :=
  let tenantHandle : ViewportHandle := ⟨m.nextViewportId, processId, v⟩
  let m := withViewport { m with nextViewportId := m.nextViewportId + 1 } v
    { m.viewports v with tenantHandle := some tenantHandle, deed := 0 }
  m.addViewportHandle tenantHandle

/-- `transfer()` of a viewport. -/
def viewportTransfer (m : BlitterManager) (v : ℕ) (draw : Draw) : Checked BlitterManager :=
  match (m.viewports v).tenantHandle with
  | none => .error .liteAssert
  | some tenantHandle => do
    let m ← m.removeViewportHandle tenantHandle
    let m := m.withViewport v { m.viewports v with tenantHandle := none }
    m.manufactureDeed v draw

/-- `get_viewport(viewport_id, process_id)`: what the table finds is dereferenced. -/
def getViewport (m : BlitterManager) (viewportId processId : UInt32) : Checked (BlitterManager × ℕ) :=
  match m.viewportHandles.lookup ViewportHandle.keyFuncs ⟨viewportId, processId, 0⟩ with
  | (_, none) => .error .nullDeref
  | (viewportHandles, some vh) => pure ({ m with viewportHandles }, vh.viewport)

/-- `get_tenant_id()` of a viewport. -/
def getTenantId (m : BlitterManager) (v : ℕ) : Checked UInt32 :=
  match (m.viewports v).tenantHandle with
  | none => .error .liteAssert
  | some tenantHandle => pure tenantHandle.handle

/-- `get_landlord_id()` of a viewport. -/
def getLandlordId (m : BlitterManager) (v : ℕ) : UInt32 := (m.viewports v).landlordHandle.handle

/-- `get_tenant_viewport(viewport_id, process_id)`. -/
def getTenantViewport (m : BlitterManager) (viewportId processId : UInt32) :
    Checked (BlitterManager × Option ℕ) := do
  let (m, v) ← m.getViewport viewportId processId
  let tenantId ← m.getTenantId v
  pure (m, if tenantId ≠ viewportId then none else some v)

/-- `get_landlord_viewport(viewport_id, process_id)`. -/
def getLandlordViewport (m : BlitterManager) (viewportId processId : UInt32) :
    Checked (BlitterManager × Option ℕ) := do
  let (m, v) ← m.getViewport viewportId processId
  pure (m, if m.getLandlordId v ≠ viewportId then none else some v)

/-- `accept_viewport(deed, process_id)`. -/
def acceptViewport (m : BlitterManager) (deed : UInt64) (processId : UInt32) : Checked (BlitterManager × Option ℕ) :=
  match m.deeds.lookup DeedEntry.keyFuncs ⟨deed, 0⟩ with
  | (deeds, none) => pure ({ m with deeds }, none)
  | (deeds, some value) => do
    let deeds ← deeds.remove DeedEntry.keyFuncs value
    let m ← viewportAccept { m with deeds } value.viewport processId
    pure (m, some value.viewport)

/-- `new_toplevel_viewport(process_id)`: the viewport is accepted at once. -/
def newToplevelViewport (m : BlitterManager) (processId : UInt32) (draw : Draw) : Checked (BlitterManager × ℕ) := do
  let (m, v) ← m.newViewport processId none draw
  let m ← m.viewportAccept v processId
  pure (m, v)

/-- The request to sublet a viewport, in `Listener`. -/
def subletViewport (m : BlitterManager) (viewportId processId : UInt32) (draw : Draw) :
    Checked (BlitterManager × ℕ) := do
  match ← m.getTenantViewport viewportId processId with
  | (_, none) => .error .nullDeref
  | (m, some parent) => m.newViewport processId (some parent) draw

/-- The request to transfer a viewport, in `Listener`. -/
def transferViewport (m : BlitterManager) (viewportId processId : UInt32) (draw : Draw) :
    Checked (BlitterManager × ℕ) := do
  match ← m.getTenantViewport viewportId processId with
  | (_, none) => .error .nullDeref
  | (m, some v) => do
    let tenantId ← m.getTenantId v
    liteAssert (tenantId = viewportId)
    let m ← m.viewportTransfer v draw
    pure (m, v)

end BlitterManager

/-- A request to the manager. -/
inductive ViewportCall where
  | newToplevel (processId : UInt32) (draw : Draw)
  | sublet (viewportId processId : UInt32) (draw : Draw)
  | accept (deed : UInt64) (processId : UInt32)
  | transfer (viewportId processId : UInt32) (draw : Draw)
  | getTenant (viewportId processId : UInt32)
  | getLandlord (viewportId processId : UInt32)

/-- The change of tenancy that a call reports. -/
inductive ViewportEvent where
  | accepted (deed : Option UInt64) (viewport : ℕ) (processId : UInt32)
  | transferred (viewport : ℕ)
  deriving DecidableEq, Repr

def ViewportEvent.viewport : ViewportEvent → ℕ
  | accepted _ v _ => v
  | transferred v => v

def ViewportEvent.deed? : ViewportEvent → Option UInt64
  | accepted deed _ _ => deed
  | transferred _ => none

/-- The manager, what has been drawn for deeds, and the changes of tenancy, the latest first. -/
structure ViewportSession where
  manager : BlitterManager
  drawn : List UInt64
  events : List ViewportEvent

namespace ViewportSession

/-- Before the first call. -/
def init : ViewportSession := ⟨.init, [], []⟩

def call (s : ViewportSession) : ViewportCall → Checked ViewportSession
  | .newToplevel processId draw => do
    let (m, v) ← s.manager.newToplevelViewport processId draw
    pure ⟨m, draw.deed :: s.drawn, .accepted none v processId :: s.events⟩
  | .sublet viewportId processId draw => do
    let (m, _) ← s.manager.subletViewport viewportId processId draw
    pure ⟨m, draw.deed :: s.drawn, s.events⟩
  | .accept deed processId => do
    match ← s.manager.acceptViewport deed processId with
    | (m, none) => pure { s with manager := m }
    | (m, some v) => pure ⟨m, s.drawn, .accepted (some deed) v processId :: s.events⟩
  | .transfer viewportId processId draw => do
    let (m, v) ← s.manager.transferViewport viewportId processId draw
    pure ⟨m, draw.deed :: s.drawn, .transferred v :: s.events⟩
  | .getTenant viewportId processId => do
    let (m, _) ← s.manager.getTenantViewport viewportId processId
    pure { s with manager := m }
  | .getLandlord viewportId processId => do
    let (m, _) ← s.manager.getLandlordViewport viewportId processId
    pure { s with manager := m }

end ViewportSession

end Embassies.Monitor
