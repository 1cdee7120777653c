import Embassies.Lib.Checked
import Mathlib.Data.List.Nodup

/-! The zutex table of the monitor: `ZutexTable`, `ZutexQueue` and `ZutexWaiter`.

    A waiter that waits on several zutexes is in the queue of each, and keeps a list of these queues. The
    table holds one queue for a handle, so a queue is named by its handle; following a name that the table
    does not have is a use of a queue that was freed. The calls run under the table's lock, each as one
    step, and a thread that is asleep makes no call. -/

namespace Embassies.Monitor

open Function

variable {W : Type} [DecidableEq W]

/-- `ZutexWaitSpec`. -/
structure ZutexWaitSpec where
  zutex : ℕ
  matchVal : ℕ

/-- The table, the waiters' lists of queues, and who is asleep. -/
structure ZutexTable (W : Type) where
  table : ℕ → Option (List W)
  zqList : W → List ℕ
  asleep : W → Bool

namespace ZutexTable

/-- `ZutexTable(..)` with nobody waiting. -/
def empty : ZutexTable W := ⟨fun _ => none, fun _ => [], fun _ => false⟩

/-- The loop of `wait` over the match values: whether all zutexes are mapped and match. The memory gives
    the word of a zutex that is mapped. -/
def allMatch (memory : ℕ → Option ℕ) : List ZutexWaitSpec → Bool
  | [] => true
  | spec :: specs =>
    match memory spec.zutex with
    | none => false   -- guest zutex not actually mapped!
    | some currentGuestVal => if currentGuestVal ≠ spec.matchVal then false else allMatch memory specs

/-- `_get_or_create_queue(guest_hdl)`, `push(waiter)` and `append_list(zq)`. -/
def enqueue (s : ZutexTable W) (waiter : W) (guestZutex : ℕ) : ZutexTable W :=
  { s with
    table := update s.table guestZutex (some ((s.table guestZutex).getD [] ++ [waiter]))
    zqList := update s.zqList waiter (s.zqList waiter ++ [guestZutex]) }

/-- `wait(specs, count, waiter)`. -/
def wait (s : ZutexTable W) (waiter : W) (memory : ℕ → Option ℕ) (specs : List ZutexWaitSpec) :
    ZutexTable W :=
  if s.asleep waiter = true then s
  else if allMatch memory specs = false then s
  else
    let s := specs.foldl (fun s spec => s.enqueue waiter spec.zutex) s
    { s with asleep := update s.asleep waiter true }

/-- `ZutexQueue::remove(zw)`. -/
def queueRemove (queue : List W) (waiter : W) : Checked (List W) :=
  if waiter ∈ queue then .ok (queue.erase waiter)
  else .error .liteAssert   -- expected ZutexWaiter not present.

/-- The waiter leaves a queue of its list, unless that is the one being woken. -/
def leaveQueue (zq wq : ℕ) (queue : List W) (waiter : W) : Checked (List W) :=
  if wq ≠ zq then queueRemove queue waiter else pure queue

/-- The loop of `wake` over a woken waiter's list: the waiter leaves every queue but the one being woken,
    and queues that have emptied are collected. -/
def leaveQueues (zq : ℕ) (waiter : W) : List ℕ → (ℕ → Option (List W)) → List ℕ →
    Checked ((ℕ → Option (List W)) × List ℕ)
  | [], table, emptyZqSet => pure (table, emptyZqSet)
  | wq :: rest, table, emptyZqSet =>
    match table wq with
    | none => .error .nullDeref
    | some queue => do
      let queue ← leaveQueue zq wq queue waiter
      let emptyZqSet :=
        if queue.isEmpty = true then
          if wq ∈ emptyZqSet then emptyZqSet else emptyZqSet ++ [wq]
        else emptyZqSet
      leaveQueues zq waiter rest (update table wq (some queue)) emptyZqSet

/-- The loop of `wake` over the private wake queue. -/
def wakeEach (zq : ℕ) : List W → ZutexTable W → List ℕ → Checked (ZutexTable W × List ℕ)
  | [], s, emptyZqSet => pure (s, emptyZqSet)
  | waiter :: rest, s, emptyZqSet => do
    let (table, emptyZqSet) ← leaveQueues zq waiter (s.zqList waiter) s.table emptyZqSet
    wakeEach zq rest
      { table := table
        zqList := update s.zqList waiter []
        asleep := update s.asleep waiter false } emptyZqSet

/-- `_free_zq(zq)` for each queue that has emptied. -/
def freeEach : List ℕ → (ℕ → Option (List W)) → Checked (ℕ → Option (List W))
  | [], table => pure table
  | zq :: rest, table =>
    match table zq with
    | none => .error .liteAssert   -- expected key to be present
    | some queue => do
      liteAssert (queue.isEmpty = true)
      freeEach rest (update table zq none)

/-- `wake(guest_zutex, n_wake)`: the table, the result, and the waiters that were woken, in order. -/
def wake (s : ZutexTable W) (guestZutex nWake : ℕ) : Checked (ZutexTable W × ℕ × List W) :=
  match s.table guestZutex with
  | none => pure (s, 0, [])   -- nothing to wake!
  | some queue => do
    -- select the n_wake victims
    let victims := queue.take nWake
    let table := update s.table guestZutex (some (queue.drop nWake))
    let (s, emptyZqSet) ← wakeEach guestZutex victims { s with table := table } []
    let table ← freeEach emptyZqSet s.table
    pure ({ s with table := table }, victims.length, victims)

/-- A call on the table. -/
inductive Call (W : Type) where
  | wait (waiter : W) (memory : ℕ → Option ℕ) (specs : List ZutexWaitSpec)
  | wake (guestZutex nWake : ℕ)

def call (s : ZutexTable W) : Call W → Checked (ZutexTable W)
  | .wait waiter memory specs => pure (s.wait waiter memory specs)
  | .wake guestZutex nWake => do
    let (s, _, _) ← s.wake guestZutex nWake
    pure s

end ZutexTable

end Embassies.Monitor
