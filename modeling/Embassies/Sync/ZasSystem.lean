import Embassies.Lib.Word
import Mathlib.Data.List.Basic

/-! Threads that wait for any of several objects: `zutex_sync.c`, `ZQueue.cpp` and the message queue of `packetfilter.cpp`.

    The objects are events and queues. Each has a word, its zutex, which is counted up when the object becomes ready; a
    thread checks the objects of its array one by one, notes the word of each that is not ready, and goes to sleep if all
    words are still what it noted. A section under an object's mutex is one step, and so are a zutex wait and a zutex wake.
    A wake of one thread takes any of those that are asleep on the zutex. Between its calls a thread does what it likes:
    it signals and resets events, inserts into queues, consumes from them, waits, or finishes. -/

namespace Embassies.Sync

open Function

/-- How many threads a zutex wake is for: one, or `ZUTEX_ALL`. -/
inductive WakeCount where | one | all

/-! ### Events -/

/-- `ZEvent`. -/
structure ZEvent where
  autoReset : Bool
  seqZutex : ℕ
  signal : Bool

/-- `zevent_init(zevent, auto_reset)`. -/
def zeventInit (autoReset : Bool) : ZEvent := ⟨autoReset, 0, false⟩

/-- `_zevent_check`: the event, and the word to wait on if it is not ready. -/
def zeventCheck (z : ZEvent) : ZEvent × Option ℕ :=
  if z.signal then (if z.autoReset then { z with signal := false } else z, none)
  else (z, some z.seqZutex)

/-- `zevent_reset`. -/
def zeventReset (z : ZEvent) : ZEvent := { z with signal := false }

/-- `zevent_signal`: the event, and the wake it makes. -/
def zeventSignal (z : ZEvent) : ZEvent × Option WakeCount :=
  if z.signal then (z, none)
  else ({ z with signal := true, seqZutex := u32 (z.seqZutex + 1) }, some (if z.autoReset then .one else .all))

/-! ### Queues -/

variable {α ρ : Type}

/-- `ZQueue`, and `MessageQueue`, which is the same code. -/
structure ZQueue (α : Type) where
  seqZutex : ℕ
  entries : List α

/-- `_zq_check` and `_mq_check`: the word to wait on if the queue is empty. -/
def zqCheck (z : ZQueue α) : Option ℕ := if z.entries.isEmpty then some z.seqZutex else none

/-- `zq_insert` and `mq_append`: the queue, and the wake it makes. -/
def zqInsert (z : ZQueue α) (userStorage : α) : ZQueue α × Option WakeCount :=
  (⟨u32 (z.seqZutex + 1), z.entries ++ [userStorage]⟩, if z.entries.isEmpty then some .one else none)

/-- The section of `zq_consume` under the mutex: nothing if someone grabbed the entry, else the queue and the wake it
    makes. The consume method says whether it is done with the entry, and may change it. -/
def zqTake (consumeMethod : α → ρ → Bool × α) (z : ZQueue α) (request : ρ) : Option (ZQueue α × Option WakeCount) :=
  match z.entries with
  | [] => none
  | zqe :: rest =>
    let (consumed, zqe) := consumeMethod zqe request
    let entries := if consumed then rest else zqe :: rest
    -- there's still data to consume; maybe another waiter would like it
    some (⟨z.seqZutex, entries⟩, if entries.isEmpty then none else some .one)

/-! ### Threads -/

variable {E Q T : Type}

/-- An object that a thread can wait on. -/
inductive Obj (E Q : Type) where
  | event (e : E)
  | queue (q : Q)

/-- Where a thread waits: in `zas_wait_any` on an array, or in that of `zq_consume`. -/
inductive Wait (E Q ρ : Type) where
  | any (zasses : List (Obj E Q))
  | consume (q : Q) (request : ρ)

def Wait.array : Wait E Q ρ → List (Obj E Q)
  | .any zasses => zasses
  | .consume q _ => [.queue q]

/-- Where a thread is. -/
inductive Thread (E Q ρ : Type) where
  | idle
  | finished
  /-- in the loop of `zas_wait_any`, with the words of the objects it has found not ready -/
  | checking (w : Wait E Q ρ) (specs : List ℕ)
  /-- in the zutex wait -/
  | asleep (w : Wait E Q ρ)
  /-- before the `zas_check` of `zq_consume`, or of `mq_pop`, which need not block -/
  | head (q : Q) (request : ρ) (block : Bool)
  /-- before the mutex of `zq_consume` -/
  | taking (q : Q) (request : ρ) (block : Bool)

/-- Where `zas_wait_any` returns to. -/
def Wait.after : Wait E Q ρ → Thread E Q ρ
  | .any _ => .idle
  | .consume q request => .head q request true

/-- The objects and the threads. -/
structure State (E Q T α ρ : Type) where
  events : E → ZEvent
  queues : Q → ZQueue α
  threads : T → Thread E Q ρ

namespace State

/-- No event signalled, all queues empty, all threads between calls. -/
def init (autoReset : E → Bool) (seq : Q → ℕ) : State E Q T α ρ :=
  ⟨fun e => zeventInit (autoReset e), fun q => ⟨seq q, []⟩, fun _ => .idle⟩

/-- The word of an object. -/
def seq (s : State E Q T α ρ) : Obj E Q → ℕ
  | .event e => (s.events e).seqZutex
  | .queue q => (s.queues q).seqZutex

/-- The object is signalled, or not empty. -/
def Ready (s : State E Q T α ρ) : Obj E Q → Prop
  | .event e => (s.events e).signal = true
  | .queue q => (s.queues q).entries ≠ []

/-- What an object's check returns. -/
def check (s : State E Q T α ρ) : Obj E Q → Option ℕ
  | .event e => (zeventCheck (s.events e)).2
  | .queue q => zqCheck (s.queues q)

variable [DecidableEq E] [DecidableEq T]

/-- What an object's check changes. -/
def checked (s : State E Q T α ρ) : Obj E Q → State E Q T α ρ
  | .event e => { s with events := update s.events e (zeventCheck (s.events e)).1 }
  | .queue _ => s

def setThread (s : State E Q T α ρ) (t : T) (thread : Thread E Q ρ) : State E Q T α ρ :=
  { s with threads := update s.threads t thread }

end State

/-- Threads that are asleep on the zutex of the object check their arrays again. -/
inductive Wakes [DecidableEq T] (o : Obj E Q) (threads : T → Thread E Q ρ) :
    Option WakeCount → (T → Thread E Q ρ) → Prop
  | none : Wakes o threads none threads
  | nobody (h : ∀ t w, threads t = .asleep w → o ∉ w.array) : Wakes o threads (some .one) threads
  | one (t : T) (w : Wait E Q ρ) (h : threads t = .asleep w) (ho : o ∈ w.array) :
      Wakes o threads (some .one) (update threads t (.checking w []))
  | all (threads' : T → Thread E Q ρ)
      (hwoken : ∀ t w, threads t = .asleep w → o ∈ w.array → threads' t = .checking w [])
      (hsame : ∀ t, (∀ w, threads t = .asleep w → o ∉ w.array) → threads' t = threads t) :
      Wakes o threads (some .all) threads'

/-- What a thread that is between calls does next; a thread in a call goes on. -/
inductive Act (E Q α ρ : Type) where
  | wait (zasses : List (Obj E Q))
  | consume (q : Q) (request : ρ) (block : Bool)
  | signal (e : E)
  | reset (e : E)
  | insert (q : Q) (userStorage : α)
  | finish
  | go

variable [DecidableEq E] [DecidableEq Q] [DecidableEq T] (consumeMethod : Q → α → ρ → Bool × α)

/-- One step of one thread. -/
inductive Step (s : State E Q T α ρ) (t : T) : Act E Q α ρ → State E Q T α ρ → Prop
  | wait (zasses : List (Obj E Q)) (h : s.threads t = .idle) :
      Step s t (.wait zasses) (s.setThread t (.checking (.any zasses) []))
  | consume (q : Q) (request : ρ) (block : Bool) (h : s.threads t = .idle) :
      Step s t (.consume q request block) (s.setThread t (.head q request block))
  | finish (h : s.threads t = .idle) : Step s t .finish (s.setThread t .finished)
  | signal (e : E) (threads : T → Thread E Q ρ) (h : s.threads t = .idle)
      (hwakes : Wakes (.event e) s.threads (zeventSignal (s.events e)).2 threads) :
      Step s t (.signal e) { s with
        events := update s.events e (zeventSignal (s.events e)).1
        threads := threads }
  | reset (e : E) (h : s.threads t = .idle) :
      Step s t (.reset e) { s with events := update s.events e (zeventReset (s.events e)) }
  | insert (q : Q) (userStorage : α) (threads : T → Thread E Q ρ) (h : s.threads t = .idle)
      (hwakes : Wakes (.queue q) s.threads (zqInsert (s.queues q) userStorage).2 threads) :
      Step s t (.insert q userStorage) { s with
        queues := update s.queues q (zqInsert (s.queues q) userStorage).1
        threads := threads }
  /-- `zas_wait_any` returns when an object is ready -/
  | ready (w : Wait E Q ρ) (specs : List ℕ) (o : Obj E Q) (h : s.threads t = .checking w specs)
      (ho : w.array[specs.length]? = some o) (hcheck : s.check o = none) :
      Step s t .go ((s.checked o).setThread t w.after)
  | notReady (w : Wait E Q ρ) (specs : List ℕ) (o : Obj E Q) (v : ℕ) (h : s.threads t = .checking w specs)
      (ho : w.array[specs.length]? = some o) (hcheck : s.check o = some v) :
      Step s t .go ((s.checked o).setThread t (.checking w (specs ++ [v])))
  /-- the zutex wait compares all words -/
  | sleep (w : Wait E Q ρ) (h : s.threads t = .checking w (w.array.map s.seq)) :
      Step s t .go (s.setThread t (.asleep w))
  | stale (w : Wait E Q ρ) (specs : List ℕ) (h : s.threads t = .checking w specs)
      (hlen : specs.length = w.array.length) (hne : specs ≠ w.array.map s.seq) :
      Step s t .go (s.setThread t (.checking w []))
  | headReady (q : Q) (request : ρ) (block : Bool) (h : s.threads t = .head q request block)
      (hcheck : zqCheck (s.queues q) = none) : Step s t .go (s.setThread t (.taking q request block))
  | headEmpty (q : Q) (request : ρ) (block : Bool) (v : ℕ) (h : s.threads t = .head q request block)
      (hcheck : zqCheck (s.queues q) = some v) :
      Step s t .go (s.setThread t (if block then .checking (.consume q request) [] else .idle))
  /-- someone grabbed it after the check -/
  | takeNone (q : Q) (request : ρ) (block : Bool) (h : s.threads t = .taking q request block)
      (htake : zqTake (consumeMethod q) (s.queues q) request = none) :
      Step s t .go (s.setThread t (.head q request block))
  | take (q : Q) (request : ρ) (block : Bool) (z : ZQueue α) (n : Option WakeCount) (threads : T → Thread E Q ρ)
      (h : s.threads t = .taking q request block)
      (htake : zqTake (consumeMethod q) (s.queues q) request = some (z, n))
      (hwakes : Wakes (.queue q) s.threads n threads) :
      Step s t .go { s with
        queues := update s.queues q z
        threads := update threads t .idle }

end Embassies.Sync
