import Embassies.Lib.Buckets
import Embassies.Lib.Checked

/-! The hash table of `hash_table.c`, which is rehashed a little at a time.

    A table has two sub-tables. New elements go into the new one; each operation that finds its key and each insertion
    moves one element over from the old one. When the new sub-table is crowded, it becomes the old one, and the previous
    old one is freed, which asserts that it is empty. A bucket's chain of links is a list, and the link that precedes a
    hit is the hit's position in it. The sizes are those of the source's `int`s: every link takes sixteen bytes of a
    32-bit address space, so there are fewer than `2 ^ 28` of them and no count or bucket number overflows. -/

namespace Embassies.Utils

/-- `hash_func` and `cmp_func`, consistent with each other: equality of keys is an equivalence that
    the hash respects. -/
structure KeyFuncs (α : Type) where
  hashFunc : α → UInt32
  cmpFunc : α → α → ℤ
  refl : ∀ a, cmpFunc a a = 0
  symm : ∀ {a b}, cmpFunc a b = 0 → cmpFunc b a = 0
  trans : ∀ {a b c}, cmpFunc a b = 0 → cmpFunc b c = 0 → cmpFunc a c = 0
  hash_eq : ∀ {a b}, cmpFunc a b = 0 → hashFunc a = hashFunc b

/-- `Subtable`. -/
structure Subtable (α : Type) where
  buckets : List (List α)
  count : ℤ

namespace Subtable

variable {α : Type}

def numBuckets (st : Subtable α) : ℕ := st.buckets.length

/-- `subtable_init(num_buckets)`. -/
def init (numBuckets : ℕ) : Subtable α := ⟨List.replicate numBuckets [], 0⟩

/-- The loop of `subtable_free` over the buckets. -/
def freeLoop : List (List α) → Checked Unit
  | [] => pure ()
  | b :: bs => do
    liteAssert (b.isEmpty = true)
    freeLoop bs

/-- `subtable_free(st)`. -/
def free (st : Subtable α) : Checked Unit := freeLoop st.buckets

/-- `_subtable_find_bucket(st, datum)`. -/
def findBucket (K : KeyFuncs α) (st : Subtable α) (datum : α) : ℕ :=
  (K.hashFunc datum).toNat % st.numBuckets

/-- `_subtable_find_preceding_link(st, datum)`: the bucket, and how many links of it precede the hit. -/
def findPrecedingLink (K : KeyFuncs α) (st : Subtable α) (datum : α) : Option (ℕ × ℕ) :=
  ((bucketAt st.buckets (findBucket K st datum)).findIdx? fun d => K.cmpFunc datum d == 0).map
    fun k => (findBucket K st datum, k)

/-- The datum of the link that follows the `k`-th of a bucket. -/
def datumAt (st : Subtable α) (i k : ℕ) : Option α := (bucketAt st.buckets i)[k]?

/-- Link a new head into the datum's bucket. -/
def push (K : KeyFuncs α) (st : Subtable α) (datum : α) : Subtable α where
  buckets := pushBucket st.buckets (findBucket K st datum) datum
  count := st.count + 1

/-- Unlink what follows the `k`-th link of a bucket. -/
def unlink (st : Subtable α) (i k : ℕ) : Subtable α where
  buckets := eraseBucket st.buckets i k
  count := st.count - 1

end Subtable

/-- `HashTable`. -/
structure HashTable (α : Type) where
  oldTable : Subtable α
  nextOldBucket : ℕ
  newTable : Subtable α
  count : ℤ
  visiting : ℕ

namespace HashTable

variable {α : Type} (K : KeyFuncs α)

/-- `LOAD_FACTOR_LIMIT`. -/
def loadFactorLimit : ℤ := 3

/-- `hash_table_init(..)`. -/
def init : HashTable α where
  oldTable := .init 1
  nextOldBucket := 1   -- already empty
  newTable := .init 2
  count := 0
  visiting := 0

/-- `_hash_table_grow(ht)`. -/
def grow (ht : HashTable α) : Checked (HashTable α) := do
  ht.oldTable.free   -- expect it to be empty by now
  pure { ht with
    oldTable := ht.newTable
    newTable := .init (ht.newTable.numBuckets * 2)
    nextOldBucket := 0 }

/-- Where a link was found. -/
inductive InTable where | new | old

/-- `_hash_table_find_preceding_link(ht, datum, in_table)`. -/
def findPrecedingLink (ht : HashTable α) (datum : α) : Option (InTable × ℕ × ℕ) :=
  match ht.newTable.findPrecedingLink K datum with
  | some link => some (.new, link)
  | none =>
    match ht.oldTable.findPrecedingLink K datum with
    | some link => some (.old, link)
    | none => none

/-- The loop of `_hash_table_shift_one`: the first bucket from `i` on that is not empty, given the
    buckets from there on. -/
def skipEmpty : List (List α) → ℕ → ℕ
  | [], i => i
  | b :: bs, i => if b.isEmpty = true then skipEmpty bs (i + 1) else i

/-- `_hash_table_shift_one(ht)`. -/
def shiftOne (ht : HashTable α) : HashTable α :=
  let i := skipEmpty (ht.oldTable.buckets.drop ht.nextOldBucket) ht.nextOldBucket
  match ht.oldTable.datumAt i 0 with
  | none => { ht with nextOldBucket := i }   -- old table is empty
  | some victim =>
    { ht with
      nextOldBucket := i
      oldTable := ht.oldTable.unlink i 0
      newTable := ht.newTable.push K victim }

/-- `hash_table_lookup(ht, key)`. -/
def lookup (ht : HashTable α) (key : α) : HashTable α × Option α :=
  match ht.findPrecedingLink K key with
  | none => (ht, none)
  | some (.new, i, k) => (ht.shiftOne K, ht.newTable.datumAt i k)
  | some (.old, i, k) => (ht.shiftOne K, ht.oldTable.datumAt i k)

/-- The new link of `hash_table_insert_inner` and the counts. -/
def pushNew (ht : HashTable α) (datum : α) : HashTable α :=
  { ht with
    newTable := ht.newTable.push K datum
    count := ht.count + 1 }

/-- `ht->count / ht->new_table->num_buckets`. -/
def loadFactor (ht : HashTable α) : ℤ := ht.count.tdiv ht.newTable.numBuckets

/-- `hash_table_insert_inner(ht, datum, assert_absent)`. -/
def insertInner (ht : HashTable α) (datum : α) (assertAbsent : Bool) : Checked (HashTable α) := do
  liteAssert (ht.visiting = 0)
  match ht.lookup K datum with
  | (ht, some _) =>
    liteAssert (assertAbsent = false)
    pure ht
  | (ht, none) =>
    let ht := ht.pushNew K datum
    let ht ← if loadFactorLimit < ht.loadFactor then ht.grow else pure ht
    pure (ht.shiftOne K)

/-- `hash_table_insert(ht, datum)`. -/
def insert (ht : HashTable α) (datum : α) : Checked (HashTable α) := ht.insertInner K datum true

/-- `hash_table_union(ht, datum)`. -/
def union (ht : HashTable α) (datum : α) : Checked (HashTable α) := ht.insertInner K datum false

/-- `hash_table_remove(ht, key)`. -/
def remove (ht : HashTable α) (key : α) : Checked (HashTable α) := do
  liteAssert (ht.visiting = 0)
  match ht.findPrecedingLink K key with
  | none => .error .liteAssert   -- expected key to be present
  | some (.new, i, k) => pure { ht with newTable := ht.newTable.unlink i k, count := ht.count - 1 }
  | some (.old, i, k) => pure { ht with oldTable := ht.oldTable.unlink i k, count := ht.count - 1 }

/-- A call on the table. -/
inductive Call (α : Type) where
  | insert (datum : α)
  | union (datum : α)
  | lookup (key : α)
  | remove (key : α)

/-- Make a call; what the lookups return is kept in order. -/
def call (s : HashTable α × List (Option α)) : Call α → Checked (HashTable α × List (Option α))
  | .insert datum => do
    let ht ← s.1.insert K datum
    pure (ht, s.2)
  | .union datum => do
    let ht ← s.1.union K datum
    pure (ht, s.2)
  | .lookup key => pure ((s.1.lookup K key).1, s.2 ++ [(s.1.lookup K key).2])
  | .remove key => do
    let ht ← s.1.remove K key
    pure (ht, s.2)

end HashTable

end Embassies.Utils
