import Embassies.Zftp.BlockCacheRecord

/-! `ZBlockCache`, with the `ZBlockDB` behind it, and the records it owns.

    Records are heap objects: `heap` maps an address to the record living there, `ht` maps a hash to the address the
    hash table holds, and `delete` empties a heap cell, so that a dangling pointer is a fault and not a value.
    `zblockDB` is `none` when the cache was started without an index directory. -/

namespace Embassies.Zftp

open Checked Function Option ZBlockCacheRecord

/-- `ZBlockCache` and the heap its records live in. -/
structure ZBlockCache where
  heap : ℕ → Option ZBlockCacheRecord
  ht : Hash → Option ℕ
  zblockDB : Option (Hash → Option Bytes)
  nextAddr : ℕ

namespace ZBlockCache

variable {r : ZBlockCacheRecord} {db : Option (Hash → Option Bytes)} {p : ℕ} {c' : ZBlockCache}

/-- A cache that has just been constructed over the given block DB. -/
def fresh (zblockDB : Option (Hash → Option Bytes)) : ZBlockCache where
  heap := fun _ => none
  ht := fun _ => none
  zblockDB := zblockDB
  nextAddr := 0

/-- Following a pointer to a record. -/
def deref (c : ZBlockCache) (p : ℕ) : Checked ZBlockCacheRecord :=
  match c.heap p with
  | some r => .ok r
  | none => .error .nullDeref

/-- `new`. -/
def alloc (c : ZBlockCache) (r : ZBlockCacheRecord) : ZBlockCache × ℕ :=
  ({ c with heap := Function.update c.heap c.nextAddr (some r), nextAddr := c.nextAddr + 1 },
    c.nextAddr)

/-- `delete`. -/
def free (c : ZBlockCache) (p : ℕ) : ZBlockCache :=
  { c with heap := Function.update c.heap p none }

/-- Assigning through a pointer. -/
def assign (c : ZBlockCache) (p : ℕ) (r : ZBlockCacheRecord) : ZBlockCache :=
  { c with heap := Function.update c.heap p (some r) }

/-- `hash_table_insert(&ht, block)`. -/
def htInsert (c : ZBlockCache) (h : Hash) (p : ℕ) : ZBlockCache :=
  { c with ht := Function.update c.ht h (some p) }

/-- `ZCache::store_block(zbr)`, which reads the data through `peek_data`. -/
def storeBlock (c : ZBlockCache) (r : ZBlockCacheRecord) : Checked ZBlockCache :=
  match c.zblockDB with
  | none => pure c
  | some db => do
    let v ← r.peekData
    pure { c with zblockDB := some (Function.update db r.hash (some v)) }

/-- `ZCache::retrieve_block(hash)`. -/
def retrieveBlock (c : ZBlockCache) (h : Hash) : Option ZBlockCacheRecord :=
  match c.zblockDB with
  | none => none
  | some db => (db h).map (ZBlockCacheRecord.ofDatum h)

/-- `lookup(hash)`: the table first, then the block DB, whose record is put into the table. -/
def lookup (c : ZBlockCache) (h : Hash) : ZBlockCache × Option ℕ :=
  match c.ht h with
  | some p => (c, some p)
  | none =>
    match c.retrieveBlock h with
    | none => (c, none)
    | some r =>
      let (c, p) := c.alloc r
      (c.htInsert h p, some p)

/-- `insert(block)`: a block whose hash is already there is deleted. -/
def insert (c : ZBlockCache) (p : ℕ) : Checked (ZBlockCache × Bool) := do
  let r ← c.deref p
  match c.lookup r.hash with
  | (c, none) => do
    let c ← (c.htInsert r.hash p).storeBlock r
    pure (c, true)
  | (c, some _) => pure (c.free p, false)

/-- The placeholder branch of `ZCachedFile::_lookup_block`: the caller keeps the pointer. -/
def insertPlaceholder (c : ZBlockCache) (h : Hash) : Checked (ZBlockCache × ℕ) := do
  let (c, p) := c.alloc (ZBlockCacheRecord.placeholder h)
  let (c, _) ← c.insert p
  pure (c, p)

/-- `ZCachedFile::_lookup_block` once the block's hash is known. -/
def lookupBlock (c : ZBlockCache) (h : Hash) : Checked (ZBlockCache × ℕ) :=
  match c.lookup h with
  | (c, some p) => pure (c, p)
  | (c, none) => c.insertPlaceholder h

variable (zhash : Bytes → Hash)

/-- The block half of `ZCachedFile::_load_block`: the cache, and the block's hash. -/
def loadBlock (c : ZBlockCache) (inData : BlockData) : Checked (ZBlockCache × Hash) := do
  let r ← ZBlockCacheRecord.ofData zhash inData
  let (c, p) := c.alloc r
  let (c, _) ← c.insert p
  pure (c, r.hash)

/-- The end of a method that ran `_validate` on the record at `p`: a record that became valid is stored. -/
def update (c : ZBlockCache) (p : ℕ) (r : ZBlockCacheRecord) (validated : Bool) :
    Checked ZBlockCache :=
  let c := c.assign p r
  if validated && r.valid then c.storeBlock r else pure c

/-- `block->receive_data(start, end, reply, offset)`. -/
def receiveData (c : ZBlockCache) (p start stop : ℕ) (payload : Bytes) (offset : ℕ) :
    Checked (ZBlockCache × Bool) := do
  let r ← c.deref p
  let (r, new) ← r.receiveData zhash start stop payload offset
  let c ← c.update p r new
  pure (c, new)

/-- `block->complete_with_zeros()`. -/
def completeWithZeros (c : ZBlockCache) (p : ℕ) : Checked ZBlockCache := do
  let r ← c.deref p
  let (r, new) ← r.completeWithZeros zhash
  c.update p r new

/-! ### The invariant -/

/-- The invariant of the cache between two calls: the table and the heap hold the same records, one for a hash; every
    record is sound; the DB holds blocks under their own hashes, every valid record among them. -/
structure Sound (c : ZBlockCache) : Prop where
  owned : ∀ h p, c.ht h = some p → ∃ r, c.heap p = some r ∧ r.hash = h
  live : ∀ p r, c.heap p = some r → c.ht r.hash = some p
  record : ∀ p r, c.heap p = some r → r.Sound zhash
  addr : ∀ p r, c.heap p = some r → p < c.nextAddr
  stored : ∀ db, c.zblockDB = some db → ∀ h v, db h = some v →
    v.length = zftpBlockSize ∧ zhash v = h
  persistent : ∀ db, c.zblockDB = some db → ∀ p r, c.heap p = some r → r.valid = true →
    db r.hash = some r.data

/-- What a lookup of `h` would find: the record in the table or, failing that, in the DB. -/
def peek (c : ZBlockCache) (h : Hash) : Option ZBlockCacheRecord :=
  match c.ht h with
  | some p => c.heap p
  | none => c.retrieveBlock h

/-- `c'` still owns every record of `c`, at its address and under its hash, and a valid one is as it was. -/
structure Keeps (c c' : ZBlockCache) : Prop where
  record : ∀ p r, c.heap p = some r →
    ∃ r', c'.heap p = some r' ∧ r'.hash = r.hash ∧ (r.valid = true → r' = r)
  hasDB : c'.zblockDB.isSome = c.zblockDB.isSome

lemma Keeps.refl (c : ZBlockCache) : c.Keeps c := ⟨fun _ r h => ⟨r, h, rfl, fun _ => rfl⟩, rfl⟩

lemma Keeps.trans {a b c : ZBlockCache} (h : a.Keeps b) (h' : b.Keeps c) : a.Keeps c where
  record p r hr := by
    obtain ⟨r1, h1, hh1, hv1⟩ := h.record p r hr
    obtain ⟨r2, h2, hh2, hv2⟩ := h'.record p r1 h1
    refine ⟨r2, h2, hh2.trans hh1, fun hv => ?_⟩
    obtain rfl := hv1 hv
    exact hv2 hv
  hasDB := h'.hasDB.trans h.hasDB

variable {zhash} {c : ZBlockCache} {s : ZBlockCacheRecord} {h : Hash}

lemma Sound.free_addr (hc : c.Sound zhash) : c.heap c.nextAddr = none := by
  rcases h : c.heap c.nextAddr with _ | r
  · rfl
  · exact absurd (hc.addr _ r h) (lt_irrefl _)

lemma sound_fresh (h : ∀ f, db = some f → ∀ k v, f k = some v → v.length = zftpBlockSize ∧ zhash v = k) :
    (fresh db).Sound zhash := ⟨nofun, nofun, nofun, nofun, h, fun _ _ => nofun⟩

lemma Sound.fresh_none : (fresh none).Sound zhash := sound_fresh (by rintro _ ⟨⟩)

/-- The cache with the new record `r` at the next address, in the table, over the DB `db`. -/
def add (c : ZBlockCache) (r : ZBlockCacheRecord) (db : Option (Hash → Option Bytes)) :
    ZBlockCache where
  heap := Function.update c.heap c.nextAddr (some r)
  ht := Function.update c.ht r.hash (some c.nextAddr)
  zblockDB := db
  nextAddr := c.nextAddr + 1

lemma heap_add_cases (h : (c.add r db).heap p = some s) :
    (p = c.nextAddr ∧ s = r) ∨ c.heap p = some s := by
  simp only [add, update_apply] at h
  split at h
  · exact .inl ⟨‹_›, (some.inj h).symm⟩
  · exact .inr h

lemma Sound.add (hc : c.Sound zhash) (hr : r.Sound zhash) (hnew : c.ht r.hash = none)
    (hstored : ∀ f, db = some f → ∀ h v, f h = some v → v.length = zftpBlockSize ∧ zhash v = h)
    (hpers : ∀ f, db = some f → ∀ p s, (c.add r db).heap p = some s → s.valid = true →
      f s.hash = some s.data) : (c.add r db).Sound zhash where
  owned h p hp := by
    simp only [ZBlockCache.add, Function.update_apply] at hp ⊢
    split at hp
    case isTrue heq =>
      cases hp
      exact ⟨r, if_pos rfl, heq.symm⟩
    case isFalse hne =>
      obtain ⟨s, hs, rfl⟩ := hc.owned h p hp
      refine ⟨s, ?_, rfl⟩
      rw [if_neg, hs]
      rintro rfl
      rw [hc.free_addr] at hs
      cases hs
  live p s hs := by
    rcases heap_add_cases hs with ⟨rfl, rfl⟩ | hs
    · exact Function.update_self _ _ _
    · have hlive := hc.live p s hs
      change Function.update c.ht r.hash _ s.hash = _
      rw [Function.update_of_ne, hlive]
      intro heq
      rw [heq, hnew] at hlive
      cases hlive
  record p s hs := by
    rcases heap_add_cases hs with ⟨-, rfl⟩ | hs
    · exact hr
    · exact hc.record p s hs
  addr p s hs := by
    rcases heap_add_cases hs with ⟨rfl, -⟩ | hs
    · exact Nat.lt_succ_self _
    · exact (hc.addr p s hs).trans (Nat.lt_succ_self _)
  stored := hstored
  persistent := hpers

lemma Sound.keeps_add (hc : c.Sound zhash) (hdb : db.isSome = c.zblockDB.isSome) : c.Keeps (c.add r db) where
  record p s hs := by
    refine ⟨s, ?_, rfl, fun _ => rfl⟩
    change Function.update c.heap c.nextAddr _ p = _
    rw [Function.update_of_ne, hs]
    rintro rfl
    rw [hc.free_addr] at hs
    cases hs
  hasDB := hdb

/-! ### Lookup -/

lemma retrieveBlock_eq_some (hr : c.retrieveBlock h = some r) :
    ∃ db v, c.zblockDB = some db ∧ db h = some v ∧ r = .ofDatum h v := by
  rcases hdb : c.zblockDB with _ | db
  · simp [retrieveBlock, hdb] at hr
  · simp only [retrieveBlock, hdb] at hr
    obtain ⟨v, hv, rfl⟩ := map_eq_some_iff.mp hr
    exact ⟨db, v, rfl, hv, rfl⟩

lemma lookup_cases (c : ZBlockCache) (h : Hash) : (∃ p, c.ht h = some p ∧ c.lookup h = (c, some p)) ∨
    (c.ht h = none ∧ c.retrieveBlock h = none ∧ c.lookup h = (c, none)) ∨
    (c.ht h = none ∧ ∃ db v, c.zblockDB = some db ∧ db h = some v ∧
      c.lookup h = (c.add (.ofDatum h v) (some db), some c.nextAddr)) := by
  rcases hht : c.ht h with _ | p
  · refine .inr ?_
    rcases hret : c.retrieveBlock h with _ | r
    · exact .inl ⟨rfl, rfl, by simp only [lookup, hht, hret]⟩
    · obtain ⟨db, v, hdb, hv, rfl⟩ := retrieveBlock_eq_some hret
      refine .inr ⟨rfl, db, v, hdb, hv, ?_⟩
      simp only [lookup, hht, hret, alloc, htInsert, add, hdb]
      rfl
  · exact .inl ⟨p, rfl, by simp only [lookup, hht]⟩

lemma Sound.adopt (hc : c.Sound zhash) {db : Hash → Option Bytes} {v : Bytes} (hht : c.ht h = none)
    (hdb : c.zblockDB = some db) (hv : db h = some v) :
    (c.add (.ofDatum h v) (some db)).Sound zhash := by
  obtain ⟨hlen, hhash⟩ := hc.stored db hdb h v hv
  refine hc.add ⟨fun _ => hlen, fun _ => hhash, nofun⟩ hht ?_ ?_
  · rintro f ⟨⟩
    exact hc.stored db hdb
  · rintro f ⟨⟩ p s hs hval
    rcases heap_add_cases hs with ⟨-, rfl⟩ | hs
    · exact hv
    · exact hc.persistent db hdb p s hs hval

lemma Sound.lookup (hc : c.Sound zhash) (h : Hash) : (c.lookup h).1.Sound zhash ∧ c.Keeps (c.lookup h).1 := by
  obtain ⟨p, -, heq⟩ | ⟨-, -, heq⟩ | ⟨hht, db, v, hdb, hv, heq⟩ := lookup_cases c h
  · rw [heq]; exact ⟨hc, .refl c⟩
  · rw [heq]; exact ⟨hc, .refl c⟩
  · rw [heq]; exact ⟨hc.adopt hht hdb hv, hc.keeps_add (by rw [hdb])⟩

lemma lookup_some (heq : (c.lookup h).2 = some p) : (c.lookup h).1.ht h = some p := by
  obtain ⟨q, hht, hl⟩ | ⟨-, -, hl⟩ | ⟨-, db, v, -, -, hl⟩ := lookup_cases c h <;> rw [hl] at heq ⊢
  · rw [hht]; exact heq
  · cases heq
  · rw [← heq]; exact update_self _ _ _

lemma peek_eq_lookup (c : ZBlockCache) (h : Hash) : c.peek h = (c.lookup h).2.bind (c.lookup h).1.heap := by
  obtain ⟨q, hht, hl⟩ | ⟨hht, hret, hl⟩ | ⟨hht, db, v, hdb, hv, hl⟩ := lookup_cases c h <;> rw [hl]
  · simp only [peek, hht, bind_some]
  · simp only [peek, hht, hret, bind_none]
  · simp only [peek, hht, retrieveBlock, hdb, hv, map_some, bind_some, add, update_self]

lemma Sound.peek (hc : c.Sound zhash) (hr : c.peek h = some r) : r.Sound zhash ∧ r.hash = h := by
  rw [ZBlockCache.peek] at hr
  split at hr
  case h_1 p hht =>
    obtain ⟨s, hs, rfl⟩ := hc.owned h p hht
    obtain rfl := some.inj (hs.symm.trans hr)
    exact ⟨hc.record p s hs, rfl⟩
  case h_2 =>
    obtain ⟨db, v, hdb, hv, rfl⟩ := retrieveBlock_eq_some hr
    obtain ⟨hlen, hhash⟩ := hc.stored db hdb h v hv
    exact ⟨⟨fun _ => hlen, fun _ => hhash, nofun⟩, rfl⟩

/-! ### Insertion of a new record -/

/-- The cache after an address has been used and given back. -/
def skip (c : ZBlockCache) : ZBlockCache := { c with nextAddr := c.nextAddr + 1 }

lemma Sound.skip (hc : c.Sound zhash) : c.skip.Sound zhash :=
  ⟨hc.owned, hc.live, hc.record, fun p r h => (hc.addr p r h).trans (Nat.lt_succ_self _), hc.stored, hc.persistent⟩

lemma keeps_skip (c : ZBlockCache) : c.Keeps c.skip := ⟨fun _ r h => ⟨r, h, rfl, fun _ => rfl⟩, rfl⟩

lemma alloc_lookup (c : ZBlockCache) (r : ZBlockCacheRecord) (h : Hash) :
    (∃ p, c.ht h = some p ∧ (c.alloc r).1.lookup h = ((c.alloc r).1, some p)) ∨
    (c.ht h = none ∧ c.retrieveBlock h = none ∧ (c.alloc r).1.lookup h = ((c.alloc r).1, none)) ∨
    (c.ht h = none ∧ ∃ db v, c.zblockDB = some db ∧ db h = some v ∧ (c.alloc r).1.lookup h =
        ((c.alloc r).1.add (.ofDatum h v) (some db), some (c.nextAddr + 1))) := lookup_cases (c.alloc r).1 h

section

variable (hc : c.Sound zhash)
include hc

/-- INSERT of a record just allocated: it joins the cache when its hash is nowhere, and is deleted
    when the table or the DB has the hash. -/
lemma insert_cases {b : Bool} (h : (c.alloc r).1.insert c.nextAddr = .ok (c', b)) :
    ((∃ p, c.ht r.hash = some p) ∧ b = false ∧ c' = c.skip) ∨
    (c.ht r.hash = none ∧ b = false ∧ ∃ db v, c.zblockDB = some db ∧ db r.hash = some v ∧
      c' = c.skip.add (.ofDatum r.hash v) (some db)) ∨ (c.ht r.hash = none ∧ c.retrieveBlock r.hash = none ∧ b = true ∧
      ((c.zblockDB = none ∧ c' = c.add r none) ∨ ∃ db, c.zblockDB = some db ∧ r.valid = true ∧
          c' = c.add r (some (Function.update db r.hash (some r.data))))) := by
  have hderef : (c.alloc r).1.deref c.nextAddr = .ok r := by
    simp [deref, alloc]
  rw [insert, hderef, ok_bind] at h
  have hfree : ∀ f : ℕ → Option ZBlockCacheRecord, f c.nextAddr = none →
      Function.update (Function.update f c.nextAddr (some r)) c.nextAddr none = f := fun f hf => by
    rw [Function.update_idem, ← hf, Function.update_eq_self]
  obtain ⟨p, hht, hl⟩ | ⟨hht, hret, hl⟩ | ⟨hht, db, v, hdb, hv, hl⟩ := alloc_lookup c r r.hash <;> rw [hl] at h
  · cases h
    refine .inl ⟨⟨p, hht⟩, rfl, ?_⟩
    simp only [free, alloc, skip, hfree _ hc.free_addr]
  · obtain ⟨c1, hstore, h⟩ := of_bind h
    cases h
    refine .inr (.inr ⟨hht, hret, rfl, ?_⟩)
    rcases hdb : c.zblockDB with _ | db
    · simp only [storeBlock, htInsert, alloc, hdb, pure_eq_ok] at hstore
      exact .inl ⟨rfl, (Except.ok.inj hstore).symm⟩
    · simp only [storeBlock, htInsert, alloc, hdb] at hstore
      obtain ⟨w, hpeek, hstore⟩ := of_bind hstore
      obtain ⟨_, hvalid, hw⟩ := of_bind hpeek
      rw [liteAssert_eq_ok] at hvalid
      cases hw
      exact .inr ⟨db, rfl, hvalid, (Except.ok.inj hstore).symm⟩
  · cases h
    refine .inr (.inl ⟨hht, rfl, db, v, hdb, hv, ?_⟩)
    have hne : c.nextAddr ≠ c.nextAddr + 1 := by omega
    simp only [free, alloc, skip, add]
    rw [Function.update_comm hne.symm, hfree _ hc.free_addr]

lemma Sound.insert (hr : r.Sound zhash) {b : Bool} (h : (c.alloc r).1.insert c.nextAddr = .ok (c', b))
    : c'.Sound zhash ∧ c.Keeps c' := by
  obtain ⟨-, -, rfl⟩ | ⟨hht, -, db, v, hdb, hv, rfl⟩ | ⟨hht, -, -, ⟨hdb, rfl⟩ | ⟨db, hdb, hv, rfl⟩⟩ := insert_cases hc h
  · exact ⟨hc.skip, keeps_skip c⟩
  · exact ⟨hc.skip.adopt hht hdb hv, (keeps_skip c).trans (hc.skip.keeps_add (congrArg isSome hdb).symm)⟩
  · exact ⟨hc.add hr hht nofun nofun, hc.keeps_add (by rw [hdb])⟩
  · refine ⟨hc.add hr hht ?_ ?_, hc.keeps_add (by rw [hdb]; rfl)⟩
    · rintro f ⟨⟩ k w hw
      rw [Function.update_apply] at hw
      split at hw
      case isTrue hk =>
        cases hw
        exact ⟨hr.length hv, hk ▸ hr.hash hv⟩
      case isFalse => exact hc.stored db hdb k w hw
    · rintro f ⟨⟩ p s hs hval
      rcases heap_add_cases hs with ⟨-, rfl⟩ | hs
      · exact Function.update_self _ _ _
      · rw [Function.update_of_ne, hc.persistent db hdb p s hs hval]
        intro heq
        have hlive := hc.live p s hs
        rw [heq, hht] at hlive
        cases hlive

lemma Sound.lookupBlock (heq : c.lookupBlock h = .ok (c', p)) :
    c'.Sound zhash ∧ c.Keeps c' ∧ c'.ht h = some p ∧
      (c.peek h = none → c.zblockDB = none ∧ c' = c.add (.placeholder h) none) ∧
      (∀ r, c.peek h = some r → c'.heap p = some r) := by
  have hs := hc.lookup h
  have hpk := peek_eq_lookup c h
  rw [ZBlockCache.lookupBlock] at heq
  split at heq
  case h_1 c1 q hl =>
    cases heq
    have hsome := lookup_some (c := c) (h := h) (p := p) (by rw [hl])
    rw [hl] at hs hsome hpk
    refine ⟨hs.1, hs.2, hsome, fun hnone => ?_, fun r hr => ?_⟩
    · obtain ⟨r, hr, -⟩ := hs.1.owned h p hsome
      rw [hnone, bind_some, hr] at hpk
      cases hpk
    · rw [hr, bind_some] at hpk
      exact hpk.symm
  case h_2 c1 hl =>
    obtain ⟨q, -, hl'⟩ | ⟨hht, hret, hl'⟩ | ⟨-, db, v, -, -, hl'⟩ := lookup_cases c h <;> rw [hl'] at hl <;> cases hl
    obtain ⟨⟨c2, b⟩, hins, heq⟩ := of_bind heq
    cases heq
    have hpeek : c.peek h = none := by simp only [ZBlockCache.peek, hht, hret]
    obtain ⟨⟨p, hp⟩, -⟩ | ⟨-, -, db, v, hdb, hv, -⟩ | ⟨-, -, -, ⟨hdb, rfl⟩ | ⟨db, -, hv, -⟩⟩ := insert_cases hc hins
    · cases hht.symm.trans hp
    · change db h = some v at hv
      simp [retrieveBlock, hdb, hv] at hret
    · have hok := hc.insert (sound_placeholder h) hins
      exact ⟨hok.1, hok.2, update_self _ _ _, fun _ => ⟨hdb, rfl⟩, fun r hr => by rw [hpeek] at hr; cases hr⟩
    · cases hv

/-- LOAD of an origin's block. -/
lemma Sound.loadBlock {d : BlockData} (heq : c.loadBlock zhash d = .ok (c', h)) :
    c'.Sound zhash ∧ c.Keeps c' := by
  rw [ZBlockCache.loadBlock, ofData_eq, ok_bind] at heq
  obtain ⟨⟨c1, b⟩, hins, heq⟩ := of_bind heq
  cases heq
  exact hc.insert (sound_ofData d) hins

end

/-! ### Receiving into a record -/

lemma heap_assign_cases {q : ℕ} (h : (c.assign p r).heap q = some s) :
    (q = p ∧ s = r) ∨ (q ≠ p ∧ c.heap q = some s) := by
  simp only [assign, update_apply] at h
  split at h
  · exact .inl ⟨‹_›, (some.inj h).symm⟩
  · exact .inr ⟨‹_›, h⟩

section Assign

variable {p : ℕ} {r r' : ZBlockCacheRecord} {db : Option (Hash → Option Bytes)}
variable {new : Bool} {c' : ZBlockCache}

lemma keeps_assign (hp : c.heap p = some r) (hinv : r.valid = false) (hh : r'.hash = r.hash)
    (hdb : db.isSome = c.zblockDB.isSome) : c.Keeps { c.assign p r' with zblockDB := db } where
  record q s hs := by
    by_cases hq : q = p
    · subst hq
      cases hp.symm.trans hs
      exact ⟨r', update_self _ _ _, hh, fun hv => by rw [hinv] at hv; cases hv⟩
    · exact ⟨s, (update_of_ne hq _ _).trans hs, rfl, fun _ => rfl⟩
  hasDB := hdb

lemma Sound.assign (hc : c.Sound zhash) (hp : c.heap p = some r) (hr' : r'.Sound zhash) (hh : r'.hash = r.hash)
    (hstored : ∀ f, db = some f → ∀ k v, f k = some v → v.length = zftpBlockSize ∧ zhash v = k)
    (hpers : ∀ f, db = some f → ∀ q s, (c.assign p r').heap q = some s → s.valid = true →
      f s.hash = some s.data) :
    ({ c.assign p r' with zblockDB := db } : ZBlockCache).Sound zhash where
  owned k q hq := by
    obtain ⟨s, hs, rfl⟩ := hc.owned k q hq
    by_cases hqp : q = p
    · subst hqp
      cases hp.symm.trans hs
      exact ⟨r', update_self _ _ _, hh⟩
    · exact ⟨s, (update_of_ne hqp _ _).trans hs, rfl⟩
  live q s hs := by
    rcases heap_assign_cases hs with ⟨rfl, rfl⟩ | ⟨-, hs⟩
    · exact hh ▸ hc.live q r hp
    · exact hc.live q s hs
  record q s hs := by
    rcases heap_assign_cases hs with ⟨-, rfl⟩ | ⟨-, hs⟩
    · exact hr'
    · exact hc.record q s hs
  addr q s hs := by
    rcases heap_assign_cases hs with ⟨rfl, -⟩ | ⟨-, hs⟩
    · exact hc.addr q r hp
    · exact hc.addr q s hs
  stored := hstored
  persistent := hpers

/-- A method that ran `_validate` on an invalid record: it never fails to store, and leaves a sound
    cache with only that record changed. -/
lemma Sound.update (hc : c.Sound zhash) (hp : c.heap p = some r) (hinv : r.valid = false) (hr' : r'.Sound zhash)
    (hh : r'.hash = r.hash) :
    ∃ c', c.update p r' true = .ok c' ∧ c'.Sound zhash ∧ c.Keeps c' ∧ c'.ht = c.ht ∧
      c'.heap = Function.update c.heap p (some r') := by
  rcases hdb : c.zblockDB with _ | db
  · have hup : c.update p r' true = .ok { c.assign p r' with zblockDB := none } := by
      simp only [ZBlockCache.update, Bool.true_and, storeBlock, ZBlockCache.assign, hdb, pure_eq_ok, ite_self]
    exact ⟨_, hup, hc.assign hp hr' hh nofun nofun, keeps_assign hp hinv hh (congrArg isSome hdb).symm, rfl, rfl⟩
  rcases hv : r'.valid
  · have hup : c.update p r' true = .ok { c.assign p r' with zblockDB := some db } := by
      simp only [ZBlockCache.update, Bool.true_and, hv, Bool.false_eq_true, if_false,
        ZBlockCache.assign, hdb, pure_eq_ok]
    refine ⟨_, hup, hc.assign hp hr' hh ?_ ?_, keeps_assign hp hinv hh (congrArg isSome hdb).symm, rfl, rfl⟩
    · rintro f ⟨⟩
      exact hc.stored db hdb
    · rintro f ⟨⟩ q s hs hval
      rcases heap_assign_cases hs with ⟨-, rfl⟩ | ⟨-, hs⟩
      · rw [hv] at hval; cases hval
      · exact hc.persistent db hdb q s hs hval
  · have hup : c.update p r' true = .ok { c.assign p r' with
        zblockDB := some (Function.update db r'.hash (some r'.data)) } := by
      have hpeek := peekData_of_valid hv
      simp only [ZBlockCache.update, Bool.true_and, hv, if_true, storeBlock, ZBlockCache.assign, hdb,
        hpeek, ok_bind, pure_eq_ok]
    refine ⟨_, hup, hc.assign hp hr' hh ?_ ?_, keeps_assign hp hinv hh (congrArg isSome hdb).symm, rfl, rfl⟩
    · rintro f ⟨⟩ k w hw
      rw [Function.update_apply] at hw
      split at hw
      case isTrue hk =>
        cases hw
        exact ⟨hr'.length hv, hk ▸ hr'.hash hv⟩
      case isFalse => exact hc.stored db hdb k w hw
    · rintro f ⟨⟩ q s hs hval
      rcases heap_assign_cases hs with ⟨-, rfl⟩ | ⟨hq, hs⟩
      · exact Function.update_self _ _ _
      · rw [Function.update_of_ne, hc.persistent db hdb q s hs hval]
        intro heq
        -- two live records of one hash would be one record
        have hlive := hc.live q s hs
        rw [heq, hh, hc.live p r hp] at hlive
        exact hq (some.inj hlive).symm

lemma deref_eq_ok (h : c.deref p = .ok r) : c.heap p = some r := by
  rw [deref] at h
  split at h
  · cases h; assumption
  · cases h

section

variable (hc : c.Sound zhash)
include hc

lemma Sound.update_either (hp : c.heap p = some r) (hcase : r.Updated zhash r' new) :
    ∃ c', c.update p r' new = .ok c' ∧ c'.Sound zhash ∧ c.Keeps c' ∧ c'.ht = c.ht ∧
      c'.heap = Function.update c.heap p (some r') := by
  obtain ⟨rfl, rfl⟩ | ⟨rfl, hinv, hr', hh⟩ := hcase
  · have hself : Function.update c.heap p (some r') = c.heap := by rw [← hp, Function.update_eq_self]
    have heq : c.assign p r' = c := by rw [ZBlockCache.assign, hself]
    exact ⟨c, congrArg Except.ok heq, hc, .refl c, rfl, hself.symm⟩
  · exact hc.update hp hinv hr' hh

/-- RECEIVE through a pointer. -/
lemma Sound.receiveData {start stop offset : ℕ} {payload : Bytes} (hle : start ≤ stop) (hstop : stop ≤ zftpBlockSize)
    (h : c.receiveData zhash p start stop payload offset = .ok (c', new)) :
    c'.Sound zhash ∧ c.Keeps c' ∧ c'.ht = c.ht := by
  obtain ⟨r, hderef, ⟨r', n⟩, hrec, c1, hup, h⟩ := of_bind3 h
  cases h
  have hp := deref_eq_ok hderef
  obtain ⟨_, hup', hs, hk, hht, -⟩ := hc.update_either hp (receiveData_sound (hc.record p r hp) hle hstop hrec)
  cases hup.symm.trans hup'
  exact ⟨hs, hk, hht⟩

/-- COMPLETE through a pointer. -/
lemma Sound.completeWithZeros (h : c.completeWithZeros zhash p = .ok c') :
    c'.Sound zhash ∧ c.Keeps c' ∧ c'.ht = c.ht := by
  obtain ⟨r, hderef, ⟨r', n⟩, hrec, hup⟩ := of_bind2 h
  have hp := deref_eq_ok hderef
  obtain ⟨_, hup', hs, hk, hht, -⟩ := hc.update_either hp (completeWithZeros_sound (hc.record p r hp) hrec)
  cases hup.symm.trans hup'
  exact ⟨hs, hk, hht⟩

end

end Assign

end ZBlockCache

end Embassies.Zftp
