import Embassies.Zftp.BlockCache

/-! Runs of the content-addressed block cache: what its callers in `ZCachedFile` and `ZOriginFile` may do to it, in any
    order.

    A caller looks a hash up, asks for a record to fill (`_lookup_block`, which inserts a placeholder), receives into
    and completes records that were handed to it, and inserts whole blocks (`_load_block`). Two things go wrong. With a
    block DB behind the cache the insertion of a placeholder stores the record, and `peek_data` asserts that it is
    valid. And a whole block whose hash has a placeholder in the table is deleted by `insert`, so that later lookups
    still find the placeholder. `Careful` is the condition that neither happens. -/

namespace Embassies.Zftp

open Checked List ZBlockCache

namespace ZBlockCache

variable {zhash : Bytes → Hash} {c : ZBlockCache} {r : ZBlockCacheRecord}

/-! ### Insertions that cannot fail -/

lemma storeBlock_total (h : r.valid = true ∨ c.zblockDB = none) :
    ∃ c', c.storeBlock r = .ok c' := by
  rw [storeBlock]
  rcases hdb : c.zblockDB with _ | db
  · exact ⟨c, rfl⟩
  · have hv : r.valid = true := by
      rcases h with h | h
      · exact h
      · rw [hdb] at h; cases h
    exact ⟨{ c with zblockDB := some (Function.update db r.hash (some r.data)) }, by
      simp only [ZBlockCacheRecord.peekData_of_valid hv, ok_bind, pure_eq_ok]⟩

lemma insert_total (h : r.valid = true ∨ c.zblockDB = none) :
    ∃ c' b, (c.alloc r).1.insert c.nextAddr = .ok (c', b) := by
  have hderef : (c.alloc r).1.deref c.nextAddr = .ok r := by simp [deref, alloc]
  rw [insert, hderef, ok_bind]
  obtain ⟨p, -, hl⟩ | ⟨-, -, hl⟩ | ⟨-, db, v, -, -, hl⟩ := alloc_lookup c r r.hash <;> rw [hl]
  · exact ⟨_, _, rfl⟩
  · obtain ⟨c1, h1⟩ := storeBlock_total (c := (c.alloc r).1.htInsert r.hash c.nextAddr) h
    exact ⟨c1, true, by simp only [h1, ok_bind, pure_eq_ok]⟩
  · exact ⟨_, _, rfl⟩

lemma loadBlock_total (zhash : Bytes → Hash) (c : ZBlockCache) (d : BlockData) :
    ∃ c', c.loadBlock zhash d = .ok (c', zhash d.padded) := by
  obtain ⟨c', b, h⟩ := insert_total (c := c) (r := ⟨zhash d.padded, d.padded, zftpBlockSize, true⟩) (.inl rfl)
  refine ⟨c', ?_⟩
  rw [loadBlock, ZBlockCacheRecord.ofData_eq, ok_bind]
  change ((c.alloc _).1.insert c.nextAddr >>= _) = _
  rw [h, ok_bind]
  rfl

lemma lookupBlock_total {h : Hash} (hok : c.zblockDB = none ∨ (c.peek h).isSome) :
    ∃ c' p, c.lookupBlock h = .ok (c', p) := by
  rw [lookupBlock]
  obtain ⟨p, -, hl⟩ | ⟨hht, hret, hl⟩ | ⟨-, db, v, -, -, hl⟩ := lookup_cases c h <;> rw [hl]
  · exact ⟨_, _, rfl⟩
  · have hdb : c.zblockDB = none := by
      refine hok.resolve_right ?_
      simp [peek, hht, hret]
    obtain ⟨c', b, hins⟩ := insert_total (c := c) (r := .placeholder h) (.inr hdb)
    refine ⟨c', c.nextAddr, ?_⟩
    change ((c.alloc _).1.insert c.nextAddr >>= _) = _
    rw [hins, ok_bind]
    rfl
  · exact ⟨_, _, rfl⟩

end ZBlockCache

/-! ### The cache as a system -/

/-- What the callers of the cache do. -/
inductive CacheOp where
  | lookup (h : Hash)
  | lookupBlock (h : Hash)
  | loadBlock (d : BlockData)
  | receiveData (p start stop : ℕ) (payload : Bytes) (offset : ℕ)
  | completeWithZeros (p : ℕ)

/-- The cache, and the pointers that callers hold. -/
structure CacheState where
  cache : ZBlockCache
  handed : List ℕ

/-- One call. -/
def cacheStep (zhash : Bytes → Hash) (s : CacheState) : CacheOp → Checked CacheState
  | .lookup h =>
    let (c, p) := s.cache.lookup h
    pure ⟨c, p.toList ++ s.handed⟩
  | .lookupBlock h => do
    let (c, p) ← s.cache.lookupBlock h
    pure ⟨c, p :: s.handed⟩
  | .loadBlock d => do
    let (c, _) ← s.cache.loadBlock zhash d
    pure ⟨c, s.handed⟩
  | .receiveData p start stop payload offset => do
    let (c, _) ← s.cache.receiveData zhash p start stop payload offset
    pure ⟨c, s.handed⟩
  | .completeWithZeros p => do
    let c ← s.cache.completeWithZeros zhash p
    pure ⟨c, s.handed⟩

/-- What the callers see to: they use records that were handed to them, and receive a piece of one block. -/
def Disciplined (s : CacheState) : CacheOp → Prop
  | .receiveData p start stop _ _ => p ∈ s.handed ∧ start ≤ stop ∧ stop ≤ zftpBlockSize
  | .completeWithZeros p => p ∈ s.handed
  | _ => True

/-- The condition under which the cache keeps its promises: no placeholder is made over a block DB,
    and no whole block is loaded where the cache has a record that is not that block. -/
def Careful (zhash : Bytes → Hash) (s : CacheState) : CacheOp → Prop
  | .lookupBlock h => s.cache.zblockDB = none ∨ (s.cache.peek h).isSome
  | .loadBlock d => ∀ r, s.cache.peek (zhash d.padded) = some r → r.valid = true ∧ r.data = d.padded
  | _ => True

/-- The record itself refuses what it is given: the data does not belong at its gap, or the block it
    completes does not hash to its key. -/
def RecordRefuses (zhash : Bytes → Hash) (s : CacheState) : CacheOp → Prop
  | .receiveData p start stop payload offset => ∃ r e, s.cache.heap p = some r ∧
      r.receiveData zhash start stop payload offset = .error e
  | .completeWithZeros p => ∃ r e, s.cache.heap p = some r ∧ r.completeWithZeros zhash = .error e
  | _ => False

def ZBlockCache.HasBlock (zhash : Bytes → Hash) (c : ZBlockCache) (d : BlockData) : Prop :=
  ∃ p r, c.heap p = some r ∧ r.hash = zhash d.padded ∧ r.valid = true ∧ r.data = d.padded

/-- The invariant of the system. -/
structure CacheState.Sound (zhash : Bytes → Hash) (s : CacheState) : Prop where
  cache : s.cache.Sound zhash
  handed : ∀ p ∈ s.handed, ∃ r, s.cache.heap p = some r

namespace ZBlockCache

variable {zhash : Bytes → Hash} {c c' : ZBlockCache} {d : BlockData}

lemma HasBlock.keeps (h : c.HasBlock zhash d) (hk : c.Keeps c') : c'.HasBlock zhash d := by
  obtain ⟨p, r, hr, hh, hv, hd⟩ := h
  obtain ⟨r', hr', -, hsame⟩ := hk.record p r hr
  obtain rfl := hsame hv
  exact ⟨p, _, hr', hh, hv, hd⟩

lemma HasBlock.lookup (hc : c.Sound zhash) (h : c.HasBlock zhash d) :
    ∃ p r, c.lookup (zhash d.padded) = (c, some p) ∧ c.heap p = some r ∧ r.valid = true ∧ r.data = d.padded := by
  obtain ⟨p, r, hr, hh, hv, hd⟩ := h
  have hlive := hc.live p r hr
  rw [hh] at hlive
  exact ⟨p, r, by simp only [ZBlockCache.lookup, hlive], hr, hv, hd⟩

/-- LOAD, where the cache has no other record of the hash: it then has the block. -/
lemma loadBlock_hasBlock (hc : c.Sound zhash)
    (hcareful : ∀ r, c.peek (zhash d.padded) = some r → r.valid = true ∧ r.data = d.padded)
    {h : Hash} (heq : c.loadBlock zhash d = .ok (c', h)) : c'.HasBlock zhash d := by
  rw [loadBlock, ZBlockCacheRecord.ofData_eq, ok_bind] at heq
  obtain ⟨⟨c1, b⟩, hins, heq⟩ := of_bind heq
  cases heq
  obtain ⟨⟨p, hp⟩, -, rfl⟩ | ⟨hht, -, db, v, hdb, hv, rfl⟩ |
    ⟨-, -, -, ⟨-, rfl⟩ | ⟨db, -, -, rfl⟩⟩ := insert_cases hc hins
  · -- the table had a record, which is the block
    obtain ⟨r, hr, hh⟩ := hc.owned _ p hp
    have hpeek : c.peek (zhash d.padded) = some r := by
      change c.ht (zhash d.padded) = some p at hp
      simp only [peek, hp, hr]
    exact ⟨p, r, hr, hh, hcareful r hpeek⟩
  · -- the DB had it
    change c.ht (zhash d.padded) = none at hht
    change db (zhash d.padded) = some v at hv
    have hpeek : c.peek (zhash d.padded) = some (.ofDatum (zhash d.padded) v) := by
      simp only [peek, hht, retrieveBlock, hdb, hv, Option.map_some]
    exact ⟨c.skip.nextAddr, _, Function.update_self _ _ _, rfl, rfl, (hcareful _ hpeek).2⟩
  · exact ⟨c.nextAddr, _, Function.update_self _ _ _, rfl, rfl, rfl⟩
  · exact ⟨c.nextAddr, _, Function.update_self _ _ _, rfl, rfl, rfl⟩

end ZBlockCache

section Runs

variable {zhash : Bytes → Hash} {s : CacheState} {op : CacheOp}

lemma CacheState.Sound.keeps (hs : s.Sound zhash) {c : ZBlockCache} (hc : c.Sound zhash) (hk : s.cache.Keeps c)
    : (⟨c, s.handed⟩ : CacheState).Sound zhash := by
  refine ⟨hc, ?_⟩
  intro p hp
  obtain ⟨r, hr⟩ := hs.handed p hp
  obtain ⟨r', hr', -⟩ := hk.record p r hr
  exact ⟨r', hr'⟩

/-- STEP: a call of a disciplined caller keeps the invariant, and every record. -/
lemma cacheStep_sound {s' : CacheState} (hs : s.Sound zhash) (hd : Disciplined s op) (h : cacheStep zhash s op = .ok s')
    : s'.Sound zhash ∧ s.cache.Keeps s'.cache := by
  cases op with
  | lookup k =>
    obtain ⟨hc, hk⟩ := hs.cache.lookup k
    cases h
    refine ⟨⟨hc, ?_⟩, hk⟩
    intro p hp
    rcases mem_append.mp hp with hp | hp
    · have hsome : (s.cache.lookup k).2 = some p := Option.mem_toList.mp hp
      obtain ⟨r, hr, -⟩ := hc.owned k p (lookup_some hsome)
      exact ⟨r, hr⟩
    · exact (hs.keeps hc hk).handed p hp
  | lookupBlock k =>
    obtain ⟨⟨c, p⟩, hl, h⟩ := of_bind h
    cases h
    obtain ⟨hc, hk, hht, -⟩ := hs.cache.lookupBlock hl
    refine ⟨⟨hc, ?_⟩, hk⟩
    intro q hq
    rcases mem_cons.mp hq with rfl | hq
    · obtain ⟨r, hr, -⟩ := hc.owned k _ hht
      exact ⟨r, hr⟩
    · exact (hs.keeps hc hk).handed q hq
  | loadBlock d =>
    obtain ⟨⟨c, k⟩, hl, h⟩ := of_bind h
    cases h
    obtain ⟨hc, hk⟩ := hs.cache.loadBlock hl
    exact ⟨hs.keeps hc hk, hk⟩
  | receiveData p start stop payload offset =>
    obtain ⟨⟨c, new⟩, hr, h⟩ := of_bind h
    cases h
    obtain ⟨-, hle, hstop⟩ := hd
    obtain ⟨hc, hk, -⟩ := hs.cache.receiveData hle hstop hr
    exact ⟨hs.keeps hc hk, hk⟩
  | completeWithZeros p =>
    obtain ⟨c, hr, h⟩ := of_bind h
    cases h
    obtain ⟨hc, hk, -⟩ := hs.cache.completeWithZeros hr
    exact ⟨hs.keeps hc hk, hk⟩

/-- PROGRESS: a careful call of a disciplined caller stops only where the record refuses. -/
lemma cacheStep_total (hs : s.Sound zhash) (hd : Disciplined s op) (hcareful : Careful zhash s op) :
    (∃ s', cacheStep zhash s op = .ok s') ∨ RecordRefuses zhash s op := by
  cases op with
  | lookup k => exact .inl ⟨_, rfl⟩
  | lookupBlock k =>
    obtain ⟨c, p, h⟩ := lookupBlock_total hcareful
    exact .inl ⟨⟨c, p :: s.handed⟩, by simp only [cacheStep, h, ok_bind]; rfl⟩
  | loadBlock d =>
    obtain ⟨c, h⟩ := loadBlock_total zhash s.cache d
    exact .inl ⟨⟨c, s.handed⟩, by simp only [cacheStep, h, ok_bind]; rfl⟩
  | receiveData p start stop payload offset =>
    obtain ⟨hp, hle, hstop⟩ := hd
    obtain ⟨r, hr⟩ := hs.handed p hp
    cases hrec : r.receiveData zhash start stop payload offset with
    | error e => exact .inr ⟨r, e, hr, hrec⟩
    | ok out =>
      obtain ⟨r', new⟩ := out
      have hcase := ZBlockCacheRecord.receiveData_sound (hs.cache.record p r hr) hle hstop hrec
      obtain ⟨c, hup, -⟩ := hs.cache.update_either hr hcase
      refine .inl ⟨⟨c, s.handed⟩, ?_⟩
      simp only [cacheStep, receiveData, deref, hr, hrec, hup, ok_bind, pure_eq_ok]
  | completeWithZeros p =>
    obtain ⟨r, hr⟩ := hs.handed p hd
    cases hrec : r.completeWithZeros zhash with
    | error e => exact .inr ⟨r, e, hr, hrec⟩
    | ok out =>
      obtain ⟨r', new⟩ := out
      have hcase := ZBlockCacheRecord.completeWithZeros_sound (hs.cache.record p r hr) hrec
      obtain ⟨c, hup, -⟩ := hs.cache.update_either hr hcase
      refine .inl ⟨⟨c, s.handed⟩, ?_⟩
      simp only [cacheStep, completeWithZeros, deref, hr, hrec, hup, ok_bind, pure_eq_ok]

/-- RUN: the invariant, the records and the blocks loaded are kept to the end. -/
lemma cacheRun_sound : ∀ (ops : List CacheOp) (s s' : CacheState), s.Sound zhash →
    Along (cacheStep zhash) (fun s op => Disciplined s op ∧ Careful zhash s op) s ops →
    run (cacheStep zhash) s ops = .ok s' →
    s'.Sound zhash ∧ s.cache.Keeps s'.cache ∧
      ∀ d, .loadBlock d ∈ ops → s'.cache.HasBlock zhash d
  | [], s, s', hs, _, h => by
      cases h
      exact ⟨hs, .refl _, fun d hd => nomatch hd⟩
  | op :: ops, s, s', hs, ⟨⟨hd, hcareful⟩, hrest⟩, h => by
      obtain ⟨s1, h1, h⟩ := of_bind h
      obtain ⟨hs1, hk1⟩ := cacheStep_sound hs hd h1
      obtain ⟨hs', hk', hload⟩ := cacheRun_sound ops s1 s' hs1 (hrest s1 h1) h
      refine ⟨hs', hk1.trans hk', ?_⟩
      intro d hmem
      rcases mem_cons.mp hmem with rfl | hmem
      · obtain ⟨⟨c, k⟩, hl, h1⟩ := of_bind h1
        cases h1
        exact (loadBlock_hasBlock hs.cache hcareful hl).keeps hk'
      · exact hload d hmem

/-- A block DB that holds whole blocks under their own hashes. -/
def ConsistentDB (zhash : Bytes → Hash) (db : Option (Hash → Option Bytes)) : Prop :=
  ∀ f, db = some f → ∀ k v, f k = some v → v.length = zftpBlockSize ∧ zhash v = k

/-- CONTENT ADDRESSING: in every run of careful calls, valid records hash to their keys; a loaded block and every record
    that was ever valid are what lookups answer; a hash has one live record; the records handed out are owned by the
    cache; and the next careful call stops only where the record refuses the data. -/
theorem blockCache_contentAddressed {db : Option (Hash → Option Bytes)} (hdb : ConsistentDB zhash db)
    {ops : List CacheOp}
    (halong : Along (cacheStep zhash) (fun s op => Disciplined s op ∧ Careful zhash s op)
      ⟨.fresh db, []⟩ ops) {s : CacheState} (hrun : run (cacheStep zhash) ⟨.fresh db, []⟩ ops = .ok s) :
    (∀ p r, s.cache.heap p = some r → r.valid = true → zhash r.data = r.hash) ∧
    (∀ d, .loadBlock d ∈ ops → ∃ p r, s.cache.lookup (zhash d.padded) = (s.cache, some p) ∧
      s.cache.heap p = some r ∧ r.valid = true ∧ r.data = d.padded) ∧
    (∀ ops₁ ops₂ s₁, ops = ops₁ ++ ops₂ → run (cacheStep zhash) ⟨.fresh db, []⟩ ops₁ = .ok s₁ →
      ∀ p r, s₁.cache.heap p = some r → r.valid = true →
        s.cache.lookup r.hash = (s.cache, some p) ∧ s.cache.heap p = some r) ∧
    (∀ p q r r', s.cache.heap p = some r → s.cache.heap q = some r' → r.hash = r'.hash → p = q) ∧
    (∀ p ∈ s.handed, ∃ r, s.cache.heap p = some r ∧ s.cache.ht r.hash = some p) ∧
    ∀ op, Disciplined s op → Careful zhash s op → (∃ s', cacheStep zhash s op = .ok s') ∨ RecordRefuses zhash s op := by
  have hfresh : (⟨.fresh db, []⟩ : CacheState).Sound zhash := ⟨ZBlockCache.sound_fresh hdb, nofun⟩
  obtain ⟨hs, -, hload⟩ := cacheRun_sound ops _ s hfresh halong hrun
  refine ⟨?_, ?_, ?_, ?_, ?_, fun op hd hcareful => cacheStep_total hs hd hcareful⟩
  · intro p r hr hv
    exact (hs.cache.record p r hr).hash hv
  · intro d hd
    exact (hload d hd).lookup hs.cache
  · rintro ops₁ ops₂ s₁ rfl hrun₁ p r hr hv
    have halong₂ := halong.append hrun₁
    rw [run_append, hrun₁, ok_bind] at hrun
    have hs₁ : s₁.Sound zhash := by
      refine run_invariant (C := fun s op => Disciplined s op)
        (fun s op s' hs hd h => (cacheStep_sound hs hd h).1) ops₁ _ s₁ hfresh ?_ hrun₁
      exact (halong.of_append).mono (fun s op h => h.1)
    obtain ⟨-, hk, -⟩ := cacheRun_sound ops₂ s₁ s hs₁ halong₂ hrun
    obtain ⟨r', hr', -, hsame⟩ := hk.record p r hr
    obtain rfl := hsame hv
    have hlive := hs.cache.live p _ hr'
    exact ⟨by simp only [ZBlockCache.lookup, hlive], hr'⟩
  · intro p q r r' hp hq hh
    have hlive := hs.cache.live p r hp
    rw [hh, hs.cache.live q r' hq] at hlive
    exact (Option.some.inj hlive).symm
  · intro p hp
    obtain ⟨r, hr⟩ := hs.handed p hp
    exact ⟨r, hr, hs.cache.live p r hr⟩

end Runs

/-- A block loaded into an empty cache is what a lookup answers. -/
theorem blockCache_contentAddressed_load : ∃ s p r,
    run (cacheStep fun _ => Hash.zero) ⟨.fresh none, []⟩ [.loadBlock ⟨[], by simp⟩] = .ok s ∧
    s.cache.lookup Hash.zero = (s.cache, some p) ∧ s.cache.heap p = some r ∧ r.valid = true := by
  obtain ⟨c, hload⟩ := ZBlockCache.loadBlock_total (fun _ => Hash.zero) (.fresh none) ⟨[], by simp⟩
  have hrun : run (cacheStep fun _ => Hash.zero) ⟨.fresh none, []⟩ [.loadBlock ⟨[], by simp⟩] = .ok ⟨c, []⟩ := by
    simp only [run, cacheStep, hload, ok_bind, pure_eq_ok]
  have halong : Along (cacheStep fun _ => Hash.zero) (fun s op => Disciplined s op ∧ Careful (fun _ => Hash.zero) s op)
      ⟨.fresh none, []⟩ [.loadBlock ⟨[], by simp⟩] :=
    ⟨⟨trivial, fun r hr => by cases hr⟩, fun _ _ => trivial⟩
  have hdb : ConsistentDB (fun _ => Hash.zero) none := fun _ h => by cases h
  have hall := blockCache_contentAddressed hdb halong hrun
  obtain ⟨p, r, hl, hr, hv, -⟩ := hall.2.1 _ mem_cons_self
  exact ⟨_, p, r, hrun, hl, hr, hv⟩

/-- PLACEHOLDER: with an empty block DB behind the cache, the first `_lookup_block` fails the assertion
    in `peek_data`. -/
theorem not_blockCache_total : ¬∀ (zhash : Bytes → Hash) (db : Option (Hash → Option Bytes)) (ops : List CacheOp)
      (s : CacheState) (op : CacheOp), ConsistentDB zhash db → Along (cacheStep zhash) Disciplined ⟨.fresh db, []⟩ ops →
      run (cacheStep zhash) ⟨.fresh db, []⟩ ops = .ok s → Disciplined s op →
      (∃ s', cacheStep zhash s op = .ok s') ∨ RecordRefuses zhash s op := by
  intro hclaim
  have h := hclaim (fun _ => Hash.zero) (some fun _ => none) [] _ (.lookupBlock Hash.zero)
    (by rintro f ⟨⟩ k v hv; cases hv) trivial rfl trivial
  rcases h with ⟨s', h⟩ | h
  · have hfault : cacheStep (fun _ => Hash.zero) ⟨.fresh (some fun _ => none), []⟩
        (.lookupBlock Hash.zero) = .error .liteAssert := rfl
    rw [hfault] at h
    cases h
  · exact h

end Embassies.Zftp
