import Embassies.Zftp.HostileOrigin

/-! Waiter conservation.

    `Ledger` is a cached file with the history of its callers: the requests handed to `consider_request` and those
    `withdraw_request` took off the list. At every moment each of them is delivered, withdrawn or waiting, as often as
    it was handed over, and no waiter is one the file can answer. Two things in the source can break this, and
    `Conserving` names them: an origin probe that matches, after which the request is dropped, and a reply that
    completes the last block of the file while telling nothing new, after which the waiters are not signalled. -/

namespace Embassies.Zftp

open Checked List Client

variable {s s' : Client} {reply : ZFileReplyFromServer} {req : ZFileRequest}

/-! ### The ledger -/

/-- A cached file, the requests handed to it and the requests withdrawn while they waited. -/
structure Ledger where
  client : Client
  handed : List ZFileRequest
  withdrawn : List ZFileRequest

def ledgerStep (zhash : Bytes → Hash) (cfg : ZCacheConfig) (l : Ledger) :
    FileEvent → Checked Ledger
  | .receive zcb => do
    let s ← receiveDatagram zhash cfg l.client zcb
    pure { l with client := s }
  | .consider req => do
    let s ← considerRequest zhash cfg l.client req
    pure { l with client := s, handed := l.handed ++ [req] }
  | .withdraw req =>
    pure { l with
      client := withdrawRequest l.client req
      withdrawn := if req ∈ l.client.file.waiters then l.withdrawn ++ [req] else l.withdrawn }

def Client.deliveries (s : Client) (req : ZFileRequest) : ℕ := (s.delivered.map Prod.fst).count req

/-- How often the request was delivered or is waiting. -/
def Client.holding (s : Client) (req : ZFileRequest) : ℕ :=
  s.deliveries req + s.file.waiters.count req

/-- The file can answer the request: it has its tree, and nothing the request asks for is missing. -/
def Answerable (cfg : ZCacheConfig) (s : Client) (req : ZFileRequest) : Prop :=
  ∃ t, s.file.tree = some t ∧
    (missingSet cfg t s.file.requestingDataMode s.blocks.view req.dataRange).isEmpty = true

/-- No waiter is one the file can answer. -/
def AllWaiting (cfg : ZCacheConfig) (s : Client) : Prop :=
  ∀ w ∈ s.file.waiters, ¬Answerable cfg s w

/-- Without a file client the request would be settled by probing an origin, and the probe matches. -/
def ProbeMatches (cfg : ZCacheConfig) (req : ZFileRequest) : Prop :=
  cfg.zfileClient = none ∧ cfg.hasOrigins = true ∧
    ∃ url, req.urlHint = some url ∧ (cfg.probeOriginsForHash url).hashMatch = true

/-- The reply repeats the end of the file while the record of its last block goes on beyond what is
    repeated and is not full: `install_data` then fills the block out and reports nothing new. -/
def QuietlyCompletes (s : Client) (reply : ZFileReplyFromServer) : Prop :=
  ∃ t, s.file.tree = some t ∧
    let blk := t.numBlocks - 1
    let r := s.blocks.view (t.leaf blk).hash
    LastPiece t reply (pieceStart reply blk) ∧
      pieceStart reply blk - blk * zftpBlockSize < r.nextGap ∧ r.nextGap < zftpBlockSize

/-- The condition on a step under which no request is lost or forgotten. -/
def Conserving (cfg : ZCacheConfig) (l : Ledger) : FileEvent → Prop
  | .receive zcb => ∀ reply, ZFileReplyFromServer.parse zcb = .ok (some reply) →
      ¬QuietlyCompletes l.client reply
  | .consider req => ¬ProbeMatches cfg req
  | .withdraw _ => True

variable {zhash : Bytes → Hash} {cfg : ZCacheConfig}

/-! ### Considering a request accounts for it -/

@[simp] lemma Client.holding_deliver (s : Client) (req r : ZFileRequest) (result : InternalFileResult) :
    (s.deliver req result).holding r = s.holding r + [req].count r := by
  simp [deliver, holding, deliveries]
  omega

lemma Client.holding_congr (hd : s'.delivered = s.delivered) (hw : s'.file.waiters = s.file.waiters) (r : ZFileRequest)
    : s'.holding r = s.holding r := by
  simp only [holding, deliveries, hd, hw]

lemma Orderly.no_waiters {f : ZCachedFile} (h : Orderly cfg f) (hclient : cfg.zfileClient = none) : f.waiters = [] := by
  by_contra hne
  have := (h.waiting hne).1
  rw [hclient] at this
  cases this

lemma probe_holding {o : ProbeOutcome} (hs : Orderly cfg s.file) (hw : s.file.waiters = [])
    (h : probe zhash (installImage zhash cfg .dirty) s o = .ok s') (r : ZFileRequest) : s'.holding r = s.holding r := by
  obtain ⟨c, -, h⟩ := of_bind h
  split at h
  case h_1 => cases h; rfl
  case h_2 image _ =>
    obtain ⟨-, -, hw', hd⟩ := installImage_orderly (s := { s with blocks := c }) (by decide) hs hw h
    exact holding_congr hd (hw'.trans hw.symm) r

lemma issueServerRequest_holding {missing : DataRange} (hw : cfg.zfileClient = none → Orderly cfg s.file)
    (hprobe : ¬ProbeMatches cfg req)
    (h : issueServerRequest zhash cfg (installImage zhash cfg .dirty) s missing req = .ok s') (r : ZFileRequest) :
    s'.holding r = s.holding r + [req].count r := by
  rw [issueServerRequest] at h
  split at h
  case isTrue => cases h; exact holding_deliver _ _ _ _
  split at h
  case h_1 =>
    obtain ⟨⟨obr, mode⟩, -, h⟩ := of_bind h
    cases h
    simp only [holding, deliveries, count_append, Nat.add_assoc]
  case h_2 url hclient hurl horigins =>
    obtain ⟨s1, hp, h⟩ := of_bind h
    have hs := hw hclient
    have hs1 := probe_holding hs (hs.no_waiters hclient) hp r
    split at h
    case isTrue hmatch => exact absurd ⟨hclient, horigins, url, hurl, hmatch⟩ hprobe
    case isFalse =>
      cases h
      rw [errorReply, holding_deliver, hs1]
  case h_3 => cases h; exact holding_deliver _ _ _ _

lemma considerWith_holding (hw : cfg.zfileClient = none → Orderly cfg s.file) (hprobe : ¬ProbeMatches cfg req)
    (h : considerWith zhash cfg (installImage zhash cfg .dirty) s req = .ok s') (r : ZFileRequest) :
    s'.holding r = s.holding r + [req].count r := by
  rw [considerWith] at h
  split at h
  case h_1 => exact issueServerRequest_holding hw hprobe h r
  case h_2 =>
    obtain ⟨⟨c, missing⟩, -, h⟩ := of_bind h
    dsimp only at h
    split at h
    · cases h; exact holding_deliver _ _ _ _
    · exact issueServerRequest_holding (s := { s with blocks := c }) hw hprobe h r

/-- ACCOUNT: a request handed over is delivered or waits, once more than before. -/
lemma considerRequest_holding (hs : Orderly cfg s.file) (hprobe : ¬ProbeMatches cfg req)
    (h : considerRequest zhash cfg s req = .ok s') (r : ZFileRequest) : s'.holding r = s.holding r + [req].count r := by
  obtain ⟨s1, hdisk, hwith⟩ := of_bind h
  rcases (checkDisk_cases hs hdisk).2 with rfl | ⟨hord, hw, hw', hd⟩
  · exact considerWith_holding (fun _ => hs) hprobe hwith r
  · rw [considerWith_holding (fun _ => hord) hprobe hwith r, holding_congr hd (hw'.trans hw.symm)]

/-- RUN: reconsidering a list of waiters accounts for each of them. -/
lemma reconsider_holding (rest : List ZFileRequest) : ∀ {s s' : Client}, Signalled cfg s.file →
    run (considerRequest zhash cfg) s rest = .ok s' → ∀ r, s'.holding r = s.holding r + rest.count r := by
  induction rest with
  | nil =>
    intro s s' _ h r
    cases h
    simp
  | cons req rest ih =>
    intro s s' hs h r
    obtain ⟨s1, hreq, h⟩ := of_bind h
    rw [ih (considerRequest_signalled hs hreq) h r]
    obtain ⟨s0, hdisk, hreq⟩ := of_bind hreq
    rw [checkDisk_eq hs.disk] at hdisk
    cases hdisk
    -- a waiter has a file client, so no origin is probed
    have hclient : cfg.zfileClient ≠ none := Option.isSome_iff_ne_none.mp hs.client
    rw [considerWith_holding (fun hnone => absurd hnone hclient) (fun hp => hclient hp.1) hreq r,
      Nat.add_assoc, ← count_append, singleton_append]

/-! ### Nobody waits for what is there -/

lemma Answerable.congr (htree : s'.file.tree = s.file.tree) (hview : ∀ k, s'.blocks.view k = s.blocks.view k)
    (h : Answerable cfg s' req) : Answerable cfg s req := by
  obtain ⟨t, ht, hempty⟩ := h
  refine ⟨t, htree ▸ ht, ?_⟩
  rw [← funext hview, missingSet_isEmpty_mode s.file.requestingDataMode s'.file.requestingDataMode]
  exact hempty

lemma AllWaiting.congr (hs : AllWaiting cfg s) (htree : s'.file.tree = s.file.tree)
    (hview : ∀ k, s'.blocks.view k = s.blocks.view k)
    (hw : ∀ w ∈ s'.file.waiters, w ∈ s.file.waiters ∨ ¬Answerable cfg s w) : AllWaiting cfg s' := by
  intro w hmem hans
  rcases hw w hmem with hold | hno
  · exact hs w hold (hans.congr htree hview)
  · exact hno (hans.congr htree hview)

/-- A request is put on the list only where it cannot be answered. -/
lemma considerWith_allWaiting {mtu : ℕ} (hclient : cfg.zfileClient = some mtu)
    {install : Client → FileImage → Checked Client} (hblocks : s.blocks.Sound zhash) (hs : AllWaiting cfg s)
    (h : considerWith zhash cfg install s req = .ok s') : AllWaiting cfg s' := by
  have hissue : ∀ (u : Client) (missing : DataRange), u.file = s.file →
      (∀ k, u.blocks.view k = s.blocks.view k) → ¬Answerable cfg s req →
      issueServerRequest zhash cfg install u missing req = .ok s' → AllWaiting cfg s' := by
    intro u missing hfile hview hno h
    have htree : u.file.tree = s.file.tree := congrArg ZCachedFile.tree hfile
    rw [issueServerRequest, hclient] at h
    split at h
    case isTrue =>
      cases h
      refine hs.congr htree hview ?_
      intro w hmem
      exact .inl (hfile ▸ hmem)
    case isFalse =>
      obtain ⟨⟨obr, mode⟩, -, h⟩ := of_bind h
      cases h
      refine hs.congr htree hview ?_
      intro w hmem
      rcases mem_append.mp hmem with hold | hnew
      · exact .inl (hfile ▸ hold)
      · exact .inr (mem_singleton.mp hnew ▸ hno)
  rw [considerWith] at h
  split at h
  case h_1 hnone =>
    refine hissue s _ rfl (fun _ => rfl) ?_ h
    rintro ⟨t, ht, -⟩
    rw [hnone] at ht
    cases ht
  case h_2 t ht =>
    obtain ⟨⟨c, missing⟩, hm, h⟩ := of_bind h
    obtain ⟨rfl, hview⟩ := computeMissingSet_eq hblocks hm
    dsimp only at h
    split at h
    case isTrue =>
      cases h
      exact hs.congr rfl hview (fun w hmem => .inl hmem)
    case isFalse hne =>
      refine hissue { s with blocks := c } _ rfl hview ?_ h
      rintro ⟨t', ht', hempty⟩
      cases ht.symm.trans ht'
      exact hne hempty

lemma considerRequest_allWaiting (hh : s.Holds zhash Settled) (hord : Orderly cfg s.file) (hs : AllWaiting cfg s)
    (h : considerRequest zhash cfg s req = .ok s') : AllWaiting cfg s' := by
  cases hclient : cfg.zfileClient with
  | none =>
    intro w hmem
    rw [(considerRequest_orderly hord h).no_waiters hclient] at hmem
    cases hmem
  | some mtu =>
    obtain ⟨s1, hdisk, hwith⟩ := of_bind h
    have hblocks1 : s1.blocks.Sound zhash := by
      rw [checkDisk] at hdisk
      split at hdisk
      case h_1 image _ himg =>
        exact (installImage_holds (fun image _ => image_settled image) .clean s image s1 hh (.inl himg) hdisk).blocks
      case h_2 => cases hdisk; exact hh.blocks
    refine considerWith_allWaiting hclient hblocks1 ?_ hwith
    rcases (checkDisk_cases hord hdisk).2 with rfl | ⟨-, -, hw, -⟩
    · exact hs
    · intro w hmem
      rw [hw] at hmem
      cases hmem

/-- RUN: after `_signal_waiters` nobody waits for what is there. -/
lemma reconsider_allWaiting (rest : List ZFileRequest) : ∀ {s s' : Client},
    s.Holds zhash Settled → Signalled cfg s.file → AllWaiting cfg s →
    run (considerRequest zhash cfg) s rest = .ok s' → AllWaiting cfg s' := by
  induction rest with
  | nil =>
    intro s s' _ _ hs h
    cases h
    exact hs
  | cons req rest ih =>
    intro s s' hh hsig hs h
    obtain ⟨s1, hreq, hrest⟩ := of_bind h
    refine ih (considerRequest_holds (fun image _ => image_settled image) hh hreq)
      (considerRequest_signalled hsig hreq) ?_ hrest
    obtain ⟨s0, hdisk, hwith⟩ := of_bind hreq
    rw [checkDisk_eq hsig.disk] at hdisk
    cases hdisk
    obtain ⟨mtu, hmtu⟩ := Option.isSome_iff_exists.mp hsig.client
    exact considerWith_allWaiting hmtu hh.blocks hs hwith

/-! ### A reply that tells nothing new changes nothing -/

section Quiet

variable {t : MerkleTree} {reply : ZFileReplyFromServer} {c c' : ZBlockCache} {a : ℕ}

/-- The record of the last block is full wherever the reply repeats its end. -/
def FullAtEnd (t : MerkleTree) (reply : ZFileReplyFromServer) (view : Hash → ZBlockCacheRecord) :
    Prop :=
  LastPiece t reply (pieceStart reply (t.numBlocks - 1)) →
    pieceStart reply (t.numBlocks - 1) - (t.numBlocks - 1) * zftpBlockSize <
      (view (t.leaf (t.numBlocks - 1)).hash).nextGap →
    zftpBlockSize ≤ (view (t.leaf (t.numBlocks - 1)).hash).nextGap

lemma lookupBlock_some {blk p : ℕ} {required : ValidityState} (hblk : blk < t.numBlocks)
    (h : lookupBlock t c blk required = .ok (c', some p)) : c.lookupBlock (t.leaf blk).hash = .ok (c', p) := by
  rw [lookupBlock, findBlockHash_eq hblk, ok_bind] at h
  split at h
  case h_1 => cases h
  case h_2 k hk =>
    obtain ⟨-, rfl⟩ : _ ∧ (t.leaf blk).hash = k := by simpa using hk
    obtain ⟨⟨c1, q⟩, hl, h⟩ := of_bind h
    cases h
    exact hl

lemma ZBlockCacheRecord.receiveData_not_new {r r' : ZBlockCacheRecord} {start stop offset : ℕ} {payload : Bytes}
    (h : r.receiveData zhash start stop payload offset = .ok (r', false)) :
    r' = r ∧ start < r.nextGap := by
  rw [ZBlockCacheRecord.receiveData] at h
  split at h
  case isTrue hlt =>
    obtain ⟨_, -, h⟩ := of_bind h
    cases h
    exact ⟨rfl, hlt⟩
  case isFalse =>
    obtain ⟨_, -, _, -, _, -, h⟩ := of_bind3 h
    obtain ⟨_, -, h⟩ := of_bind h
    cases h

lemma installPiece_quiet (hc : c.Sound zhash) (ha : a < reply.dataRange.stop) (hfull : LastPiece t reply a →
      a - a / zftpBlockSize * zftpBlockSize < (c.view (t.leaf (a / zftpBlockSize)).hash).nextGap →
      zftpBlockSize ≤ (c.view (t.leaf (a / zftpBlockSize)).hash).nextGap)
    (h : installPiece zhash t reply a c = .ok (c', false)) : ∀ k, c'.view k = c.view k := by
  obtain ⟨hblk, c1, p, c2, hl, hrec, hcomp⟩ := installPiece_cases h
  obtain ⟨hle, hstop⟩ := piece_bounds ha hblk
  have hl := lookupBlock_some hblk hl
  obtain ⟨hs1, -, hht, -⟩ := hc.lookupBlock hl
  obtain ⟨hheap, hview1, -⟩ := hc.lookupBlock_view hl
  generalize (t.leaf (a / zftpBlockSize)).hash = k0 at *
  obtain ⟨r, hr, ⟨r', new⟩, hr', _, -, hup⟩ := of_bind3 hrec
  cases hup
  rw [ZBlockCache.deref, hheap] at hr
  cases hr
  obtain ⟨rfl, hlt⟩ := ZBlockCacheRecord.receiveData_not_new hr'
  rw [← hview1 k0] at hr'
  obtain ⟨c2', h2, hs2, hht2, hview2, -⟩ := hs1.receiveData_view hht hle hstop hr'
  cases hrec.symm.trans h2
  have hsame : ∀ k, c2.view k = c.view k := by
    intro k
    rw [hview2 k]
    split
    case isTrue heq => rw [heq, hview1]
    case isFalse => exact hview1 k
  rw [completeLast] at hcomp
  split at hcomp
  case isFalse => cases hcomp; exact hsame
  case isTrue hlast =>
    have hfull := hfull hlast hlt
    rw [← hsame k0] at hfull
    have hcomplete : (c2.view k0).completeWithZeros zhash = .ok (c2.view k0, false) := if_neg (not_lt.mpr hfull)
    obtain ⟨c3, h3, -, -, hview3, -⟩ := hs2.completeWithZeros_view (hht2 ▸ hht) hcomplete
    cases hcomp.symm.trans h3
    intro k
    rw [hview3 k, ← hsame k]
    split
    case isTrue heq => rw [heq]
    case isFalse => rfl

/-- LOOP: data that told nothing new left what the cache shows as it was. -/
lemma installDataLoop_quiet (fuel : ℕ) : ∀ {a : ℕ} {c c' : ZBlockCache}, c.Sound zhash →
    a = pieceStart reply (a / zftpBlockSize) → FullAtEnd t reply c.view →
    installDataLoop zhash t reply fuel a c = .ok (c', false) → ∀ k, c'.view k = c.view k := by
  induction fuel with
  | zero => intro a c c' _ _ _ h; cases h
  | succ fuel ih =>
    intro a c c' hc halign hfull h
    rw [installDataLoop] at h
    split at h
    case isFalse => cases h; exact fun _ => rfl
    case isTrue ha =>
      obtain ⟨⟨c1, new⟩, hpiece, ⟨c2, more⟩, hrest, h⟩ := of_bind2 h
      obtain ⟨rfl, hnew⟩ := Prod.mk.inj (Except.ok.inj h)
      obtain ⟨rfl, rfl⟩ := Bool.or_eq_false_iff.mp hnew
      have hview : ∀ k, c1.view k = c.view k := by
        refine installPiece_quiet hc ha ?_ hpiece
        intro hlast
        have hblk := hlast.1
        rw [hblk] at halign
        rw [halign] at hlast
        rw [hblk]
        nth_rewrite 1 [halign]
        exact hfull hlast
      intro k
      rw [← hview k]
      by_cases hnext : nextEndByte reply a < reply.dataRange.stop
      · refine ih (installPiece_sound hc ha hpiece).1 ?_ (by rw [funext hview]; exact hfull) hrest k
        -- the next piece starts where its block does
        obtain ⟨hblk, -⟩ := installPiece_cases hpiece
        have hend := nextEndByte_eq reply hblk
        have hdown := lt_blockEnd a
        rw [nextBlock, Nat.succ_mul] at hend
        have hstart : reply.dataRange.start ≤ a := by
          rw [halign]
          exact le_max_left _ _
        simp only [pieceStart, zftpBlockSize] at *
        omega
      · cases fuel with
        | zero => cases hrest
        | succ fuel =>
          rw [installDataLoop, if_neg hnext] at hrest
          cases hrest
          rfl

/-- QUIET: a reply that caused no change left the tree and what the cache shows. -/
lemma installReplyCore_quiet {s s' : Client} (hs : s.Holds zhash Settled) (hquiet : ¬QuietlyCompletes s reply)
    (h : installReplyCore zhash s reply = .ok (s', false)) :
    s'.file.tree = s.file.tree ∧ ∀ k, s'.blocks.view k = s.blocks.view k := by
  obtain ⟨-, rfl, -⟩ | ⟨t, ir, t1, n1, c, n2, u, r, hm, hrec, hdata, hval, hno, rfl⟩ := installReplyCore_cases h
  · exact ⟨rfl, fun _ => rfl⟩
  obtain ⟨hold, rfl⟩ := Bool.or_eq_false_iff.mp hno.symm
  obtain ⟨hir, rfl⟩ := Bool.or_eq_false_iff.mp hold
  obtain rfl := MerkleTree.installMerkleRecords_not_new hrec
  obtain ⟨ht, -⟩ | ⟨-, rfl, -⟩ := installMetadata_cases hm
  · obtain ⟨-, hparents⟩ := hs.file t1 ht
    rw [MerkleTree.validateTentativeHashes, hparents, MerkleTree.validateEach] at hval
    cases hval
    refine ⟨?_, ?_⟩
    · change some { t1 with parents := [] } = s.file.tree
      rw [ht, ← hparents]
    · refine installDataLoop_quiet _ hs.blocks ?_ ?_ hdata
      · simp only [pieceStart, zftpBlockSize]
        omega
      · intro hlast hlt
        by_contra hgap
        exact hquiet ⟨t1, ht, hlast, hlt, not_le.mp hgap⟩
  · cases hir

end Quiet

/-! ### The ledger balances -/

lemma installReplyCore_delivered {changed : Bool} (h : installReplyCore zhash s reply = .ok (s', changed)) :
    s'.delivered = s.delivered := by
  obtain ⟨-, rfl, -⟩ | ⟨_, _, _, _, _, _, _, _, -, -, -, -, -, rfl⟩ := installReplyCore_cases h <;> rfl

lemma installReplyCore_signalled (hs : Orderly cfg s.file) (h : installReplyCore zhash s reply = .ok (s', true))
    (hne : s.file.waiters ≠ []) : Signalled cfg s'.file := by
  obtain ⟨hstatus, htree, -⟩ := installReplyCore_tree h
  obtain ⟨hclient, hdisk⟩ := hs.waiting hne
  exact ⟨hclient, hstatus ▸ hdisk, htree rfl⟩

lemma signalWaiters_balanced (h : signalWaiters zhash cfg s = .ok s') (hh : s.Holds zhash Settled)
    (hsig : Signalled cfg s.file) : (∀ r, s'.holding r = s.holding r) ∧ AllWaiting cfg s' := by
  have hsig' : Signalled cfg { s.file with waiters := [] } := ⟨hsig.client, hsig.disk, hsig.tree⟩
  have hh' : ({ s with file := { s.file with waiters := [] } } : Client).Holds zhash Settled := ⟨hh.file, hh.blocks⟩
  refine ⟨?_, reconsider_allWaiting s.file.waiters hh' hsig' ?_ h⟩
  · intro r
    rw [reconsider_holding s.file.waiters (s := { s with file := { s.file with waiters := [] } }) hsig' h r]
    rfl
  · intro w hmem
    cases hmem

lemma installReply_balanced (hh : s.Holds zhash Settled) (hord : Orderly cfg s.file) (hs : AllWaiting cfg s)
    (hquiet : ¬QuietlyCompletes s reply) (h : installReply zhash cfg s reply = .ok s') :
    (∀ r, s'.holding r = s.holding r) ∧ AllWaiting cfg s' := by
  obtain ⟨⟨s1, changed⟩, hcore, h⟩ := of_bind h
  have hd := installReplyCore_delivered hcore
  have hw := installReplyCore_waiters hcore
  have hh1 := installReplyCore_settled hh hcore
  cases changed with
  | false =>
    cases h
    obtain ⟨htree, hview⟩ := installReplyCore_quiet hh hquiet hcore
    refine ⟨holding_congr hd hw, hs.congr htree hview ?_⟩
    intro w hmem
    exact .inl (hw ▸ hmem)
  | true =>
    obtain ⟨s2, hsig, h⟩ := of_bind h
    cases h
    by_cases hnil : s.file.waiters = []
    · have hnil1 := hw.trans hnil
      simp only [signalWaiters, hnil1, run, Except.ok.injEq] at hsig
      subst hsig
      exact ⟨holding_congr hd hnil.symm, by rintro _ ⟨⟩⟩
    · have hsig1 := installReplyCore_signalled hord hcore hnil
      obtain ⟨hhold, hall⟩ := signalWaiters_balanced hsig ⟨hh1.file, hh1.blocks⟩ ⟨hsig1.client, hsig1.disk, hsig1.tree⟩
      exact ⟨fun r => (hhold r).trans (holding_congr hd hw r), hall⟩

/-- The books are right: the file is idle and orderly, every request handed over is delivered,
    withdrawn or waiting, and nobody waits for what is there. -/
structure Ledger.Balanced (zhash : Bytes → Hash) (cfg : ZCacheConfig) (l : Ledger) : Prop where
  ready : Service.Ready zhash cfg ⟨l.client, none⟩
  account : ∀ r, l.client.holding r + l.withdrawn.count r = l.handed.count r
  waiting : AllWaiting cfg l.client

lemma receiveDatagram_ready {zcb : Datagram} (hs : Service.Ready zhash cfg ⟨s, none⟩)
    (h : receiveDatagram zhash cfg s zcb = .ok s') : Service.Ready zhash cfg ⟨s', none⟩ := by
  have hrun := @receiveDatagram_eq zhash cfg s zcb
  rw [h, ok_bind] at hrun
  exact run_preserves serviceStep_ready _ _ _ hs hrun

lemma withdrawRequest_holding (s : Client) (req r : ZFileRequest) :
    (withdrawRequest s req).holding r + (if req ∈ s.file.waiters then [req].count r else 0) = s.holding r := by
  simp only [withdrawRequest, holding, deliveries, count_erase]
  by_cases hmem : req ∈ s.file.waiters
  · have hpos := count_pos_iff.mpr hmem
    by_cases heq : req = r
    · subst heq
      simp [hmem]
      omega
    · simp [hmem, heq]
  · by_cases heq : req = r
    · subst heq
      simp [hmem, count_eq_zero_of_not_mem hmem]
    · simp [hmem, heq]

/-- STEP: a conserving step keeps the books right. -/
lemma ledgerStep_balanced (l : Ledger) (e : FileEvent) (l' : Ledger) (hl : l.Balanced zhash cfg)
    (hcons : Conserving cfg l e) (h : ledgerStep zhash cfg l e = .ok l') : l'.Balanced zhash cfg := by
  have hord : Orderly cfg l.client.file := hl.ready.idle rfl
  cases e with
  | receive zcb =>
    obtain ⟨s, hrec, h⟩ := of_bind h
    cases h
    have hready := receiveDatagram_ready hl.ready hrec
    obtain ⟨o, hparse, hrec⟩ := of_bind hrec
    cases o with
    | none =>
      cases hrec
      exact hl
    | some reply =>
      obtain ⟨hhold, hall⟩ := installReply_balanced hl.ready.holds hord hl.waiting (hcons reply hparse) hrec
      exact ⟨hready, fun r => by rw [hhold]; exact hl.account r, hall⟩
  | consider req =>
    obtain ⟨s, hreq, h⟩ := of_bind h
    cases h
    refine ⟨?_, ?_, considerRequest_allWaiting hl.ready.holds hord hl.waiting hreq⟩
    · exact serviceStep_ready ⟨l.client, none⟩ (.consider req) ⟨s, none⟩ hl.ready
        (by rw [serviceStep, hreq, ok_bind, pure_eq_ok])
    · intro r
      have hhold := considerRequest_holding hord hcons hreq r
      have haccount := hl.account r
      simp only [count_append]
      omega
  | withdraw req =>
    cases h
    refine ⟨serviceStep_ready ⟨l.client, none⟩ (.withdraw req) _ hl.ready rfl, ?_, ?_⟩
    · intro r
      have hhold := withdrawRequest_holding l.client req r
      have haccount := hl.account r
      dsimp only
      split
      case isTrue hmem =>
        rw [if_pos hmem] at hhold
        rw [count_append]
        omega
      case isFalse hmem =>
        rw [if_neg hmem] at hhold
        omega
    · exact hl.waiting.congr rfl (fun _ => rfl) fun w hmem => .inl (mem_of_mem_erase hmem)

lemma Ledger.balanced_fresh {fileHash : Hash} {blocks : ZBlockCache} (h : blocks.Sound zhash) :
    Ledger.Balanced zhash cfg ⟨fresh fileHash blocks, [], []⟩ := by
  refine ⟨⟨⟨?_, h⟩, fun _ => ⟨fun hne => absurd rfl hne, nofun⟩, nofun⟩, fun _ => rfl, nofun⟩
  intro t ht
  cases ht

/-- CONSERVATION: along every run of conserving steps, each request is delivered, withdrawn or waiting, together exactly
    as often as it was handed over (so a request handed over once is in exactly one of the three, once); nobody waits
    for what is there; and a waiter the file becomes able to answer is delivered in that step. -/
theorem waiters_conserved {fileHash : Hash} {blocks : ZBlockCache} (hblocks : blocks.Sound zhash)
    {events : List FileEvent} {l : Ledger}
    (hcons : Along (ledgerStep zhash cfg) (Conserving cfg) ⟨Client.fresh fileHash blocks, [], []⟩ events)
    (hrun : run (ledgerStep zhash cfg) ⟨Client.fresh fileHash blocks, [], []⟩ events = .ok l) :
    (∀ req, l.client.deliveries req + l.withdrawn.count req + l.client.file.waiters.count req = l.handed.count req) ∧
    (∀ w ∈ l.client.file.waiters, ¬Answerable cfg l.client w) ∧
    ∀ e l', Conserving cfg l e → ledgerStep zhash cfg l e = .ok l' →
      ∀ w ∈ l.client.file.waiters, Answerable cfg l'.client w → l.client.deliveries w < l'.client.deliveries w := by
  have hl := run_invariant ledgerStep_balanced events _ l (Ledger.balanced_fresh hblocks) hcons hrun
  refine ⟨?_, hl.waiting, ?_⟩
  · intro req
    have := hl.account req
    simp only [Client.holding] at this
    omega
  · intro e l' hcons' hstep w hmem hans
    have hl' := ledgerStep_balanced l e l' hl hcons' hstep
    have hgone : l'.client.file.waiters.count w = 0 := count_eq_zero_of_not_mem fun hmem' => hl'.waiting w hmem' hans
    have hbefore := hl.account w
    have hafter := hl'.account w
    have hpos := count_pos_iff.mpr hmem
    simp only [Client.holding] at hbefore hafter
    cases e with
    | receive zcb =>
      obtain ⟨s, -, h⟩ := of_bind hstep
      cases h
      dsimp only at *
      omega
    | consider req =>
      obtain ⟨s, -, h⟩ := of_bind hstep
      cases h
      simp only [count_append] at *
      omega
    | withdraw req =>
      -- withdrawing tells the file nothing
      cases hstep
      exact absurd (hans.congr rfl fun _ => rfl) (hl.waiting w hmem)

/-- A request for a file by its hash alone. -/
def wholeRequest (urlHint : Option Bytes) : ZFileRequest :=
  ⟨1, Hash.fill 6, urlHint, [], 0, .empty⟩

/-- A request handed to a new client waits; withdrawn, it is off the list. -/
theorem waiters_conserved_withdrawn : ∃ l, run (ledgerStep zeroHash clientConfig)
      ⟨Client.fresh (Hash.fill 6) (ZBlockCache.fresh none), [], []⟩
      [.consider (wholeRequest none), .withdraw (wholeRequest none)] = .ok l ∧
    l.client.deliveries (wholeRequest none) + l.withdrawn.count (wholeRequest none) +
      l.client.file.waiters.count (wholeRequest none) = l.handed.count (wholeRequest none) := by
  have hsound : (ZBlockCache.fresh none).Sound zeroHash := .fresh_none
  have hcons : Along (ledgerStep zeroHash clientConfig) (Conserving clientConfig)
      ⟨Client.fresh (Hash.fill 6) (ZBlockCache.fresh none), [], []⟩
      [.consider (wholeRequest none), .withdraw (wholeRequest none)] := by
    refine ⟨?_, fun _ _ => ⟨trivial, fun _ _ => trivial⟩⟩
    rintro ⟨hclient, -⟩
    cases hclient
  obtain ⟨l, hl⟩ : ∃ l, run (ledgerStep zeroHash clientConfig)
      ⟨Client.fresh (Hash.fill 6) (ZBlockCache.fresh none), [], []⟩
      [.consider (wholeRequest none), .withdraw (wholeRequest none)] = .ok l := ⟨_, rfl⟩
  exact ⟨l, hl, (waiters_conserved hsound hcons hl).1 _⟩

/-- LOST REQUEST: an origin whose file has the requested hash; the request is neither delivered nor waiting. -/
theorem not_waiters_conserved :
    ¬∀ (zhash : Bytes → Hash) (cfg : ZCacheConfig) (fileHash : Hash) (events : List FileEvent) (l : Ledger),
      run (ledgerStep zhash cfg) ⟨Client.fresh fileHash (ZBlockCache.fresh none), [], []⟩ events = .ok l →
      ∀ req, l.client.deliveries req + l.withdrawn.count req + l.client.file.waiters.count req =
        l.handed.count req := by
  intro hclaim
  have h := hclaim zeroHash ⟨none, true, none, fun _ => ⟨[], none, true⟩⟩ (Hash.fill 6)
    [.consider (wholeRequest (some []))] _ rfl (wholeRequest (some []))
  revert h
  decide

end Embassies.Zftp
